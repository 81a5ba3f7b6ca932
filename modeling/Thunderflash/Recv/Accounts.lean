/-
What the receiver counts: each flow the entries it completed and their bytes, the manifest phase
the files it answered for.
-/
import Thunderflash.Recv.Manifest

namespace Thunderflash.Recv

open Codec Posix Lts

variable {cfg : Cfg} {c : Choice} {sh sh' : Shared} {fl fl' : Flow} {fs0 : Fs} {s s' : State}

/-! ## A flow's stats -/

/-- The bytes of the entries of these frames. -/
def bytesOf (frs : List Frame) : Nat := (frs.map fun fr => Flow.entryBytes fr.entry).sum

/-- The stats are those of the entries completed. -/
structure Stated (stats : Stats) (done : List Frame) : Prop where
  files : stats.files = done.length
  bytes : stats.bytes = bytesOf done
  skipped : stats.skippedFiles = 0 ∧ stats.skippedBytes = 0

/-- A flow's stats are those of the entries it completed, and what it has read and not read is this
stream, which ends there or not. -/
structure Ledger (stream : Bytes) (ends : Bool) (stats : Stats) (done : List Frame) (got wire : Bytes) (eof : Bool) : Prop where
  stated : Stated stats done
  read : got ++ wire = stream
  eof : eof = ends

abbrev Flow.Ledger (stream : Bytes) (ends : Bool) (fl : Flow) : Prop :=
  Recv.Ledger stream ends fl.stats fl.log.done fl.log.got fl.wire fl.eof

namespace Flow

variable {j : Job} {stream : Bytes} {ends : Bool}

theorem consume_ledger {rest : Bytes} (h : fl.Ledger stream ends) (hr : rest <:+ fl.wire) : (fl.consume rest).Ledger stream ends := by
  refine ⟨h.stated, ?_, h.eof⟩
  obtain ⟨a, ha⟩ := hr
  show fl.log.got ++ fl.wire.take (fl.wire.length - rest.length) ++ rest = stream
  rw [← h.read, ← ha]
  simp

theorem complete_ledger (h : fl.Ledger stream ends) (j : Job) : (fl.complete j).Ledger stream ends := by
  refine ⟨⟨?_, ?_, h.stated.skipped⟩, h.read, h.eof⟩
  · show fl.stats.files + 1 = (fl.log.done ++ [_]).length
    rw [h.stated.files, List.length_append]
    rfl
  · show fl.stats.bytes + entryBytes j.entry = bytesOf (fl.log.done ++ [_])
    rw [h.stated.bytes]
    simp [bytesOf]

theorem made_ledger (h : fl.Ledger stream ends) (j : Job) : (fl.made cfg j).Ledger stream ends := by
  unfold made
  split
  · exact h
  · exact complete_ledger h j

theorem dispatch_ledger (h : fl.Ledger stream ends) (j : Job) : (fl.dispatch j).Ledger stream ends := by
  unfold dispatch
  split <;> exact h

theorem linkText_ledger (h : fl.Ledger stream ends) (j : Job) (target : Bytes) : (fl.linkText j target).Ledger stream ends := by
  unfold linkText
  split <;> exact h

theorem start_ledger (h : fl.Ledger stream ends) (e : Entry) : (fl.start cfg e).Ledger stream ends := by
  unfold start
  split
  · exact h
  · dsimp only
    split
    · split
      · apply dispatch_ledger
        exact h
      · exact h
    · exact h

theorem push_ledger (h : fl.Ledger stream ends) (m : Msg) : (fl.push cfg m).Ledger stream ends := by
  unfold push
  dsimp only
  split <;> exact h

theorem send_ledger {m : Msg} {next gone : Flow → Flow} (h : fl.Ledger stream ends) (hs : fl.send cfg m next gone = some fl')
    (hn : ∀ fl : Flow, fl.Ledger stream ends → (next fl).Ledger stream ends) (hg : (gone fl).Ledger stream ends) : fl'.Ledger stream ends := by
  rcases send_some hs with ⟨-, rfl⟩ | ⟨-, -, rfl⟩
  · exact hg
  · exact hn _ (push_ledger h m)

theorem netLocal_ledger (h : fl.Ledger stream ends) (hs : fl.netLocal cfg c sh = some (sh', fl')) : fl'.Ledger stream ends := by
  have hdrop : ∀ n, (fl.consume (fl.wire.drop n)).Ledger stream ends := fun n => consume_ledger h (List.drop_suffix ..)
  unfold netLocal at hs
  split at hs
  case h_1 => split at hs <;> cases hs <;> exact h
  case h_2 =>
    split at hs
    · cases hs; exact h
    · split at hs <;> cases hs; exact h
    · cases hs; exact h
    · rename_i rest _ hd
      cases hs
      exact consume_ledger h ⟨[0], (Entry.decode_none hd).symm⟩
    · rename_i e rest _ hd
      cases hs
      apply start_ledger
      exact consume_ledger h ⟨e.encode, (Entry.decode_some hd).1.symm⟩
  case h_3 =>
    split at hs <;> cases hs
    · exact h
    · apply dispatch_ledger
      exact h
    · exact h
  case h_4 =>
    obtain ⟨r, hr, hs⟩ := Option.map_eq_some_iff.1 hs
    cases r <;> cases hs
    · exact h
    · dsimp only
      split
      · exact hdrop _
      · apply linkText_ledger
        exact hdrop _
  case h_5 =>
    obtain ⟨r, hr, hs⟩ := Option.map_eq_some_iff.1 hs
    cases r <;> cases hs
    · exact h
    · dsimp only
      split
      · apply linkText_ledger
        exact hdrop _
      · exact hdrop _
  case h_6 => split at hs <;> cases hs; exact h
  case h_7 =>
    obtain ⟨fl1, h1, hs⟩ := Option.map_eq_some_iff.1 hs
    cases hs
    exact send_ledger h h1 (fun _ h => h) h
  case h_8 =>
    split at hs
    · cases hs; exact h
    · split at hs <;> cases hs; exact h
  case h_9 =>
    split at hs
    · cases hs; exact h
    · split at hs
      · cases hs; exact hdrop _
      · split at hs <;> cases hs; exact h
  case h_10 =>
    obtain ⟨fl1, h1, hs⟩ := Option.map_eq_some_iff.1 hs
    cases hs
    exact send_ledger h h1 (fun _ h => h) h
  case h_11 =>
    obtain ⟨fl1, h1, hs⟩ := Option.map_eq_some_iff.1 hs
    cases hs
    exact send_ledger h h1 (fun _ h => h) h
  case h_12 =>
    split at hs
    · cases hs; exact h
    · split at hs <;> cases hs; exact h
    · cases hs
  case h_13 =>
    obtain ⟨r, hr, hs⟩ := Option.map_eq_some_iff.1 hs
    cases r <;> cases hs
    · exact h
    · dsimp only
      split <;> exact hdrop _
  case h_14 =>
    obtain ⟨fl1, h1, hs⟩ := Option.map_eq_some_iff.1 hs
    cases hs
    exact send_ledger h h1 (fun fl h => complete_ledger h _) h
  case h_15 => cases hs

theorem netResume_ledger (h : fl.Ledger stream ends) (r : Except Errno Nat) : (fl.netResume cfg c r sh).2.Ledger stream ends := by
  unfold netResume
  split
  case h_1 => split <;> exact h
  case h_2 => split <;> exact h
  case h_3 =>
    split
    · apply dispatch_ledger
      exact h
    · exact h
    · exact h
  case h_4 => split <;> exact h
  case h_5 => exact made_ledger h _
  case h_6 => exact h
  case h_7 => split <;> exact h
  case h_8 => exact made_ledger h _
  case h_9 =>
    split
    · exact complete_ledger h _
    · exact h
  case h_10 => split <;> exact h
  case h_11 => split <;> exact h
  case h_12 => split <;> exact h
  case h_13 => exact h
  case h_14 => exact h

end Flow

theorem FlowStep.ledger {stream : Bytes} {ends : Bool} (hst : FlowStep cfg c sh fl sh' fl') (h : fl.Ledger stream ends) : fl'.Ledger stream ends := by
  cases hst with
  | net hs =>
    unfold Flow.netStep at hs
    split at hs
    · obtain rfl := congrArg Prod.snd (Option.some.inj hs)
      exact Flow.netResume_ledger h _
    · exact Flow.netLocal_ledger h hs
  | hash _ hs =>
    obtain ⟨_, _, _, _, _, _, rfl⟩ := hashStep_only hs
    exact h
  | writer hs =>
    obtain ⟨_, _, _, _, _, _, rfl⟩ := writerStep_only hs
    exact h

theorem stated_inv {ok : State → Act → State → Prop} (h : Reach (step cfg) ok (.init cfg fs0) s) (i : Nat) :
    Stated (s.flow i).stats (s.flow i).log.done :=
  flow_invariant (I := fun fl => Stated fl.stats fl.log.done) h ⟨rfl, rfl, rfl, rfl⟩ (fun _ _ _ hi => hi)
    (fun _ _ _ _ _ hst hi => (hst.ledger ⟨hi, rfl, rfl⟩).stated) i

/-! ## The manifest's stats -/

/-- The stats of the answers given so far: the files answered yes. -/
def skipped (xs : List (Entry × Bool)) : Stats :=
  ⟨0, 0, (xs.filter (·.2)).length, ((xs.filter (·.2)).map fun x => x.1.size.toNat).sum⟩

theorem skipped_snoc (xs : List (Entry × Bool)) (e : Entry) (have_ : Bool) : skipped (xs ++ [(e, have_)]) =
    if have_ then
      { skipped xs with
        skippedFiles := (skipped xs).skippedFiles + 1
        skippedBytes := (skipped xs).skippedBytes + e.size.toNat }
    else skipped xs := by
  cases have_ <;> simp [skipped]

/-- The File entries of a list. -/
def filesOf (es : List Entry) : List Entry := es.filter (·.kind == .file)

/-- The entries `es` have been read, and the Files among them answered and tallied. -/
structure Tallied (es : List Entry) (bits : List Bool) (stats : Stats) : Prop where
  framed : ∀ e ∈ es, e.Framed
  length : bits.length = (filesOf es).length
  stats : stats = skipped ((filesOf es).zip bits)

theorem Tallied.answer {es : List Entry} {bits : List Bool} {stats : Stats} {e : Entry} (h : Tallied es bits stats)
    (he : e.Framed) (hk : e.kind = .file) (have_ : Bool) : Tallied (es ++ [e]) (bits ++ [have_])
      (if have_ then { stats with skippedFiles := stats.skippedFiles + 1, skippedBytes := stats.skippedBytes + e.size.toNat }
        else stats) := by
  have hfiles : filesOf (es ++ [e]) = filesOf es ++ [e] := by simp [filesOf, hk]
  refine ⟨?_, ?_, ?_⟩
  · rintro x hx
    rcases List.mem_append.1 hx with hx | hx
    · exact h.framed x hx
    · rw [List.mem_singleton.1 hx]; exact he
  · rw [hfiles, List.length_append, List.length_append, h.length]
    rfl
  · rw [hfiles, List.zip_append h.length.symm, List.zip_cons_cons, List.zip_nil_left, skipped_snoc, ← h.stats]

theorem Tallied.pass {es : List Entry} {bits : List Bool} {stats : Stats} {e : Entry} (h : Tallied es bits stats)
    (he : e.Framed) (hk : e.kind ≠ .file) : Tallied (es ++ [e]) bits stats := by
  have hfiles : filesOf (es ++ [e]) = filesOf es := by simp [filesOf, hk]
  refine ⟨?_, by rw [hfiles]; exact h.length, by rw [hfiles]; exact h.stats⟩
  rintro x hx
  rcases List.mem_append.1 hx with hx | hx
  · exact h.framed x hx
  · rw [List.mem_singleton.1 hx]; exact he

/-- The whole list has been read and tallied. -/
def Answered (bits : List Bool) (stats : Stats) (got : Bytes) : Prop :=
  ∃ es, Tallied es bits stats ∧ got = encodings es ++ Entry.terminator

/-- A File entry has been read and is being looked up. -/
def Sought (bits : List Bool) (stats : Stats) (got : Bytes) (e : Entry) : Prop :=
  ∃ es, Tallied es bits stats ∧ got = encodings es ++ e.encode ∧ e.Framed ∧ e.kind = .file

/-- What the manifest phase has counted and answered, whatever failed. -/
def TallyOk (bits : List Bool) (stats : Stats) (got reply : Bytes) : MainPc → Prop
  | .openRoot => Tallied [] bits stats ∧ got = [] ∧ reply = []
  | .manifest => (∃ es, Tallied es bits stats ∧ got = encodings es) ∧ reply = []
  | .chainRoot e _ _ | .chain e _ _ _ _ _ | .stat e _ _ => Sought bits stats got e ∧ reply = []
  | .answer => Answered bits stats got ∧ reply = []
  | .pairing | .running | .flushing _ | .acking => Answered bits stats got ∧ reply = encodeBitmap bits
  | .returned (.ok _) => Answered bits stats got ∧ reply = encodeBitmap bits ++ [ACK]
  | .returned (.error _) => True

theorem Sought.answer {e : Entry} (h : Sought s.bits s.stats s.got e) (hr : s.reply = []) (have_ : Bool) :
    TallyOk (s.answer e have_).bits (s.answer e have_).stats (s.answer e have_).got (s.answer e have_).reply (s.answer e have_).main := by
  obtain ⟨es, hes, hgot, he, hk⟩ := h
  refine ⟨⟨es ++ [e], hes.answer he hk have_, ?_⟩, hr⟩
  show s.got = _
  rw [hgot, encodings_append, encodings_singleton]

theorem Sought.held {e : Entry} (h : Sought s.bits s.stats s.got e) (hr : s.reply = []) :
    TallyOk (s.held e).bits (s.held e).stats (s.held e).got (s.held e).reply (s.held e).main := by
  unfold State.held
  split
  · exact h.answer hr false
  · split
    · split <;> exact ⟨h, hr⟩
    · exact ⟨h, hr⟩

theorem TallyOk.mainStep (h : TallyOk s.bits s.stats s.got s.reply s.main) (hs : mainStep cfg c s = some s') :
    TallyOk s'.bits s'.stats s'.got s'.reply s'.main := by
  unfold Recv.mainStep at hs
  split at hs
  case h_1 hm =>
    rw [hm] at h
    obtain ⟨hes, hgot, hr⟩ := h
    split at hs <;> cases hs
    · trivial
    · exact ⟨⟨[], hes, hgot⟩, hr⟩
  case h_2 hm =>
    rw [hm] at h
    obtain ⟨⟨es, hes, hgot⟩, hr⟩ := h
    have hgot' : ∀ {a rest : Bytes}, (s.flow 0).wire = a ++ rest → (s.consume rest).got = encodings es ++ a := by
      intro a rest hw
      rw [(consume_stream s hw).2, hgot]
    split at hs
    · cases hs; trivial
    · split at hs <;> cases hs; trivial
    · cases hs; trivial
    · rename_i rest _ hd
      cases hs
      exact ⟨⟨es, hes, hgot' (a := [0]) (Entry.decode_none hd)⟩, hr⟩
    · rename_i e rest _ hd
      cases hs
      obtain ⟨hw, hfr⟩ := Entry.decode_some hd
      split
      · rename_i hk
        exact Sought.held (s := s.consume rest) ⟨es, hes, hgot' hw, hfr, hk⟩ hr
      · rename_i hk
        rw [show (s.consume rest).main = .manifest from hm]
        refine ⟨⟨es ++ [e], hes.pass hfr hk, ?_⟩, hr⟩
        rw [hgot' hw, encodings_append, encodings_singleton]
  case h_3 e parents name hm =>
    rw [hm] at h
    split at hs <;> cases hs
    · exact h.1.answer h.2 false
    · exact h
    · exact h
  case h_4 e name dir done component todo hm =>
    rw [hm] at h
    split at hs <;> cases hs
    · exact h
    · exact h
    · exact Sought.answer (s := { s with sh := _ }) h.1 h.2 false
  case h_5 e name dir hm =>
    rw [hm] at h
    split at hs <;> cases hs
    · exact Sought.answer (s := { s with sh := _ }) h.1 h.2 _
    · exact Sought.answer (s := { s with sh := _ }) h.1 h.2 _
  case h_6 hm =>
    rw [hm] at h
    split at hs <;> cases hs
    · trivial
    · have hreply : s.reply ++ encodeBitmap s.bits = encodeBitmap s.bits := by rw [h.2, List.nil_append]
      show TallyOk s.bits s.stats s.got (s.reply ++ encodeBitmap s.bits) (if cfg.flows = 1 then .running else .pairing)
      split <;> exact ⟨h.1, hreply⟩
  case h_7 hm =>
    rw [hm] at h
    split at hs <;> cases hs
    · trivial
    · exact h
  case h_8 hm =>
    rw [hm] at h
    split at hs
    · split at hs <;> cases hs
      · trivial
      · exact h
    · cases hs
  case h_9 hm =>
    rw [hm] at h
    split at hs <;> cases hs
    · exact h
    · trivial
  case h_10 hm =>
    rw [hm] at h
    cases hs
    exact h
  case h_11 hm =>
    rw [hm] at h
    split at hs <;> cases hs
    · trivial
    · refine ⟨h.1, ?_⟩
      show s.reply ++ [ACK] = encodeBitmap s.bits ++ [ACK]
      rw [h.2]
  case h_12 => cases hs

/-- A receiver that returned Ok has counted as skipped exactly the files it answered yes for. -/
theorem tally_inv {ok : State → Act → State → Prop} (h : Reach (step cfg) ok (.init cfg fs0) s) :
    TallyOk s.bits s.stats s.got s.reply s.main := by
  refine h.invariant (I := fun s => TallyOk s.bits s.stats s.got s.reply s.main) ?_ ?_
  · exact ⟨⟨fun _ hx => (by cases hx), rfl, rfl⟩, rfl, rfl⟩
  · intro s a s' _ ih hst _
    rcases step_told hst with hu | ⟨c, rfl, hs⟩
    · rw [hu.bits, hu.stats, hu.got, hu.reply, hu.main]
      exact ih
    · exact ih.mainStep hs

/-- Only the acknowledgement makes `accept_one` return Ok. -/
theorem mainStep_returned {st : Stats} (hs : mainStep cfg c s = some s') (hm : s'.main = .returned (.ok st)) :
    st = totalStats cfg s ∧ s'.stats = s.stats := by
  have hheld : ∀ (s : State) e, (s.held e).main ≠ .returned (.ok st) := by
    intro s e hx
    unfold State.held at hx
    split at hx
    · cases hx
    · split at hx
      · split at hx <;> cases hx
      · cases hx
  unfold mainStep at hs
  split at hs
  case h_1 => split at hs <;> cases hs <;> cases hm
  case h_2 hmain =>
    split at hs
    · cases hs; cases hm
    · split at hs <;> cases hs; cases hm
    · cases hs; cases hm
    · cases hs; cases hm
    · cases hs
      split at hm
      · exact absurd hm (hheld _ _)
      · rw [show (s.consume _).main = s.main from rfl, hmain] at hm
        cases hm
  case h_3 => split at hs <;> cases hs <;> cases hm
  case h_4 => split at hs <;> cases hs <;> cases hm
  case h_5 => split at hs <;> cases hs <;> cases hm
  case h_6 =>
    split at hs <;> cases hs
    · cases hm
    · have hm : (if cfg.flows = 1 then MainPc.running else .pairing) = .returned (.ok st) := hm
      split at hm <;> cases hm
  case h_7 => split at hs <;> cases hs <;> cases hm
  case h_8 =>
    split at hs
    · split at hs <;> cases hs <;> cases hm
    · cases hs
  case h_9 => split at hs <;> cases hs <;> cases hm
  case h_10 => cases hs; cases hm
  case h_11 =>
    split at hs <;> cases hs
    · cases hm
    · cases hm
      exact ⟨rfl, rfl⟩
  case h_12 => cases hs

theorem totalStats_aside (ha : Aside s s') (hs : s'.stats = s.stats) : totalStats cfg s' = totalStats cfg s := by
  unfold totalStats
  rw [hs]
  congr 1
  funext st i
  obtain ⟨w, e, he⟩ := ha.flow i
  rw [he]

/-- What `accept_one` returns is the sum of what the flows and the manifest phase counted. -/
theorem returned_total {ok : State → Act → State → Prop} (h : Reach (step cfg) ok (.init cfg fs0) s) {st : Stats}
    (hm : s.main = .returned (.ok st)) : st = totalStats cfg s := by
  refine h.invariant (I := fun s => ∀ st, s.main = .returned (.ok st) → st = totalStats cfg s) ?_ ?_ st hm
  · rintro st ⟨⟩
  · rintro s a s' - ih hst - st hm
    rcases step_cases hst with ⟨i, c, sh', fl', hl, -, rfl⟩ | ⟨ha, -⟩
    · exact absurd (hl.1.symm.trans hm) (by simp)
    · rcases step_told hst with hu | ⟨c, -, hs⟩
      · rw [totalStats_aside ha hu.stats]
        exact ih st (hu.main.symm.trans hm)
      · have hres := mainStep_returned hs hm
        rw [totalStats_aside ha hres.2]
        exact hres.1

/-! ## What has arrived -/

/-- All that has arrived on a connection and was not lost to its end. -/
def State.stream (s : State) (i : Nat) : Bytes := (if i = 0 then s.got else []) ++ ((s.flow i).log.got ++ (s.flow i).wire)

/-- A flow's stream is as it was, or was cut and is a part of it. -/
structure Kept (s s' : State) (i : Nat) : Prop where
  part : s'.stream i <+: s.stream i
  whole : (s'.flow i).eof = false → (s.flow i).eof = false ∧ s'.stream i = s.stream i

theorem Kept.of_eq {i : Nat} (hs : s'.stream i = s.stream i) (he : (s'.flow i).eof = (s.flow i).eof) : Kept s s' i :=
  ⟨by rw [hs], fun h => ⟨he ▸ h, hs⟩⟩

theorem consume_kept (hu : Unstarted cfg fs0 s) {a rest : Bytes} (hw : (s.flow 0).wire = a ++ rest) (s' : State)
    (hf : s'.flow = (s.consume rest).flow) (hg : s'.got = (s.consume rest).got) (i : Nat) : Kept s s' i := by
  by_cases hi : i = 0
  · subst hi
    obtain ⟨h1, h2⟩ := consume_stream s hw
    obtain ⟨w, e, he⟩ := hu.flow 0
    refine .of_eq ?_ (by rw [hf]; simp [State.consume])
    have hlog : (s.flow 0).log.got = [] := by rw [he]; rfl
    have hlog' : ((s.consume rest).flow 0).log.got = [] := by
      rw [← hlog]
      simp [State.consume]
    unfold State.stream
    rw [if_pos rfl, if_pos rfl, hg, hf, h1, h2, hlog, hlog', hw]
    simp
  · have hflow : s'.flow i = s.flow i := by rw [hf]; simp [State.consume, hi]
    refine .of_eq ?_ (by rw [hflow])
    unfold State.stream
    rw [if_neg hi, if_neg hi, hflow]

theorem mainStep_kept (hp : PhaseOk cfg fs0 s s.main) (hs : mainStep cfg c s = some s') (i : Nat) : Kept s s' i := by
  have hsame : ∀ s' : State, s'.flow = s.flow → s'.got = s.got → Kept s s' i := by
    intro s' hf hg
    refine .of_eq ?_ (by rw [hf])
    unfold State.stream
    rw [hf, hg]
  unfold mainStep at hs
  split at hs
  case h_1 => split at hs <;> cases hs <;> exact hsame _ rfl rfl
  case h_2 hm =>
    have hu := hp.early (by rw [hm]; trivial)
    split at hs
    · cases hs; exact hsame _ rfl rfl
    · split at hs <;> cases hs; exact hsame _ rfl rfl
    · cases hs; exact hsame _ rfl rfl
    · rename_i rest _ hd
      cases hs
      exact consume_kept hu (a := [0]) (Entry.decode_none hd) ((s.consume rest).goto .answer) rfl rfl i
    · rename_i e rest _ hd
      cases hs
      obtain ⟨hw, -⟩ := Entry.decode_some hd
      split
      · exact consume_kept hu hw _ (held_keeps _ e).1 (held_keeps _ e).2 i
      · exact consume_kept hu hw _ rfl rfl i
  case h_3 => split at hs <;> cases hs <;> exact hsame _ rfl rfl
  case h_4 => split at hs <;> cases hs <;> exact hsame _ rfl rfl
  case h_5 => split at hs <;> cases hs <;> exact hsame _ rfl rfl
  case h_6 => split at hs <;> cases hs <;> exact hsame _ rfl rfl
  case h_7 => split at hs <;> cases hs <;> exact hsame _ rfl rfl
  case h_8 =>
    split at hs
    · split at hs <;> cases hs <;> exact hsame _ rfl rfl
    · cases hs
  case h_9 => split at hs <;> cases hs <;> exact hsame _ rfl rfl
  case h_10 => cases hs; exact hsame _ rfl rfl
  case h_11 => split at hs <;> cases hs <;> exact hsame _ rfl rfl
  case h_12 => cases hs

theorem FlowStep.kept {i : Nat} (h : Reachable cfg fs0 s) (hf : FlowStep cfg c s.sh (s.flow i) sh' fl') (k : Nat) :
    Kept s (s.put i (sh', fl')) k := by
  by_cases hk : k = i
  · subst hk
    have hl := hf.ledger ⟨stated_inv h k, rfl, rfl⟩
    refine .of_eq ?_ (by rw [put_flow]; exact hl.eof)
    unfold State.stream
    rw [put_flow]
    exact congrArg _ hl.read
  · refine .of_eq ?_ (by rw [put_flow_ne _ _ hk])
    unfold State.stream
    rw [put_flow_ne _ _ hk]
    rfl

/-- Only a delivery adds to what has arrived. -/
theorem step_kept {a : Act} (h : Reachable cfg fs0 s) (hst : step cfg s a = some s') (ha : ∀ k bytes, a ≠ .deliver k bytes)
    (i : Nat) : Kept s s' i := by
  cases a with
  | net k c =>
    obtain ⟨x, -, hf, rfl⟩ := threadStep_some hst
    exact (FlowStep.net hf).kept h i
  | hash k c =>
    rw [show step cfg s (.hash k c) = if cfg.verify then threadStep cfg s k (Flow.hashStep cfg c) else none from rfl] at hst
    split at hst
    · rename_i hv
      obtain ⟨x, -, hf, rfl⟩ := threadStep_some hst
      exact (FlowStep.hash hv hf).kept h i
    · cases hst
  | writer k c =>
    obtain ⟨x, -, hf, rfl⟩ := threadStep_some hst
    exact (FlowStep.writer hf).kept h i
  | main c => exact mainStep_kept (phase_ok h) hst i
  | deliver k bytes => exact absurd rfl (ha k bytes)
  | cut k keep =>
    cases hst
    by_cases hi : i = k
    · subst hi
      refine ⟨?_, fun he => by simp at he⟩
      unfold State.stream
      simp only [Function.update_self]
      exact (List.prefix_append_right_inj _).2 ((List.prefix_append_right_inj _).2 (List.take_prefix ..))
    · refine .of_eq ?_ (by simp [hi])
      unfold State.stream
      simp [hi]

theorem held_reply (s : State) (e : Entry) : (s.held e).reply = s.reply := by
  unfold State.held
  split
  · rfl
  · split
    · split <;> rfl
    · rfl

/-- What has been answered stays, and more follows it. -/
theorem reply_grows {a : Act} (hst : step cfg s a = some s') : s.reply <+: s'.reply := by
  rcases step_told hst with hu | ⟨c, -, hs⟩
  · rw [hu.reply]
  · unfold mainStep at hs
    split at hs
    case h_1 => split at hs <;> cases hs <;> exact List.prefix_rfl
    case h_2 =>
      split at hs
      · cases hs; exact List.prefix_rfl
      · split at hs <;> cases hs; exact List.prefix_rfl
      · cases hs; exact List.prefix_rfl
      · cases hs; exact List.prefix_rfl
      · cases hs
        split
        · rw [held_reply]; exact List.prefix_rfl
        · exact List.prefix_rfl
    case h_3 => split at hs <;> cases hs <;> exact List.prefix_rfl
    case h_4 => split at hs <;> cases hs <;> exact List.prefix_rfl
    case h_5 => split at hs <;> cases hs <;> exact List.prefix_rfl
    case h_6 =>
      split at hs <;> cases hs
      · exact List.prefix_rfl
      · exact List.prefix_append ..
    case h_7 => split at hs <;> cases hs <;> exact List.prefix_rfl
    case h_8 =>
      split at hs
      · split at hs <;> cases hs <;> exact List.prefix_rfl
      · cases hs
    case h_9 => split at hs <;> cases hs <;> exact List.prefix_rfl
    case h_10 => cases hs; exact List.prefix_rfl
    case h_11 =>
      split at hs <;> cases hs
      · exact List.prefix_rfl
      · exact List.prefix_append ..
    case h_12 => cases hs

theorem deliver_stream {k : Nat} {bytes : Bytes} (hst : step cfg s (.deliver k bytes) = some s') :
    (s.flow k).eof = false ∧ ∀ i, (s'.flow i).eof = (s.flow i).eof ∧
      s'.stream i = if i = k then s.stream i ++ bytes else s.stream i := by
  rw [show step cfg s (.deliver k bytes) = if (s.flow k).eof then none else
    some { s with flow := Function.update s.flow k { s.flow k with wire := (s.flow k).wire ++ bytes } } from rfl] at hst
  split at hst
  · cases hst
  · rename_i he
    cases hst
    refine ⟨by simpa using he, fun i => ?_⟩
    unfold State.stream
    by_cases hi : i = k
    · subst hi
      simp
    · simp [hi]

end Thunderflash.Recv
