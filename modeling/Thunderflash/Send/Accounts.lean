/-
What a lane counts: headers and payload bytes as the socket loop writes them, items as the reader
finishes them. A lane that returns Ok has counted every item of its list once and every byte that
the headers announce.
-/
import Thunderflash.Send.Written

namespace Thunderflash.Send

open Codec Lts

variable {cfg : Cfg} {c : Choice} {ln ln' : Lane} {todo0 : List Item} {src : Item → Bytes → Prop}
  {ok : Lane → Act → Lane → Prop}

/-! ## Weights -/

def Msg.heads : Msg → Nat
  | .header _ => 1
  | _ => 0

def Msg.moves : Msg → Nat
  | .target bytes | .chunk bytes => bytes.length
  | _ => 0

/-- The sum of a weight over the messages of a channel. -/
def weigh (w : Msg → Nat) (ms : List (Except Err Msg)) : Nat :=
  (ms.map fun
    | .ok m => w m
    | .error _ => 0).sum

@[simp] theorem weigh_nil (w : Msg → Nat) : weigh w [] = 0 := rfl

@[simp] theorem weigh_append (w : Msg → Nat) (a b : List (Except Err Msg)) : weigh w (a ++ b) = weigh w a + weigh w b := by
  simp [weigh]

@[simp] theorem weigh_ok (w : Msg → Nat) (m : Msg) : weigh w [.ok m] = w m := by simp [weigh]

/-- A weight the hash stage leaves alone. -/
structure Plain (w : Msg → Nat) : Prop where
  mark : w .endPayload = 0
  digest : ∀ d, w (.digest d) = 0

theorem plain_heads : Plain Msg.heads := ⟨rfl, fun _ => rfl⟩

theorem plain_moves : Plain Msg.moves := ⟨rfl, fun _ => rfl⟩

theorem weigh_hashed {w : Msg → Nat} (hw : Plain w) (hasher : Bytes) (m : Except Err Msg) :
    weigh w (hashed cfg hasher m).2.toList = weigh w [m] := by
  unfold hashed
  split
  · split
    · rfl
    · simp [hw.mark, hw.digest]
    · rfl
  · rfl

theorem error_mem_sunk {e : Err} {sent : List (Except Err Msg)} (h : .error e ∈ sent) : .error e ∈ (sunk cfg sent).2 := by
  induction sent using List.reverseRecOn with
  | nil => cases h
  | append_singleton sent m ih =>
    rw [sunk_snoc]
    rcases List.mem_append.1 h with h | h
    · exact List.mem_append_left _ (ih h)
    · obtain rfl := List.mem_singleton.1 h
      apply List.mem_append_right
      unfold hashed
      split <;> simp

theorem weigh_sunk {w : Msg → Nat} (hw : Plain w) (sent : List (Except Err Msg)) : weigh w (sunk cfg sent).2 = weigh w sent := by
  induction sent using List.reverseRecOn with
  | nil => rfl
  | append_singleton sent m ih => rw [sunk_snoc, weigh_append, weigh_append, ih, weigh_hashed hw]

/-! ## The reader -/

/-- What the items' headers announce. -/
def total (items : List Item) : Nat := (items.map fun item => payloadLen item.entry).sum

@[simp] theorem total_nil : total [] = 0 := rfl

@[simp] theorem total_append (a b : List Item) : total (a ++ b) = total a + total b := by simp [total]

@[simp] theorem total_cons (item : Item) (items : List Item) : total (item :: items) = payloadLen item.entry + total items := by
  simp [total]

/-- How much of the item's payload has been sent. -/
def Stage.moved (item : Item) : Stage → Nat
  | .header | .readLink | .sendTarget _ | .openFile => 0
  | .sendDigest _ | .sendEnd => item.entry.size.toNat
  | .takeBuf n | .fill n _ => n
  | .sendChunk n bytes => n - bytes.length

/-- Every item before this one is counted once, and so is what this one has sent. -/
def Counted (todo0 : List Item) (sent : List (Except Err Msg)) (finished : Nat) : ReaderPc → Prop
  | .at item st todo => ∃ done, todo0 = done ++ item :: todo ∧ finished = done.length ∧
      weigh Msg.heads sent = done.length + (if st = .header then 0 else 1) ∧
      weigh Msg.moves sent = total done + st.moved item
  | .sendErr _ => True
  | .left => (finished = todo0.length ∧ weigh Msg.heads sent = todo0.length ∧ weigh Msg.moves sent = total todo0) ∨
      ∃ e, .error e ∈ sent

section Reader

variable {sent : List (Except Err Msg)} {item : Item} {done todo : List Item}

theorem Counted.items (hd : todo0 = done ++ todo) (hf : ln.finished = done.length)
    (hh : weigh Msg.heads sent = done.length) (hm : weigh Msg.moves sent = total done) :
    Counted todo0 sent (ln.items todo).finished (ln.items todo).reader := by
  unfold Lane.items
  split
  · rw [List.append_nil] at hd
    subst hd
    exact .inl ⟨hf, hh, hm⟩
  · exact ⟨done, hd, hf, by simpa using hh, by simpa [Stage.moved] using hm⟩

/-- The item is complete. -/
theorem Counted.finish (hd : todo0 = done ++ item :: todo) (hf : ln.finished = done.length)
    (hh : weigh Msg.heads sent = done.length + 1) (hm : weigh Msg.moves sent = total done + payloadLen item.entry) :
    Counted todo0 sent (ln.finish todo).finished (ln.finish todo).reader := by
  have hd' : todo0 = (done ++ [item]) ++ todo := by simp [hd]
  refine Counted.items hd' ?_ ?_ ?_
  · show ln.finished + 1 = _
    rw [hf, List.length_append]
    rfl
  · rw [hh, List.length_append]
    rfl
  · rw [hm, total_append, total_cons, total_nil]
    omega

/-- The head of `stream_file`'s loop. -/
theorem Counted.stream {n : Nat} (hk : item.entry.kind = .file) (hn : n ≤ item.entry.size.toNat) (hd : todo0 = done ++ item :: todo)
    (hf : ln.finished = done.length) (hh : weigh Msg.heads sent = done.length + 1) (hm : weigh Msg.moves sent = total done + n) :
    Counted todo0 sent (ln.stream cfg item todo n).finished (ln.stream cfg item todo n).reader := by
  unfold Lane.stream
  split
  · exact ⟨done, hd, hf, hh, hm⟩
  · have hall : n = item.entry.size.toNat := by omega
    split
    · exact ⟨done, hd, hf, hh, by rw [hm, hall]; rfl⟩
    · exact Counted.finish hd hf hh (by rw [hm, hall]; simp [payloadLen, hk])

theorem Counted.readStep (hp : PcOk cfg src todo0 ln.log.sent ln.reader) (h : Counted todo0 ln.log.sent ln.finished ln.reader)
    (hgone : ¬ ln.sinkGone cfg) (hret : ¬ ln.returned) (hs : ln.readStep cfg c = some ln') :
    Counted todo0 ln'.log.sent ln'.finished ln'.reader := by
  have hpush : ∀ {m next gone}, ln.send cfg m next gone = some ln' → ln' = next (ln.push cfg m) := fun hs =>
    (Lane.send_some hs).elim (fun hx => absurd hx.1 hgone) fun hx => hx.2.2
  have hlog : ∀ m, (ln.push cfg m).log.sent = ln.log.sent ++ [m] := by
    intro m
    unfold Lane.push
    split <;> rfl
  have hdone : ∀ m, (ln.push cfg m).finished = ln.finished := by
    intro m
    unfold Lane.push
    split <;> rfl
  have hfin : ∀ (todo : List Item) (ln : Lane), (ln.finish todo).log = ln.log := by
    intro todo ln
    obtain ⟨r, hr⟩ := Lane.finish_eq todo ln
    rw [hr]
  have hstr : ∀ (item : Item) (todo : List Item) (n : Nat) (ln : Lane), (ln.stream cfg item todo n).log = ln.log := by
    intro item todo n ln
    obtain ⟨r, f, hr⟩ := @Lane.stream_eq cfg item todo n ln
    rw [hr]
  unfold Lane.readStep at hs
  split at hs
  case h_1 item todo hpc =>
    rw [hpc] at h
    obtain ⟨done, hd, hf, hh, hm⟩ := h
    rw [hpush hs]
    have hf' := (hdone (.ok (.header item.header))).trans hf
    have hh' : weigh Msg.heads (ln.log.sent ++ [.ok (.header item.header)]) = done.length + 1 := by
      rw [weigh_append, hh, weigh_ok]
      rfl
    have hm' : weigh Msg.moves (ln.log.sent ++ [.ok (.header item.header)]) = total done := by
      rw [weigh_append, hm, weigh_ok]
      rfl
    unfold Lane.body
    split
    · rename_i hk
      rw [hfin, hlog]
      exact Counted.finish hd hf' hh' (by rw [hm']; simp [payloadLen, hk])
    · rename_i hk
      rw [hfin, hlog]
      exact Counted.finish hd hf' hh' (by rw [hm']; simp [payloadLen, hk])
    · show Counted todo0 (ln.push cfg _).log.sent (ln.push cfg _).finished _
      rw [hlog]
      exact ⟨done, hd, hf', hh', hm'⟩
    · show Counted todo0 (ln.push cfg _).log.sent (ln.push cfg _).finished _
      rw [hlog]
      exact ⟨done, hd, hf', hh', hm'⟩
  case h_2 item todo hpc =>
    rw [hpc] at h
    obtain ⟨done, hd, hf, hh, hm⟩ := h
    split at hs <;> cases hs
    · trivial
    · split
      · exact ⟨done, hd, hf, hh, hm⟩
      · trivial
  case h_3 item target todo hpc =>
    rw [hpc] at h hp
    obtain ⟨done, hd, hf, hh, hm⟩ := h
    obtain ⟨-, -, -, hk, hlen, -⟩ := hp
    rw [hpush hs]
    have hf' := (hdone (.ok (.target target))).trans hf
    have hh' : weigh Msg.heads (ln.log.sent ++ [.ok (.target target)]) = done.length + 1 := by
      rw [weigh_append, hh, weigh_ok]
      rfl
    have hm' : weigh Msg.moves (ln.log.sent ++ [.ok (.target target)]) = total done + item.entry.size.toNat := by
      rw [weigh_append, hm, weigh_ok, ← hlen]
      rfl
    split
    · show Counted todo0 (ln.push cfg _).log.sent (ln.push cfg _).finished _
      rw [hlog]
      exact ⟨done, hd, hf', hh', hm'⟩
    · rw [hfin, hlog]
      exact Counted.finish hd hf' hh' (by rw [hm']; simp [payloadLen, hk])
  case h_4 item d todo hpc =>
    rw [hpc] at h hp
    obtain ⟨done, hd, hf, hh, hm⟩ := h
    obtain ⟨-, -, -, -, hk, -⟩ := hp
    rw [hpush hs, hfin, hlog]
    refine Counted.finish hd ((hdone _).trans hf) ?_ ?_
    · rw [weigh_append, hh, weigh_ok]
      rfl
    · rw [weigh_append, hm, weigh_ok]
      simp [Stage.moved, Msg.moves, payloadLen, hk]
  case h_5 item todo hpc =>
    rw [hpc] at h hp
    split at hs <;> cases hs
    · trivial
    · obtain ⟨done, hd, hf, hh, hm⟩ := h
      obtain ⟨-, -, -, hk, -⟩ := hp
      rw [hstr]
      exact Counted.stream hk (Nat.zero_le _) hd hf hh hm
  case h_6 item n todo hpc =>
    rw [hpc] at h
    split at hs
    · cases hs
      exact h
    · cases hs
  case h_7 item n filled todo hpc =>
    rw [hpc] at h
    obtain ⟨done, hd, hf, hh, hm⟩ := h
    split at hs
    · cases hs; trivial
    · split at hs
      · cases hs; trivial
      · split at hs
        · cases hs
          exact ⟨done, hd, hf, hh, hm⟩
        · split at hs <;> cases hs
          rename_i hw
          refine ⟨done, hd, hf, hh, hm.trans ?_⟩
          show total done + n = total done + (n + Lane.want item n - (filled ++ c.data).length)
          omega
  case h_8 item n bytes todo hpc =>
    rw [hpc] at h hp
    obtain ⟨done, hd, hf, hh, hm⟩ := h
    obtain ⟨-, -, -, hk, p, hp, hn, -⟩ := hp
    rw [hpush hs, hstr, hlog]
    refine Counted.stream hk hn hd ((hdone _).trans hf) ?_ ?_
    · rw [weigh_append, hh, weigh_ok]
      rfl
    · rw [weigh_append, hm, weigh_ok]
      show total done + (n - bytes.length) + bytes.length = total done + n
      omega
  case h_9 item todo hpc =>
    rw [hpc] at h hp
    obtain ⟨done, hd, hf, hh, hm⟩ := h
    obtain ⟨-, -, -, -, hk, -⟩ := hp
    rw [hpush hs, hfin, hlog]
    refine Counted.finish hd ((hdone _).trans hf) ?_ ?_
    · rw [weigh_append, hh, weigh_ok]
      rfl
    · rw [weigh_append, hm, weigh_ok]
      simp [Stage.moved, Msg.moves, payloadLen, hk]
  case h_10 e hpc =>
    rw [hpush hs]
    show Counted todo0 (ln.push cfg _).log.sent (ln.push cfg _).finished .left
    rw [hlog]
    exact .inr ⟨e, by simp⟩
  case h_11 => cases hs

end Reader

/-! ## The socket loop -/

/-- What the loop has taken off its channel and not counted yet. -/
def SockPc.uncounted (w : Msg → Nat) : SockPc → Nat
  | .writing m _ => w m
  | _ => 0

structure Accounts (todo0 : List Item) (ln : Lane) : Prop where
  reader : Counted todo0 ln.log.sent ln.finished ln.reader
  files : ln.stats.files + ln.sock.uncounted Msg.heads = weigh Msg.heads (ln.log.taken.map .ok)
  bytes : ln.stats.bytes + ln.sock.uncounted Msg.moves = weigh Msg.moves (ln.log.taken.map .ok)
  moved : ln.moved = ln.stats.bytes
  skipped : ln.stats.skippedFiles = 0 ∧ ln.stats.skippedBytes = 0

theorem Accounts.init (cfg : Cfg) (todo : List Item) : Accounts todo (.init cfg todo) := by
  have hr : Counted todo [] (Lane.init cfg todo).finished (Lane.init cfg todo).reader := by
    have hnone : todo = [] ++ todo := rfl
    exact Counted.items hnone rfl rfl rfl
  obtain ⟨r, he⟩ := Lane.init_eq cfg todo
  rw [he] at hr ⊢
  exact ⟨hr, rfl, rfl, rfl, rfl, rfl⟩

theorem Accounts.sockStep (hf : ¬ ln'.sock.failed) (h : Accounts todo0 ln) (hs : ln.sockStep cfg c = some ln') : Accounts todo0 ln' := by
  have hfiles := h.files
  have hbytes := h.bytes
  unfold Lane.sockStep at hs
  split at hs
  case h_1 hk =>
    rw [hk] at hfiles hbytes
    split at hs
    · cases hs; exact absurd trivial hf
    · cases hs; exact absurd trivial hf
    · rename_i m q _ hq
      cases hs
      refine ⟨h.reader, ?_, ?_, h.moved, h.skipped⟩
      · rw [List.map_append, weigh_append, ← hfiles]
        show ln.stats.files + m.heads = ln.stats.files + 0 + weigh Msg.heads [.ok m]
        rw [weigh_ok, Nat.add_zero]
      · rw [List.map_append, weigh_append, ← hbytes]
        show ln.stats.bytes + m.moves = ln.stats.bytes + 0 + weigh Msg.moves [.ok m]
        rw [weigh_ok, Nat.add_zero]
    · split at hs <;> cases hs
      exact ⟨h.reader, hfiles, hbytes, h.moved, h.skipped⟩
  case h_2 m hk =>
    cases hs
    rw [hk] at hfiles hbytes
    have hmoved := h.moved
    unfold Lane.counted
    cases m with
    | header b => exact ⟨h.reader, hfiles, hbytes, h.moved, h.skipped⟩
    | target b =>
      refine ⟨h.reader, hfiles, hbytes, ?_, h.skipped⟩
      show ln.moved + b.length = ln.stats.bytes + b.length
      rw [hmoved]
    | chunk b =>
      refine ⟨h.reader, hfiles, hbytes, ?_, h.skipped⟩
      show ln.moved + b.length = ln.stats.bytes + b.length
      rw [hmoved]
    | digest d => exact ⟨h.reader, hfiles, hbytes, h.moved, h.skipped⟩
    | endPayload => exact ⟨h.reader, hfiles, hbytes, h.moved, h.skipped⟩
  case h_3 m todo _ hk =>
    rw [hk] at hfiles hbytes
    split at hs
    · cases hs; exact absurd trivial hf
    · split at hs <;> cases hs
      exact ⟨h.reader, hfiles, hbytes, h.moved, h.skipped⟩
  case h_4 => cases hs; exact absurd trivial hf
  case h_5 hk =>
    rw [hk] at hfiles hbytes
    split at hs <;> cases hs
    have hnone : ∀ w, (if cfg.verify then SockPc.joinHasher else .terminator).uncounted w = 0 := by
      intro w
      split <;> rfl
    exact ⟨h.reader, by rw [hnone]; exact hfiles, by rw [hnone]; exact hbytes, h.moved, h.skipped⟩
  case h_6 hk =>
    rw [hk] at hfiles hbytes
    split at hs <;> cases hs
    exact ⟨h.reader, hfiles, hbytes, h.moved, h.skipped⟩
  case h_7 hk =>
    rw [hk] at hfiles hbytes
    split at hs
    · cases hs; exact absurd trivial hf
    · cases hs; exact ⟨h.reader, hfiles, hbytes, h.moved, h.skipped⟩
  case h_8 => cases hs
  case h_9 => cases hs

theorem accounts_inv (h : Reachable cfg todo0 ln) : ¬ ln.sock.failed → Accounts todo0 ln := by
  refine @Reach.invariant_while _ _ _ _ _ _ (Accounts todo0) (fun ln => ¬ ln.sock.failed) h (.init cfg todo0)
    (fun ln a ln' hst hn hf => hn (failed_step hst hf)) ?_
  intro ln a ln' hr hf hf' ih hst _
  have hj := joined_inv hr
  rcases step_cases hst with ⟨c, hs⟩ | ⟨-, hs⟩ | ⟨c, hs⟩
  · obtain ⟨hl, hm⟩ := Lane.readStep_move hs
    obtain ⟨hgone, hret⟩ := hj.nobody_gone hf hl
    have hread := ih.reader.readStep (piped_inv Source.any hr hf).reader hgone hret hs
    cases hm with
    | goes he => subst he; exact ⟨hread, ih.files, ih.bytes, ih.moved, ih.skipped⟩
    | take _ he => subst he; exact ⟨hread, ih.files, ih.bytes, ih.moved, ih.skipped⟩
    | push _ _ he =>
      subst he
      unfold Lane.push at hread ⊢
      split at hread <;> rename_i hv
      · rw [if_pos hv]; exact ⟨hread, ih.files, ih.bytes, ih.moved, ih.skipped⟩
      · rw [if_neg hv]; exact ⟨hread, ih.files, ih.bytes, ih.moved, ih.skipped⟩
  · obtain ⟨-, rq, hasher, sq, hash, rfl⟩ := Lane.hashStep_only hs
    exact ⟨ih.reader, ih.files, ih.bytes, ih.moved, ih.skipped⟩
  · exact ih.sockStep hf' hs

/-- A lane that has returned Ok counted each of its items and every byte they announce, in its
stats and on the progress counters. -/
theorem lane_accounts (h : Reachable cfg todo0 ln) (hk : ln.sock = .left (.ok ())) :
    ln.stats = ⟨todo0.length, total todo0, 0, 0⟩ ∧ ln.finished = todo0.length ∧ ln.moved = total todo0 := by
  have hf : ¬ ln.sock.failed := by rw [hk]; exact id
  have ha := accounts_inv h hf
  have hj := joined_inv h
  have hp := piped_inv Source.any h hf
  have hpast := hj.past (by rw [hk]; trivial)
  obtain ⟨hr, hout⟩ := hp.drained hj hf hpast.2 hpast.1
  have hcount := ha.reader
  rw [show ln.reader = .left from hr] at hcount
  rcases hcount with ⟨hfin, hheads, hmoves⟩ | ⟨e, he⟩
  · have hfiles := ha.files
    have hbytes := ha.bytes
    rw [hk, ← hout, weigh_sunk plain_heads, hheads] at hfiles
    rw [hk, ← hout, weigh_sunk plain_moves, hmoves] at hbytes
    have hfiles : ln.stats.files = todo0.length := hfiles
    have hbytes : ln.stats.bytes = total todo0 := hbytes
    obtain ⟨h1, h2⟩ := ha.skipped
    refine ⟨?_, hfin, ha.moved.trans hbytes⟩
    rcases hst : ln.stats with ⟨files, bytes, skippedFiles, skippedBytes⟩
    rw [hst] at hfiles hbytes h1 h2
    cases hfiles
    cases hbytes
    cases h1
    cases h2
    rfl
  · exfalso
    have hmem := @error_mem_sunk cfg _ _ he
    rw [hout] at hmem
    obtain ⟨m, -, hm⟩ := List.mem_map.1 hmem
    cases hm

end Thunderflash.Send
