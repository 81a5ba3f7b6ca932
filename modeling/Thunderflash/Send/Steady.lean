/-
A sender whose sources do not change while it reads them: what a lane that returns Ok has written is
the framing of its items with what the sources hold.
-/
import Thunderflash.Send.Main

namespace Thunderflash.Send

open Codec Lts

variable {cfg : Cfg} {ln ln' : Lane} {todo : List Item} {job : Job} {c : Choice} {s s' : State} {content : Item → Bytes}

/-- What the read of `item` gives here is what the source holds from there on: a link's target as text, or the
next bytes of a file. -/
def Reads (content : Item → Bytes) (ln : Lane) (c : Choice) : Prop :=
  match ln.reader with
  | .at item .readLink _ => lossy c.data = content item
  | .at item (.fill sent filled) _ => c.data <+: (content item).drop (sent + filled.length)
  | _ => True

instance (content : Item → Bytes) (ln : Lane) (c : Choice) : Decidable (Reads content ln c) := by
  unfold Reads
  split <;> infer_instance

/-- Every read that succeeds gives what the source holds. -/
def Steady (content : Item → Bytes) (ln : Lane) (a : Act) (_ : Lane) : Prop :=
  match a with
  | .read c => c.fault = none → Reads content ln c
  | _ => True

instance (content : Item → Bytes) (ln : Lane) (a : Act) (ln' : Lane) : Decidable (Steady content ln a ln') := by
  unfold Steady
  split <;> infer_instance

theorem steady_source (content : Item → Bytes) : Source (Steady content) fun item p => p <+: content item where
  start item := List.nil_prefix
  link {ln c _ item todo} ho hr hf := by
    have hread : Reads content ln c := ho hf
    unfold Reads at hread
    rw [hr] at hread
    rw [show lossy c.data = content item from hread]
  more {ln c _ item todo p filled} ho hr hf hp := by
    have hread : Reads content ln c := ho hf
    unfold Reads at hread
    rw [hr] at hread
    obtain ⟨rest, hrest⟩ := hp
    obtain ⟨rest', hrest'⟩ : c.data <+: (content item).drop (p.length + filled.length) := hread
    rw [← hrest, ← List.length_append, List.drop_left] at hrest'
    refine ⟨rest', ?_⟩
    rw [← hrest, ← hrest']
    simp

/-- The frame of an item with what its source holds. -/
def parcel (content : Item → Bytes) (item : Item) : Sent := ⟨item, (content item).take (payloadLen item.entry)⟩

/-- Frames read from steady sources are those of their items. -/
theorem read_parcels {frs : List Sent} (h : Read (fun item p => p <+: content item) frs) :
    (frs.map Sent.item).map (parcel content) = frs := by
  rw [List.map_map]
  refine (List.map_congr_left fun fr hfr => ?_).trans frs.map_id
  obtain ⟨hwhole, hpre⟩ := h fr hfr
  show parcel content fr.item = fr
  have hpay : fr.payload = (content fr.item).take (payloadLen fr.item.entry) := by
    rw [← show fr.payload.length = payloadLen fr.item.entry from hwhole]
    exact List.prefix_iff_eq_take.1 hpre
  rw [parcel, ← hpay]

/-- A lane that returns Ok has written its items, each with what its source holds, and the terminator. -/
theorem lane_sent (h : Reach (step cfg) (Steady content) (.init cfg todo) ln) (hk : ln.sock = .left (.ok ())) :
    Framing todo (todo.map (parcel content)) ∧ ln.wrote = encodeAll cfg (todo.map (parcel content)) ++ [0] := by
  have hw := written_inv (steady_source content) h
  obtain ⟨frs, hread, rfl, hall⟩ := hw.complete (by rw [hk]; trivial)
  have hwr := hw.wrote
  rw [hk] at hwr
  have hend : ln.wrote = allBytes (ln.log.taken.map .ok) ++ [0] := hwr
  rw [read_parcels hread]
  exact ⟨hread.framing, by rw [hend, hall]⟩

/-! ## A lane at any moment -/

theorem push_sent (m : Except Err Msg) (ln : Lane) : (ln.push cfg m).log.sent = ln.log.sent ++ [m] := by
  unfold Lane.push
  split <;> rfl

/-- What a step of the reader does to the messages it has sent. -/
theorem readStep_sent (h : ln.readStep cfg c = some ln') : ln'.log.sent = ln.log.sent ∨
    (∃ m, ln'.log.sent = ln.log.sent ++ [.ok m] ∧ ∀ e, ln'.reader ≠ .sendErr e) ∨ ∃ e, ln'.log.sent = ln.log.sent ++ [.error e] := by
  have hitems : ∀ (todo : List Item) (ln : Lane), (ln.items todo).log.sent = ln.log.sent ∧ ∀ e, (ln.items todo).reader ≠ .sendErr e := by
    intro todo ln
    unfold Lane.items
    split <;> exact ⟨rfl, nofun⟩
  have hfinish : ∀ (todo : List Item) (ln : Lane), (ln.finish todo).log.sent = ln.log.sent ∧ ∀ e, (ln.finish todo).reader ≠ .sendErr e :=
    fun todo ln => hitems todo _
  have hstream : ∀ (item : Item) (todo : List Item) (n : Nat) (ln : Lane), (ln.stream cfg item todo n).log.sent = ln.log.sent ∧
      ∀ e, (ln.stream cfg item todo n).reader ≠ .sendErr e := by
    intro item todo n ln
    unfold Lane.stream
    split
    · exact ⟨rfl, nofun⟩
    · split
      · exact ⟨rfl, nofun⟩
      · exact hfinish todo ln
  have hbody : ∀ (item : Item) (todo : List Item) (ln : Lane), (ln.body item todo).log.sent = ln.log.sent ∧
      ∀ e, (ln.body item todo).reader ≠ .sendErr e := by
    intro item todo ln
    unfold Lane.body
    split
    · exact hfinish todo ln
    · exact hfinish todo ln
    · exact ⟨rfl, nofun⟩
    · exact ⟨rfl, nofun⟩
  -- a message that goes out, and a channel that is gone
  have hsend : ∀ {m : Msg} {next gone : Lane → Lane}, (∀ ln : Lane, (next ln).log.sent = ln.log.sent ∧ ∀ e, (next ln).reader ≠ .sendErr e) →
      (gone ln).log.sent = ln.log.sent → ln.send cfg (.ok m) next gone = some ln' → ln'.log.sent = ln.log.sent ∨
        (∃ m, ln'.log.sent = ln.log.sent ++ [.ok m] ∧ ∀ e, ln'.reader ≠ .sendErr e) ∨ ∃ e, ln'.log.sent = ln.log.sent ++ [.error e] := by
    intro m next gone hn hg hs
    rcases Lane.send_some hs with ⟨-, rfl⟩ | ⟨-, -, rfl⟩
    · exact .inl hg
    · exact .inr (.inl ⟨m, by rw [(hn _).1, push_sent], (hn _).2⟩)
  unfold Lane.readStep at h
  split at h
  case h_1 item todo _ => exact hsend (hbody item todo) rfl h
  case h_2 =>
    split at h <;> cases h
    · exact .inl rfl
    · split <;> exact .inl rfl
  case h_3 item target todo _ =>
    refine hsend (fun ln => ?_) rfl h
    split
    · exact ⟨rfl, nofun⟩
    · exact hfinish todo ln
  case h_4 item d todo _ => exact hsend (hfinish todo) rfl h
  case h_5 item todo _ =>
    split at h <;> cases h
    · exact .inl rfl
    · exact .inl (hstream item todo 0 ln).1
  case h_6 item n todo _ =>
    split at h
    · cases h; exact .inl rfl
    · split at h <;> cases h
      exact .inl (hfinish todo ln).1
  case h_7 =>
    split at h
    · cases h; exact .inl rfl
    · split at h
      · cases h; exact .inl rfl
      · split at h
        · cases h; exact .inl rfl
        · split at h <;> cases h; exact .inl rfl
  case h_8 item n bytes todo _ => exact hsend (hstream item todo n) (hfinish todo ln).1 h
  case h_9 item todo _ => exact hsend (hfinish todo) (hfinish todo ln).1 h
  case h_10 e _ =>
    rcases Lane.send_some h with ⟨-, rfl⟩ | ⟨-, -, rfl⟩
    · exact .inl rfl
    · exact .inr (.inr ⟨e, push_sent _ ln⟩)
  case h_11 => cases h

/-- The frames of these items, each with what its source holds. -/
def parcels (cfg : Cfg) (content : Item → Bytes) (todo : List Item) : Bytes := encodeAll cfg (todo.map (parcel content))

/-- While an item is being read, a beginning of the frames has come out. -/
theorem at_part {item : Item} {st : Stage} {sent : List (Except Err Msg)} {todo' : List Item}
    (h : PcOk cfg (fun item p => p <+: content item) todo sent (.at item st todo')) :
    allBytes (sunk cfg sent).2 <+: parcels cfg content todo := by
  obtain ⟨done, hr, rfl, hst⟩ := h
  obtain ⟨rest, hall⟩ : ∃ rest, parcels cfg content (done.map Sent.item ++ item :: todo') = encodeAll cfg done ++
      (item.header ++ ((content item).take (payloadLen item.entry) ++ rest)) := by
    refine ⟨trailerOf cfg item.entry (parcel content item).payload ++ encodeAll cfg (todo'.map (parcel content)), ?_⟩
    rw [parcels, List.map_append, List.map_cons, read_parcels hr, encodeAll_append]
    simp [encodeAll, Sent.encode, parcel]
  rw [hall]
  have hof : ∀ {h p : Bytes}, p <+: content item → p.length ≤ payloadLen item.entry →
      At cfg sent h (encodeAll cfg done ++ (item.header ++ p)) →
      allBytes (sunk cfg sent).2 <+: encodeAll cfg done ++ (item.header ++ ((content item).take (payloadLen item.entry) ++ rest)) := by
    intro h p hp hle ha
    rw [ha.bytes]
    refine (List.prefix_append_right_inj _).2 ((List.prefix_append_right_inj _).2 ?_)
    refine List.IsPrefix.trans ?_ (List.prefix_append ..)
    exact List.prefix_take_iff.2 ⟨hp, hle⟩
  have hfile : item.entry.kind = .file → payloadLen item.entry = item.entry.size.toNat := fun hk => by simp [payloadLen, hk]
  have hlink : item.entry.kind = .symlink → payloadLen item.entry = item.entry.size.toNat := fun hk => by simp [payloadLen, hk]
  have hnil : ∀ {h}, At cfg sent h (encodeAll cfg done ++ item.header) →
      allBytes (sunk cfg sent).2 <+: encodeAll cfg done ++ (item.header ++ ((content item).take (payloadLen item.entry) ++ rest)) :=
    fun ha => hof List.nil_prefix (Nat.zero_le _) (by rw [List.append_nil]; exact ha)
  cases st with
  | header =>
    rw [hst.bytes]
    exact List.prefix_append ..
  | readLink => exact hnil hst.2
  | sendTarget t =>
    rw [hst.2.2.2.bytes]
    exact (List.prefix_append_right_inj _).2 (List.prefix_append ..)
  | sendDigest d =>
    obtain ⟨-, hk, t, hl, hp, -, ha⟩ := hst
    exact hof hp (by rw [hlink hk]; omega) ha
  | openFile => exact hnil hst.2
  | takeBuf n =>
    obtain ⟨hk, p, hl, hn, hp, ha⟩ := hst
    exact hof hp (by rw [hfile hk]; omega) ha
  | fill n filled =>
    obtain ⟨hk, p, hl, hn, hp, ha⟩ := hst
    exact hof ((List.prefix_append ..).trans hp) (by rw [hfile hk]; omega) ha
  | sendChunk n bytes =>
    obtain ⟨hk, p, hl, hn, hp, ha⟩ := hst
    exact hof ((List.prefix_append ..).trans hp) (by rw [hfile hk]; omega) ha
  | sendEnd =>
    obtain ⟨-, hk, p, hl, hp, ha⟩ := hst
    exact hof hp (by rw [hfile hk]; omega) ha

/-- An error is no bytes, and a message that is none comes out as none. -/
theorem sunk_error (sent : List (Except Err Msg)) (e : Err) : (sunk cfg (sent ++ [.error e])).2 = (sunk cfg sent).2 ++ [.error e] := by
  rw [sunk_snoc]
  unfold hashed
  split <;> rfl

theorem sunk_ok (sent : List (Except Err Msg)) (m : Msg) : ∃ m', (sunk cfg (sent ++ [.ok m])).2 = (sunk cfg sent).2 ++ [.ok m'] := by
  rw [sunk_snoc]
  unfold hashed
  split
  · cases m <;> exact ⟨_, rfl⟩
  · exact ⟨_, rfl⟩

/-- Until the socket fails, what has come out of the reader is a beginning of the frames; what the loop has taken always is. -/
structure Begins (cfg : Cfg) (content : Item → Bytes) (todo : List Item) (ln : Lane) : Prop where
  out : ¬ ln.sock.failed → allBytes (sunk cfg ln.log.sent).2 <+: parcels cfg content todo
  taken : allBytes (ln.log.taken.map .ok) <+: parcels cfg content todo

theorem sockStep_taken (h : ln.sockStep cfg c = some ln') : ln'.log.sent = ln.log.sent ∧
    (ln'.log.taken = ln.log.taken ∨ ¬ ln'.sock.failed) := by
  unfold Lane.sockStep at h
  split at h
  case h_1 =>
    split at h
    · cases h; exact ⟨rfl, .inl rfl⟩
    · cases h; exact ⟨rfl, .inl rfl⟩
    · cases h; exact ⟨rfl, .inr id⟩
    · split at h <;> cases h; exact ⟨rfl, .inl rfl⟩
  case h_2 m _ =>
    cases h
    cases m <;> exact ⟨rfl, .inl rfl⟩
  case h_3 =>
    split at h
    · cases h; exact ⟨rfl, .inl rfl⟩
    · split at h <;> cases h; exact ⟨rfl, .inl rfl⟩
  case h_4 => cases h; exact ⟨rfl, .inl rfl⟩
  case h_5 => split at h <;> cases h; exact ⟨rfl, .inl rfl⟩
  case h_6 => split at h <;> cases h; exact ⟨rfl, .inl rfl⟩
  case h_7 => split at h <;> cases h <;> exact ⟨rfl, .inl rfl⟩
  case h_8 => cases h
  case h_9 => cases h

theorem begins_inv (h : Reach (step cfg) (Steady content) (.init cfg todo) ln) : Begins cfg content todo ln := by
  refine h.invariant (I := Begins cfg content todo) ?_ ?_
  · obtain ⟨r, hr⟩ := Lane.init_eq cfg todo
    rw [hr]
    exact ⟨fun _ => List.nil_prefix, List.nil_prefix⟩
  intro ln a ln' hr ih hst ho
  have hpiped := piped_inv (steady_source content) (hr.step hst ho)
  rcases step_cases hst with ⟨c, hs⟩ | ⟨-, hs⟩ | ⟨c, hs⟩
  · obtain ⟨hsock, htaken⟩ : ln'.sock = ln.sock ∧ ln'.log.taken = ln.log.taken := by
      cases (Lane.readStep_move hs).2 with
      | goes he => subst he; exact ⟨rfl, rfl⟩
      | take _ he => subst he; exact ⟨rfl, rfl⟩
      | push _ _ he =>
        subst he
        unfold Lane.push
        split <;> exact ⟨rfl, rfl⟩
    refine ⟨fun hf => ?_, by rw [htaken]; exact ih.taken⟩
    have hread := (hpiped hf).reader
    rw [hsock] at hf
    rcases readStep_sent hs with hsame | ⟨m, hsent, hne⟩ | ⟨e, hsent⟩
    · rw [hsame]
      exact ih.out hf
    · cases hk : ln'.reader with
      | «at» item st todo' =>
        rw [hk] at hread
        exact at_part hread
      | sendErr e => exact absurd hk (hne e)
      | left =>
        rw [hk] at hread
        rcases hread with ⟨frs, hfrs, rfl, ha⟩ | ⟨-, l, e, he, -⟩
        · rw [ha.bytes, parcels, read_parcels hfrs]
        · -- the last message would be an error
          obtain ⟨m', hm⟩ := @sunk_ok cfg ln.log.sent m
          rw [hsent, hm] at he
          have hlast := (List.append_inj' he rfl).2
          cases hlast
    · rw [hsent, sunk_error, allBytes_append, allBytes_singleton, bytesOf, List.append_nil]
      exact ih.out hf
  · obtain ⟨-, rq, hasher, sq, hash, rfl⟩ := Lane.hashStep_only hs
    exact ⟨ih.out, ih.taken⟩
  · obtain ⟨hsent, htaken⟩ := sockStep_taken hs
    have hout : ¬ ln'.sock.failed → allBytes (sunk cfg ln'.log.sent).2 <+: parcels cfg content todo := by
      intro hf
      rw [hsent]
      exact ih.out fun hx => hf (failed_step hst hx)
    refine ⟨hout, ?_⟩
    rcases htaken with hsame | hf
    · rw [hsame]
      exact ih.taken
    · refine (allBytes_mono ?_).trans (hout hf)
      exact (List.prefix_append ..).trans (hpiped hf).fed.out_isPrefix

/-- A lane has written a beginning of its items' frames with what the sources hold, whatever has failed. -/
theorem lane_part (h : Reach (step cfg) (Steady content) (.init cfg todo) ln) : ln.wrote <+: parcels cfg content todo ++ [0] := by
  have hpart := (begins_inv h).taken
  have hw := (written_inv (steady_source content) h).wrote
  have hof : ln.wrote <+: allBytes (ln.log.taken.map .ok) → ln.wrote <+: parcels cfg content todo ++ [0] := fun hx =>
    (hx.trans hpart).trans (List.prefix_append ..)
  cases hk : ln.sock with
  | left r =>
    rw [hk] at hw
    cases r with
    | ok u => rw [(lane_sent h hk).2]; exact List.prefix_rfl
    | error e => exact hof hw
  | writing m rest =>
    rw [hk] at hw
    exact hof ⟨rest, hw⟩
  | closing e => rw [hk] at hw; exact hof hw
  | panicked => rw [hk] at hw; exact hw.elim
  | recv | joinReader | joinHasher | terminator =>
    rw [hk] at hw
    have hw : ln.wrote = allBytes (ln.log.taken.map .ok) := hw
    exact hof (by rw [← hw])

/-! ## The lanes of a session -/

/-- The steps of the lanes meet `ok`. -/
def OnLanes (ok : Lane → Act → Lane → Prop) (s : State) (a : SessionAct) (s' : State) : Prop :=
  ∀ i b, a = .lane i b → ok (s.lane i) b (s'.lane i)

variable {ok : Lane → Act → Lane → Prop}

/-- Each lane has come to where it is on its share by steps that meet `ok`. -/
def Sharing (job : Job) (ok : Lane → Act → Lane → Prop) (have_ : List Bool) (lane : Nat → Lane) : MainPc → Prop
  | .pairing | .running | .acking | .returned (.ok _) =>
    ∀ i, Reach (step job.cfg) ok (.init job.cfg (job.share have_ i)) (lane i)
  | .offering _ | .awaiting | .returned (.error _) => True

theorem Sharing.mainStep (h : Sharing job ok s.have_ s.lane s.main) (hs : mainStep job c s = some s') :
    Sharing job ok s'.have_ s'.lane s'.main := by
  unfold Send.mainStep at hs
  split at hs
  case h_1 => cases hs; trivial
  case h_2 =>
    split at hs
    · cases hs; trivial
    · split at hs <;> cases hs; trivial
  case h_3 =>
    split at hs
    · cases hs; trivial
    · split at hs <;> cases hs; trivial
    · rename_i have_ rest _ _
      cases hs
      have hnew : ∀ i, Reach (step job.cfg) ok (.init job.cfg (job.share have_ i)) ((s.filtered job have_ rest).lane i) :=
        fun i => .init
      show Sharing job ok have_ _ (if job.flows = 1 then .running else .pairing)
      split <;> exact hnew
  case h_4 hm =>
    rw [hm] at h
    split at hs <;> cases hs
    · trivial
    · exact h
  case h_5 hm =>
    rw [hm] at h
    split at hs
    · split at hs <;> cases hs
      · trivial
      · exact h
    · cases hs
  case h_6 hm =>
    rw [hm] at h
    split at hs
    · cases hs; trivial
    · split at hs <;> cases hs; trivial
    · cases hs
      show Sharing job ok s.have_ s.lane (.returned (if _ = ACK then .ok s.stats else .error .refused))
      split
      · exact h
      · trivial
  case h_7 => cases hs

/-- The lanes of a session run on their shares. -/
theorem shared_inv (h : Reach (sessionStep job) (OnLanes ok) (.init job) s) : Sharing job ok s.have_ s.lane s.main := by
  refine h.invariant (I := fun s => Sharing job ok s.have_ s.lane s.main) ?_ ?_
  · exact True.intro
  intro s a s' _ ih hst ho
  cases a with
  | main c => exact ih.mainStep hst
  | lane i b =>
    obtain ⟨-, -, ln, hs, rfl⟩ := lane_some hst
    have hok := ho i b rfl
    rw [show ({ s with lane := Function.update s.lane i ln } : State).lane i = ln from Function.update_self ..] at hok
    have hgo : (∀ k, Reach (step job.cfg) ok (.init job.cfg (job.share s.have_ k)) (s.lane k)) →
        ∀ k, Reach (step job.cfg) ok (.init job.cfg (job.share s.have_ k)) (Function.update s.lane i ln k) := by
      intro hall k
      by_cases hk : k = i
      · subst hk
        rw [Function.update_self]
        exact (hall k).step hs hok
      · rw [Function.update_of_ne hk]
        exact hall k
    show Sharing job ok s.have_ (Function.update s.lane i ln) s.main
    cases hm : s.main with
    | offering | awaiting => trivial
    | pairing | running | acking => rw [hm] at ih; exact hgo ih
    | returned r =>
      rw [hm] at ih
      cases r with
      | ok st => exact hgo ih
      | error e => trivial
  | hear bytes =>
    rw [show sessionStep job s (.hear bytes) = if s.eof then none else some { s with heard := s.heard ++ bytes } from rfl] at hst
    split at hst <;> cases hst
    exact ih
  | cut => cases hst; exact ih

/-- A sender that returns Ok has written on each lane its share, each item with what its source holds. -/
theorem shares_sent {st : Stats} (h : Reach (sessionStep job) (OnLanes (Steady content)) (.init job) s)
    (hs : s.main = .returned (.ok st)) {i : Nat} (hi : i < job.flows) :
    Framing (job.share s.have_ i) ((job.share s.have_ i).map (parcel content)) ∧
      (s.lane i).wrote = encodeAll job.cfg ((job.share s.have_ i).map (parcel content)) ++ [0] := by
  have hlanes := shared_inv h
  have hsok := session_inv h
  rw [hs] at hlanes hsok
  obtain ⟨⟨-, hall⟩, -⟩ := hsok
  exact lane_sent (hlanes i) (hall i hi)

end Thunderflash.Send
