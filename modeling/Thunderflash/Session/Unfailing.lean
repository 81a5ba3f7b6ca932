/-
A session none of whose calls fails, and whose sources hold what the walk found: neither end returns an error, in
whatever order the threads run and the bytes arrive.
-/
import Thunderflash.Session.Midway
import Thunderflash.Send.Unfailing
import Thunderflash.Recv.Parses

namespace Thunderflash.Send

open Codec Lts

variable {job : Job} {c : Choice} {s s' : State} {content : Item → Bytes}

/-! ## The sender -/

/-- Lanes that have met no error give none. -/
theorem firstFailure_unspoilt (h : ∀ i, ¬ (s.lane i).sock.failed ∧ (s.lane i).sock ≠ .panicked) :
    firstFailure job s = none := by
  rw [firstFailure, List.findSome?_eq_none_iff]
  intro i _
  obtain ⟨hf, hp⟩ := h i
  unfold Lane.result
  split
  · rename_i e he
    split at he
    · cases he
    · rename_i hk
      exact absurd (by rw [hk]; trivial) hf
    · rename_i hk
      exact absurd hk hp
    · cases he
  · rfl

/-- The lanes of a sender whose calls succeed meet no error. -/
theorem lanes_unspoilt (hf : 0 < job.flows)
    (hl : ∀ item ∈ job.items, item.entry.kind = .symlink → (content item).length = item.entry.size.toNat)
    (h : Reach (sessionStep job) (OnLanes (Fine content)) (.init job) s) (hm : s.main = .running) (i : Nat) :
    ¬ (s.lane i).sock.failed ∧ (s.lane i).sock ≠ .panicked := by
  cases underway_inv h with
  | before hidle =>
    rw [spawned_inv h hm] at hidle
    cases hidle
  | dealt _ _ _ hlanes =>
    refine ⟨(unspoilt_inv (fun item hi => hl item (Session.mem_share hf hi)) (hlanes i)).sock, fun hk => ?_⟩
    have hw := (written_inv (steady_source content) ((hlanes i).mono fun _ _ _ ho => ho.steady)).wrote
    rw [hk] at hw
    exact hw

/-- What may still fail a sender whose calls succeed is its lanes and the reply. -/
theorem mainStep_unspoilt (hlanes : s.main = .running → ∀ i, ¬ (s.lane i).sock.failed ∧ (s.lane i).sock ≠ .panicked)
    (hf : c.fault = none)
    (hend : s.main = .awaiting → s.eof = true → readBitmap (offered job.items) s.heard ≠ .more)
    (hack : s.main = .acking → (s.eof = true → s.heard ≠ []) ∧ ∀ b rest, s.heard = b :: rest → b = ACK)
    (hs : mainStep job c s = some s') (e : Failure) : s'.main ≠ .returned (.error e) := by
  unfold mainStep at hs
  split at hs
  case h_1 => cases hs; simp [State.goto]
  case h_2 =>
    rw [hf] at hs
    dsimp only at hs
    split at hs <;> cases hs
    simp
  case h_3 hm =>
    rw [hf] at hs
    split at hs
    · rename_i he
      cases he
    · rename_i hmore
      split at hs
      · rename_i heof
        exact absurd hmore (hend hm heof)
      · cases hs
    · cases hs
      show (if job.flows = 1 then MainPc.running else .pairing) ≠ _
      split <;> simp
  case h_4 => rw [hf] at hs; cases hs; simp
  case h_5 hm =>
    rw [firstFailure_unspoilt (hlanes hm)] at hs
    split at hs <;> cases hs
    simp
  case h_6 hm =>
    rw [hf] at hs
    split at hs
    · rename_i he
      cases he
    · rename_i hnil
      split at hs
      · rename_i heof
        exact absurd hnil ((hack hm).1 heof)
      · cases hs
    · rename_i b rest _ hb
      cases hs
      rw [(hack hm).2 b rest hb]
      simp
  case h_7 => cases hs

theorem mainStep_eof (hs : mainStep job c s = some s') : s'.eof = s.eof ∧ ¬ s.main.over := by
  unfold mainStep at hs
  split at hs
  case h_1 hm => cases hs; exact ⟨rfl, by rw [hm]; exact id⟩
  case h_2 hm =>
    split at hs
    · cases hs; exact ⟨rfl, by rw [hm]; exact id⟩
    · split at hs <;> cases hs
      exact ⟨rfl, by rw [hm]; exact id⟩
  case h_3 hm =>
    split at hs
    · cases hs; exact ⟨rfl, by rw [hm]; exact id⟩
    · split at hs <;> cases hs
      exact ⟨rfl, by rw [hm]; exact id⟩
    · cases hs; exact ⟨rfl, by rw [hm]; exact id⟩
  case h_4 hm => split at hs <;> cases hs <;> exact ⟨rfl, by rw [hm]; exact id⟩
  case h_5 hm =>
    split at hs
    · split at hs <;> cases hs <;> exact ⟨rfl, by rw [hm]; exact id⟩
    · cases hs
  case h_6 hm =>
    split at hs
    · cases hs; exact ⟨rfl, by rw [hm]; exact id⟩
    · split at hs <;> cases hs
      exact ⟨rfl, by rw [hm]; exact id⟩
    · cases hs; exact ⟨rfl, by rw [hm]; exact id⟩
  case h_7 => cases hs

end Thunderflash.Send

namespace Thunderflash.Recv

open Codec Posix Lts

variable {cfg : Cfg} {c : Choice} {sh sh' : Shared} {fl fl' : Flow} {s s' : State} {fs0 : Fs}

/-! ## The receiver -/

/-- A call of the writer has failed, and it is about to drop its file. -/
def WriterPc.hit : WriterPc → Prop
  | .failDrop .. | .lateDrop .. => True
  | _ => False

/-- A call of the net thread has failed, and it has returned the error. -/
def NetPc.hit : NetPc → Prop
  | .finished (.error e) => e.fromCall
  | _ => False

/-- A call of the main thread has failed, and it has returned the error. -/
def MainPc.hit : MainPc → Prop
  | .returned (.error (.os _)) => True
  | _ => False

instance (m : MainPc) : Decidable m.hit := by unfold MainPc.hit; split <;> infer_instance

theorem WriterPc.hit.failed {w : WriterPc} (h : w.hit) : w.failed := by
  unfold WriterPc.hit at h
  split at h
  · trivial
  · trivial
  · exact h.elim

theorem NetPc.hit.failed {n : NetPc} (h : n.hit) : n.failed := by
  unfold NetPc.hit at h
  split at h
  · trivial
  · exact h.elim

/-- A writer that has met no error meets one in a call. -/
theorem writerStep_unspoilt (hs : fl.writerStep cfg c sh = some (sh', fl')) (hf : ¬ fl.writer.failed)
    (hh : ¬ fl'.writer.hit) :
    ¬ fl'.writer.failed := by
  have hundo : ∀ {t : InFlight} {fl1 : Flow}, (fl1.undo cfg c t sh).2.writer = fl1.writer := rfl
  have hdrop : ∀ {m : Msg} {fl1 : Flow}, (fl1.dropMsg cfg c m sh).2.writer = fl1.writer := by
    intro m fl1
    unfold Flow.dropMsg
    split <;> rfl
  have hsettle : ∀ (t : InFlight) (fl1 : Flow), ¬ (fl1.settle t).writer.failed := by
    intro t fl1
    unfold Flow.settle
    split <;> exact id
  have hhandle : ∀ {current : Option Cursor} {m : Msg} {fl1 : Flow}, ¬ fl1.writer.failed →
      ¬ (fl1.handle current m sh).2.writer.failed := by
    intro current m fl1 hf1
    unfold Flow.handle
    split <;> first
      | exact hf1
      | exact id
      | (dsimp only; split <;> exact id)
  unfold Flow.writerStep at hs
  split at hs
  case h_1 =>
    split at hs
    · obtain rfl := congrArg Prod.snd (Option.some.inj hs)
      exact hhandle hf
    · split at hs <;> cases hs
      exact id
    · split at hs <;> cases hs
      exact id
  case h_2 =>
    obtain rfl := congrArg Prod.snd (Option.some.inj hs)
    rw [hundo]
    exact id
  case h_3 =>
    split at hs
    · cases hs; exact id
    · split at hs
      · split at hs <;> cases hs
        · exact id
        · exact absurd trivial hh
      · cases hs
  case h_4 => cases hs; exact id
  case h_5 =>
    cases hs
    split
    · exact id
    · exact hsettle _ _
  case h_6 =>
    split at hs <;> cases hs
    · exact hsettle _ _
    · exact absurd trivial hh
  case h_7 =>
    split at hs <;> cases hs
    · dsimp only
      split <;> exact id
    · exact absurd trivial hh
  case h_8 =>
    split at hs <;> cases hs
    · exact id
    · exact absurd trivial hh
  case h_9 hw | h_10 hw => exact absurd (by rw [hw]; trivial) hf
  case h_11 =>
    obtain rfl := congrArg Prod.snd (Option.some.inj hs)
    rw [hundo]
    exact id
  case h_12 m l r hw =>
    obtain rfl := congrArg Prod.snd (Option.some.inj hs)
    rw [hdrop]
    rw [hw] at hf
    cases r with
    | ok u => exact id
    | error e => exact absurd trivial hf
  case h_13 => cases hs

/-- Neither thread of the flow that reads or writes has met an error, or is about to. -/
structure Unspoilt (fl : Flow) : Prop where
  net : ∀ e, fl.net ≠ .finished (.error e)
  kept : ∀ j t, fl.net ≠ .at j (.dropBegin t)
  writer : ¬ fl.writer.failed

theorem Unspoilt.init (cfg : Cfg) : Unspoilt (.init cfg) := ⟨nofun, nofun, id⟩

theorem Unspoilt.aside {i : Nat} (h : Unspoilt (s.flow i)) (ha : Aside s s') : Unspoilt (s'.flow i) :=
  ⟨fun e => by rw [ha.net]; exact h.net e, fun j t => by rw [ha.net]; exact h.kept j t, by rw [ha.writer]; exact h.writer⟩

theorem Unspoilt.unbroken {frames : List Frame} (h : Unspoilt fl) : ¬ fl.net.broken frames := by
  unfold NetPc.broken
  split
  · rename_i e hn
    exact absurd hn (h.net e)
  · rename_i j t hn
    exact absurd hn (h.kept j t)
  · exact id

/-- A thread that gives up on nothing but a failed call gives up on nothing. -/
theorem Unspoilt.of_unbroken {frames : List Frame} (hb : ¬ fl.net.broken frames) (hn : ¬ fl.net.hit)
    (ht : ∀ fr ∈ frames, fr.entry.kind = .symlink → 0 ∉ fr.payload) (hw : ¬ fl.writer.failed) : Unspoilt fl := by
  refine ⟨fun e he => ?_, fun j t he => ?_, hw⟩
  · have hcause : ¬ e.fromCall := by
      rw [he] at hn
      exact hn
    rw [he] at hb
    have hexcused : e.excused frames := not_not.1 hb
    cases e with
    | nul =>
      obtain ⟨fr, hfr, hk, h0⟩ := hexcused
      exact ht fr hfr hk h0
    | os => exact hcause trivial
    | descend => exact hcause trivial
    | _ => exact hexcused
  · rw [he] at hb
    exact hb trivial

theorem Unspoilt.result {e : Err} (h : Unspoilt fl) : fl.result cfg ≠ some (.error e) := by
  intro he
  have hwriter : ∀ {e : Err}, fl.writer ≠ .closing [] (.error e) := fun hw => h.writer (by rw [hw]; trivial)
  unfold Flow.result at he
  split at he
  · rename_i hn _ hw
    split at he
    · exact hwriter hw
    · cases he
      exact h.net e hn
  · rename_i hn hw _
    split at he
    · cases he
    · split at he
      · exact hwriter hw
      · cases he
        exact h.net e hn
  · cases he

/-- Flows that have met no error give none. -/
theorem firstError_unspoilt (h : ∀ i, Unspoilt (s.flow i)) : firstError cfg s = none := by
  rw [firstError, List.findSome?_eq_none_iff]
  intro i _
  split
  · rename_i he
    exact absurd he (h i).result
  · rfl

/-- What may still fail a receiver whose calls succeed is its flows and the list. -/
theorem mainStep_unspoilt (hflows : ∀ i, Unspoilt (s.flow i)) (hf : c.fault = none)
    (hlist : s.main = .manifest → (∀ e, Entry.decode (s.flow 0).wire ≠ .fail e) ∧ (s.flow 0).eof = false)
    (hs : mainStep cfg c s = some s') (hcall : ¬ s'.main.hit) (e : Err) :
    s'.main ≠ .returned (.error e) := by
  have hheld : ∀ (s : State) (x : Entry), (s.held x).main ≠ .returned (.error e) := by
    intro s x hx
    have := held_main s x
    rw [hx] at this
    exact this
  unfold mainStep at hs
  split at hs
  case h_1 => rw [hf] at hs; cases hs; simp [State.goto]
  case h_2 hm =>
    rw [hf] at hs
    obtain ⟨hfail, heof⟩ := hlist hm
    split at hs
    · rename_i he
      cases he
    · rw [heof] at hs
      cases hs
    · rename_i e' _ hd
      exact absurd hd (hfail e')
    · cases hs; simp [State.goto]
    · cases hs
      split
      · exact hheld _ _
      · show s.main ≠ _
        rw [hm]
        simp
  case h_3 =>
    split at hs <;> cases hs <;> simp [State.goto, State.answer, State.arrive]
  case h_4 =>
    split at hs <;> cases hs <;> simp [State.goto, State.answer, State.arrive]
  case h_5 =>
    split at hs <;> cases hs <;> simp [State.answer]
  case h_6 =>
    rw [hf] at hs
    cases hs
    show (if cfg.flows = 1 then MainPc.running else .pairing) ≠ _
    split <;> simp
  case h_7 => rw [hf] at hs; cases hs; simp [State.goto]
  case h_8 =>
    rw [firstError_unspoilt hflows] at hs
    split at hs <;> cases hs
    simp [State.goto]
  case h_9 =>
    split at hs <;> cases hs
    · simp [State.goto]
    · exact absurd trivial hcall
  case h_10 => cases hs; simp [State.goto]
  case h_11 => rw [hf] at hs; cases hs; simp [State.goto]
  case h_12 => cases hs

theorem mainStep_eof (hs : mainStep cfg c s = some s') : (∀ i, (s'.flow i).eof = (s.flow i).eof) ∧ ¬ s.main.over := by
  have hrest : ∀ (rest : Bytes) (i : Nat), ((s.consume rest).flow i).eof = (s.flow i).eof := by
    intro rest i
    show (Function.update s.flow 0 _ i).eof = _
    by_cases hi : i = 0
    · subst hi; rw [Function.update_self]
    · rw [Function.update_of_ne hi]
  unfold mainStep at hs
  split at hs
  case h_2 hm =>
    refine ⟨fun i => ?_, by rw [hm]; exact id⟩
    split at hs
    · cases hs; rfl
    · split at hs <;> cases hs; rfl
    · cases hs; rfl
    · cases hs; exact hrest _ i
    · cases hs
      split
      · rw [held_flow]; exact hrest _ i
      · exact hrest _ i
  case h_8 hm =>
    split at hs
    · split at hs <;> cases hs <;> exact ⟨fun _ => rfl, by rw [hm]; exact id⟩
    · cases hs
  case h_10 hm => cases hs; exact ⟨fun _ => rfl, by rw [hm]; exact id⟩
  case h_12 => cases hs
  all_goals
    rename_i hm
    split at hs <;> cases hs <;> exact ⟨fun _ => rfl, by rw [hm]; exact id⟩

end Thunderflash.Recv

namespace Thunderflash.Session

open Codec Posix Lts

open Send (Item Sent parcel)

variable {x : Setup} {fs0 : Fs} {s s' : State} {content : Item → Bytes} {i : Nat}

/-! ## The streams -/

/-- The sources hold what the walk found, the targets among it can be made ones, and the receiver takes the paths. -/
def Found (content : Item → Bytes) (items : List Item) : Prop :=
  ∀ item ∈ items, Send.payloadLen item.entry ≤ (content item).length ∧
    (item.entry.kind = .symlink →
      (content item).length = item.entry.size.toNat ∧ utf8 (content item) = true ∧ 0 ∉ content item) ∧
    sanitize item.entry.path.bytes = .ok (landing item)

instance (content : Item → Bytes) (items : List Item) : Decidable (Found content items) := by
  unfold Found
  infer_instance

/-- An item as it arrives. -/
def frameFor (x : Setup) (content : Item → Bytes) (item : Item) : Recv.Frame :=
  ⟨item.entry, landing item, (parcel content item).payload,
    if item.entry.kind = .dir then [] else Recv.digestOf x.receiver (parcel content item).payload⟩

/-- An item arrives as it was sent. -/
theorem frameFor_encode {item : Item} (hh : item.header = item.entry.encode) (hf : item.entry.Framed) :
    (frameFor x content item).encode = (parcel content item).encode x.sender.cfg := by
  have htrailer : (frameFor x content item).trailer =
      Send.trailerOf x.sender.cfg item.entry (parcel content item).payload := by
    show (if item.entry.kind = .dir then [] else Recv.digestOf x.receiver (parcel content item).payload) = _
    unfold Send.trailerOf Recv.digestOf
    cases hk : item.entry.kind with
    | file | symlink => rfl
    | dir => rfl
    | end_ => exact absurd hk hf.kind
  rw [Recv.Frame.encode, htrailer, Send.Sent.encode, show (parcel content item).item = item from rfl, hh]
  rfl

theorem frames_stream : ∀ {items : List Item}, Send.Walked items →
    Send.encodeAll x.sender.cfg (items.map (parcel content)) ++ [0] = Recv.streamOf (items.map (frameFor x content))
  | [], _ => rfl
  | item :: items, hw => by
    obtain ⟨hh, hf⟩ := hw item (by simp)
    have ih := @frames_stream items fun y hy => hw y (by simp [hy])
    rw [Recv.streamOf, List.map_cons, List.map_cons, Recv.encodeAll_cons, frameFor_encode hh hf, List.append_assoc]
    rw [Recv.streamOf] at ih
    rw [← ih, ← List.append_assoc]
    rfl

section Items

variable (hv : Visited x.items) (hf : 1 ≤ x.flows) (hc : Found content x.items)

include hv hf hc

/-- What arrives of a share is whole, and the targets in it can be made ones. -/
theorem frames_clean (have_ : List Bool) (i : Nat) :
    Recv.Clean x.receiver ((x.sender.share have_ i).map (frameFor x content)) := by
  intro fr hfr
  obtain ⟨item, hitem, rfl⟩ := List.mem_map.1 hfr
  have hmem := mem_share (show 0 < x.sender.flows from hf) hitem
  obtain ⟨hlong, hlink, hpath⟩ := hc item hmem
  have hframed := (hv.walked item hmem).2
  refine ⟨⟨hframed, hpath, ?_, rfl⟩, fun hk => ?_⟩
  · show ((content item).take (Send.payloadLen item.entry)).length = _
    rw [List.length_take, Nat.min_eq_left hlong, payloadLen_eq hframed]
    rfl
  · have hk : item.entry.kind = .symlink := hk
    obtain ⟨hlen, hutf, hnul⟩ := hlink hk
    have hall : (frameFor x content item).payload = content item := by
      show (content item).take (Send.payloadLen item.entry) = _
      rw [List.take_of_length_le]
      rw [payloadLen_eq hframed, hlen, if_neg (by rw [hk]; simp)]
    rw [hall]
    exact ⟨hutf, hnul⟩

end Items

/-! ## One step -/

/-- The step of a lane reads what its source holds. -/
def Fine (content : Item → Bytes) (s : State) : Act → Prop
  | .lane i b => Send.Fine content (s.snd.lane i) b (s.snd.lane i)
  | _ => True

instance (m : Send.MainPc) : Decidable m.over := by unfold Send.MainPc.over; split <;> infer_instance

instance (m : Recv.MainPc) : Decidable m.over := by unfold Recv.MainPc.over; split <;> infer_instance

instance (a : Act) : Decidable a.calm := by unfold Act.calm; split <;> infer_instance

instance (a : Act) : Decidable (a.onward x s) := by unfold Act.onward; split <;> infer_instance

/-- Nothing fails in the step: its own calls succeed, the sources hold what the walk found, no operation on the
destination fails, and a connection is let go only by an end that has returned. -/
structure Untroubled (x : Setup) (content : Item → Bytes) (s : State) (a : Act) (s' : State) : Prop where
  onward : a.onward x s
  calm : a.calm
  fine : Fine content s a
  flows : ∀ i < x.flows, ¬ (s'.rcv.flow i).net.hit ∧ ¬ (s'.rcv.flow i).writer.hit
  main : ¬ s'.rcv.main.hit

theorem Untroubled.steady {a : Act} (h : Untroubled x content s a s') : Steady content s a s' := by
  cases a with
  | lane i b => exact (show Send.Fine content (s.snd.lane i) b (s.snd.lane i) from h.fine).steady
  | _ => trivial

/-- Neither end has met an error, and each connection is open until its end has returned. -/
structure Well (s : State) : Prop where
  sender : ∀ e, s.snd.main ≠ .returned (.error e)
  receiver : ∀ e, s.rcv.main ≠ .returned (.error e)
  flows : ∀ i, Recv.Unspoilt (s.rcv.flow i)
  reply : s.snd.eof = true → s.rcv.main.over ∧ s.back = s.rcv.reply.length
  open_ : ∀ i, (s.rcv.flow i).eof = true → s.snd.main.over

section Run

variable (hv : Visited x.items) (h : Reach (step x) (Untroubled x content) (.init x fs0) s)

include hv h

/-- While the receiver has not returned its connections are open. -/
theorem Well.still (hw : Well s) (hm : ¬ s.rcv.main.over) (i : Nat) : (s.rcv.flow i).eof = false := by
  by_contra he
  have hover := hw.open_ i (by simpa using he)
  cases hs : s.snd.main with
  | returned r =>
    cases r with
    | ok st =>
      obtain ⟨st', hr⟩ := receiver_ok hv h.any hs
      exact hm (by rw [hr]; trivial)
    | error e => exact hw.sender e hs
  | _ => rw [hs] at hover; exact hover

/-- A reply that has ended has been the whole reply of a receiver that returned Ok. -/
theorem Well.answered (hw : Well s) (hwrote : s.snd.wrote = Send.manifest x.items) (he : s.snd.eof = true) :
    s.back = s.rcv.reply.length ∧ s.rcv.reply = encodeBitmap s.rcv.bits ++ [ACK] ∧
      s.rcv.bits.length = Send.offered x.items := by
  obtain ⟨hover, hback⟩ := hw.reply he
  have htally := Recv.tally_inv (receiver_reachable h.any)
  cases hm : s.rcv.main with
  | returned r =>
    cases r with
    | ok st =>
      rw [hm] at htally
      exact ⟨hback, htally.2, answered_items hv h.any hwrote htally.1⟩
    | error e => exact absurd hm (hw.receiver e)
  | _ => rw [hm] at hover; exact hover.elim

/-- What has come of the list can be read on. -/
theorem list_reads (hm : s.rcv.main = .manifest) (e : DecodeError) : Entry.decode (s.rcv.flow 0).wire ≠ .fail e := by
  intro hd
  have htally := Recv.tally_inv (receiver_reachable h.any)
  have hphase := Recv.phase_ok (receiver_reachable h.any)
  rw [hm] at htally hphase
  obtain ⟨⟨es, hes, hgot⟩, -⟩ := htally
  have hpart := ((linked_inv h.any).wired.part 0).trans (List.take_prefix ..)
  unfold Recv.State.stream Send.State.sent at hpart
  obtain ⟨wire, eof, hflow⟩ := hphase.flow 0
  rw [if_pos rfl, if_pos rfl, hgot, show (s.rcv.flow 0).log.got = [] by rw [hflow]; rfl, List.nil_append] at hpart
  -- all that can have come is the sender's list and what its first lane wrote behind it
  obtain ⟨later, hlater⟩ : ∃ later, s.snd.wrote ++ (s.snd.lane 0).wrote <+: Send.manifest x.items ++ later := by
    cases Send.underway_inv (sender_steady (h.mono fun _ _ _ hu => hu.steady)) with
    | before _ hnil hw _ =>
      refine ⟨[], ?_⟩
      rw [hnil 0, List.append_nil, List.append_nil]
      exact hw
    | dealt hw _ _ _ => exact ⟨(s.snd.lane 0).wrote, by rw [hw]; exact List.prefix_rfl⟩
  obtain ⟨missing, hmiss⟩ := hpart.trans hlater
  rw [sender_manifest hv, List.append_assoc, List.append_assoc] at hmiss
  obtain ⟨rest, hrest, hwire⟩ := Recv.encodings_split hes.framed hv.walked.framed hmiss
  have hfail := Entry.stable_decode.fail hd missing
  rw [hwire] at hfail
  cases rest with
  | nil =>
    have hend : Entry.decode (Recv.encodings [] ++ (Entry.terminator ++ later)) = .ok none later := Entry.decode_terminator _
    rw [hend] at hfail
    cases hfail
  | cons e' rest =>
    have hmem : e' ∈ x.items.map Item.entry := by
      rw [hrest]
      simp
    have hdec : Entry.decode (Recv.encodings (e' :: rest) ++ (Entry.terminator ++ later)) =
        .ok (some e') (Recv.encodings rest ++ (Entry.terminator ++ later)) := by
      show Entry.decode (e'.encode ++ Recv.encodings rest ++ _) = _
      rw [List.append_assoc]
      exact Entry.decode_encode (hv.walked.framed e' hmem) _
    rw [hdec] at hfail
    cases hfail

/-- The step of the sender's main thread. -/
theorem Well.sendMain (hf : 1 ≤ x.flows)
    (hl : ∀ item ∈ x.items, item.entry.kind = .symlink → (content item).length = item.entry.size.toNat) (hw : Well s)
    {c : Send.Choice} {snd : Send.State} (hs : Send.mainStep x.sender c s.snd = some snd) (hcalm : c.fault = none)
    (e : Send.Failure) : snd.main ≠ .returned (.error e) := by
  have hok := Send.session_inv (sender_reachable h.any)
  have hlinked := linked_inv h.any
  refine Send.mainStep_unspoilt (fun hm i => ?_) hcalm (fun hm he hmore => ?_) (fun hm => ?_) hs e
  · exact Send.lanes_unspoilt (show 0 < x.sender.flows from hf) hl (sender_lanes (fun s i b _ ho _ => ho.fine) h) hm i
  · rw [hm] at hok
    obtain ⟨hback, hreply, hlen⟩ := hw.answered hv h hok.1 he
    have hrep := hlinked.replied
    rw [hm] at hrep
    have hheard : s.snd.heard = s.rcv.reply.take s.back := hrep
    have hread := readBitmap_encodeBitmap s.rcv.bits [ACK]
    have hmore : readBitmap (Send.offered x.items) s.snd.heard = .more := hmore
    rw [hlen, ← hreply, ← List.take_length (l := s.rcv.reply), ← hback, ← hheard, hmore] at hread
    cases hread
  · have hhears := hears_inv h.any
    rw [hm] at hok hhears
    have hhears : readBitmap (Send.offered x.items) (s.rcv.reply.take s.back) = .ok s.snd.have_ s.snd.heard := hhears
    refine ⟨fun he hnil => ?_, fun b rest hb => ?_⟩
    · obtain ⟨hback, hreply, hlen⟩ := hw.answered hv h hok.1.wrote he
      have hread := readBitmap_encodeBitmap s.rcv.bits [ACK]
      rw [hback, List.take_length, hreply, ← hlen, hread] at hhears
      injection hhears with _ hrest
      rw [hnil] at hrest
      cases hrest
    · -- all that stands behind the answer is the acknowledgement
      have hread := (stable_readBitmap _).ok hhears (s.rcv.reply.drop s.back)
      rw [List.take_append_drop, hb] at hread
      exact (behind_answer hv h.any hok.1.wrote hread).1

/-- The step of a flow's net thread. -/
theorem Well.net (hf : 1 ≤ x.flows) (hc : Found content x.items) (hw : Well s) {c : Recv.Choice} {sh' : Recv.Shared}
    {fl' : Recv.Flow} (hm : s.rcv.main = .running)
    (hs : (s.rcv.flow i).netStep x.receiver c s.rcv.sh = some (sh', fl')) (hcalm : c.fault = none)
    (hcall : ¬ fl'.net.hit) : Recv.Unspoilt fl' := by
  have hinv := Recv.flow_inv (receiver_reachable h.any) i
  have htally := Recv.tally_inv (receiver_reachable h.any)
  rw [hm] at htally
  obtain ⟨⟨es, htal, hgot⟩, -⟩ := htally
  have hclean := frames_clean hv hf hc s.snd.have_ i
  have hpart := fed_part hv (h.mono fun _ _ _ hu => hu.steady) htal.framed hgot i
  have hshare : Send.Walked (x.sender.share s.snd.have_ i) := fun item hi =>
    hv.walked item (mem_share (show 0 < x.sender.flows from hf) hi)
  rw [frames_stream hshare] at hpart
  -- nothing has ended, so a first part of the frames is all that the flow is to expect
  have hopen := hw.still hv h (by rw [hm]; exact id) i
  have hfed : Recv.Feeds (Recv.streamOf ((x.sender.share s.snd.have_ i).map (frameFor x content)) ++ []) (s.rcv.flow i) := by
    refine ⟨by rw [List.append_nil]; exact hpart, fun he => ?_⟩
    rw [hopen] at he
    cases he
  have hgood := hw.flows i
  have hbroken := Recv.netStep_sound hclean.sound hinv.net hinv.pipe hfed hgood.writer hgood.unbroken hcalm hs
  refine .of_unbroken hbroken hcall (fun fr hfr hk => ((hclean fr hfr).2 hk).2) ?_
  rw [(Recv.netStep_writer hs).1]
  exact hgood.writer

/-- A step in which nothing fails leaves neither end with an error. -/
theorem Well.step (hf : 1 ≤ x.flows) (hc : Found content x.items) (hw : Well s) {a : Act} (hs : step x s a = some s')
    (ho : Untroubled x content s a s') : Well s' := by
  have hlinks : ∀ item ∈ x.items, item.entry.kind = .symlink → (content item).length = item.entry.size.toNat :=
    fun item hi hk => ((hc item hi).2.1 hk).1
  have hput : ∀ {k : Nat} {y : Recv.Shared × Recv.Flow}, Recv.Live x.receiver s.rcv k →
      y.2.eof = (s.rcv.flow k).eof → Recv.Unspoilt y.2 → Well { s with rcv := s.rcv.put k y } := by
    intro k y hl he hy
    refine ⟨hw.sender, hw.receiver, fun j => ?_, hw.reply, fun j hj => ?_⟩
    · by_cases hk : j = k
      · subst hk
        rw [Recv.put_flow]
        exact hy
      · rw [Recv.put_flow_ne _ _ hk]
        exact hw.flows j
    · refine hw.open_ j ?_
      by_cases hk : j = k
      · subst hk
        rw [Recv.put_flow] at hj
        exact he.symm.trans hj
      · rwa [Recv.put_flow_ne _ _ hk] at hj
  cases a with
  | sendMain c =>
    obtain ⟨snd, hst, rfl⟩ := Option.map_eq_some_iff.1 (show s.send x (.main c) = some s' from hs)
    obtain ⟨heof, hover⟩ := Send.mainStep_eof hst
    exact ⟨hw.sendMain hv h hf hlinks hst ho.calm, hw.receiver, hw.flows, fun he => hw.reply (heof.symm.trans he),
      fun j hj => absurd (hw.open_ j hj) hover⟩
  | lane k b =>
    obtain ⟨snd, hst, rfl⟩ := Option.map_eq_some_iff.1 (show s.send x (.lane k b) = some s' from hs)
    obtain ⟨-, -, ln, -, rfl⟩ := Send.lane_some hst
    exact ⟨hw.sender, hw.receiver, hw.flows, hw.reply, hw.open_⟩
  | cutReply =>
    obtain ⟨snd, hst, rfl⟩ := Option.map_eq_some_iff.1 (show s.send x .cut = some s' from hs)
    cases hst
    exact ⟨hw.sender, hw.receiver, hw.flows, fun _ => ⟨ho.onward.1, ho.onward.2.1⟩, hw.open_⟩
  | reply count =>
    obtain ⟨snd, hst, rfl⟩ := Option.map_eq_some_iff.1 hs
    rw [show Send.sessionStep x.sender s.snd (.hear (next s.rcv.reply s.back count)) = if s.snd.eof then none else
      some { s.snd with heard := s.snd.heard ++ next s.rcv.reply s.back count } from rfl] at hst
    split at hst
    · cases hst
    · rename_i hne
      cases hst
      exact ⟨hw.sender, hw.receiver, hw.flows, fun he => absurd he hne, hw.open_⟩
  | deliver k count =>
    obtain ⟨rcv, hst, rfl⟩ := Option.map_eq_some_iff.1 hs
    have heof := (Recv.deliver_stream hst).2
    simp only [Recv.step] at hst
    split at hst
    · cases hst
    · cases hst
      refine ⟨hw.sender, hw.receiver, fun j => ?_, hw.reply, fun j hj => hw.open_ j ((heof j).1.symm.trans hj)⟩
      exact (hw.flows j).aside (.wire s.rcv k _ _)
  | cut k keep =>
    obtain ⟨rcv, hst, rfl⟩ := Option.map_eq_some_iff.1 (show s.recv x (.cut k keep) = some s' from hs)
    cases hst
    -- only a sender that has returned lets go of a connection
    refine ⟨hw.sender, hw.receiver, fun j => ?_, hw.reply, fun j _ => ho.onward.1⟩
    exact (hw.flows j).aside (.wire s.rcv k _ _)
  | net k c =>
    obtain ⟨rcv, hst, rfl⟩ := Option.map_eq_some_iff.1 (show s.recv x (.net k c) = some s' from hs)
    obtain ⟨⟨sh', fl'⟩, hl, hnet, rfl⟩ := Recv.threadStep_some hst
    refine hput hl ?_ (hw.net hv h hf hc hl.1 hnet ho.calm ?_)
    · exact ((Recv.FlowStep.net hnet).ledger ⟨Recv.stated_inv (receiver_reachable h.any) k, rfl, rfl⟩).eof
    · have hhit := (ho.flows k hl.2).1
      rwa [Recv.put_flow] at hhit
  | hash k c =>
    obtain ⟨rcv, hst, rfl⟩ := Option.map_eq_some_iff.1 (show s.recv x (.hash k c) = some s' from hs)
    simp only [Recv.step] at hst
    split at hst
    · obtain ⟨⟨sh', fl'⟩, hl, hhash, rfl⟩ := Recv.threadStep_some hst
      obtain ⟨_, _, _, _, _, _, rfl⟩ := Recv.hashStep_only hhash
      have hj := hw.flows k
      exact hput hl rfl ⟨hj.net, hj.kept, hj.writer⟩
    · cases hst
  | writer k c =>
    obtain ⟨rcv, hst, rfl⟩ := Option.map_eq_some_iff.1 (show s.recv x (.writer k c) = some s' from hs)
    obtain ⟨⟨sh', fl'⟩, hl, hwriter, rfl⟩ := Recv.threadStep_some hst
    have hj := hw.flows k
    have hhit := (ho.flows k hl.2).2
    rw [Recv.put_flow] at hhit
    have hgood := Recv.writerStep_unspoilt hwriter hj.writer hhit
    obtain ⟨_, _, _, _, _, _, rfl⟩ := Recv.writerStep_only hwriter
    exact hput hl rfl ⟨hj.net, hj.kept, hgood⟩
  | recvMain c =>
    obtain ⟨rcv, hst, rfl⟩ := Option.map_eq_some_iff.1 (show s.recv x (.main c) = some s' from hs)
    obtain ⟨heof, hover⟩ := Recv.mainStep_eof hst
    refine ⟨hw.sender, ?_, fun j => ?_, fun he => absurd (hw.reply he).1 hover,
      fun j hj => hw.open_ j ((heof j).symm.trans hj)⟩
    · exact Recv.mainStep_unspoilt hw.flows ho.calm (fun hm => ⟨list_reads hv h hm, hw.still hv h hover 0⟩) hst ho.main
    · exact (hw.flows j).aside (Recv.mainStep_aside hst)

end Run

theorem well_inv (hv : Visited x.items) (hf : 1 ≤ x.flows) (hc : Found content x.items)
    (h : Reach (step x) (Untroubled x content) (.init x fs0) s) : Well s := by
  refine h.invariant (I := Well) ?_ ?_
  · exact {
      sender := by simp [State.init, Send.State.init]
      receiver := by simp [State.init, Recv.State.init]
      flows := fun i => .init x.receiver
      reply := by simp [State.init, Send.State.init]
      open_ := by simp [State.init, Recv.State.init, Recv.Flow.init] }
  · exact fun s a s' hr hw hst ho => hw.step hv hr hf hc hst ho

/-- Where nothing fails, neither end of a session ever returns an error, and where it cannot go on both have returned Ok,
with the same stats. -/
theorem unfailing (hv : Visited x.items) (hd : 1 ≤ x.sendDepth) (hd' : 1 ≤ x.recvDepth) (hf : 1 ≤ x.flows)
    (hc : Found content x.items) (h : Reach (step x) (Untroubled x content) (.init x fs0) s) :
    (∀ e, s.snd.main ≠ .returned (.error e)) ∧ (∀ e, s.rcv.main ≠ .returned (.error e)) ∧
      (GoesOn x s ∨ ∃ st, s.snd.main = .returned (.ok st) ∧ s.rcv.main = .returned (.ok st)) := by
  have hw := well_inv hv hf hc h
  refine ⟨hw.sender, hw.receiver, ?_⟩
  by_cases hover : s.snd.main.over
  · right
    cases hs : s.snd.main with
    | returned r =>
      cases r with
      | ok st =>
        obtain ⟨st', hr⟩ := receiver_ok hv h.any hs
        exact ⟨st, rfl, by rw [hr, same_stats hv hf h.any hs hr]⟩
      | error e => exact absurd hs (hw.sender e)
    | _ => rw [hs] at hover; exact hover.elim
  · exact .inl (sender_live hv hd hd' hf h.any hover)

/-- The step of a reader brings something. -/
def Act.fed : Act → Bool
  | .lane _ (.read c) => c.data ≠ []
  | _ => true

theorem Untroubled.of_check {a : Act} (ho : a.onward x s) (hc : a.calm) (hs : Steady content s a s') (hf : a.fed = true)
    (hflows : ∀ i < x.flows, ¬ (s'.rcv.flow i).net.failed ∧ ¬ (s'.rcv.flow i).writer.failed) (hm : ¬ s'.rcv.main.hit) :
    Untroubled x content s a s' := by
  refine ⟨ho, hc, ?_, fun i hi => ⟨fun h => (hflows i hi).1 h.failed, fun h => (hflows i hi).2 h.failed⟩, hm⟩
  cases a with
  | lane i b =>
    cases b with
    | read c => exact ⟨hc, hs hc, fun _ => of_decide_eq_true hf⟩
    | sock c => exact hc
    | hash => trivial
  | _ => trivial

theorem unfailing_agreeing : ∃ s, Reach (step pair) (Untroubled pair five) (.init pair hasT) s ∧
    (∀ e, s.rcv.main ≠ .returned (.error e)) ∧ s.snd.main = .returned (.ok ⟨2, 1, 1, 1⟩) := by
  have hrun : ((runIf (step pair) (fun s a s' => decide (a.onward pair s ∧ a.calm ∧ Steady five s a s' ∧ a.fed = true ∧
      (∀ i < pair.flows, ¬ (s'.rcv.flow i).net.failed ∧ ¬ (s'.rcv.flow i).writer.failed) ∧ ¬ s'.rcv.main.hit))
      (.init pair hasT) agreeing).any fun s => decide (s.snd.main = .returned (.ok ⟨2, 1, 1, 1⟩))) = true := by
    decide +kernel
  obtain ⟨s, hs, hv⟩ := (Option.any_eq_true _ _).1 hrun
  have hreach : Reach (step pair) (Untroubled pair five) (.init pair hasT) s := by
    refine .of_runIf (fun s a s' ha => ?_) hs
    obtain ⟨ho, hc, hsteady, hf, hflows, hm⟩ := of_decide_eq_true ha
    exact .of_check ho hc hsteady hf hflows hm
  have hok := unfailing three_visited (by decide) (by decide) (by decide) (by decide +kernel) hreach
  exact ⟨s, hreach, hok.2.1, of_decide_eq_true hv⟩

end Thunderflash.Session
