/-
The end of a session seen from both ends: the byte the sender takes for the acknowledgement is the one
the receiver writes behind its answer, so a sender that returns Ok talks to a receiver that has.
-/
import Thunderflash.Session.Accounts

namespace Thunderflash.Recv

open Codec Posix Lts

variable {cfg : Cfg} {c : Choice} {s s' : State} {fs0 : Fs}

/-! ## What the receiver has written -/

/-- Nothing, the answer to the whole manifest, or that and the acknowledgement of a session that succeeded. -/
inductive Spoken (s : State) : Prop
  | silent : s.reply = [] → Spoken s
  | answered : Answered s.bits s.stats s.got → s.reply = encodeBitmap s.bits → Spoken s
  | done {st : Stats} : Answered s.bits s.stats s.got → s.reply = encodeBitmap s.bits ++ [ACK] →
      s.main = .returned (.ok st) → Spoken s

theorem TallyOk.spoken (h : TallyOk s.bits s.stats s.got s.reply s.main) (hm : ∀ e, s.main ≠ .returned (.error e)) : Spoken s := by
  cases hk : s.main with
  | openRoot => rw [hk] at h; exact .silent h.2.2
  | manifest | chainRoot | chain | stat | answer => rw [hk] at h; exact .silent h.2
  | pairing | running | flushing | acking => rw [hk] at h; exact .answered h.1 h.2
  | returned r =>
    cases r with
    | ok st => rw [hk] at h; exact .done h.1 h.2 hk
    | error e => exact absurd hk (hm e)

/-- A failure leaves what was read, counted and written. -/
theorem mainStep_failed {e : Err} (hs : mainStep cfg c s = some s') (hm : s'.main = .returned (.error e)) :
    s'.bits = s.bits ∧ s'.stats = s.stats ∧ s'.got = s.got ∧ s'.reply = s.reply ∧ ∀ r, s.main ≠ .returned r := by
  have hheld : ∀ (s : State) x, (s.held x).main ≠ .returned (.error e) := by
    intro s x hx
    unfold State.held at hx
    split at hx
    · cases hx
    · split at hx
      · split at hx <;> cases hx
      · cases hx
  unfold mainStep at hs
  split at hs
  case h_1 hk => split at hs <;> cases hs <;> cases hm; exact ⟨rfl, rfl, rfl, rfl, by rw [hk]; nofun⟩
  case h_2 hk =>
    have hne : ∀ r, s.main ≠ .returned r := by rw [hk]; nofun
    split at hs
    · cases hs; exact ⟨rfl, rfl, rfl, rfl, hne⟩
    · split at hs <;> cases hs; exact ⟨rfl, rfl, rfl, rfl, hne⟩
    · cases hs; exact ⟨rfl, rfl, rfl, rfl, hne⟩
    · cases hs; cases hm
    · cases hs
      split at hm
      · exact absurd hm (hheld _ _)
      · rw [show (s.consume _).main = s.main from rfl, hk] at hm
        cases hm
  case h_3 => split at hs <;> cases hs <;> cases hm
  case h_4 => split at hs <;> cases hs <;> cases hm
  case h_5 => split at hs <;> cases hs <;> cases hm
  case h_6 hk =>
    split at hs <;> cases hs
    · exact ⟨rfl, rfl, rfl, rfl, by rw [hk]; nofun⟩
    · have hm : (if cfg.flows = 1 then MainPc.running else .pairing) = .returned (.error e) := hm
      split at hm <;> cases hm
  case h_7 hk => split at hs <;> cases hs <;> cases hm; exact ⟨rfl, rfl, rfl, rfl, by rw [hk]; nofun⟩
  case h_8 hk =>
    split at hs
    · split at hs <;> cases hs <;> cases hm; exact ⟨rfl, rfl, rfl, rfl, by rw [hk]; nofun⟩
    · cases hs
  case h_9 hk => split at hs <;> cases hs <;> cases hm; exact ⟨rfl, rfl, rfl, rfl, by rw [hk]; nofun⟩
  case h_10 => cases hs; cases hm
  case h_11 hk => split at hs <;> cases hs <;> cases hm; exact ⟨rfl, rfl, rfl, rfl, by rw [hk]; nofun⟩
  case h_12 => cases hs

theorem spoken_inv (h : Reachable cfg fs0 s) : Spoken s := by
  refine h.invariant (I := Spoken) (.silent rfl) ?_
  intro s a s' hr ih hst _
  rcases step_told hst with hu | ⟨c, rfl, hs⟩
  · cases ih with
    | silent hq => exact .silent (hu.reply.trans hq)
    | answered ha hq => exact .answered (by rw [hu.bits, hu.stats, hu.got]; exact ha) (by rw [hu.reply, hu.bits]; exact hq)
    | done ha hq hm =>
      exact .done (by rw [hu.bits, hu.stats, hu.got]; exact ha) (by rw [hu.reply, hu.bits]; exact hq) (hu.main.trans hm)
  · by_cases hfail : ∃ e, s'.main = .returned (.error e)
    · obtain ⟨e, hm⟩ := hfail
      obtain ⟨hb, hstats, hg, hq, hne⟩ := mainStep_failed hs hm
      cases ih with
      | silent hq' => exact .silent (hq.trans hq')
      | answered ha hq' => exact .answered (by rw [hb, hstats, hg]; exact ha) (by rw [hq, hb]; exact hq')
      | done _ _ hd => exact absurd hd (hne _)
    · exact (tally_inv (.step hr hst trivial)).spoken fun e hm => hfail ⟨e, hm⟩

end Thunderflash.Recv

namespace Thunderflash.Session

open Codec Posix Lts

variable {x : Setup} {fs0 : Fs} {s s' : State}

/-! ## What the sender has heard -/

/-- Behind the answer the sender keeps what of the reply has arrived and was not read; it returned Ok on an
`ACK` there. -/
def Hears (x : Setup) (snd : Send.State) (reply : Bytes) (back : Nat) : Send.MainPc → Prop
  | .pairing | .running | .acking => readBitmap (Send.offered x.items) (reply.take back) = .ok snd.have_ snd.heard
  | .returned (.ok _) => ∃ rest, readBitmap (Send.offered x.items) reply = .ok snd.have_ (ACK :: rest)
  | .offering _ | .awaiting | .returned (.error _) => True

theorem Hears.more {snd : Send.State} {reply reply' : Bytes} {back : Nat} {pc : Send.MainPc} (h : Hears x snd reply back pc)
    (hb : back ≤ reply.length) (hg : reply <+: reply') : Hears x snd reply' back pc := by
  obtain ⟨more, rfl⟩ := hg
  cases pc with
  | offering | awaiting => trivial
  | pairing | running | acking =>
    show readBitmap _ ((reply ++ more).take back) = _
    rw [List.take_append_of_le_length hb]
    exact h
  | returned r =>
    cases r with
    | error e => trivial
    | ok st =>
      obtain ⟨rest, hr⟩ := h
      exact ⟨_, (stable_readBitmap _).ok hr more⟩

theorem Hears.send {snd snd' : Send.State} {reply : Bytes} {back : Nat} {a : Send.SessionAct}
    (hrep : Replied x snd reply back snd.main) (h : Hears x snd reply back snd.main)
    (hs : Send.sessionStep x.sender snd a = some snd') (ha : ∀ bytes, a ≠ .hear bytes) : Hears x snd' reply back snd'.main := by
  cases a with
  | main c =>
    have hs : Send.mainStep x.sender c snd = some snd' := hs
    unfold Send.mainStep at hs
    split at hs
    case h_1 => cases hs; trivial
    case h_2 =>
      split at hs
      · cases hs; trivial
      · split at hs <;> cases hs; trivial
    case h_3 hm =>
      rw [hm] at hrep
      split at hs
      · cases hs; trivial
      · split at hs <;> cases hs; trivial
      · rename_i have_ rest _ hr
        cases hs
        have hheard : snd.heard = reply.take back := hrep
        rw [hheard] at hr
        show Hears x (snd.filtered x.sender have_ rest) reply back (if x.flows = 1 then .running else .pairing)
        split <;> exact hr
    case h_4 hm =>
      rw [hm] at h
      split at hs <;> cases hs
      · trivial
      · exact h
    case h_5 hm =>
      rw [hm] at h
      split at hs
      · split at hs <;> cases hs
        · trivial
        · exact h
      · cases hs
    case h_6 hm =>
      rw [hm] at h
      split at hs
      · cases hs; trivial
      · split at hs <;> cases hs; trivial
      · rename_i b rest _ hh
        cases hs
        show Hears x _ reply back (.returned (if b = ACK then .ok snd.stats else .error .refused))
        split
        · -- the byte read is the one behind the answer
          rename_i hack
          have hread : readBitmap (Send.offered x.items) (reply.take back) = .ok snd.have_ (b :: rest) := by
            rw [← hh]
            exact h
          have := (stable_readBitmap _).ok hread (reply.drop back)
          rw [List.take_append_drop, hack] at this
          exact ⟨_, this⟩
        · trivial
    case h_7 => cases hs
  | lane i a =>
    obtain ⟨-, -, ln, -, rfl⟩ := Send.lane_some hs
    exact h
  | hear bytes => exact absurd rfl (ha bytes)
  | cut => cases hs; exact h

theorem hears_inv (h : Reachable x fs0 s) : Hears x s.snd s.rcv.reply s.back s.snd.main := by
  refine h.invariant (I := fun s => Hears x s.snd s.rcv.reply s.back s.snd.main) ?_ ?_
  · exact True.intro
  · rintro s a s' hr ih hst -
    have hl := linked_inv hr
    cases step_moves hst with
    | send a snd hs ha he => subst he; exact ih.send hl.replied hs ha
    | recv a rcv hs _ he => subst he; exact ih.more hl.back (Recv.reply_grows hs)
    | deliver i count rcv hs he => subst he; exact ih.more hl.back (Recv.reply_grows hs)
    | reply count snd hs he =>
      subst he
      rw [show Send.sessionStep x.sender s.snd (.hear (next s.rcv.reply s.back count)) = if s.snd.eof then none else
        some { s.snd with heard := s.snd.heard ++ next s.rcv.reply s.back count } from rfl] at hs
      split at hs <;> cases hs
      show Hears x _ s.rcv.reply _ s.snd.main
      cases hm : s.snd.main with
      | offering | awaiting => trivial
      | pairing | running | acking =>
        rw [hm] at ih
        show readBitmap _ (s.rcv.reply.take _) = _
        rw [← take_next]
        exact (stable_readBitmap _).ok ih _
      | returned r => rw [hm] at ih; cases r <;> exact ih

/-! ## Both ends agree -/

/-- A manifest read to its end is the sender's. -/
theorem listing_whole (hv : Visited x.items) (h : Reachable x fs0 s) (hw : s.snd.wrote = Send.manifest x.items) {es : List Entry}
    (hf : ∀ e ∈ es, e.Framed) (hg : s.rcv.got = Recv.encodings es ++ Entry.terminator) : es = x.items.map Send.Item.entry := by
  have hpre : s.rcv.got <+: s.snd.sent 0 := by
    have hpart := ((linked_inv h).wired.part 0).trans (List.take_prefix ..)
    unfold Recv.State.stream at hpart
    rw [if_pos rfl] at hpart
    exact (List.prefix_append ..).trans hpart
  have hpart : Recv.encodings es ++ Entry.terminator <+:
      Recv.encodings (x.items.map Send.Item.entry) ++ (Entry.terminator ++ (s.snd.lane 0).wrote) := by
    rw [← hg, ← List.append_assoc, ← sender_manifest hv, ← hw]
    exact hpre
  exact Recv.encodings_unique hf hv.walked.framed hpart

/-- What the receiver answers is for the sender's files. -/
theorem answered_items (hv : Visited x.items) (h : Reachable x fs0 s) (hw : s.snd.wrote = Send.manifest x.items)
    (ha : Recv.Answered s.rcv.bits s.rcv.stats s.rcv.got) : s.rcv.bits.length = Send.offered x.items := by
  obtain ⟨es, htal, hgot⟩ := ha
  obtain rfl := listing_whole hv h hw htal.framed hgot
  rw [htal.length, Recv.filesOf, List.filter_map, List.length_map]
  rfl

/-- What stands behind the answer is the acknowledgement of a receiver that has returned Ok. -/
theorem behind_answer (hv : Visited x.items) (h : Reachable x fs0 s) (hw : s.snd.wrote = Send.manifest x.items) {have_ : List Bool}
    {b : UInt8} {rest : Bytes} (hread : readBitmap (Send.offered x.items) s.rcv.reply = .ok have_ (b :: rest)) :
    b = ACK ∧ ∃ st, s.rcv.main = .returned (.ok st) := by
  cases Recv.spoken_inv (receiver_reachable h) with
  | silent hq =>
    -- an answer with no bytes has nothing behind it
    rw [hq] at hread
    obtain ⟨bytes, left, hread, hrest⟩ := Read.bind_eq_ok.1 hread
    obtain ⟨hnil, -⟩ := readExact_ok hread
    injection hrest with _ hrest
    rw [hrest] at hnil
    simp at hnil
  | answered ha hq =>
    have hback := readBitmap_encodeBitmap s.rcv.bits []
    rw [List.append_nil, answered_items hv h hw ha, ← hq, hread] at hback
    injection hback with _ hnone
    cases hnone
  | done ha hq hr =>
    have hback := readBitmap_encodeBitmap s.rcv.bits [ACK]
    rw [answered_items hv h hw ha, ← hq, hread] at hback
    injection hback with _ hone
    exact ⟨(List.cons.inj hone).1, _, hr⟩

/-- A sender that returns Ok talks to a receiver that has returned Ok. -/
theorem receiver_ok (hv : Visited x.items) (h : Reachable x fs0 s) {st : Stats} (hs : s.snd.main = .returned (.ok st)) :
    ∃ st', s.rcv.main = .returned (.ok st') := by
  have hsok := Send.session_inv (sender_reachable h)
  have hhears := hears_inv h
  rw [hs] at hsok hhears
  obtain ⟨⟨hdealt, -⟩, -⟩ := hsok
  obtain ⟨rest, hread⟩ := hhears
  exact (behind_answer hv h hdealt.wrote hread).2

/-- A sender that returns Ok talks to a receiver that has returned Ok, and with the same stats. -/
theorem acknowledged (hv : Visited x.items) (hf : 1 ≤ x.flows) (h : Reachable x fs0 s) {st : Stats}
    (hs : s.snd.main = .returned (.ok st)) : s.rcv.main = .returned (.ok st) := by
  obtain ⟨st', hr⟩ := receiver_ok hv h hs
  rw [hr, same_stats hv hf h hs hr]

theorem three_visited : Visited three := by
  constructor
  · intro item hi
    fin_cases hi <;> exact ⟨rfl, by decide, by decide, by decide⟩
  · intro item hi
    fin_cases hi <;> decide

theorem acknowledged_pair : ∃ s, run (step pair) (.init pair hasT) agreeing = some s ∧
    s.snd.main = .returned (.ok ⟨2, 1, 1, 1⟩) ∧ s.rcv.main = .returned (.ok ⟨2, 1, 1, 1⟩) := by
  have hrun : ((run (step pair) (.init pair hasT) agreeing).any fun s =>
      decide (s.snd.main = .returned (.ok ⟨2, 1, 1, 1⟩))) = true := by decide +kernel
  obtain ⟨s, hs, hv⟩ := (Option.any_eq_true _ _).1 hrun
  have hsnd := of_decide_eq_true hv
  exact ⟨s, hs, hsnd, @acknowledged pair hasT s three_visited (by decide) (.of_run hs) _ hsnd⟩

end Thunderflash.Session
