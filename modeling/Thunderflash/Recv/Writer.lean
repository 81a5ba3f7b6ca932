/-
The writer's invariant: what it has committed are the files its messages completed, in order, and
every file a flow has created is in one of its hands, committed or dropped.
-/
import Thunderflash.Recv.Pipeline

namespace Thunderflash.Recv

open Codec Posix Lts

variable {cfg : Cfg} {c : Choice} {sh sh' : Shared} {fl fl' : Flow} {j : Job}

/-! ## What the writer has committed -/

def Tally.tokens (x : Tally) : List InFlight := x.files.map Prod.fst

/-- The last file the messages completed is `t`, and it is not committed yet. -/
def Ripe (x : Tally) (kept : List InFlight) (t : InFlight) : Prop :=
  x.current = none ∧ ∃ fs p, x.files = fs ++ [(t, p)] ∧ kept = fs.map Prod.fst

/-- What holds at each point of `write_loop`, of what the messages taken so far amount to. -/
def WriterOk (x : Tally) (kept : List InFlight) : WriterPc → Prop
  | .recv none => kept = x.tokens ∧ x.current = none
  | .recv (some o) => kept = x.tokens ∧ ∃ p, x.current = some (o.t, p) ∧ p.length = o.off
  | .replace _ t => kept = x.tokens ∧ x.current = some (t, [])
  | .write o bytes => kept = x.tokens ∧ ∃ p, x.current = some (o.t, p ++ bytes) ∧ p.length = o.off
  | .chmod t | .stamp t | .flush t => Ripe x kept t
  | .rename t final => t.finalName = some final ∧ Ripe x kept t
  | .register t | .lateDrop t _ => kept = x.tokens ∧ x.current = none ∧ t.finalName.isSome ∧ t ∈ kept
  | .failDrop .. => kept <+: x.tokens
  | .lastDrop t => kept = x.tokens ∧ ∃ p, x.current = some (t, p)
  | .closing _ (.ok _) => kept = x.tokens
  | .closing _ (.error _) => kept <+: x.tokens

def WriterInv (fl : Flow) : Prop := WriterOk (tally fl.log.taken) fl.log.kept fl.writer

theorem WriterInv.init (cfg : Cfg) : WriterInv (.init cfg) := ⟨rfl, rfl⟩

theorem Ripe.isPrefix {x : Tally} {kept : List InFlight} {t : InFlight} (h : Ripe x kept t) : kept <+: x.tokens := by
  obtain ⟨-, fs, p, hf, rfl⟩ := h
  rw [Tally.tokens, hf, List.map_append]
  exact List.prefix_append ..

theorem Ripe.keep {x : Tally} {kept : List InFlight} {t : InFlight} (h : Ripe x kept t) :
    kept ++ [t] = x.tokens ∧ x.current = none := by
  obtain ⟨hc, fs, p, hf, rfl⟩ := h
  exact ⟨by simp [Tally.tokens, hf], hc⟩

theorem WriterInv.isPrefix (h : WriterInv fl) : fl.log.kept <+: (tally fl.log.taken).tokens := by
  unfold WriterInv WriterOk at h
  split at h
  case h_5 | h_6 | h_7 => exact h.isPrefix
  case h_8 => exact h.2.isPrefix
  case h_11 => exact h
  case h_14 => exact h
  case h_13 => rw [h]
  all_goals rw [h.1]

theorem WriterInv.settle {t : InFlight} (h : Ripe (tally fl.log.taken) fl.log.kept t) : WriterInv (fl.settle t) := by
  rcases settle_cases t fl with ⟨final, hf, he⟩ | ⟨-, he⟩ <;> rw [he]
  · exact ⟨hf, h⟩
  · exact h.keep

theorem WriterInv.handle {current : Option Cursor} {m : Msg} {fl : Flow} (hw : fl.writer = .recv current) (h : WriterInv fl) :
    WriterInv (Flow.handle current m sh { fl with log := { fl.log with taken := fl.log.taken ++ [m] } }).2 := by
  unfold WriterInv at h
  rw [hw] at h
  unfold Flow.handle
  split
  case h_1 t =>
    obtain ⟨hk, hc⟩ := h
    exact ⟨by simpa [Tally.next, Tally.tokens] using hk, [], by simp [Tally.next], rfl⟩
  case h_2 t old =>
    exact ⟨by simpa [Tally.next, Tally.tokens] using h.1, by simp [Tally.next]⟩
  case h_3 bytes =>
    obtain ⟨hk, hc⟩ := h
    unfold WriterInv
    dsimp only
    rw [hw]
    exact ⟨by simpa [Tally.next, Tally.tokens] using hk, by simp [Tally.next, hc]⟩
  case h_4 bytes o =>
    obtain ⟨hk, p, hc, hl⟩ := h
    exact ⟨by simpa [Tally.next, Tally.tokens] using hk, p, by simp [Tally.next, hc], hl⟩
  case h_5 =>
    obtain ⟨hk, hc⟩ := h
    unfold WriterInv
    dsimp only
    rw [hw, tally_snoc]
    simp only [Tally.next, hc]
    exact ⟨hk, hc⟩
  case h_6 o =>
    obtain ⟨hk, p, hc, -⟩ := h
    have hr : Ripe (tally (fl.log.taken ++ [.endFile])) fl.log.kept o.t := by
      rw [tally_snoc]
      simp only [Tally.next, hc]
      exact ⟨rfl, _, p, rfl, hk⟩
    unfold WriterInv
    dsimp only
    split <;> exact hr
  case h_7 =>
    unfold WriterInv
    dsimp only
    rw [hw, tally_snoc]
    exact h

theorem WriterInv.writerStep (h : WriterInv fl) (hs : fl.writerStep cfg c sh = some (sh', fl')) : WriterInv fl' := by
  have h0 := h
  unfold Flow.writerStep at hs
  unfold WriterInv at h
  split at hs
  case h_1 current hw =>
    rw [hw] at h
    split at hs
    · rename_i _ m q hq
      obtain rfl := congrArg Prod.snd (Option.some.inj hs)
      exact @WriterInv.handle sh _ _ { fl with wq := q } hw h0
    all_goals
      split at hs <;> cases hs
    · exact h.1
    · obtain ⟨hk, p, hc, -⟩ := h
      exact ⟨hk, p, hc⟩
  case h_2 old t hw =>
    rw [hw] at h
    obtain ⟨undone, rfl⟩ := undo_eq (Option.some.inj hs)
    exact ⟨h.1, [], h.2, rfl⟩
  case h_3 o bytes hw =>
    rw [hw] at h
    obtain ⟨hk, p, hc, hl⟩ := h
    split at hs
    · rename_i he
      cases hs
      subst he
      exact ⟨hk, p, by simpa using hc, hl⟩
    · split at hs
      · rename_i hcount
        split at hs <;> cases hs
        · refine ⟨hk, p ++ bytes.take c.count, ?_, ?_⟩
          · rw [List.append_assoc, List.take_append_drop]; exact hc
          · simp only [List.length_append, List.length_take, hl, Nat.min_eq_left hcount.2]
        · exact h0.isPrefix
      · cases hs
  case h_4 t hw => rw [hw] at h; cases hs; exact h
  case h_5 t hw =>
    rw [hw] at h
    obtain rfl := congrArg Prod.snd (Option.some.inj hs)
    dsimp only
    split
    · exact h
    · exact .settle h
  case h_6 t hw =>
    rw [hw] at h
    split at hs <;> cases hs
    · exact .settle h
    · exact h0.isPrefix
  case h_7 t final hw =>
    rw [hw] at h
    obtain ⟨hf, hr⟩ := h
    split at hs <;> cases hs
    · unfold WriterInv Flow.logKept
      dsimp only
      split
      · exact ⟨hr.keep.1, hr.keep.2, by rw [hf]; rfl, by simp⟩
      · exact hr.keep
    · exact h0.isPrefix
  case h_8 t hw =>
    rw [hw] at h
    split at hs <;> cases hs
    · exact ⟨h.1, h.2.1⟩
    · exact h
  case h_9 t e hw =>
    obtain ⟨undone, rfl⟩ := undo_eq (Option.some.inj hs)
    exact h0.isPrefix
  case h_10 t e hw => cases hs; exact h0.isPrefix
  case h_11 t hw =>
    rw [hw] at h
    obtain ⟨undone, rfl⟩ := undo_eq (Option.some.inj hs)
    exact h.1
  case h_12 m l r hw =>
    obtain ⟨undone, rfl⟩ := dropMsg_eq (Option.some.inj hs)
    rw [hw] at h
    cases r with
    | ok u => exact h
    | error e => exact h
  case h_13 => cases hs

/-! ## Who holds which file -/

/-- Every file created is in a thread's or channel's hands, committed or dropped. -/
def Accounted (fl : Flow) : Prop := (fl.tokens ++ (fl.log.kept ++ fl.log.undone)).Perm fl.log.born

theorem Accounted.init (cfg : Cfg) : Accounted (.init cfg) := by
  unfold Accounted Flow.tokens Flow.init
  dsimp only
  split <;> exact List.Perm.refl _

theorem Accounted.hands {born kept undone : List InFlight} (h : Accounted fl) (hh : Hands fl fl' born kept undone) :
    Accounted fl' := by
  unfold Accounted at h ⊢
  rw [hh.born, hh.kept, hh.undone]
  refine List.perm_iff_count.2 fun a => ?_
  have h1 := h.count_eq a
  have h2 := hh.tokens.count_eq a
  simp only [List.count_append] at h1 h2 ⊢
  omega

theorem Effect.hands (h : Effect cfg c sh fl sh' fl') : ∃ born kept undone, Hands fl fl' born kept undone := by
  cases h with
  | stamp _ _ h => rcases h with h | ⟨-, h⟩ <;> exact ⟨_, _, _, h⟩
  | _ => exact ⟨_, _, _, by assumption⟩

/-! ## Closed channels -/

/-- A stage that has returned has nothing queued; without verification there is no hash stage. -/
structure Shut (cfg : Cfg) (fl : Flow) : Prop where
  writer : fl.writerClosed → fl.wq = []
  hash : cfg.verify = false → fl.hash = .closing []

theorem Shut.init (cfg : Cfg) : Shut cfg (.init cfg) := ⟨fun _ => rfl, fun h => by simp [Flow.init, h]⟩

theorem Shut.of_same (h : Shut cfg fl) (hq : fl'.wq = fl.wq) (hw : fl'.writer = fl.writer) (hh : fl'.hash = fl.hash) :
    Shut cfg fl' := by
  refine ⟨fun hc => ?_, fun hv => hh.trans (h.hash hv)⟩
  rw [hq]
  exact h.writer (by unfold Flow.writerClosed at hc ⊢; rwa [hw] at hc)

theorem Shut.netStep (h : Shut cfg fl) (hs : fl.netStep cfg c sh = some (sh', fl')) : Shut cfg fl' := by
  obtain ⟨-, -, hm⟩ := netStep_cases hs
  rcases hm with hm | ha
  · cases hm with
    | goes hg => exact h.of_same hg.wq hg.writer hg.hash
    | takeBuf _ _ he => subst he; exact h.of_same rfl rfl rfl
    | reply _ _ he => subst he; exact h.of_same rfl rfl rfl
    | push _ _ hc _ hg _ =>
      by_cases hv : cfg.verify = true
      · refine h.of_same ?_ ?_ ?_
        · rw [hg.wq]; simp [Flow.push, hv]
        · rw [hg.writer]; simp [Flow.push, hv]
        · rw [hg.hash]; simp [Flow.push, hv]
      · refine ⟨fun hx => absurd ?_ hc, fun hv' => ?_⟩
        · unfold Flow.writerClosed at hx
          unfold Flow.sinkClosed
          rw [hg.writer] at hx
          split at hx
          · rename_i hw
            simp only [Flow.push, hv] at hw
            simp [hv, show fl.writer = _ from hw]
          · exact hx.elim
        · rw [hg.hash]; simpa [Flow.push, hv'] using h.hash hv'
    | back _ he => subst he; exact h.of_same rfl rfl rfl
  · exact h.of_same ha.wq ha.writer ha.hash

theorem Shut.hashStep (h : Shut cfg fl) (hv : cfg.verify = true) (hs : fl.hashStep cfg c sh = some (sh', fl')) :
    Shut cfg fl' := by
  have hno : cfg.verify = false → fl'.hash = .closing [] := fun hx => absurd (hv.symm.trans hx) (by simp)
  refine ⟨?_, hno⟩
  unfold Flow.hashStep at hs
  split at hs
  case h_1 =>
    split at hs
    · cases hs; exact h.writer
    · cases hs; exact h.writer
    · cases hs; exact h.writer
    · split at hs <;> cases hs; exact h.writer
  case h_2 =>
    split at hs
    · cases hs; exact h.writer
    · rename_i hw
      split at hs <;> cases hs
      exact fun hx => absurd hx hw
  case h_3 => obtain ⟨undone, rfl⟩ := dropMsg_eq (Option.some.inj hs); exact h.writer
  case h_4 => obtain ⟨undone, rfl⟩ := dropMsg_eq (Option.some.inj hs); exact h.writer
  case h_5 => cases hs

/-- While the writer has not returned, or once it has dropped its queue. -/
theorem Shut.writerStep (h : Shut cfg fl) (hp : PipeInv cfg fl) (hs : fl.writerStep cfg c sh = some (sh', fl')) :
    Shut cfg fl' := by
  have hh : fl'.hash = fl.hash := by obtain ⟨_, _, _, _, _, _, rfl⟩ := writerStep_only hs; rfl
  refine ⟨?_, fun hv => hh.trans (h.hash hv)⟩
  have hopen : ∀ {fl' : Flow}, (¬ fl'.writerClosed) → fl'.writerClosed → fl'.wq = [] := fun hn hx => absurd hx hn
  have hsettle : ∀ t, ¬ (fl.settle t).writerClosed := by
    intro t
    rcases settle_cases t fl with ⟨final, -, he⟩ | ⟨-, he⟩ <;> rw [he] <;> simp [Flow.writerClosed]
  unfold Flow.writerStep at hs
  split at hs
  case h_1 current hw =>
    split at hs
    · rename_i _ m q _
      obtain rfl := congrArg Prod.snd (Option.some.inj hs)
      exact hopen (handle_writer _ m sh { fl with wq := q, log := { fl.log with taken := fl.log.taken ++ [m] } } hw).2.1
    · rename_i hq
      split at hs <;> cases hs
      exact fun _ => hq
    · split at hs <;> cases hs
      exact hopen (by simp [Flow.writerClosed])
  case h_2 => obtain ⟨undone, rfl⟩ := undo_eq (Option.some.inj hs); exact hopen (by simp [Flow.writerClosed])
  case h_3 =>
    split at hs
    · cases hs; exact hopen (by simp [Flow.writerClosed])
    · split at hs
      · split at hs <;> cases hs <;> exact hopen (by simp [Flow.writerClosed])
      · cases hs
  case h_4 => cases hs; exact hopen (by simp [Flow.writerClosed])
  case h_5 =>
    obtain rfl := congrArg Prod.snd (Option.some.inj hs)
    dsimp only
    split
    · exact hopen (by simp [Flow.writerClosed])
    · exact hopen (hsettle _)
  case h_6 =>
    split at hs <;> cases hs
    · exact hopen (hsettle _)
    · exact hopen (by simp [Flow.writerClosed])
  case h_7 =>
    split at hs <;> cases hs
    · refine hopen ?_
      dsimp only [Flow.writerClosed]
      split
      · rename_i h1; split at h1 <;> cases h1
      · exact id
    · exact hopen (by simp [Flow.writerClosed])
  case h_8 => split at hs <;> cases hs <;> exact hopen (by simp [Flow.writerClosed])
  case h_9 => obtain ⟨undone, rfl⟩ := undo_eq (Option.some.inj hs); exact fun _ => rfl
  case h_10 => cases hs; exact fun _ => rfl
  case h_11 t hw =>
    obtain ⟨undone, rfl⟩ := undo_eq (Option.some.inj hs)
    -- the source had gone, so nothing has come since
    have hun := hp.unread (by simp [Flow.writerClosed, hw])
    rw [(hp.ended (by rw [hw]; trivial)).2] at hun
    have hl := hun.length_le
    rw [List.length_append] at hl
    exact fun _ => List.length_eq_zero_iff.1 (by dsimp only; omega)
  case h_12 m l r hw =>
    obtain ⟨undone, rfl⟩ := dropMsg_eq (Option.some.inj hs)
    exact fun _ => h.writer (by simp [Flow.writerClosed, hw])
  case h_13 => cases hs

/-! ## One flow -/

/-- Everything that holds of a flow by itself. -/
structure FlowInv (cfg : Cfg) (fl : Flow) : Prop where
  net : NetInv cfg fl
  pipe : PipeInv cfg fl
  digest : DigestInv cfg fl
  writer : WriterInv fl
  files : Accounted fl
  shut : Shut cfg fl

theorem FlowInv.init (cfg : Cfg) : FlowInv cfg (.init cfg) :=
  ⟨.init cfg, .init cfg, .init cfg, .init cfg, .init cfg, .init cfg⟩

theorem netStep_writer (h : fl.netStep cfg c sh = some (sh', fl')) :
    fl'.writer = fl.writer ∧ fl'.log.taken = fl.log.taken ∧ fl'.log.kept = fl.log.kept := by
  obtain ⟨-, -, hm⟩ := netStep_cases h
  rcases hm with hm | ha
  · cases hm with
    | goes hg => exact ⟨hg.writer, hg.taken, hg.kept⟩
    | takeBuf _ _ he => subst he; exact ⟨rfl, rfl, rfl⟩
    | reply _ _ he => subst he; exact ⟨rfl, rfl, rfl⟩
    | push _ _ _ _ hg _ =>
      rw [hg.writer, hg.taken, hg.kept, Flow.push_log]
      exact ⟨by unfold Flow.push; dsimp only; split <;> rfl, rfl, rfl⟩
    | back _ he => subst he; exact ⟨rfl, rfl, rfl⟩
  · exact ⟨ha.writer, ha.taken, ha.kept⟩

theorem FlowInv.netStep (h : FlowInv cfg fl) (hs : fl.netStep cfg c sh = some (sh', fl')) : FlowInv cfg fl' := by
  obtain ⟨hw, ht, hk⟩ := netStep_writer hs
  obtain ⟨_, _, _, hh⟩ := (netStep_cases hs).2.1.hands
  refine ⟨Flow.netStep_inv h.net (fun d hd => (h.digest.reply d hd).2.1) hs, h.pipe.netStep hs,
    h.digest.netStep h.pipe h.net hs, ?_, h.files.hands hh, h.shut.netStep hs⟩
  unfold WriterInv
  rw [hw, ht, hk]
  exact h.writer

theorem FlowInv.hashStep (h : FlowInv cfg fl) (hv : cfg.verify = true) (hs : fl.hashStep cfg c sh = some (sh', fl')) :
    FlowInv cfg fl' := by
  obtain ⟨_, _, _, hh⟩ := (hashStep_effect hs).hands
  refine ⟨h.net.behind (hashStep_only hs).behind, h.pipe.hashStep hv hs, h.digest.hashStep h.pipe hv hs, ?_,
    h.files.hands hh, h.shut.hashStep hv hs⟩
  obtain ⟨_, _, _, _, _, _, rfl⟩ := hashStep_only hs
  exact h.writer

theorem FlowInv.writerStep (h : FlowInv cfg fl) (hs : fl.writerStep cfg c sh = some (sh', fl')) : FlowInv cfg fl' := by
  obtain ⟨_, _, _, hh⟩ := (writerStep_effect hs).hands
  exact ⟨h.net.behind (writerStep_only hs).behind, h.pipe.writerStep hs, h.digest.writerStep hs, h.writer.writerStep hs,
    h.files.hands hh, h.shut.writerStep h.pipe hs⟩

/-! ## A flow that has been joined -/

/-- A joined flow holds no file. -/
theorem FlowInv.joined (h : FlowInv cfg fl) {r : Except Err Unit} (hr : fl.result cfg = some r) :
    fl.netFinished ∧ fl.tokens = [] ∧ ∃ w, fl.writer = .closing [] w ∧ (r = .ok () → w = .ok () ∧ fl.net = .finished (.ok ())) := by
  have hw : ∀ {r' w}, fl.net = .finished r' → fl.writer = .closing [] w → fl.hash = .closing [] → fl.tokens = [] := by
    intro r' w hn hw hh
    have hq : fl.hq = [] := by
      by_cases hv : cfg.verify = true
      · exact (h.pipe.closed hv (by simp [Flow.hashClosed, hh])).1
      · exact (h.pipe.direct (by simpa using hv)).1
    have hwq := h.shut.writer (by simp [Flow.writerClosed, hw])
    simp [Flow.tokens, hn, hh, hw, hq, hwq, NetPc.tokens, HashPc.tokens, WriterPc.tokens]
  unfold Flow.result at hr
  split at hr
  case h_1 r' w hn hh hwr =>
    refine ⟨by simp [Flow.netFinished, hn], hw hn hwr hh, w, hwr, fun hok => ?_⟩
    subst hok
    split at hr <;> cases hr
    exact ⟨rfl, hn⟩
  case h_2 r' w hn hwr _ =>
    split at hr
    · cases hr
    · rename_i hv
      refine ⟨by simp [Flow.netFinished, hn], hw hn hwr (h.shut.hash (by simpa using hv)), w, hwr, fun hok => ?_⟩
      subst hok
      split at hr <;> cases hr
      exact ⟨rfl, hn⟩
  case h_3 => cases hr

/-- Every file a joined flow created is settled, once. -/
theorem FlowInv.settled (h : FlowInv cfg fl) {r : Except Err Unit} (hr : fl.result cfg = some r) :
    (fl.log.kept ++ fl.log.undone).Perm fl.log.born := by
  have ha := h.files
  unfold Accounted at ha
  rwa [(h.joined hr).2.1, List.nil_append] at ha

/-- A flow that succeeded has completed every entry it heard of, committed every file and dropped none. -/
structure Flow.Succeeded (cfg : Cfg) (fl : Flow) : Prop where
  kept : fl.log.kept = fl.log.born
  undone : fl.log.undone = []
  files : fl.log.kept = (tally fl.log.taken).tokens
  sent : tally fl.log.taken = tally fl.log.sent
  heard : fl.log.heard = fl.log.done.map (fun fr => (fr.entry, fr.comps))
  got : fl.log.got = encodeAll fl.log.done ++ [0]

theorem FlowInv.success (h : FlowInv cfg fl) (hr : fl.result cfg = some (.ok ())) : fl.Succeeded cfg := by
  obtain ⟨-, -, w, hw, hok⟩ := h.joined hr
  obtain ⟨rfl, hn⟩ := hok rfl
  have hpc := h.net.pc
  rw [hn] at hpc
  obtain ⟨hq, hheard, hgot⟩ := hpc
  have hsunk := (h.pipe.ended (by rw [hw]; trivial)).2
  have htal : tally fl.log.taken = tally fl.log.sent := by rw [← hsunk, tally_sunk]
  have hkept : fl.log.kept = (tally fl.log.taken).tokens := by
    have := h.writer
    unfold WriterInv at this
    rw [hw] at this
    exact this
  have hborn : fl.log.kept = fl.log.born := by rw [hkept, hq.born, Tally.tokens, htal]
  refine ⟨hborn, ?_, hkept, htal, hheard, hgot⟩
  have hl := (h.settled hr).length_eq
  rw [List.length_append, hborn] at hl
  exact List.length_eq_zero_iff.1 (by omega)

end Thunderflash.Recv
