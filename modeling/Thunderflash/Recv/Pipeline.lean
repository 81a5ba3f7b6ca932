/-
The two queues of a flow: what the writer has taken is always a first part of what the net thread
sent, all of it once the writer ends well, and a digest is that of the payload just sent.
-/
import Thunderflash.Recv.Moves

namespace Thunderflash.Recv

open Codec Posix Lts

variable {cfg : Cfg} {c : Choice} {sh sh' : Shared} {fl fl' : Flow} {j : Job}

/-- The message the hash stage has hashed and not passed on. -/
def HashPc.hand : HashPc → List Msg
  | .forward m => [m]
  | _ => []

/-- The writer has ended, or is about to, because nothing more can come. -/
def WriterPc.ended : WriterPc → Prop
  | .closing _ (.ok _) | .lastDrop _ => True
  | _ => False

structure PipeInv (cfg : Cfg) (fl : Flow) : Prop where
  taken : fl.log.taken <+: (sunk cfg fl.log.sent).2
  fed : cfg.verify = true → ¬ fl.hashClosed → ∃ out, Fed (stage cfg) [] fl.log.sent fl.hq fl.hasher out ∧
    (¬ fl.writerClosed → out = fl.log.taken ++ (fl.wq ++ fl.hash.hand))
  closed : cfg.verify = true → fl.hashClosed →
    fl.hq = [] ∧ (¬ fl.writerClosed → fl.netFinished ∧ (sunk cfg fl.log.sent).2 = fl.log.taken ++ fl.wq)
  direct : cfg.verify = false → fl.hq = [] ∧ (¬ fl.writerClosed → fl.log.sent = fl.log.taken ++ fl.wq)
  orphan : ∀ m, fl.hash = .orphan m → fl.writerClosed
  ended : fl.writer.ended → fl.netFinished ∧ (sunk cfg fl.log.sent).2 = fl.log.taken

structure DigestInv (cfg : Cfg) (fl : Flow) : Prop where
  reply : ∀ d, fl.reply = some d → (∃ j, fl.net = .at j .awaitDigest) ∧ d = cfg.blake3 fl.log.part ∧ .finish ∉ fl.hq
  finish : .finish ∈ fl.hq → ∃ j q s, fl.net = .at j .awaitDigest ∧ fl.hq = q ++ [.finish] ∧ .finish ∉ q ∧
    fl.log.sent = s ++ [.finish] ∧ (sunk cfg s).1 = fl.log.part

theorem PipeInv.init (cfg : Cfg) : PipeInv cfg (.init cfg) where
  taken := by simp [Flow.init, Log.init]
  fed := fun hv _ => ⟨[], by simp [Flow.init, Log.init, Fed.init], fun _ => by simp [Flow.init, Log.init, hv, HashPc.hand]⟩
  closed := fun hv h => by simp [Flow.hashClosed, Flow.init, hv] at h
  direct := fun _ => ⟨rfl, fun _ => rfl⟩
  orphan := fun m h => by simp only [Flow.init] at h; split at h <;> cases h
  ended := fun h => by simp [Flow.init, WriterPc.ended] at h

theorem DigestInv.init (cfg : Cfg) : DigestInv cfg (.init cfg) :=
  ⟨fun d h => by simp [Flow.init] at h, fun h => by simp [Flow.init] at h⟩

/-! ## The net thread -/

/-- A step that neither sends nor ends keeps the queues' invariant. -/
theorem PipeInv.of_same (h : PipeInv cfg fl) (hf : ¬ fl.netFinished) (hq : fl'.hq = fl.hq) (hh : fl'.hash = fl.hash)
    (hs : fl'.hasher = fl.hasher) (hwq : fl'.wq = fl.wq) (hw : fl'.writer = fl.writer)
    (hsent : fl'.log.sent = fl.log.sent) (ht : fl'.log.taken = fl.log.taken) : PipeInv cfg fl' := by
  have hc : fl'.hashClosed ↔ fl.hashClosed := by simp only [Flow.hashClosed, hh]
  have hwc : fl'.writerClosed ↔ fl.writerClosed := by simp only [Flow.writerClosed, hw]
  refine ⟨by rw [ht, hsent]; exact h.taken, ?_, ?_, ?_, ?_, ?_⟩
  · rw [hc, hwc, hsent, hq, hs, ht, hwq, hh]; exact h.fed
  · rw [hc, hwc, hsent, hq, ht, hwq]
    exact fun hv hcl => ⟨(h.closed hv hcl).1, fun ho => absurd ((h.closed hv hcl).2 ho).1 hf⟩
  · rw [hwc, hsent, hq, ht, hwq]; exact h.direct
  · rw [hh, hwc]; exact h.orphan
  · rw [hw]; exact fun he => absurd (h.ended he).1 hf

theorem PipeInv.push {m : Msg} (h : PipeInv cfg fl) (hf : ¬ fl.netFinished) (hc : ¬ fl.sinkClosed cfg)
    (hg : Flow.Goes (fl.push cfg m) fl') : PipeInv cfg fl' := by
  have hsent : fl'.log.sent = fl.log.sent ++ [m] := by rw [hg.sent, Flow.push_log]
  have htaken : fl'.log.taken = fl.log.taken := by rw [hg.taken, Flow.push_log]
  have hhash : fl'.hash = fl.hash := by rw [hg.hash]; unfold Flow.push; dsimp only; split <;> rfl
  have hhasher : fl'.hasher = fl.hasher := by rw [hg.hasher]; unfold Flow.push; dsimp only; split <;> rfl
  have hwriter : fl'.writer = fl.writer := by rw [hg.writer]; unfold Flow.push; dsimp only; split <;> rfl
  have hcl : fl'.hashClosed ↔ fl.hashClosed := by simp only [Flow.hashClosed, hhash]
  have hwc : fl'.writerClosed ↔ fl.writerClosed := by simp only [Flow.writerClosed, hwriter]
  by_cases hv : cfg.verify = true
  · have hq : fl'.hq = fl.hq ++ [m] := by rw [hg.hq]; simp [Flow.push, hv]
    have hwq : fl'.wq = fl.wq := by rw [hg.wq]; simp [Flow.push, hv]
    have hopen : ¬ fl.hashClosed := by
      intro hx
      apply hc
      unfold Flow.hashClosed at hx
      unfold Flow.sinkClosed
      split at hx
      · rename_i l hl; simp [hv, hl]
      · exact hx.elim
    refine ⟨by rw [htaken, hsent]; exact isPrefix_push h.taken m, ?_, fun _ hx => absurd (hcl.1 hx) hopen,
      fun hv' => absurd (hv.symm.trans hv') (by simp), ?_, ?_⟩
    · intro _ _
      obtain ⟨out, hfed, ho⟩ := h.fed hv hopen
      refine ⟨out, by rw [hsent, hq, hhasher]; exact hfed.push m, ?_⟩
      rw [hwc, htaken, hwq, hhash]; exact ho
    · rw [hhash, hwc]; exact h.orphan
    · rw [hwriter]; exact fun he => absurd (h.ended he).1 hf
  · have hv' : cfg.verify = false := by simpa using hv
    have hq : fl'.hq = fl.hq := by rw [hg.hq]; simp [Flow.push, hv']
    have hwq : fl'.wq = fl.wq ++ [m] := by rw [hg.wq]; simp [Flow.push, hv']
    refine ⟨by rw [htaken, hsent]; exact isPrefix_push h.taken m, fun hx => absurd hx hv, fun hx => absurd hx hv, ?_, ?_, ?_⟩
    · intro _
      refine ⟨by rw [hq]; exact (h.direct hv').1, ?_⟩
      rw [hwc, hsent, htaken, hwq]
      intro ho
      rw [(h.direct hv').2 ho, List.append_assoc]
    · rw [hhash, hwc]; exact h.orphan
    · rw [hwriter]; exact fun he => absurd (h.ended he).1 hf

theorem PipeInv.netStep (h : PipeInv cfg fl) (hs : fl.netStep cfg c sh = some (sh', fl')) :
    PipeInv cfg fl' := by
  obtain ⟨hf, -, hm⟩ := netStep_cases hs
  rcases hm with hm | ha
  · cases hm with
    | goes hg _ _ _ => exact h.of_same hf hg.hq hg.hash hg.hasher hg.wq hg.writer hg.sent hg.taken
    | takeBuf _ _ he => subst he; exact h.of_same hf rfl rfl rfl rfl rfl rfl rfl
    | reply _ _ he => subst he; exact h.of_same hf rfl rfl rfl rfl rfl rfl rfl
    | @push j st m hpc hm hc _ hg _ =>
      exact h.push hf hc hg
    | back _ he => subst he; exact h.of_same hf rfl rfl rfl rfl rfl rfl rfl
  · exact h.of_same hf ha.hq ha.hash ha.hasher ha.wq ha.writer ha.sent ha.taken

theorem DigestInv.no_finish (h : DigestInv cfg fl) (ha : ∀ j, fl.net ≠ .at j .awaitDigest) : .finish ∉ fl.hq := by
  intro hx
  obtain ⟨j, -, -, hn, -⟩ := h.finish hx
  exact ha j hn

theorem DigestInv.no_reply (h : DigestInv cfg fl) (ha : ∀ j, fl.net ≠ .at j .awaitDigest) : fl.reply = none := by
  cases hr : fl.reply with
  | none => rfl
  | some d => obtain ⟨⟨j, hn⟩, -⟩ := h.reply d hr; exact absurd hn (ha j)

theorem DigestInv.of_none (hr : fl'.reply = none) (hq : .finish ∉ fl'.hq) : DigestInv cfg fl' :=
  ⟨fun d h => absurd (hr.symm.trans h) (by simp), fun h => absurd h hq⟩

theorem DigestInv.netStep (h : DigestInv cfg fl) (hp : PipeInv cfg fl) (hn : NetInv cfg fl)
    (hs : fl.netStep cfg c sh = some (sh', fl')) : DigestInv cfg fl' := by
  obtain ⟨hf, -, hm⟩ := netStep_cases hs
  rcases hm with hm | ha
  · cases hm with
    | goes hg _ haw haw' =>
      by_cases ha : ∃ j, fl.net = .at j .awaitDigest
      · -- the hash stage has gone, and its queue with it
        obtain ⟨j, hj⟩ := ha
        refine .of_none (by rw [hg.reply, haw j hj]) ?_
        intro hx
        rw [hg.hq] at hx
        have hclosed : fl.hashClosed := by
          simp only [Flow.netStep, hj, Flow.netRequest, Flow.netLocal, haw j hj] at hs
          unfold Flow.hashClosed
          split at hs
          · contradiction
          · rename_i hl; simp [hl]
          · cases hs
        have hv : cfg.verify = true := by
          have := hn.pc; rw [hj] at this; exact this.2.2.1
        rw [(hp.closed hv hclosed).1] at hx
        cases hx
      · have ha' : ∀ j, fl.net ≠ .at j .awaitDigest := fun j hj => ha ⟨j, hj⟩
        exact .of_none (by rw [hg.reply, h.no_reply ha']) (by rw [hg.hq]; exact h.no_finish ha')
    | takeBuf hpc _ he =>
      have ha : ∀ j, fl.net ≠ .at j .awaitDigest := by simp [hpc]
      subst he
      exact .of_none (h.no_reply ha) (h.no_finish ha)
    | reply hpc hr he =>
      subst he
      exact .of_none rfl (h.reply _ hr).2.2
    | @push j st m hpc hm hc _ hg hnext =>
      have ha : ∀ j, fl.net ≠ .at j .awaitDigest := by
        intro k hk
        rw [hpc] at hk
        cases hk
        cases hm
      have hr : fl'.reply = none := by
        rw [hg.reply]
        have : (fl.push cfg m).reply = fl.reply := by unfold Flow.push; dsimp only; split <;> rfl
        rw [this, h.no_reply ha]
      have hno := h.no_finish ha
      by_cases hmf : m = .finish
      · rw [if_pos hmf] at hnext
        subst hmf
        refine ⟨fun d hd => absurd (hr.symm.trans hd) (by simp), fun _ => ?_⟩
        have hpc' := hn.pc
        rw [hpc] at hpc'
        cases st <;> cases hm
        obtain ⟨-, -, hv, -, -, -, hsunk⟩ := hpc'
        refine ⟨j, fl.hq, fl.log.sent, hnext.1, ?_, hno, ?_, ?_⟩
        · rw [hg.hq]; simp [Flow.push, hv]
        · rw [hnext.2, Flow.push_log]
        · rw [hnext.2, Flow.push_log]; exact hsunk
      · refine .of_none hr ?_
        rw [hg.hq]
        unfold Flow.push
        dsimp only
        split
        · simp only [List.mem_append, List.mem_singleton, not_or]
          exact ⟨hno, fun he => hmf he.symm⟩
        · exact hno
    | back hpc he =>
      have ha : ∀ j, fl.net ≠ .at j .awaitDigest := by simp [hpc]
      subst he
      exact .of_none (h.no_reply ha) (h.no_finish ha)
  · exact .of_none (by rw [ha.reply, h.no_reply ha.await]) (by rw [ha.hq]; exact h.no_finish ha.await)

/-! ## The hash stage and the writer -/

/-- The net thread and what it has logged are unchanged. -/
def Behind (fl fl' : Flow) : Prop :=
  ∃ hq hash hasher reply wq writer pool taken kept undone, fl' = { fl with
    hq, hash, hasher, reply, wq, writer, pool
    log := { fl.log with taken, kept, undone } }

section

variable {log : Log} (taken : List Msg) (kept undone : List InFlight)

theorem Quiet.behind (h : Quiet cfg log) : Quiet cfg { log with taken, kept, undone } :=
  ⟨h.current, h.hashed, h.born⟩

theorem Idle.behind (h : Idle cfg log) : Idle cfg { log with taken, kept, undone } :=
  ⟨h.toQuiet.behind _ _ _, h.part, h.trailer⟩

theorem JobOk.behind (h : JobOk j log) : JobOk j { log with taken, kept, undone } :=
  ⟨h.framed, h.path, h.heard, h.got⟩

theorem StageOk.behind {st : Stage} (h : StageOk cfg j log st) :
    StageOk cfg j { log with taken, kept, undone } st := by
  cases st with
  | walkRoot => exact Idle.behind _ _ _ h
  | linkDigest | linkUnlink | linkMake | linkStamp | register => exact ⟨h.1.behind _ _ _, h.2⟩
  | walkMk | walkOpen | dirMk | dirStamp | linkRead | tempCreate | placeCreate | placeUnlink =>
    exact ⟨h.1.behind _ _ _, h.2⟩
  | _ => exact h

end

theorem PcOk.behind {log : Log} {net : NetPc} (h : PcOk cfg log net) (taken : List Msg) (kept undone : List InFlight) :
    PcOk cfg { log with taken, kept, undone } net := by
  cases net with
  | «at» j st => exact ⟨h.1.behind _ _ _, h.2.behind _ _ _⟩
  | finished r =>
    cases r with
    | error e => trivial
    | ok u => exact ⟨h.1.behind _ _ _, h.2⟩
  | _ => exact ⟨h.1.behind _ _ _, h.2⟩

theorem NetInv.behind (h : NetInv cfg fl) (hb : Behind fl fl') : NetInv cfg fl' := by
  obtain ⟨hq, hash, hasher, reply, wq, writer, pool, taken, kept, undone, rfl⟩ := hb
  exact ⟨⟨h.log.whole, h.log.files, h.log.heard, h.log.sane, h.log.born, h.log.name, h.log.got⟩, h.pc.behind _ _ _⟩

theorem dropMsg_eq {m : Msg} {fl0 : Flow} (hp : fl0.dropMsg cfg c m sh = (sh', fl')) :
    ∃ undone, fl' = { fl0 with log := { fl0.log with undone } } := by
  unfold Flow.dropMsg at hp
  split at hp <;> cases hp
  · exact ⟨_, rfl⟩
  · exact ⟨_, rfl⟩

theorem undo_eq {t : InFlight} {fl0 : Flow} (hp : fl0.undo cfg c t sh = (sh', fl')) :
    ∃ undone, fl' = { fl0 with log := { fl0.log with undone } } := dropMsg_eq (m := .begin t) hp

/-- Only the hash stage has moved. -/
def HashOnly (fl fl' : Flow) : Prop :=
  ∃ hq hash hasher reply wq undone, fl' = { fl with hq, hash, hasher, reply, wq, log := { fl.log with undone } }

theorem HashOnly.behind (h : HashOnly fl fl') : Behind fl fl' := by
  obtain ⟨_, _, _, _, _, _, rfl⟩ := h
  exact ⟨_, _, _, _, _, _, _, _, _, _, rfl⟩

theorem hashDrop_only {m : Msg} {fl0 : Flow} (h : HashOnly fl fl0) (hp : fl0.dropMsg cfg c m sh = (sh', fl')) :
    HashOnly fl fl' := by
  obtain ⟨undone, rfl⟩ := dropMsg_eq hp
  obtain ⟨_, _, _, _, _, _, rfl⟩ := h
  exact ⟨_, _, _, _, _, _, rfl⟩

theorem hashStep_only (h : fl.hashStep cfg c sh = some (sh', fl')) : HashOnly fl fl' := by
  unfold Flow.hashStep at h
  split at h
  case h_1 =>
    split at h
    · cases h; exact ⟨_, _, _, _, _, _, rfl⟩
    · cases h; exact ⟨_, _, _, _, _, _, rfl⟩
    · cases h; exact ⟨_, _, _, _, _, _, rfl⟩
    · split at h <;> cases h; exact ⟨_, _, _, _, _, _, rfl⟩
  case h_2 =>
    split at h
    · cases h; exact ⟨_, _, _, _, _, _, rfl⟩
    · split at h <;> cases h; exact ⟨_, _, _, _, _, _, rfl⟩
  case h_3 => exact hashDrop_only ⟨_, _, _, _, _, _, rfl⟩ (Option.some.inj h)
  case h_4 => exact hashDrop_only ⟨_, _, _, _, _, _, rfl⟩ (Option.some.inj h)
  case h_5 => cases h

/-- Only the writer has moved. -/
def WriterOnly (fl fl' : Flow) : Prop :=
  ∃ wq writer pool taken kept undone, fl' = { fl with wq, writer, pool, log := { fl.log with taken, kept, undone } }

theorem WriterOnly.behind (h : WriterOnly fl fl') : Behind fl fl' := by
  obtain ⟨_, _, _, _, _, _, rfl⟩ := h
  exact ⟨_, _, _, _, _, _, _, _, _, _, rfl⟩

theorem WriterOnly.trans {fl1 fl2 fl3 : Flow} (h : WriterOnly fl1 fl2) (h' : WriterOnly fl2 fl3) : WriterOnly fl1 fl3 := by
  obtain ⟨_, _, _, _, _, _, rfl⟩ := h
  obtain ⟨_, _, _, _, _, _, rfl⟩ := h'
  exact ⟨_, _, _, _, _, _, rfl⟩

theorem drop_only {m : Msg} {fl0 : Flow} (h : WriterOnly fl fl0) (hp : fl0.dropMsg cfg c m sh = (sh', fl')) :
    WriterOnly fl fl' := by
  obtain ⟨undone, rfl⟩ := dropMsg_eq hp
  exact h.trans ⟨_, _, _, _, _, _, rfl⟩

theorem handle_only (current : Option Cursor) (m : Msg) (sh : Shared) (fl : Flow) :
    WriterOnly fl (fl.handle current m sh).2 := by
  unfold Flow.handle
  split <;> exact ⟨_, _, _, _, _, _, rfl⟩

theorem settle_only (t : InFlight) (fl : Flow) : WriterOnly fl (fl.settle t) := by
  unfold Flow.settle
  split <;> exact ⟨_, _, _, _, _, _, rfl⟩

theorem writerStep_only (h : fl.writerStep cfg c sh = some (sh', fl')) : WriterOnly fl fl' := by
  unfold Flow.writerStep at h
  split at h
  case h_1 =>
    split at h
    · obtain ⟨-, rfl⟩ := Prod.mk.inj (Option.some.inj h)
      exact .trans ⟨_, _, _, _, _, _, rfl⟩ (handle_only _ _ _ _)
    · split at h <;> cases h; exact ⟨_, _, _, _, _, _, rfl⟩
    · split at h <;> cases h; exact ⟨_, _, _, _, _, _, rfl⟩
  case h_2 => exact drop_only (m := .begin _) ⟨_, _, _, _, _, _, rfl⟩ (Option.some.inj h)
  case h_3 =>
    split at h
    · cases h; exact ⟨_, _, _, _, _, _, rfl⟩
    · split at h
      · split at h <;> cases h <;> exact ⟨_, _, _, _, _, _, rfl⟩
      · cases h
  case h_4 => cases h; exact ⟨_, _, _, _, _, _, rfl⟩
  case h_5 =>
    obtain ⟨-, rfl⟩ := Prod.mk.inj (Option.some.inj h)
    split
    · exact ⟨_, _, _, _, _, _, rfl⟩
    · exact settle_only _ _
  case h_6 =>
    split at h <;> cases h
    · exact settle_only _ _
    · exact ⟨_, _, _, _, _, _, rfl⟩
  case h_7 =>
    split at h <;> cases h <;> exact ⟨_, _, _, _, _, _, rfl⟩
  case h_8 => split at h <;> cases h <;> exact ⟨_, _, _, _, _, _, rfl⟩
  case h_9 => exact drop_only (m := .begin _) ⟨_, _, _, _, _, _, rfl⟩ (Option.some.inj h)
  case h_10 => cases h; exact ⟨_, _, _, _, _, _, rfl⟩
  case h_11 => exact drop_only (m := .begin _) ⟨_, _, _, _, _, _, rfl⟩ (Option.some.inj h)
  case h_12 => exact drop_only ⟨_, _, _, _, _, _, rfl⟩ (Option.some.inj h)
  case h_13 => cases h

theorem stage_finish_of (hv : cfg.verify = true) (s : Bytes) : stage cfg s .finish = ([], none) := by
  simp [stage, hv]

theorem stage_other (hv : cfg.verify = true) (s : Bytes) {m : Msg} (h1 : ∀ b, m ≠ .data b) (h2 : m ≠ .finish) :
    stage cfg s m = (s, some m) := by
  unfold stage
  rw [if_pos hv]
  cases m with
  | data b => exact absurd rfl (h1 b)
  | finish => exact absurd rfl h2
  | _ => rfl

theorem PipeInv.hashStep (h : PipeInv cfg fl) (hv : cfg.verify = true) (hs : fl.hashStep cfg c sh = some (sh', fl')) :
    PipeInv cfg fl' := by
  have hnv : ∀ {p : Prop}, cfg.verify = false → p := fun hx => absurd (hv.symm.trans hx) (by simp)
  unfold Flow.hashStep at hs
  split at hs
  case h_1 hh =>
    have hopen : ¬ fl.hashClosed := by simp [Flow.hashClosed, hh]
    obtain ⟨out, hfed, ho⟩ := h.fed hv hopen
    simp only [hh, HashPc.hand, List.append_nil] at ho
    split at hs
    case h_1 bytes q hq =>
      cases hs
      rw [hq] at hfed
      have hst : stage cfg fl.hasher (.data bytes) = (fl.hasher ++ bytes, some (.data bytes)) := by simp [stage, hv]
      refine ⟨h.taken, fun _ _ => ⟨_, by have := hfed.take; rwa [hst] at this, fun hw => ?_⟩, fun _ hc => ?_, hnv, ?_, h.ended⟩
      · rw [ho hw]; simp [HashPc.hand]
      · exact absurd hc (by simp [Flow.hashClosed])
      · exact fun m hm => by cases hm
    case h_2 q hq =>
      cases hs
      rw [hq] at hfed
      have hst := stage_finish_of hv fl.hasher
      refine ⟨h.taken, fun _ _ => ⟨_, by have := hfed.take; rwa [hst] at this, fun hw => ?_⟩, fun _ hc => ?_, hnv, ?_, h.ended⟩
      · rw [ho hw]; simp [hh, HashPc.hand]
      · exact absurd hc (by simp [Flow.hashClosed, hh])
      · exact fun m hm => by rw [hh] at hm; cases hm
    case h_3 m q hd hf hq =>
      cases hs
      rw [hq] at hfed
      have hst := stage_other hv fl.hasher (m := m) hd hf
      refine ⟨h.taken, fun _ _ => ⟨_, by have := hfed.take; rwa [hst] at this, fun hw => ?_⟩, fun _ hc => ?_, hnv, ?_, h.ended⟩
      · rw [ho hw]; simp [HashPc.hand]
      · exact absurd hc (by simp [Flow.hashClosed])
      · exact fun m hm => by cases hm
    case h_4 hq =>
      split at hs <;> cases hs
      rename_i hn
      rw [hq] at hfed
      refine ⟨h.taken, fun _ hc => absurd (by simp [Flow.hashClosed]) hc, fun _ _ => ⟨hq, fun hw => ⟨hn, ?_⟩⟩, hnv, ?_, h.ended⟩
      · unfold sunk; rw [hfed.drained]; exact ho hw
      · exact fun m hm => by cases hm
  case h_2 m hh =>
    have hopen : ¬ fl.hashClosed := by simp [Flow.hashClosed, hh]
    obtain ⟨out, hfed, ho⟩ := h.fed hv hopen
    simp only [hh, HashPc.hand] at ho
    split at hs
    · rename_i hw
      cases hs
      refine ⟨h.taken, fun _ _ => ⟨out, hfed, fun hx => absurd hw hx⟩, fun _ hc => ?_, hnv, fun _ _ => hw, h.ended⟩
      exact absurd hc (by simp [Flow.hashClosed])
    · split at hs <;> cases hs
      refine ⟨h.taken, fun _ _ => ⟨out, hfed, fun hx => ?_⟩, fun _ hc => ?_, hnv, ?_, h.ended⟩
      · rw [ho hx]; simp [HashPc.hand]
      · exact absurd hc (by simp [Flow.hashClosed])
      · exact fun m hm => by cases hm
  case h_3 m hh =>
    obtain ⟨undone, rfl⟩ := dropMsg_eq (Option.some.inj hs)
    have hw := h.orphan m hh
    refine ⟨h.taken, fun _ hc => absurd (by simp [Flow.hashClosed]) hc, fun _ _ => ⟨rfl, fun hx => absurd hw hx⟩,
      hnv, ?_, h.ended⟩
    exact fun m hm => by cases hm
  case h_4 m l hh =>
    obtain ⟨undone, rfl⟩ := dropMsg_eq (Option.some.inj hs)
    have hc := h.closed hv (by simp [Flow.hashClosed, hh])
    refine ⟨h.taken, fun _ hx => absurd (by simp [Flow.hashClosed]) hx, fun _ _ => hc, hnv, ?_, h.ended⟩
    exact fun m hm => by cases hm
  case h_5 => cases hs

/-- A message other than `Finish` leaves the queue. -/
theorem DigestInv.pop {m : Msg} {q : List Msg} (h : DigestInv cfg fl) (hq : fl.hq = m :: q) (hm : m ≠ .finish)
    (hq' : fl'.hq = q) (hn : fl'.net = fl.net) (hr : fl'.reply = fl.reply) (hl : fl'.log = fl.log) : DigestInv cfg fl' := by
  refine ⟨fun d hd => ?_, fun hf => ?_⟩
  · obtain ⟨hj, he, hno⟩ := h.reply d (hr ▸ hd)
    rw [hq, List.mem_cons, not_or] at hno
    exact ⟨by rw [hn]; exact hj, by rw [hl]; exact he, by rw [hq']; exact hno.2⟩
  · obtain ⟨j, q0, s, hj, he, hno, hs, hp⟩ := h.finish (by rw [hq]; exact List.mem_cons_of_mem _ (hq' ▸ hf))
    cases q0 with
    | nil => rw [hq] at he; cases he; exact absurd rfl hm
    | cons a q0 =>
      rw [hq] at he
      cases he
      exact ⟨j, q0, s, by rw [hn]; exact hj, hq', fun hx => hno (List.mem_cons_of_mem _ hx), by rw [hl]; exact hs,
        by rw [hl]; exact hp⟩

theorem DigestInv.hashStep (h : DigestInv cfg fl) (hp : PipeInv cfg fl) (hv : cfg.verify = true)
    (hs : fl.hashStep cfg c sh = some (sh', fl')) : DigestInv cfg fl' := by
  unfold Flow.hashStep at hs
  split at hs
  case h_1 hh =>
    split at hs
    case h_1 bytes q hq => cases hs; exact h.pop hq (by simp) rfl rfl rfl rfl
    case h_2 q hq =>
      cases hs
      -- the hasher holds the payload that was sent before this `Finish`
      obtain ⟨j, q0, s, hj, he, hno, hsent, hpart⟩ := h.finish (by rw [hq]; exact List.mem_cons_self)
      obtain ⟨out, ⟨seen, hseen, hthrough⟩, -⟩ := hp.fed hv (by simp [Flow.hashClosed, hh])
      have hq0 : q0 = [] := by
        cases q0 with
        | nil => rfl
        | cons a q0 => rw [hq] at he; cases he; exact absurd List.mem_cons_self hno
      subst hq0
      rw [hq] at he
      cases he
      rw [hq, hsent] at hseen
      obtain ⟨rfl, -⟩ := List.append_inj' hseen rfl
      have hh' : fl.hasher = fl.log.part := by rw [← hpart, sunk, hthrough]
      refine ⟨fun d hd => ?_, fun hf => by cases hf⟩
      cases hd
      exact ⟨⟨j, hj⟩, by rw [hh'], by simp⟩
    case h_3 m q hd hf hq => cases hs; exact h.pop hq hf rfl rfl rfl rfl
    case h_4 => split at hs <;> cases hs; exact ⟨h.reply, h.finish⟩
  case h_2 =>
    split at hs
    · cases hs; exact ⟨h.reply, h.finish⟩
    · split at hs <;> cases hs; exact ⟨h.reply, h.finish⟩
  case h_3 =>
    obtain ⟨undone, rfl⟩ := dropMsg_eq (Option.some.inj hs)
    refine ⟨fun d hd => ?_, fun hf => by cases hf⟩
    obtain ⟨hj, he, -⟩ := h.reply d hd
    exact ⟨hj, he, by simp⟩
  case h_4 => obtain ⟨undone, rfl⟩ := dropMsg_eq (Option.some.inj hs); exact ⟨h.reply, h.finish⟩
  case h_5 => cases hs

theorem PipeInv.unread (h : PipeInv cfg fl) (hw : ¬ fl.writerClosed) :
    fl.log.taken ++ fl.wq <+: (sunk cfg fl.log.sent).2 := by
  by_cases hv : cfg.verify = true
  · by_cases hc : fl.hashClosed
    · rw [((h.closed hv hc).2 hw).2]
    · obtain ⟨out, hfed, ho⟩ := h.fed hv hc
      refine List.IsPrefix.trans ?_ hfed.out_isPrefix
      rw [ho hw, ← List.append_assoc]
      exact List.prefix_append ..
  · have hv' : cfg.verify = false := by simpa using hv
    rw [sunk_of_not_verify hv', (h.direct hv').2 hw]

theorem PipeInv.drained (h : PipeInv cfg fl) (hw : ¬ fl.writerClosed) (hs : fl.sourceClosed cfg) :
    fl.netFinished ∧ (sunk cfg fl.log.sent).2 = fl.log.taken ++ fl.wq := by
  unfold Flow.sourceClosed at hs
  split at hs
  · rename_i hv; exact (h.closed hv hs).2 hw
  · rename_i hv
    have hv' : cfg.verify = false := by simpa using hv
    exact ⟨hs, by rw [sunk_of_not_verify hv', (h.direct hv').2 hw]⟩

/-- The writer goes on, or ends for good. -/
theorem PipeInv.of_writer (h : PipeInv cfg fl) (hb : ∃ wq writer pool kept undone, fl' = { fl with
      wq, writer, pool, log := { fl.log with kept, undone } })
    (hc : ¬ fl'.writerClosed → ¬ fl.writerClosed ∧ fl'.wq = fl.wq) (he : fl'.writer.ended → fl.writer.ended) :
    PipeInv cfg fl' := by
  obtain ⟨wq, writer, pool, kept, undone, rfl⟩ := hb
  refine ⟨h.taken, fun hv ho => ?_, fun hv hx => ?_, fun hv => ?_, fun m hm => ?_, fun hx => h.ended (he hx)⟩
  · obtain ⟨out, hfed, hout⟩ := h.fed hv ho
    refine ⟨out, hfed, fun hw => ?_⟩
    obtain ⟨hw0, hq⟩ := hc hw
    rw [hout hw0, hq]
  · obtain ⟨hq, hcl⟩ := h.closed hv hx
    refine ⟨hq, fun hw => ?_⟩
    obtain ⟨hw0, hwq⟩ := hc hw
    rw [hwq]; exact hcl hw0
  · obtain ⟨hq, hd⟩ := h.direct hv
    refine ⟨hq, fun hw => ?_⟩
    obtain ⟨hw0, hwq⟩ := hc hw
    rw [hwq]; exact hd hw0
  · by_contra hw
    exact (hc hw).1 (h.orphan m hm)

theorem PipeInv.settle {t : InFlight} (h : PipeInv cfg fl) (hw : ¬ fl.writerClosed) : PipeInv cfg (fl.settle t) := by
  rcases settle_cases t fl with ⟨final, -, he⟩ | ⟨-, he⟩ <;> rw [he]
  · exact h.of_writer ⟨_, _, _, _, _, rfl⟩ (fun _ => ⟨hw, rfl⟩) (fun hx => absurd hx (by simp [WriterPc.ended]))
  · exact h.of_writer ⟨_, _, _, _, _, rfl⟩ (fun _ => ⟨hw, rfl⟩) (fun hx => absurd hx (by simp [WriterPc.ended]))

/-- The writer takes a message. -/
theorem PipeInv.take {m : Msg} {q : List Msg} (h : PipeInv cfg fl) (hw : ¬ fl.writerClosed) (hq : fl.wq = m :: q) :
    PipeInv cfg { fl with wq := q, log := { fl.log with taken := fl.log.taken ++ [m] } } := by
  have hun := h.unread hw
  rw [hq] at hun
  refine ⟨?_, fun hv ho => ?_, fun hv hx => ?_, fun hv => ?_, h.orphan, fun he => ?_⟩
  · refine List.IsPrefix.trans ?_ hun
    rw [show m :: q = [m] ++ q from rfl, ← List.append_assoc]
    exact List.prefix_append ..
  · obtain ⟨out, hfed, hout⟩ := h.fed hv ho
    exact ⟨out, hfed, fun _ => by rw [hout hw, hq]; simp⟩
  · obtain ⟨hhq, hcl⟩ := h.closed hv hx
    exact ⟨hhq, fun _ => ⟨(hcl hw).1, by rw [(hcl hw).2, hq]; simp⟩⟩
  · obtain ⟨hhq, hd⟩ := h.direct hv
    exact ⟨hhq, fun _ => by rw [hd hw, hq]; simp⟩
  · -- having ended, the writer would have left nothing to take
    have h2 := (h.ended he).2
    rw [h2] at hun
    have hl := hun.length_le
    simp at hl

theorem handle_writer (current : Option Cursor) (m : Msg) (sh : Shared) (fl : Flow) (hw : fl.writer = .recv current) :
    (∃ w pool, (fl.handle current m sh).2 = { fl with writer := w, pool }) ∧
      ¬ (fl.handle current m sh).2.writerClosed ∧ ¬ (fl.handle current m sh).2.writer.ended := by
  unfold Flow.handle
  split
  case h_5 | h_7 => exact ⟨⟨_, _, rfl⟩, by simp [Flow.writerClosed, hw], by simp [WriterPc.ended, hw]⟩
  case h_3 => exact ⟨⟨_, _, rfl⟩, by simp [Flow.writerClosed, hw], by simp [WriterPc.ended, hw]⟩
  case h_6 =>
    refine ⟨⟨_, _, rfl⟩, ?_, ?_⟩
    · dsimp only [Flow.writerClosed]; split <;> rename_i h <;> split at h <;> simp_all
    · dsimp only [WriterPc.ended]; split <;> rename_i h <;> split at h <;> simp_all
  all_goals exact ⟨⟨_, _, rfl⟩, by simp [Flow.writerClosed], by simp [WriterPc.ended]⟩

theorem PipeInv.writerStep (h : PipeInv cfg fl) (hs : fl.writerStep cfg c sh = some (sh', fl')) : PipeInv cfg fl' := by
  unfold Flow.writerStep at hs
  split at hs
  case h_1 current hw =>
    have hopen : ¬ fl.writerClosed := by simp [Flow.writerClosed, hw]
    split at hs
    · rename_i _ m q hq
      obtain rfl := congrArg Prod.snd (Option.some.inj hs)
      have ht := h.take hopen hq
      obtain ⟨⟨w, pool, he⟩, hc, hend⟩ := handle_writer _ m sh
        { fl with wq := q, log := { fl.log with taken := fl.log.taken ++ [m] } } hw
      rw [he] at hend
      change PipeInv cfg (Flow.handle _ m sh _).2
      rw [he]
      exact ht.of_writer ⟨_, _, _, _, _, rfl⟩ (fun _ => ⟨by simpa [Flow.writerClosed] using hopen, rfl⟩)
        fun hx => absurd hx hend
    all_goals
      rename_i hq
      split at hs <;> cases hs
      rename_i hsrc
      have hd := h.drained hopen hsrc
      rw [hq, List.append_nil] at hd
      rw [← hq] at hq
    · exact ⟨h.taken, fun hv ho => (h.fed hv ho).imp fun _ hf => ⟨hf.1, fun hx => absurd (by simp [Flow.writerClosed]) hx⟩,
        fun hv hx => ⟨(h.closed hv hx).1, fun hx => absurd (by simp [Flow.writerClosed]) hx⟩,
        fun hv => ⟨(h.direct hv).1, fun hx => absurd (by simp [Flow.writerClosed]) hx⟩,
        fun _ _ => by simp [Flow.writerClosed], fun _ => hd⟩
    · refine ⟨h.taken, fun hv ho => (h.fed hv ho).imp fun _ hf => ⟨hf.1, fun _ => hf.2 hopen⟩,
        fun hv hx => ⟨(h.closed hv hx).1, fun _ => (h.closed hv hx).2 hopen⟩,
        fun hv => ⟨(h.direct hv).1, fun _ => (h.direct hv).2 hopen⟩, fun m hm => absurd (h.orphan m hm) hopen, fun _ => hd⟩
  case h_2 old t hw =>
    obtain ⟨undone, rfl⟩ := undo_eq (Option.some.inj hs)
    exact h.of_writer ⟨_, _, _, _, _, rfl⟩ (fun _ => ⟨by simp [Flow.writerClosed, hw], rfl⟩)
      (fun hx => absurd hx (by simp [WriterPc.ended]))
  case h_3 o bytes hw =>
    have hopen : ¬ fl.writerClosed := by simp [Flow.writerClosed, hw]
    split at hs
    · cases hs
      exact h.of_writer ⟨_, _, _, _, _, rfl⟩ (fun _ => ⟨hopen, rfl⟩) (fun hx => absurd hx (by simp [WriterPc.ended]))
    · split at hs
      · split at hs <;> cases hs <;>
        exact h.of_writer ⟨_, _, _, _, _, rfl⟩ (fun _ => ⟨hopen, rfl⟩) (fun hx => absurd hx (by simp [WriterPc.ended]))
      · cases hs
  case h_4 t hw =>
    cases hs
    exact h.of_writer ⟨_, _, _, _, _, rfl⟩ (fun _ => ⟨by simp [Flow.writerClosed, hw], rfl⟩)
      (fun hx => absurd hx (by simp [WriterPc.ended]))
  case h_5 t hw =>
    have hopen : ¬ fl.writerClosed := by simp [Flow.writerClosed, hw]
    obtain ⟨-, rfl⟩ := Prod.mk.inj (Option.some.inj hs)
    split
    · exact h.of_writer ⟨_, _, _, _, _, rfl⟩ (fun _ => ⟨hopen, rfl⟩) (fun hx => absurd hx (by simp [WriterPc.ended]))
    · exact h.settle hopen
  case h_6 t hw =>
    have hopen : ¬ fl.writerClosed := by simp [Flow.writerClosed, hw]
    split at hs <;> cases hs
    · exact h.settle hopen
    · exact h.of_writer ⟨_, _, _, _, _, rfl⟩ (fun _ => ⟨hopen, rfl⟩) (fun hx => absurd hx (by simp [WriterPc.ended]))
  case h_7 t final hw =>
    have hopen : ¬ fl.writerClosed := by simp [Flow.writerClosed, hw]
    split at hs <;> cases hs
    · refine h.of_writer ⟨_, _, _, _, _, rfl⟩ (fun _ => ⟨hopen, rfl⟩) (fun hx => absurd hx ?_)
      dsimp only
      split <;> simp [WriterPc.ended]
    · exact h.of_writer ⟨_, _, _, _, _, rfl⟩ (fun _ => ⟨hopen, rfl⟩) (fun hx => absurd hx (by simp [WriterPc.ended]))
  case h_8 t hw =>
    have hopen : ¬ fl.writerClosed := by simp [Flow.writerClosed, hw]
    split at hs <;> cases hs <;>
    exact h.of_writer ⟨_, _, _, _, _, rfl⟩ (fun _ => ⟨hopen, rfl⟩) (fun hx => absurd hx (by simp [WriterPc.ended]))
  case h_9 t e hw =>
    obtain ⟨undone, rfl⟩ := undo_eq (Option.some.inj hs)
    exact h.of_writer ⟨_, _, _, _, _, rfl⟩ (fun hx => absurd (by simp [Flow.writerClosed, Flow.writerFail]) hx)
      (fun hx => absurd hx (by simp [WriterPc.ended, Flow.writerFail]))
  case h_10 t e hw =>
    cases hs
    exact h.of_writer ⟨_, _, _, _, _, rfl⟩ (fun hx => absurd (by simp [Flow.writerClosed, Flow.writerFail]) hx)
      (fun hx => absurd hx (by simp [WriterPc.ended, Flow.writerFail]))
  case h_11 t hw =>
    obtain ⟨undone, rfl⟩ := undo_eq (Option.some.inj hs)
    exact h.of_writer ⟨_, _, _, _, _, rfl⟩ (fun hx => absurd (by simp [Flow.writerClosed]) hx)
      (fun _ => by simp [WriterPc.ended, hw])
  case h_12 m l r hw =>
    obtain ⟨undone, rfl⟩ := dropMsg_eq (Option.some.inj hs)
    refine h.of_writer ⟨_, _, _, _, _, rfl⟩ (fun hx => absurd (by simp [Flow.writerClosed]) hx) fun hx => ?_
    rw [hw]
    cases r with
    | ok u => trivial
    | error e => exact hx.elim
  case h_13 => cases hs

/-- The writer has nothing to do with digests. -/
theorem DigestInv.writerStep (h : DigestInv cfg fl) (hs : fl.writerStep cfg c sh = some (sh', fl')) : DigestInv cfg fl' := by
  obtain ⟨_, _, _, _, _, _, rfl⟩ := writerStep_only hs
  exact ⟨h.reply, h.finish⟩

end Thunderflash.Recv
