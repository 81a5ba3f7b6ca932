/-
Where the buffers of a flow are: every one is in the pool, in a queue or in a stage's hand until a
stage fails, and the gauge of the diagnostics counts those on their way to the writer.
-/
import Thunderflash.Recv.Steps
import Thunderflash.Lts.Buffers

namespace Thunderflash.Recv

open Codec Posix Lts

variable {cfg : Cfg} {c : Choice} {sh sh' : Shared} {fl fl' : Flow} {s s' : State} {fs0 : Fs} {j : Job}

/-! ## Where they are -/

/-- The buffers a message carries. -/
def Msg.bufs : Msg → Nat
  | .data _ => 1
  | _ => 0

def bufsOf (l : List Msg) : Nat := (l.map Msg.bufs).sum

@[simp] theorem bufsOf_nil : bufsOf [] = 0 := rfl

@[simp] theorem bufsOf_cons (m : Msg) (l : List Msg) : bufsOf (m :: l) = m.bufs + bufsOf l := by simp [bufsOf]

@[simp] theorem bufsOf_append (l l' : List Msg) : bufsOf (l ++ l') = bufsOf l + bufsOf l' := by simp [bufsOf]

def NetPc.fill : NetPc → Nat
  | .at _ (.readBuf _) => 1
  | _ => 0

def NetPc.full : NetPc → Nat
  | .at _ (.sendData ..) => 1
  | _ => 0

def HashPc.bufs : HashPc → Nat
  | .forward m | .orphan m => m.bufs
  | .closing l => bufsOf l
  | .recv => 0

def WriterPc.drain : WriterPc → Nat
  | .write .. => 1
  | _ => 0

/-- Those in a queue the writer is dropping. -/
def WriterPc.bufs : WriterPc → Nat
  | .closing l _ => bufsOf l
  | _ => 0

def Flow.buffers (fl : Flow) : Buffers where
  pool := fl.pool
  fill := fl.net.fill
  queued := fl.net.full + bufsOf fl.hq + fl.hash.bufs + bufsOf fl.wq + fl.writer.bufs
  drain := fl.writer.drain

def NetPc.failed : NetPc → Prop
  | .finished (.error _) => True
  | _ => False

def WriterPc.failed : WriterPc → Prop
  | .failDrop .. | .lateDrop .. | .closing _ (.error _) => True
  | _ => False

/-- Some stage has met an error. -/
def Flow.failed (fl : Flow) : Prop := fl.net.failed ∨ fl.writer.failed

/-! ## Who has left -/

/-- Messages are dropped only after the writer has failed. -/
structure Left (cfg : Cfg) (fl : Flow) : Prop where
  writer : ∀ {m l r}, fl.writer = .closing (m :: l) r → ∃ e, r = .error e
  ended : fl.writer.ended → fl.sourceClosed cfg
  orphan : ∀ {m}, fl.hash = .orphan m → ∃ l e, fl.writer = .closing l (.error e)
  dropped : ∀ {m l}, fl.hash = .closing (m :: l) → ∃ l' e, fl.writer = .closing l' (.error e)

theorem Left.init (cfg : Cfg) : Left cfg (.init cfg) where
  writer := fun h => by cases h
  ended := fun h => by simp [Flow.init, WriterPc.ended] at h
  orphan := fun h => by simp only [Flow.init] at h; split at h <;> cases h
  dropped := fun h => by simp only [Flow.init] at h; split at h <;> cases h

/-- What the net thread leaves alone. -/
theorem netStep_hash (h : fl.netStep cfg c sh = some (sh', fl')) : fl'.hash = fl.hash := by
  obtain ⟨-, -, hm⟩ := netStep_cases h
  rcases hm with hm | ha
  · cases hm with
    | goes hg => exact hg.hash
    | takeBuf _ _ he => subst he; rfl
    | reply _ _ he => subst he; rfl
    | push _ _ _ _ hg _ => rw [hg.hash]; unfold Flow.push; dsimp only; split <;> rfl
    | back _ he => subst he; rfl
  · exact ha.hash

theorem Left.netStep (h : Left cfg fl) (hs : fl.netStep cfg c sh = some (sh', fl')) : Left cfg fl' := by
  have hw := (netStep_writer hs).1
  have hh := netStep_hash hs
  have hf := (netStep_cases hs).1
  refine ⟨by rw [hw]; exact h.writer, ?_, by rw [hh, hw]; exact h.orphan, by rw [hh, hw]; exact h.dropped⟩
  rw [hw]
  intro he
  have hc := h.ended he
  unfold Flow.sourceClosed at hc ⊢
  split at hc
  · rename_i hv
    rw [if_pos hv]
    simpa only [Flow.hashClosed, hh] using hc
  · exact absurd hc hf

theorem Left.hashStep (h : Left cfg fl) (hv : cfg.verify = true) (hs : fl.hashStep cfg c sh = some (sh', fl')) :
    Left cfg fl' := by
  have hw : fl'.writer = fl.writer := by obtain ⟨_, _, _, _, _, _, rfl⟩ := hashStep_only hs; rfl
  have hopen : fl.writer.ended → fl.hashClosed := fun he => by simpa [Flow.sourceClosed, hv] using h.ended he
  -- a stage that has not left stands before a writer that has not ended well
  have hof : (∀ m, fl'.hash = .orphan m → ∃ l e, fl.writer = .closing l (.error e)) →
      (∀ m l, fl'.hash = .closing (m :: l) → ∃ l' e, fl.writer = .closing l' (.error e)) →
      (fl.hashClosed → fl'.hashClosed) → Left cfg fl' := by
    intro ho hd hc
    refine ⟨by rw [hw]; exact h.writer, ?_, by rw [hw]; exact fun hx => ho _ hx, by rw [hw]; exact fun hx => hd _ _ hx⟩
    rw [hw]
    intro he
    simpa [Flow.sourceClosed, hv] using hc (hopen he)
  unfold Flow.hashStep at hs
  split at hs
  case h_1 hh =>
    have hn : ¬ fl.hashClosed := by simp [Flow.hashClosed, hh]
    split at hs
    · cases hs; exact hof (by simp) (by simp) (fun hx => absurd hx hn)
    · cases hs; exact hof (by simp [hh]) (by simp [hh]) (fun hx => absurd hx hn)
    · cases hs; exact hof (by simp) (by simp) (fun hx => absurd hx hn)
    · split at hs <;> cases hs; exact hof (by simp) (by simp) (fun hx => absurd hx hn)
  case h_2 m hh =>
    have hn : ¬ fl.hashClosed := by simp [Flow.hashClosed, hh]
    split at hs
    · rename_i hcl
      cases hs
      refine hof (fun m' _ => ?_) (by simp) (fun hx => absurd hx hn)
      unfold Flow.writerClosed at hcl
      split at hcl
      · rename_i l r hwr
        cases r with
        | ok u => exact absurd (hopen (by rw [hwr]; trivial)) hn
        | error e => exact ⟨l, e, hwr⟩
      · exact hcl.elim
    · split at hs <;> cases hs
      exact hof (by simp) (by simp) (fun hx => absurd hx hn)
  case h_3 m hh =>
    obtain ⟨undone, rfl⟩ := dropMsg_eq (Option.some.inj hs)
    exact hof (by simp) (fun _ _ _ => h.orphan hh) (fun _ => by simp [Flow.hashClosed])
  case h_4 m l hh =>
    obtain ⟨undone, rfl⟩ := dropMsg_eq (Option.some.inj hs)
    exact hof (by simp) (fun _ _ _ => h.dropped hh) (fun _ => by simp [Flow.hashClosed])
  case h_5 => cases hs

theorem Left.writerStep (h : Left cfg fl) (hs : fl.writerStep cfg c sh = some (sh', fl')) : Left cfg fl' := by
  obtain ⟨wq, taken, writer, pool, kept, undone, hfl⟩ := writerStep_only hs
  have hh : fl'.hash = fl.hash := by rw [hfl]
  have hn : fl'.net = fl.net := by rw [hfl]
  clear hfl
  have hsrc : fl.sourceClosed cfg → fl'.sourceClosed cfg := by
    unfold Flow.sourceClosed Flow.hashClosed Flow.netFinished
    rw [hh, hn]
    exact id
  -- before the writer leaves, nobody is left with a message
  have hstay : (∀ l e, fl.writer ≠ .closing l (.error e)) → (∀ m l r, fl'.writer = .closing (m :: l) r → ∃ e, r = .error e) →
      (fl'.writer.ended → fl.sourceClosed cfg) → Left cfg fl' := by
    intro hno hm he
    refine ⟨hm _ _ _, fun hx => hsrc (he hx), ?_, ?_⟩
    · rw [hh]
      intro m hx
      obtain ⟨l, e, hw⟩ := h.orphan hx
      exact absurd hw (hno l e)
    · rw [hh]
      intro m l hx
      obtain ⟨l', e, hw⟩ := h.dropped hx
      exact absurd hw (hno l' e)
  have hsettle : ∀ t, (∀ m l r, (fl.settle t).writer = .closing (m :: l) r → ∃ e, r = .error e) ∧ ¬ (fl.settle t).writer.ended := by
    intro t
    rcases settle_cases t fl with ⟨final, -, he⟩ | ⟨-, he⟩ <;> rw [he] <;> simp [WriterPc.ended]
  unfold Flow.writerStep at hs
  split at hs
  case h_1 current hw =>
    split at hs
    · rename_i _ m q hq
      obtain rfl := congrArg Prod.snd (Option.some.inj hs)
      have ho := (handle_writer _ m sh { fl with wq := q, log := { fl.log with taken := fl.log.taken ++ [m] } } hw).2
      refine hstay (by simp [hw]) (fun _ l r hx => absurd ?_ ho.1) (fun hx => absurd hx ho.2)
      unfold Flow.writerClosed
      rw [hx]
      trivial
    · split at hs <;> cases hs
      exact hstay (by simp [hw]) (by simp) (fun _ => by assumption)
    · split at hs <;> cases hs
      exact hstay (by simp [hw]) (by simp) (fun _ => by assumption)
  case h_2 old t hw =>
    obtain ⟨undone, rfl⟩ := undo_eq (Option.some.inj hs)
    exact hstay (by simp [hw]) (by simp) (by simp [WriterPc.ended])
  case h_3 o bytes hw =>
    split at hs
    · cases hs; exact hstay (by simp [hw]) (by simp) (by simp [WriterPc.ended])
    · split at hs
      · split at hs <;> cases hs <;> exact hstay (by simp [hw]) (by simp) (by simp [WriterPc.ended])
      · cases hs
  case h_4 t hw => cases hs; exact hstay (by simp [hw]) (by simp) (by simp [WriterPc.ended])
  case h_5 t hw =>
    obtain rfl := congrArg Prod.snd (Option.some.inj hs)
    dsimp only at hh hn hstay hsrc ⊢
    by_cases hd : cfg.durable = true
    · rw [if_pos hd] at hstay ⊢
      exact hstay (by simp [hw]) (by simp) (by simp [WriterPc.ended])
    · rw [if_neg hd] at hstay ⊢
      exact hstay (by simp [hw]) (hsettle t).1 (fun hx => absurd hx (hsettle t).2)
  case h_6 t hw =>
    split at hs <;> cases hs
    · exact hstay (by simp [hw]) (hsettle t).1 (fun hx => absurd hx (hsettle t).2)
    · exact hstay (by simp [hw]) (by simp) (by simp [WriterPc.ended])
  case h_7 t final hw =>
    split at hs <;> cases hs
    · refine hstay (by simp [hw]) ?_ ?_ <;> dsimp only <;> split <;> simp [WriterPc.ended]
    · exact hstay (by simp [hw]) (by simp) (by simp [WriterPc.ended])
  case h_8 t hw => split at hs <;> cases hs <;> exact hstay (by simp [hw]) (by simp) (by simp [WriterPc.ended])
  case h_9 t e hw =>
    obtain ⟨undone, rfl⟩ := undo_eq (Option.some.inj hs)
    exact hstay (by simp [hw]) (by simp [Flow.writerFail]) (by simp [Flow.writerFail, WriterPc.ended])
  case h_10 t e hw => cases hs; exact hstay (by simp [hw]) (by simp [Flow.writerFail]) (by simp [Flow.writerFail, WriterPc.ended])
  case h_11 t hw =>
    obtain ⟨undone, rfl⟩ := undo_eq (Option.some.inj hs)
    exact hstay (by simp [hw]) (by simp) (fun _ => h.ended (by rw [hw]; trivial))
  case h_12 m l r hw =>
    obtain ⟨undone, rfl⟩ := dropMsg_eq (Option.some.inj hs)
    obtain ⟨e, rfl⟩ := h.writer hw
    exact ⟨fun hx => by cases hx; exact ⟨e, rfl⟩, fun hx => hx.elim, fun hx => ⟨_, _, rfl⟩, fun hx => ⟨_, _, rfl⟩⟩
  case h_13 => cases hs

/-! ## The net thread's buffers -/

/-- The net thread holds no buffer. -/
def NetPc.Empty (pc : NetPc) : Prop := pc.fill = 0 ∧ pc.full = 0

namespace Flow

theorem dispatch_empty (fl : Flow) (j : Job) : (fl.dispatch j).net.Empty := by
  unfold dispatch; split <;> exact ⟨rfl, rfl⟩

theorem arrive_empty (fl : Flow) (j : Job) : (fl.arrive j).net.Empty := dispatch_empty _ _

theorem made_empty (fl : Flow) (j : Job) : (fl.made cfg j).net.Empty := by
  unfold made; split <;> exact ⟨rfl, rfl⟩

theorem linkText_empty (fl : Flow) (j : Job) (target : Bytes) : (fl.linkText j target).net.Empty := by
  unfold linkText; split <;> exact ⟨rfl, rfl⟩

theorem pump_empty (fl : Flow) (j : Job) (remaining : Nat) : (fl.pump cfg j remaining).net.Empty := by
  unfold pump goto
  dsimp only
  split
  · exact ⟨rfl, rfl⟩
  · split <;> exact ⟨rfl, rfl⟩

theorem start_empty (fl : Flow) (e : Entry) : (fl.start cfg e).net.Empty := by
  unfold start
  split
  · exact ⟨rfl, rfl⟩
  · dsimp only
    split
    · split
      · exact dispatch_empty _ _
      · exact ⟨rfl, rfl⟩
    · exact ⟨rfl, rfl⟩

/-- A net thread that holds no buffer, before or after, has moved none. -/
theorem Goes.buffers (hg : Goes fl fl') (h : fl.net.Empty) (h' : fl'.net.Empty) : fl'.buffers = fl.buffers := by
  simp only [Flow.buffers, hg.pool, hg.hq, hg.hash, hg.wq, hg.writer, h.1, h.2, h'.1, h'.2]

theorem Apart.buffers (ha : Apart fl fl') (h : fl.net.Empty) (h' : fl'.net.Empty) : fl'.buffers = fl.buffers := by
  simp only [Flow.buffers, ha.pool, ha.hq, ha.hash, ha.wq, ha.writer, h.1, h.2, h'.1, h'.2]

theorem push_bufs (cfg : Cfg) (m : Msg) (fl : Flow) :
    bufsOf (fl.push cfg m).hq + bufsOf (fl.push cfg m).wq = bufsOf fl.hq + bufsOf fl.wq + m.bufs := by
  unfold push
  dsimp only
  split <;> simp <;> omega

/-- A message that goes off takes the sender's full buffer along. -/
theorem Goes.pushed {m : Msg} (hg : Goes (fl.push cfg m) fl') (h : fl.net.fill = 0) (hm : fl.net.full = m.bufs)
    (h' : fl'.net.Empty) : fl'.buffers = fl.buffers := by
  have hhash : fl'.hash = fl.hash := by rw [hg.hash]; unfold push; dsimp only; split <;> rfl
  have hwriter : fl'.writer = fl.writer := by rw [hg.writer]; unfold push; dsimp only; split <;> rfl
  have hpool : fl'.pool = fl.pool := by rw [hg.pool]; unfold push; dsimp only; split <;> rfl
  have hbufs := push_bufs cfg m fl
  rw [← hg.hq, ← hg.wq] at hbufs
  simp only [Flow.buffers, hhash, hwriter, hpool, h, hm, h'.1, h'.2]
  congr 1
  omega

/-- A net thread that gives up loses the buffer in its hand. -/
theorem fail_loses (fl : Flow) (e : Err) {sh : Shared} :
    Buffers.Passes (fl.fail e).failed fl.buffers (fl.fail e).buffers (sh.inflight - sh.inflight) := by
  rw [sub_self]
  refine .lose (.inl trivial) le_rfl (Nat.zero_le _) ?_ le_rfl
  simp only [Flow.buffers, fail, NetPc.full]
  omega

theorem passes_keep {sh : Shared} (h : fl'.buffers = fl.buffers) :
    Buffers.Passes fl'.failed fl.buffers fl'.buffers (sh.inflight - sh.inflight) := by
  rw [sub_self]
  exact .keep h

theorem send_passes {m : Msg} {st : Stage} {next gone : Flow → Flow} {sh : Shared} (hn : fl.net = .at j st)
    (hfill : (NetPc.at j st).fill = 0) (hm : (NetPc.at j st).full = m.bufs)
    (hnext : Goes (fl.push cfg m) (next (fl.push cfg m)) ∧ (next (fl.push cfg m)).net.Empty)
    (hgone : gone fl = fl.fail .writerGone) (h : fl.send cfg m next gone = some fl') :
    Buffers.Passes fl'.failed fl.buffers fl'.buffers (sh.inflight - sh.inflight) := by
  rw [← hn] at hfill hm
  rcases send_some h with ⟨-, rfl⟩ | ⟨-, -, rfl⟩
  · rw [hgone]; exact fail_loses _ _
  · exact passes_keep (hnext.1.pushed hfill hm hnext.2)

theorem netLocal_passes (h : fl.netLocal cfg c sh = some (sh', fl')) :
    Buffers.Passes fl'.failed fl.buffers fl'.buffers (sh'.inflight - sh.inflight) := by
  unfold netLocal at h
  split at h
  case h_1 hn =>
    have he : fl.net.Empty := by rw [hn]; exact ⟨rfl, rfl⟩
    split at h <;> cases h
    · exact fail_loses _ _
    · refine passes_keep (Goes.buffers ⟨⟨rfl, rfl, rfl, rfl, rfl, rfl, rfl, rfl, rfl, rfl⟩, rfl, rfl, ?_⟩ he ?_) <;>
        dsimp only <;> split <;> first | rfl | exact ⟨rfl, rfl⟩
  case h_2 hn =>
    have he : fl.net.Empty := by rw [hn]; exact ⟨rfl, rfl⟩
    split at h
    · cases h; exact fail_loses _ _
    · split at h <;> cases h; exact fail_loses _ _
    · cases h; exact fail_loses _ _
    · cases h
      exact passes_keep (Goes.buffers ⟨⟨rfl, rfl, rfl, rfl, rfl, rfl, rfl, rfl, rfl, rfl⟩, rfl, rfl, rfl⟩ he ⟨rfl, rfl⟩)
    · cases h
      exact passes_keep (((start_goes _ _).of_net (consume_only _ _ _ _) rfl rfl).buffers he (start_empty _ _))
  case h_3 j hn =>
    have he : fl.net.Empty := by rw [hn]; exact ⟨rfl, rfl⟩
    split at h <;> cases h
    · exact fail_loses _ _
    · exact passes_keep ((arrive_goes _ _).buffers he (arrive_empty _ _))
    · exact passes_keep ((goto_goes _ _ _ rfl).buffers he ⟨rfl, rfl⟩)
  case h_4 j hn =>
    have he : fl.net.Empty := by rw [hn]; exact ⟨rfl, rfl⟩
    obtain ⟨r, -, hs⟩ := Option.map_eq_some_iff.1 h
    cases r <;> cases hs
    · exact fail_loses _ _
    · dsimp only
      split
      · exact passes_keep (((goto_goes _ _ _ rfl).of_net (consume_only _ _ _ _) rfl rfl).buffers he ⟨rfl, rfl⟩)
      · exact passes_keep (((linkText_goes _ _ _).of_net (consume_only _ _ _ _) rfl rfl).buffers he (linkText_empty _ _ _))
  case h_5 j target hn =>
    have he : fl.net.Empty := by rw [hn]; exact ⟨rfl, rfl⟩
    obtain ⟨r, -, hs⟩ := Option.map_eq_some_iff.1 h
    cases r <;> cases hs
    · exact fail_loses _ _
    · dsimp only
      split
      · exact passes_keep (((linkText_goes _ _ _).of_net (consume_only _ _ _ _) rfl rfl).buffers he (linkText_empty _ _ _))
      · exact passes_keep (((fail_goes _ _).of_net (consume_only _ _ _ _) rfl rfl).buffers he ⟨rfl, rfl⟩)
  case h_6 j target hn =>
    split at h <;> cases h
    exact fail_loses _ _
  case h_7 j t hn =>
    have he : fl.net.Empty := by rw [hn]; exact ⟨rfl, rfl⟩
    obtain ⟨fl1, hs1, hs⟩ := Option.map_eq_some_iff.1 h
    cases hs
    rcases send_some hs1 with ⟨-, rfl⟩ | ⟨-, -, rfl⟩
    · refine passes_keep ?_
      simp only [Flow.buffers, goto, hn]
      rfl
    · exact passes_keep ((pump_goes _ _ _).pushed he.1 (by rw [hn]; rfl) (pump_empty _ _ _))
  case h_8 j remaining hn =>
    split at h
    · rename_i hp
      cases h
      rw [sub_self]
      exact .take hp (by simp [Flow.buffers, goto, hn, NetPc.fill, NetPc.full])
    · split at h <;> cases h
      exact fail_loses _ _
  case h_9 j remaining hn =>
    split at h
    · cases h; exact fail_loses _ _
    · split at h
      · cases h
        rw [show sh.queued.inflight - sh.inflight = 1 by simp [Shared.queued]]
        refine .send (by simp [Flow.buffers, hn, NetPc.fill]) ?_
        simp only [Flow.buffers, goto, consume, hn, NetPc.fill, NetPc.full, Buffers.mk.injEq]
        exact ⟨trivial, trivial, by omega, trivial⟩
      · split at h <;> cases h
        exact fail_loses _ _
  case h_10 j remaining bytes hn =>
    obtain ⟨fl1, hs1, hs⟩ := Option.map_eq_some_iff.1 h
    cases hs
    exact send_passes hn rfl rfl ⟨pump_goes _ _ _, pump_empty _ _ _⟩ rfl hs1
  case h_11 j hn =>
    obtain ⟨fl1, hs1, hs⟩ := Option.map_eq_some_iff.1 h
    cases hs
    exact send_passes hn rfl rfl ⟨goto_goes _ _ _ rfl, ⟨rfl, rfl⟩⟩ rfl hs1
  case h_12 j hn =>
    have he : fl.net.Empty := by rw [hn]; exact ⟨rfl, rfl⟩
    split at h
    · cases h
      refine passes_keep ?_
      simp only [Flow.buffers, goto, hn]
      rfl
    · split at h <;> cases h
      exact fail_loses _ _
    · cases h
  case h_13 j actual hn =>
    have he : fl.net.Empty := by rw [hn]; exact ⟨rfl, rfl⟩
    obtain ⟨r, -, hs⟩ := Option.map_eq_some_iff.1 h
    cases r <;> cases hs
    · exact fail_loses _ _
    · dsimp only
      split
      · exact passes_keep (((goto_goes _ _ _ rfl).of_net (consume_only _ _ _ _) rfl rfl).buffers he ⟨rfl, rfl⟩)
      · exact passes_keep (((fail_goes _ _).of_net (consume_only _ _ _ _) rfl rfl).buffers he ⟨rfl, rfl⟩)
  case h_14 j hn =>
    obtain ⟨fl1, hs1, hs⟩ := Option.map_eq_some_iff.1 h
    cases hs
    exact send_passes hn rfl rfl ⟨complete_goes _ _, ⟨rfl, rfl⟩⟩ rfl hs1
  case h_15 => cases h

theorem netRequest_empty {sys : Sys} {pc : NetPc} (h : netRequest cfg c pc = some sys) : pc.Empty := by
  unfold netRequest at h
  split at h <;> first | exact ⟨rfl, rfl⟩ | cases h

theorem netResume_empty (fl : Flow) (h : fl.net.Empty) (r : Except Errno Nat) (sh : Shared) :
    (fl.netResume cfg c r sh).2.net.Empty := by
  unfold netResume
  split
  all_goals repeat' split
  all_goals first
    | exact h
    | exact made_empty _ _
    | exact arrive_empty _ _
    | exact ⟨rfl, rfl⟩

theorem netResume_inflight (fl : Flow) (r : Except Errno Nat) (sh : Shared) :
    (fl.netResume cfg c r sh).1.inflight = sh.inflight := by
  have hreg : ∀ d, (sh.register d).inflight = sh.inflight := by intro d; unfold Shared.register; split <;> rfl
  unfold netResume
  split
  all_goals repeat' split
  all_goals first | rfl | exact hreg _

end Flow

theorem netStep_passes (h : fl.netStep cfg c sh = some (sh', fl')) :
    Buffers.Passes fl'.failed fl.buffers fl'.buffers (sh'.inflight - sh.inflight) := by
  unfold Flow.netStep at h
  split at h
  · rename_i sys hreq
    cases hc : call cfg c sh sys with
    | mk sh1 r =>
      have he := Flow.netRequest_empty hreq
      have hcall := call_inflight cfg c sh sys
      rw [hc] at hcall
      have hi := (@Flow.netResume_inflight cfg c fl r sh1).trans hcall
      have hemp := @Flow.netResume_empty cfg c fl he r sh1
      have ha := (Flow.netResume_effect hreq hc).2
      rw [hc] at h
      rw [Option.some.inj h] at hi hemp ha
      rw [hi]
      exact Flow.passes_keep (ha.buffers he hemp)
  · exact Flow.netLocal_passes h

/-! ## The other stages -/

theorem dropMsg_buffers {m : Msg} {fl0 : Flow} (hp : fl0.dropMsg cfg c m sh = (sh', fl')) :
    sh'.inflight = sh.inflight ∧ fl'.buffers = fl0.buffers := by
  have hi : (fl0.dropMsg cfg c m sh).1.inflight = sh.inflight := by
    unfold Flow.dropMsg
    split
    · exact call_inflight _ _ _ _
    · rfl
  obtain ⟨undone, rfl⟩ := dropMsg_eq hp
  rw [hp] at hi
  exact ⟨hi, rfl⟩

theorem hashStep_passes (hl : Left cfg fl) (h : fl.hashStep cfg c sh = some (sh', fl')) :
    Buffers.Passes fl'.failed fl.buffers fl'.buffers (sh'.inflight - sh.inflight) := by
  have hlost : ∀ {m : Msg} {fl0 : Flow}, (∃ l e, fl0.writer = .closing l (.error e)) → fl0.dropMsg cfg c m sh = (sh', fl') →
      fl'.failed := by
    rintro m fl0 ⟨l, e, hw⟩ hp
    obtain ⟨undone, rfl⟩ := dropMsg_eq hp
    refine .inr ?_
    dsimp only
    rw [hw]
    trivial
  unfold Flow.hashStep at h
  split at h
  case h_1 hh =>
    split at h
    all_goals rename_i hq
    · cases h
      refine Flow.passes_keep ?_
      simp only [Flow.buffers, hh, hq, HashPc.bufs, bufsOf_cons, Buffers.mk.injEq]
      exact ⟨trivial, trivial, by omega, trivial⟩
    · cases h
      refine Flow.passes_keep ?_
      simp only [Flow.buffers, hq, bufsOf_cons, Msg.bufs, Nat.zero_add]
    · cases h
      refine Flow.passes_keep ?_
      simp only [Flow.buffers, hh, hq, HashPc.bufs, bufsOf_cons, Buffers.mk.injEq]
      exact ⟨trivial, trivial, by omega, trivial⟩
    · split at h <;> cases h
      refine Flow.passes_keep ?_
      simp only [Flow.buffers, hh, HashPc.bufs, bufsOf_nil]
  case h_2 m hh =>
    split at h
    · cases h
      refine Flow.passes_keep ?_
      simp only [Flow.buffers, hh, HashPc.bufs]
    · split at h <;> cases h
      refine Flow.passes_keep ?_
      simp only [Flow.buffers, hh, HashPc.bufs, bufsOf_append, bufsOf_cons, bufsOf_nil, Buffers.mk.injEq]
      exact ⟨trivial, trivial, by omega, trivial⟩
  case h_3 m hh =>
    obtain ⟨hi, hb⟩ := dropMsg_buffers (Option.some.inj h)
    rw [hi, hb, sub_self]
    refine .lose (hlost (by exact hl.orphan hh) (Option.some.inj h)) le_rfl le_rfl ?_ le_rfl
    simp only [Flow.buffers, hh, HashPc.bufs, bufsOf_nil]
    omega
  case h_4 m l hh =>
    obtain ⟨hi, hb⟩ := dropMsg_buffers (Option.some.inj h)
    rw [hi, hb, sub_self]
    refine .lose (hlost (by exact hl.dropped hh) (Option.some.inj h)) le_rfl le_rfl ?_ le_rfl
    simp only [Flow.buffers, hh, HashPc.bufs, bufsOf_cons]
    omega
  case h_5 => cases h

/-- A writer between two program points that hold no buffer. -/
theorem writer_buffers {w w' : WriterPc} {pool : Nat} {kept : List InFlight} (hw : fl.writer = w) (h : w.drain = w'.drain)
    (hb : w.bufs = w'.bufs) (hp : pool = fl.pool) :
    Flow.buffers { fl with writer := w', pool, log := { fl.log with kept } } = fl.buffers := by
  simp only [Flow.buffers, hw, h, hb, hp]

theorem settle_buffers {t : InFlight} (h : fl.writer.drain = 0) (hb : fl.writer.bufs = 0) :
    (fl.settle t).buffers = fl.buffers := by
  rcases settle_cases t fl with ⟨final, -, he⟩ | ⟨-, he⟩ <;> rw [he]
  · exact writer_buffers rfl h hb rfl
  · exact writer_buffers rfl h hb rfl

theorem writerFail_buffers (e : Err) (h : fl.writer.drain = 0) (hb : fl.writer.bufs = 0) :
    (fl.writerFail e).buffers = fl.buffers := by
  simp only [Flow.buffers, Flow.writerFail, h, hb, bufsOf_nil, Nat.add_zero]
  rfl

theorem passes_still (hi : sh'.inflight = sh.inflight) (hb : fl'.buffers = fl.buffers) :
    Buffers.Passes fl'.failed fl.buffers fl'.buffers (sh'.inflight - sh.inflight) := by
  rw [hi]
  exact Flow.passes_keep hb

theorem handle_passes {current : Option Cursor} {m : Msg} {q : List Msg} (hw : fl.writer = .recv current) (hq : fl.wq = m :: q)
    (h : Flow.handle current m sh { fl with wq := q, log := { fl.log with taken := fl.log.taken ++ [m] } } = (sh', fl')) :
    Buffers.Passes fl'.failed fl.buffers fl'.buffers (sh'.inflight - sh.inflight) := by
  have hsub : sh.dequeued.inflight - sh.inflight = -1 := by simp [Shared.dequeued]
  have hpos : ∀ bytes, m = .data bytes → 0 < fl.buffers.queued := by
    rintro bytes rfl
    simp only [Flow.buffers, hq, bufsOf_cons, Msg.bufs]
    omega
  unfold Flow.handle at h
  split at h
  case h_3 bytes =>
    cases h
    rw [hsub]
    refine .skip (hpos bytes rfl) ?_
    simp only [Flow.buffers, hq, hw, bufsOf_cons, Msg.bufs, WriterPc.bufs, WriterPc.drain, Buffers.mk.injEq]
    exact ⟨trivial, trivial, by omega, trivial⟩
  case h_4 bytes o =>
    cases h
    rw [hsub]
    refine .recv (hpos bytes rfl) ?_
    simp only [Flow.buffers, hq, hw, bufsOf_cons, Msg.bufs, WriterPc.bufs, WriterPc.drain, Buffers.mk.injEq]
    exact ⟨trivial, trivial, by omega, trivial⟩
  case h_6 o =>
    cases h
    refine Flow.passes_keep ?_
    simp only [Flow.buffers, hq, hw, bufsOf_cons, Msg.bufs, Nat.zero_add]
    congr 1 <;> split <;> rfl
  all_goals
    cases h
    refine Flow.passes_keep ?_
    simp only [Flow.buffers, hq, hw, bufsOf_cons, Msg.bufs, WriterPc.bufs, WriterPc.drain, Nat.zero_add]

theorem writerStep_passes (hl : Left cfg fl) (h : fl.writerStep cfg c sh = some (sh', fl')) :
    Buffers.Passes fl'.failed fl.buffers fl'.buffers (sh'.inflight - sh.inflight) := by
  have hcall : ∀ {sys sh1 r}, call cfg c sh sys = (sh1, r) → sh1.inflight = sh.inflight := by
    intro sys sh1 r hc
    have hi := call_inflight cfg c sh sys
    rwa [hc] at hi
  unfold Flow.writerStep at h
  split at h
  case h_1 current hw =>
    split at h
    · rename_i hq
      exact handle_passes hw hq (Option.some.inj h)
    · split at h <;> cases h
      exact Flow.passes_keep (writer_buffers hw rfl rfl rfl)
    · split at h <;> cases h
      exact Flow.passes_keep (writer_buffers hw rfl rfl rfl)
  case h_2 old t hw =>
    obtain ⟨hi, hb⟩ := dropMsg_buffers (m := .begin old) (Option.some.inj h)
    exact passes_still hi (hb.trans (writer_buffers hw rfl rfl rfl))
  case h_3 o bytes hw =>
    have hd : 0 < fl.buffers.drain := by simp [Flow.buffers, hw, WriterPc.drain]
    split at h
    · cases h
      rw [sub_self]
      exact .back hd (by simp [Flow.buffers, hw, WriterPc.drain, WriterPc.bufs])
    · split at h
      · split at h
        · rename_i hc
          cases h
          exact passes_still (hcall hc) (writer_buffers hw rfl rfl rfl)
        · rename_i hc
          cases h
          rw [hcall hc, sub_self]
          exact .back hd (by simp [Flow.buffers, hw, WriterPc.drain, WriterPc.bufs])
      · cases h
  case h_4 t hw => cases h; exact passes_still (call_inflight _ _ _ _) (writer_buffers hw rfl rfl rfl)
  case h_5 t hw =>
    obtain ⟨rfl, rfl⟩ := Prod.mk.inj (Option.some.inj h)
    refine passes_still (call_inflight _ _ _ _) ?_
    split
    · exact writer_buffers hw rfl rfl rfl
    · exact settle_buffers (by rw [hw]; rfl) (by rw [hw]; rfl)
  case h_6 t hw =>
    split at h
    · rename_i hc
      cases h
      exact passes_still (hcall hc) (settle_buffers (by rw [hw]; rfl) (by rw [hw]; rfl))
    · rename_i hc
      cases h
      exact passes_still (hcall hc) (writer_buffers hw rfl rfl rfl)
  case h_7 t final hw =>
    split at h
    · rename_i hc
      cases h
      refine passes_still (hcall hc) (writer_buffers hw ?_ ?_ rfl) <;> split <;> rfl
    · rename_i hc
      cases h
      exact passes_still (hcall hc) (writer_buffers hw rfl rfl rfl)
  case h_8 t hw =>
    split at h
    · rename_i hc
      cases h
      refine passes_still ?_ (writer_buffers hw rfl rfl rfl)
      rw [← hcall hc]
      unfold Shared.register
      split <;> rfl
    · rename_i hc
      cases h
      exact passes_still (hcall hc) (writer_buffers hw rfl rfl rfl)
  case h_9 t e hw =>
    obtain ⟨hi, hb⟩ := dropMsg_buffers (m := .begin t) (Option.some.inj h)
    exact passes_still hi (hb.trans (writerFail_buffers e (by rw [hw]; rfl) (by rw [hw]; rfl)))
  case h_10 t e hw =>
    cases h
    exact passes_still (call_inflight _ _ _ _) (writerFail_buffers e (by rw [hw]; rfl) (by rw [hw]; rfl))
  case h_11 t hw =>
    obtain ⟨hi, hb⟩ := dropMsg_buffers (m := .begin t) (Option.some.inj h)
    exact passes_still hi (hb.trans (writer_buffers hw rfl rfl rfl))
  case h_12 m l r hw =>
    obtain ⟨hi, hb⟩ := dropMsg_buffers (Option.some.inj h)
    obtain ⟨e, rfl⟩ := hl.writer hw
    obtain ⟨undone, rfl⟩ := dropMsg_eq (Option.some.inj h)
    rw [hi, sub_self]
    refine .lose (.inr trivial) le_rfl le_rfl ?_ ?_
    · simp only [Flow.buffers, hw, WriterPc.bufs, bufsOf_cons]
      omega
    · simp only [Flow.buffers, hw, WriterPc.drain, le_refl]
  case h_13 => cases h

/-! ## Over a run -/

theorem FlowStep.left (hl : Left cfg fl) (h : FlowStep cfg c sh fl sh' fl') : Left cfg fl' := by
  cases h with
  | net h => exact hl.netStep h
  | hash hv h => exact hl.hashStep hv h
  | writer h => exact hl.writerStep h

theorem left_inv {ok : State → Act → State → Prop} (h : Reach (step cfg) ok (.init cfg fs0) s) (i : Nat) :
    Left cfg (s.flow i) :=
  flow_invariant h (.init cfg) (fun _ _ _ hl => ⟨hl.writer, hl.ended, hl.orphan, hl.dropped⟩)
    (fun _ _ _ _ _ hf hl => hf.left hl) i

theorem FlowStep.passes (hl : Left cfg fl) (h : FlowStep cfg c sh fl sh' fl') :
    Buffers.Passes fl'.failed fl.buffers fl'.buffers (sh'.inflight - sh.inflight) := by
  cases h with
  | net h => exact netStep_passes h
  | hash _ h => exact hashStep_passes hl h
  | writer h => exact writerStep_passes hl h

theorem writerStep_failed (h : fl.writerStep cfg c sh = some (sh', fl')) (hf : fl.writer.failed) : fl'.writer.failed := by
  unfold WriterPc.failed at hf
  split at hf
  case h_1 hw =>
    unfold Flow.writerStep at h
    rw [hw] at h
    obtain ⟨undone, rfl⟩ := undo_eq (Option.some.inj h)
    trivial
  case h_2 hw =>
    unfold Flow.writerStep at h
    rw [hw] at h
    cases h
    trivial
  case h_3 l e hw =>
    unfold Flow.writerStep at h
    rw [hw] at h
    cases l with
    | nil => cases h
    | cons m l =>
      obtain ⟨undone, rfl⟩ := dropMsg_eq (Option.some.inj h)
      trivial
  case h_4 => exact hf.elim

/-- A flow that has failed has failed for good. -/
theorem FlowStep.failed (h : FlowStep cfg c sh fl sh' fl') (hf : fl.failed) : fl'.failed := by
  cases h with
  | net h =>
    rcases hf with hf | hf
    · have hn := (netStep_cases h).1
      unfold NetPc.failed at hf
      split at hf
      · rename_i hx
        exact absurd (by unfold Flow.netFinished; rw [hx]; trivial) hn
      · exact hf.elim
    · exact .inr (by rw [(netStep_writer h).1]; exact hf)
  | hash _ h =>
    obtain ⟨_, _, _, _, _, _, rfl⟩ := hashStep_only h
    exact hf
  | writer h =>
    rcases hf with hf | hf
    · obtain ⟨_, _, _, _, _, _, rfl⟩ := writerStep_only h
      exact .inl hf
    · exact .inr (writerStep_failed h hf)

/-- Every buffer of a flow is somewhere, unless a stage has failed. -/
structure Stocked (cfg : Cfg) (fl : Flow) : Prop where
  bound : fl.buffers.total ≤ cfg.depth
  whole : ¬ fl.failed → fl.buffers.total = cfg.depth

theorem Flow.init_buffers (cfg : Cfg) : (Flow.init cfg).buffers = ⟨cfg.depth, 0, 0, 0⟩ := by
  unfold Flow.buffers Flow.init
  dsimp only
  split <;> rfl

theorem Stocked.init (cfg : Cfg) : Stocked cfg (.init cfg) := by
  have ht : (Flow.init cfg).buffers.total = cfg.depth := by rw [Flow.init_buffers]; rfl
  exact ⟨ht.le, fun _ => ht⟩

theorem stocked_inv {ok : State → Act → State → Prop} (h : Reach (step cfg) ok (.init cfg fs0) s) (i : Nat) :
    Stocked cfg (s.flow i) := by
  refine (flow_invariant (I := fun fl => Left cfg fl ∧ Stocked cfg fl) h ⟨.init cfg, .init cfg⟩ ?_ ?_ i).2
  · exact fun fl wire eof ⟨hl, hs⟩ => ⟨⟨hl.writer, hl.ended, hl.orphan, hl.dropped⟩, ⟨hs.bound, hs.whole⟩⟩
  · rintro c sh fl sh' fl' hf ⟨hl, hs⟩
    have hp := hf.passes hl
    exact ⟨hf.left hl, hp.total_le.trans hs.bound, fun hn => (hp.total_eq hn).trans (hs.whole fun hx => hn (hf.failed hx))⟩

/-- With one flow the gauge counts its buffers. -/
theorem gauge_inv {ok : State → Act → State → Prop} (h : Reach (step cfg) ok (.init cfg fs0) s) (h1 : cfg.flows = 1) :
    Buffers.Counted cfg.depth (s.flow 0).buffers s.sh.inflight := by
  refine h.invariant (I := fun s => Buffers.Counted cfg.depth (s.flow 0).buffers s.sh.inflight) ?_ ?_
  · exact ⟨by simp [State.init, Flow.init_buffers], by simp [State.init, Flow.init_buffers]⟩
  · intro s a s' hr ih hst _
    rcases step_cases hst with ⟨i, c, sh', fl', hl, hf, rfl⟩ | ⟨ha, -⟩
    · obtain rfl : i = 0 := by have := hl.2; omega
      have hc := ih.passes (hf.passes (left_inv hr 0))
      rw [show s.sh.inflight + (sh'.inflight - s.sh.inflight) = sh'.inflight by ring] at hc
      rw [put_flow]
      exact hc
    · obtain ⟨w, e, he⟩ := ha.flow 0
      rw [he, ha.inflight]
      exact ⟨ih.queued, ih.others⟩

end Thunderflash.Recv
