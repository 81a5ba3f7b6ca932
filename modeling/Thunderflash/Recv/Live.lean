/-
No flow gets stuck: while a stage has not returned some stage can go on, or the net thread waits
for the peer.
-/
import Thunderflash.Recv.Buffers
import Thunderflash.Recv.Atomic

namespace Thunderflash.Recv

open Codec Posix Lts

variable {cfg : Cfg} {c : Choice} {sh sh' : Shared} {fl fl' : Flow} {s s' : State} {fs0 : Fs} {j : Job}

/-! ## The digest reply -/

/-- Whoever waits for a digest will get one, or an error. -/
def Answerable (fl : Flow) : Prop :=
  ∀ j, fl.net = .at j .awaitDigest → fl.reply = none → .finish ∈ fl.hq ∨ (∃ m, fl.hash = .orphan m) ∨ fl.hashClosed

theorem Answerable.netStep (hn : NetInv cfg fl) (hs : fl.netStep cfg c sh = some (sh', fl')) : Answerable fl' := by
  obtain ⟨-, -, hm⟩ := netStep_cases hs
  intro k hk hr
  rcases hm with hm | ha
  · cases hm with
    | goes _ _ _ ha => exact absurd hk (ha k)
    | takeBuf _ _ he => subst he; cases hk
    | reply _ _ he => subst he; cases hk
    | @push j st m hpc hm _ _ hg ha =>
      split at ha
      · rename_i hfin
        subst hfin
        have hst : st = .sendFinish := by cases st <;> cases hm; rfl
        have hpc' := hn.pc
        rw [hpc, hst] at hpc'
        have hv : cfg.verify = true := hpc'.2.2.1
        left
        rw [hg.hq]
        simp [Flow.push, hv]
      · exact absurd hk (ha k)
    | back _ he => subst he; cases hk
  · exact absurd hk (ha.await' k)

theorem Answerable.hashStep (h : Answerable fl) (hs : fl.hashStep cfg c sh = some (sh', fl')) : Answerable fl' := by
  unfold Flow.hashStep at hs
  split at hs
  case h_1 hh =>
    -- a finish behind the message is still behind it
    have hq : ∀ {m q}, fl.hq = m :: q → m ≠ .finish → ∀ k, fl.net = .at k .awaitDigest → fl.reply = none → .finish ∈ q := by
      intro m q hq hm k hk hr
      rcases h k hk hr with hf | ⟨m', ho⟩ | hc
      · rw [hq] at hf
        exact (List.mem_cons.1 hf).resolve_left (Ne.symm hm)
      · rw [hh] at ho; cases ho
      · simp [Flow.hashClosed, hh] at hc
    split at hs
    · rename_i hx; cases hs; exact fun k hk hr => .inl (hq hx (by simp) k hk hr)
    · cases hs; exact fun k hk hr => by cases hr
    · rename_i hm hx; cases hs; exact fun k hk hr => .inl (hq hx hm k hk hr)
    · split at hs <;> cases hs; exact fun _ _ _ => .inr (.inr trivial)
  case h_2 m hh =>
    split at hs
    · cases hs; exact fun _ _ _ => .inr (.inl ⟨m, rfl⟩)
    · split at hs <;> cases hs
      intro k hk hr
      rcases h k hk hr with hf | ⟨m', ho⟩ | hc
      · exact .inl hf
      · rw [hh] at ho; cases ho
      · simp [Flow.hashClosed, hh] at hc
  case h_3 => obtain ⟨undone, rfl⟩ := dropMsg_eq (Option.some.inj hs); exact fun _ _ _ => .inr (.inr trivial)
  case h_4 => obtain ⟨undone, rfl⟩ := dropMsg_eq (Option.some.inj hs); exact fun _ _ _ => .inr (.inr trivial)
  case h_5 => cases hs

theorem answerable_inv {ok : State → Act → State → Prop} (h : Reach (step cfg) ok (.init cfg fs0) s) (i : Nat) :
    Answerable (s.flow i) := by
  refine (flow_invariant (I := fun fl => FlowInv cfg fl ∧ Answerable fl) h ⟨.init cfg, ?_⟩ ?_ ?_ i).2
  · intro k hk
    cases hk
  · exact fun fl wire eof ⟨hi, ha⟩ => ⟨hi.wire _ _, ha⟩
  · rintro c sh fl sh' fl' hf ⟨hi, ha⟩
    refine ⟨hf.inv hi, ?_⟩
    cases hf with
    | net h => exact .netStep hi.net h
    | hash _ h => exact ha.hashStep h
    | writer h =>
      obtain ⟨_, _, _, _, _, _, rfl⟩ := writerStep_only h
      exact ha

/-! ## Where a stage stands still -/

/-- The net thread is at a socket read. -/
def NetPc.reads : NetPc → Prop
  | .decode | .at _ .linkRead | .at _ (.linkDigest _) | .at _ (.readBuf _) | .at _ (.fileDigest _) => True
  | _ => False

theorem writer_blocked (h : fl.writerStep cfg plain sh = none) :
    (∃ current, fl.writer = .recv current ∧ fl.wq = [] ∧ ¬ fl.sourceClosed cfg) ∨ ∃ r, fl.writer = .closing [] r := by
  unfold Flow.writerStep at h
  split at h
  case h_1 current hw =>
    left
    split at h
    · cases h
    · rename_i hq
      split at h
      · cases h
      · exact ⟨_, hw, hq, by assumption⟩
    · rename_i hq
      split at h
      · cases h
      · exact ⟨_, hw, hq, by assumption⟩
  case h_3 o bytes hw =>
    split at h
    · cases h
    · rename_i hne
      have hl : 0 < bytes.length := List.length_pos_iff.2 hne
      rw [if_pos ⟨Nat.one_pos, hl⟩] at h
      split at h <;> cases h
  case h_13 r hw => exact .inr ⟨r, hw⟩
  all_goals first | cases h | (split at h <;> cases h)

theorem hash_blocked (h : fl.hashStep cfg c sh = none) :
    (fl.hash = .recv ∧ fl.hq = [] ∧ ¬ fl.netFinished) ∨
      (∃ m, fl.hash = .forward m ∧ ¬ fl.writerClosed ∧ cfg.depth ≤ fl.wq.length) ∨ fl.hash = .closing [] := by
  unfold Flow.hashStep at h
  split at h
  case h_1 hh =>
    split at h
    case h_4 hq =>
      split at h
      · cases h
      · exact .inl ⟨hh, hq, by assumption⟩
    all_goals cases h
  case h_2 m hh =>
    split at h
    · cases h
    · split at h
      · cases h
      · exact .inr (.inl ⟨m, hh, by assumption, by omega⟩)
  case h_5 hh => exact .inr (.inr hh)
  all_goals cases h

theorem send_blocked {m : Msg} {next gone : Flow → Flow} (h : fl.send cfg m next gone = none) :
    ¬ fl.sinkClosed cfg ∧ ¬ fl.sinkRoom cfg := by
  unfold Flow.send at h
  split at h
  · cases h
  · split at h
    · cases h
    · exact ⟨by assumption, by assumption⟩

theorem readExact_blocked {n : Nat} (h : fl.readExact plain n = none) : fl.eof = false := by
  unfold Flow.readExact plain at h
  dsimp only at h
  split at h
  · cases h
  · split at h
    · cases h
    · simpa using ‹¬ fl.eof = true›

/-- What the net thread can stand still at. -/
theorem net_blocked (hn : NetInv cfg fl) (h : fl.netStep cfg plain sh = none) :
    fl.netFinished ∨ (fl.net.reads ∧ fl.eof = false) ∨ (¬ fl.sinkClosed cfg ∧ ¬ fl.sinkRoom cfg) ∨
      (∃ j remaining, fl.net = .at j (.takeBuf remaining) ∧ fl.pool = 0 ∧ ¬ fl.writerClosed) ∨
      ∃ j, fl.net = .at j .awaitDigest ∧ cfg.verify = true ∧ fl.reply = none ∧
        ∀ l, fl.hash = .closing l → .finish ∈ l := by
  have hpc := hn.pc
  unfold Flow.netStep at h
  split at h
  · cases h
  · rename_i hreq
    unfold Flow.netLocal at h
    split at h
    case h_1 => cases h
    case h_2 hpc' =>
      refine .inr (.inl ⟨by rw [hpc']; trivial, ?_⟩)
      dsimp only [plain] at h
      split at h
      · cases h
      · split at h
        · cases h
        · simpa using ‹¬ fl.eof = true›
      all_goals cases h
    case h_3 => dsimp only [plain] at h; split at h <;> cases h
    case h_4 hst =>
      exact .inr (.inl ⟨by rw [hst]; trivial, readExact_blocked (Option.map_eq_none_iff.1 h)⟩)
    case h_5 hst =>
      exact .inr (.inl ⟨by rw [hst]; trivial, readExact_blocked (Option.map_eq_none_iff.1 h)⟩)
    case h_6 target hst =>
      rw [hst] at hreq
      dsimp only [Flow.netRequest] at hreq
      split at h
      · cases h
      · rename_i h0
        rw [if_neg h0] at hreq
        cases hreq
    case h_7 => exact .inr (.inr (.inl (send_blocked (Option.map_eq_none_iff.1 h))))
    case h_8 j remaining hst =>
      split at h
      · cases h
      · split at h
        · cases h
        · exact .inr (.inr (.inr (.inl ⟨j, remaining, hst, by omega, by assumption⟩)))
    case h_9 j remaining hst =>
      refine .inr (.inl ⟨by rw [hst]; trivial, ?_⟩)
      rw [hst] at hpc
      have hpos : 0 < remaining := hpc.2.2.1
      rw [show plain.fault = none from rfl] at h
      dsimp only at h
      by_cases hempty : fl.wire = []
      · rw [if_neg (show ¬ (0 < plain.count ∧ plain.count ≤ min remaining CHUNK ∧ plain.count ≤ fl.wire.length) by
          simp [hempty, plain])] at h
        by_contra hopen
        rw [if_pos (show fl.wire = [] ∧ fl.eof = true from ⟨hempty, by simpa using hopen⟩)] at h
        cases h
      · have hl := List.length_pos_iff.2 hempty
        have hcount : 0 < plain.count ∧ plain.count ≤ min remaining CHUNK ∧ plain.count ≤ fl.wire.length :=
          ⟨Nat.one_pos, show 1 ≤ min remaining CHUNK by unfold CHUNK; omega, hl⟩
        rw [if_pos hcount] at h
        cases h
    case h_10 => exact .inr (.inr (.inl (send_blocked (Option.map_eq_none_iff.1 h))))
    case h_11 => exact .inr (.inr (.inl (send_blocked (Option.map_eq_none_iff.1 h))))
    case h_12 j hst =>
      rw [hst] at hpc
      have hv : cfg.verify = true := hpc.2.2.1
      split at h
      · cases h
      · rename_i l hr hh
        split at h
        · rename_i hmem
          refine .inr (.inr (.inr (.inr ⟨j, hst, hv, hr, fun l' hl' => ?_⟩)))
          rw [hh] at hl'
          cases hl'
          exact hmem
        · cases h
      · rename_i hr hh
        exact .inr (.inr (.inr (.inr ⟨j, hst, hv, hr, fun l' hl' => absurd hl' (hh l')⟩)))
    case h_13 hst => exact .inr (.inl ⟨by rw [hst]; trivial, readExact_blocked (Option.map_eq_none_iff.1 h)⟩)
    case h_14 => exact .inr (.inr (.inl (send_blocked (Option.map_eq_none_iff.1 h))))
    case h_15 =>
      left
      by_contra hfin
      cases hst : fl.net with
      | finished r => exact hfin (by simp [Flow.netFinished, hst])
      | registerRoot => rw [hst] at hreq; cases hreq
      | «at» j st => cases st <;> first | solve_by_elim | (rw [hst] at hreq; cases hreq)
      | _ => solve_by_elim

/-! ## Progress -/

/-- While a stage of a flow has not returned, one of them can go on, or the next byte is the peer's. -/
theorem flow_progress (hi : FlowInv cfg fl) (ha : Answerable fl) (hs : Stocked cfg fl) (hd : 1 ≤ cfg.depth)
    (hr : fl.result cfg = none) : (fl.netStep cfg plain sh).isSome ∨ (cfg.verify = true ∧ (fl.hashStep cfg plain sh).isSome) ∨
      (fl.writerStep cfg plain sh).isSome ∨ (fl.net.reads ∧ fl.eof = false) := by
  by_contra hno
  simp only [not_or, Option.not_isSome_iff_eq_none] at hno
  obtain ⟨hnet, hhash, hwriter, hreads⟩ := hno
  have hclosed : fl.hash = .closing [] → fl.hashClosed := fun hh => by simp [Flow.hashClosed, hh]
  -- the hash stage waits for the net thread or has returned
  have hidle : fl.hash = .closing [] ∨ (cfg.verify = true ∧ fl.hash = .recv ∧ fl.hq = [] ∧ ¬ fl.netFinished) := by
    by_cases hv : cfg.verify = true
    · rcases hash_blocked (by simpa [hv] using hhash) with ⟨hh, hq, hf⟩ | ⟨m, hh, hopen, hfull⟩ | hh
      · exact .inr ⟨hv, hh, hq, hf⟩
      · rcases writer_blocked hwriter with ⟨_, -, hwq, -⟩ | ⟨r, hw⟩
        · rw [hwq, List.length_nil] at hfull
          omega
        · exact absurd (by simp [Flow.writerClosed, hw]) hopen
      · exact .inl hh
    · exact .inl (hi.shut.hash (by simpa using hv))
  have hhq : fl.hq = [] := by
    rcases hidle with hh | ⟨-, -, hq, -⟩
    · by_cases hv : cfg.verify = true
      · exact (hi.pipe.closed hv (hclosed hh)).1
      · exact (hi.pipe.direct (by simpa using hv)).1
    · exact hq
  have hwq : fl.wq = [] := by
    rcases writer_blocked hwriter with ⟨_, -, hwq, -⟩ | ⟨r, hw⟩
    · exact hwq
    · exact hi.shut.writer (by simp [Flow.writerClosed, hw])
  rcases net_blocked hi.net hnet with hf | hx | ⟨hc, hroom⟩ | ⟨j, remaining, hn, hpool, hopen⟩ | ⟨j, hn, hv, hrep, hcl⟩
  · -- the net thread has returned, so the others see their channels closed
    have hh : fl.hash = .closing [] := hidle.resolve_right fun hx => hx.2.2.2 hf
    rcases writer_blocked hwriter with ⟨current, -, -, hsrc⟩ | ⟨r, hw⟩
    · refine hsrc ?_
      unfold Flow.sourceClosed
      split
      · exact hclosed hh
      · exact hf
    · unfold Flow.netFinished at hf
      split at hf
      · rename_i r' hn
        unfold Flow.result at hr
        rw [hn, hh, hw] at hr
        cases r <;> cases hr
      · exact hf
  · exact hreads hx
  · refine hroom ?_
    unfold Flow.sinkRoom
    split
    · rw [hhq]; exact hd
    · rw [hwq]; exact hd
  · -- no buffer is free, none is on its way and none in a hand
    rcases writer_blocked hwriter with ⟨current, hw, -, -⟩ | ⟨r, hw⟩
    · have hwhole := hs.whole (by rintro (hx | hx) <;> simp [NetPc.failed, WriterPc.failed, hn, hw] at hx)
      have hb : fl.buffers = ⟨0, 0, 0, 0⟩ := by
        rcases hidle with hh | ⟨-, hh, -, -⟩ <;>
          simp [Flow.buffers, hpool, hn, hhq, hwq, hh, hw, NetPc.fill, NetPc.full, HashPc.bufs, WriterPc.bufs, WriterPc.drain]
      rw [hb] at hwhole
      simp only [Buffers.total] at hwhole
      omega
    · exact hopen (by simp [Flow.writerClosed, hw])
  · rcases ha j hn hrep with hx | ⟨m, hx⟩ | hx
    · rw [hhq] at hx; cases hx
    · rcases hidle with hh | ⟨-, hh, -, -⟩ <;> rw [hh] at hx <;> cases hx
    · unfold Flow.hashClosed at hx
      split at hx
      · rename_i l hl
        rcases hidle with hh | ⟨-, hh, -, -⟩
        · have hmem := hcl [] hh
          cases hmem
        · rw [hh] at hl; cases hl
      · exact hx

/-! ## The pipeline -/

/-- Some stage of flow `i` can take a step in which nothing fails. -/
def Moves (cfg : Cfg) (s : State) (i : Nat) : Prop :=
  ∃ c : Choice, c.fault = none ∧
    ((step cfg s (.net i c)).isSome ∨ (step cfg s (.hash i c)).isSome ∨ (step cfg s (.writer i c)).isSome)

/-- What is true of a flow's buffers in every state. -/
structure Pooled (cfg : Cfg) (s : State) (i : Nat) : Prop where
  /-- Counted once for every place they are in. -/
  bound : (s.flow i).buffers.total ≤ cfg.depth
  whole : ¬ (s.flow i).failed → (s.flow i).buffers.total = cfg.depth
  /-- The pool has room for what the writer returns. -/
  returns : ∀ c s', step cfg s (.writer i c) = some s' → (s.flow i).pool < (s'.flow i).pool → (s.flow i).pool < cfg.depth
  /-- The digest's channel is empty when the hash stage answers. -/
  answers : ∀ q, (s.flow i).hq = .finish :: q → (s.flow i).reply = none
  gauge : cfg.flows = 1 → 0 ≤ s.sh.inflight ∧ s.sh.inflight ≤ cfg.depth

theorem pooled_inv (h : Reachable cfg fs0 s) (i : Nat) : Pooled cfg s i where
  bound := (stocked_inv h i).bound
  whole := (stocked_inv h i).whole
  returns := fun c s' hst hp => by
    have hb := (stocked_inv (h.step hst trivial) i).bound
    unfold Buffers.total at hb
    have : (s'.flow i).buffers.pool = (s'.flow i).pool := rfl
    omega
  answers := fun q hq => by
    cases hr : (s.flow i).reply with
    | none => rfl
    | some d => exact absurd (by rw [hq]; simp) ((flow_inv h i).digest.reply d hr).2.2
  gauge := fun h1 => (gauge_inv h h1).bounds

theorem moves_or_reads (hd : 1 ≤ cfg.depth) (h : Reachable cfg fs0 s) {i : Nat} (hl : Live cfg s i)
    (hr : (s.flow i).result cfg = none) : Moves cfg s i ∨ ((s.flow i).net.reads ∧ (s.flow i).eof = false) := by
  have hstep : ∀ {f : Shared → Flow → Option (Shared × Flow)}, (f s.sh (s.flow i)).isSome → (threadStep cfg s i f).isSome := by
    intro f hf
    unfold threadStep
    rw [if_pos hl, Option.isSome_map]
    exact hf
  rcases @flow_progress _ s.sh _ (flow_inv h i) (answerable_inv h i) (stocked_inv h i) hd hr with hx | ⟨hv, hx⟩ | hx | hx
  · exact .inl ⟨plain, rfl, .inl (hstep hx)⟩
  · refine .inl ⟨plain, rfl, .inr (.inl ?_)⟩
    rw [show step cfg s (.hash i plain) = threadStep cfg s i (Flow.hashStep cfg plain) from if_pos hv]
    exact hstep hx
  · exact .inl ⟨plain, rfl, .inr (.inr (hstep hx))⟩
  · exact .inr hx

/-- No flow deadlocks: while a stage has not returned one can go on, or the net thread waits for the
peer and goes on once the stream has ended. No buffer is made, lost or doubled on the way. -/
theorem flow_live (hd : 1 ≤ cfg.depth) (h : Reachable cfg fs0 s) (i : Nat) :
    (Live cfg s i → (s.flow i).result cfg = none → Moves cfg s i ∨
      ((s.flow i).net.reads ∧ (s.flow i).eof = false ∧ ∀ k s', step cfg s (.cut i k) = some s' → Moves cfg s' i)) ∧
    Pooled cfg s i := by
  refine ⟨fun hl hr => ?_, pooled_inv h i⟩
  refine (moves_or_reads hd h hl hr).imp_right fun ⟨hreads, hopen⟩ => ⟨hreads, hopen, fun k s' hst => ?_⟩
  have hflow : s'.flow i = { s.flow i with wire := (s.flow i).wire.take k, eof := true } := by
    cases hst
    simp
  have hl' : Live cfg s' i := by cases hst; exact hl
  refine (moves_or_reads hd (h.step hst trivial) hl' ?_).resolve_right fun hx => ?_
  · rw [hflow]
    exact hr
  · rw [hflow] at hx
    cases hx.2

/-- A file's payload is in the writer's queue and the stream is still open. -/
def halfway : List Act := List.flatten [opening single, [.deliver 0 (encodeAll [fileFrame pathA [8]])], netRuns 0 8]

theorem flow_live_halfway : ∃ s, run (step single) (.init single rootOnly) halfway = some s ∧
    (s.flow 0).buffers = ⟨3, 0, 1, 0⟩ ∧ s.sh.inflight = 1 ∧
    (Moves single s 0 ∨ ((s.flow 0).net.reads ∧ (s.flow 0).eof = false ∧
      ∀ k s', step single s (.cut 0 k) = some s' → Moves single s' 0)) ∧ Pooled single s 0 := by
  have hrun : ((run (step single) (.init single rootOnly) halfway).any fun s =>
      decide ((s.flow 0).buffers = ⟨3, 0, 1, 0⟩ ∧ s.sh.inflight = 1 ∧ Live single s 0 ∧
        (s.flow 0).result single = none)) = true := by decide +kernel
  obtain ⟨s, hs, hv⟩ := (Option.any_eq_true _ _).1 hrun
  obtain ⟨hb, hg, hl, hr⟩ := of_decide_eq_true hv
  obtain ⟨hmove, hpool⟩ := flow_live (by decide) (.of_run hs : Reachable single rootOnly s) 0
  exact ⟨s, hs, hb, hg, hmove hl hr, hpool⟩

end Thunderflash.Recv
