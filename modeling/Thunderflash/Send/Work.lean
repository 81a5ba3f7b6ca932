/-
Every step of a lane costs some of a finite amount of work, so a lane that never gets stuck comes
to its end.
-/
import Thunderflash.Send.Live

namespace Thunderflash.Send

open Codec Lts

variable {cfg : Cfg} {c : Choice} {ln ln' : Lane} {todo0 : List Item}

/-! ## Termination -/

/-- The steps the socket loop takes over a message. -/
def sockCost : Except Err Msg → Nat
  | .ok m => m.bytes.length + 2
  | .error _ => 1

/-- The steps a message costs from the hash stage on. -/
def cost : Except Err Msg → Nat
  | .ok .endPayload => DIGEST_LEN + 4
  | m => sockCost m + 2

/-- The steps left in a file of which `left` bytes are to be read: what asking for a buffer, filling
it and sending it on take, for each of the bytes a chunk of its own. -/
def fileCost (left : Nat) : Nat := 8 * left + 40

def linkCost (item : Item) : Nat := item.entry.size.toNat + 43

def bodyCost (item : Item) : Nat :=
  match item.entry.kind with
  | .dir | .end_ => 0
  | .symlink => linkCost item
  | .file => fileCost item.entry.size.toNat + 1

def itemCost (item : Item) : Nat := item.header.length + 5 + bodyCost item

def stageCost (item : Item) : Stage → Nat
  | .header => itemCost item
  | .readLink => linkCost item
  | .sendTarget target => target.length + 42
  | .sendDigest _ => 37
  | .openFile => fileCost item.entry.size.toNat + 1
  | .takeBuf sent => fileCost (item.entry.size.toNat - sent)
  | .fill sent filled => 8 * (item.entry.size.toNat - sent) + 39 - filled.length
  | .sendChunk sent bytes => fileCost (item.entry.size.toNat - sent) + bytes.length + 5
  | .sendEnd => 37

def itemsCost (todo : List Item) : Nat := (todo.map itemCost).sum

def ReaderPc.cost : ReaderPc → Nat
  | .at item st todo => stageCost item st + itemsCost todo
  | .sendErr _ => 4
  | .left => 0

def HashPc.cost : HashPc → Nat
  | .recv => 1
  | .forward m => sockCost m + 2
  | .left => 0

def SockPc.cost : SockPc → Nat
  | .recv => 5
  | .writing _ todo => todo.length + 6
  | .closing _ => 1
  | .joinReader => 4
  | .joinHasher => 3
  | .terminator => 2
  | .left _ | .panicked => 0

/-- A bound on the steps a lane can still take. -/
def Lane.work (ln : Lane) : Nat :=
  ln.reader.cost + (ln.rq.map cost).sum + ln.hash.cost + (ln.sq.map sockCost).sum + ln.sock.cost

theorem sockCost_le_cost (m : Except Err Msg) : sockCost m + 2 ≤ cost m := by
  cases m with
  | error e => exact le_rfl
  | ok m => cases m <;> first | exact le_rfl | (simp only [sockCost, cost, Msg.bytes, DIGEST_LEN]; simp)

namespace Lane

/-- A message sent is work for the stages after the reader. -/
theorem push_work (m : Except Err Msg) (ln : Lane) : (ln.push cfg m).work ≤ ln.work + cost m := by
  have := sockCost_le_cost m
  unfold push work
  dsimp only
  split <;> simp only [List.map_append, List.map_cons, List.map_nil, List.sum_append, List.sum_cons, List.sum_nil] <;> omega

theorem push_reader (m : Except Err Msg) (ln : Lane) : (ln.push cfg m).reader = ln.reader := by
  unfold push
  dsimp only
  split <;> rfl

theorem items_cost (todo : List Item) (ln : Lane) : (ln.items todo).reader.cost = itemsCost todo := by
  unfold items
  split
  · rfl
  · simp [goto, ReaderPc.cost, stageCost, itemsCost]

theorem finish_cost (todo : List Item) (ln : Lane) : (ln.finish todo).reader.cost = itemsCost todo := items_cost _ _

theorem body_cost (item : Item) (todo : List Item) (ln : Lane) :
    (ln.body item todo).reader.cost = bodyCost item + itemsCost todo := by
  unfold body
  split
  all_goals rename_i hk
  · rw [finish_cost, show bodyCost item = 0 by simp [bodyCost, hk], Nat.zero_add]
  · rw [finish_cost, show bodyCost item = 0 by simp [bodyCost, hk], Nat.zero_add]
  · rw [show bodyCost item = linkCost item by simp [bodyCost, hk]]
    rfl
  · rw [show bodyCost item = fileCost item.entry.size.toNat + 1 by simp [bodyCost, hk]]
    rfl

theorem stream_cost (item : Item) (todo : List Item) (sent : Nat) (ln : Lane) :
    (ln.stream cfg item todo sent).reader.cost ≤ fileCost (item.entry.size.toNat - sent) + itemsCost todo := by
  unfold stream
  split
  · exact le_rfl
  · split
    · simp only [goto, ReaderPc.cost, stageCost, fileCost]
      omega
    · rw [finish_cost]
      omega

/-- The reader alone goes on. -/
theorem work_goes (he : ∃ r f, ln' = { ln with reader := r, finished := f }) (hlt : ln'.reader.cost < ln.reader.cost) :
    ln'.work < ln.work := by
  obtain ⟨r, f, rfl⟩ := he
  unfold work
  dsimp only at hlt ⊢
  omega

/-- The reader sends a message and goes on, or finds that nobody listens. -/
theorem work_send {m : Except Err Msg} {next gone : Lane → Lane} (h : ln.send cfg m next gone = some ln')
    (hn : ∀ ln1 : Lane, (∃ r f, next ln1 = { ln1 with reader := r, finished := f }) ∧
      (next ln1).reader.cost + cost m < ln.reader.cost)
    (hg : (∃ r f, gone ln = { ln with reader := r, finished := f }) ∧ (gone ln).reader.cost < ln.reader.cost) :
    ln'.work < ln.work := by
  rcases send_some h with ⟨-, rfl⟩ | ⟨-, -, rfl⟩
  · exact work_goes hg.1 hg.2
  · obtain ⟨⟨r, f, he⟩, hlt⟩ := hn (ln.push cfg m)
    have hp := @push_work cfg m ln
    have hr := @push_reader cfg m ln
    rw [he] at hlt ⊢
    unfold work at hp ⊢
    rw [hr] at hp
    dsimp only at hlt ⊢
    omega

theorem readStep_work (hu : ln.reader.Unfilled) (h : ln.readStep cfg c = some ln') : ln'.work < ln.work := by
  have hleave : ∀ ln : Lane, (∃ r f, ln.leave = { ln with reader := r, finished := f }) ∧ ln.leave.reader.cost = 0 :=
    fun _ => ⟨⟨_, _, rfl⟩, rfl⟩
  have hfinish : ∀ todo, ∀ ln : Lane, (∃ r f, ln.finish todo = { ln with reader := r, finished := f }) := by
    intro todo ln
    obtain ⟨r, hr⟩ := finish_eq todo ln
    exact ⟨r, _, hr⟩
  have hfail : ∀ e, 4 < ln.reader.cost → (ln.fail e).work < ln.work := fun e hlt => work_goes ⟨_, _, rfl⟩ hlt
  unfold readStep at h
  split at h
  case h_1 item todo hr =>
    have hc : ln.reader.cost = item.header.length + 5 + bodyCost item + itemsCost todo := by rw [hr]; rfl
    refine work_send h (fun ln1 => ⟨body_eq _ _ _, ?_⟩) ⟨(hleave ln).1, ?_⟩
    · rw [body_cost, hc]
      simp only [cost, sockCost, Msg.bytes]
      omega
    · rw [(hleave ln).2, hc]
      omega
  case h_2 item todo hr =>
    have hc : ln.reader.cost = item.entry.size.toNat + 43 + itemsCost todo := by rw [hr]; rfl
    split at h <;> cases h
    · exact hfail _ (by omega)
    · split
      · rename_i hl
        refine work_goes ⟨_, _, rfl⟩ ?_
        show (lossy c.data).length + 42 + itemsCost todo < ln.reader.cost
        omega
      · exact hfail _ (by omega)
  case h_3 item target todo hr =>
    have hc : ln.reader.cost = target.length + 42 + itemsCost todo := by rw [hr]; rfl
    refine work_send h (fun ln1 => ?_) ⟨(hleave ln).1, ?_⟩
    · rw [hc]
      simp only [cost, sockCost, Msg.bytes]
      split
      · refine ⟨⟨_, _, rfl⟩, ?_⟩
        show 37 + itemsCost todo + _ < _
        omega
      · refine ⟨hfinish _ _, ?_⟩
        rw [finish_cost]
        omega
    · rw [(hleave ln).2, hc]
      omega
  case h_4 item d todo hr =>
    have hc : ln.reader.cost = 37 + itemsCost todo := by rw [hr]; rfl
    refine work_send h (fun ln1 => ⟨hfinish _ _, ?_⟩) ⟨(hleave ln).1, ?_⟩
    · rw [finish_cost, hc]
      simp only [cost, sockCost, Msg.bytes, d.length, DIGEST_LEN]
      omega
    · rw [(hleave ln).2, hc]
      omega
  case h_5 item todo hr =>
    have hc : ln.reader.cost = fileCost item.entry.size.toNat + 1 + itemsCost todo := by rw [hr]; rfl
    split at h <;> cases h
    · refine hfail _ ?_
      unfold fileCost at hc
      omega
    · have hst := @stream_cost cfg item todo 0 ln
      exact work_goes (stream_eq _ _ _ _) (by rw [Nat.sub_zero] at hst; omega)
  case h_6 item sent todo hr =>
    have hc : ln.reader.cost = fileCost (item.entry.size.toNat - sent) + itemsCost todo := by rw [hr]; rfl
    unfold fileCost at hc
    split at h
    · cases h
      show work _ < work _
      unfold work
      have hnew : (ReaderPc.at item (.fill sent []) todo).cost = 8 * (item.entry.size.toNat - sent) + 39 + itemsCost todo := rfl
      simp only [goto, hnew]
      omega
    · split at h <;> cases h
      refine work_goes (hfinish _ _) ?_
      rw [finish_cost]
      omega
  case h_7 item sent filled todo hr =>
    have hc : ln.reader.cost = 8 * (item.entry.size.toNat - sent) + 39 - filled.length + itemsCost todo := by rw [hr]; rfl
    have hwant : want item sent ≤ item.entry.size.toNat - sent := by unfold want; omega
    rw [hr] at hu
    have hlt : filled.length < want item sent := hu
    split at h
    · cases h; exact hfail _ (by omega)
    · split at h
      · cases h; exact hfail _ (by omega)
      · rename_i hne
        have hpos := List.length_pos_iff.2 hne
        have hlen : (filled ++ c.data).length = filled.length + c.data.length := List.length_append
        split at h
        · cases h
          refine work_goes ⟨_, _, rfl⟩ ?_
          show 8 * (item.entry.size.toNat - sent) + 39 - (filled ++ c.data).length + itemsCost todo < _
          omega
        · split at h <;> cases h
          refine work_goes ⟨_, _, rfl⟩ ?_
          show fileCost (item.entry.size.toNat - (sent + want item sent)) + (filled ++ c.data).length + 5 + itemsCost todo < _
          unfold fileCost
          omega
  case h_8 item sent bytes todo hr =>
    have hc : ln.reader.cost = fileCost (item.entry.size.toNat - sent) + bytes.length + 5 + itemsCost todo := by rw [hr]; rfl
    refine work_send h (fun ln1 => ⟨stream_eq _ _ _ _, ?_⟩) ⟨hfinish _ _, ?_⟩
    · have hst := @stream_cost cfg item todo sent ln1
      simp only [cost, sockCost, Msg.bytes]
      omega
    · rw [finish_cost, hc]
      omega
  case h_9 item todo hr =>
    have hc : ln.reader.cost = 37 + itemsCost todo := by rw [hr]; rfl
    refine work_send h (fun ln1 => ⟨hfinish _ _, ?_⟩) ⟨hfinish _ _, ?_⟩
    · rw [finish_cost, hc]
      simp only [cost, DIGEST_LEN]
      omega
    · rw [finish_cost, hc]
      omega
  case h_10 e hr =>
    have hc : ln.reader.cost = 4 := by rw [hr]; rfl
    refine work_send h (fun ln1 => ⟨(hleave ln1).1, ?_⟩) ⟨(hleave ln).1, ?_⟩
    · rw [(hleave ln1).2, hc]
      simp only [cost, sockCost]
      omega
    · rw [(hleave ln).2, hc]
      omega
  case h_11 => cases h

theorem hashStep_work (h : ln.hashStep cfg = some ln') : ln'.work < ln.work := by
  unfold hashStep at h
  split at h
  case h_1 hh =>
    split at h
    all_goals rename_i hq
    · cases h
      simp only [work, hh, hq, HashPc.cost, List.map_cons, List.sum_cons, cost, sockCost, Msg.bytes]
      omega
    · cases h
      simp only [work, hh, hq, HashPc.cost, List.map_cons, List.sum_cons, cost, sockCost, Msg.bytes, Digest.length]
      omega
    · cases h
      rename_i m q _ _
      have hle := sockCost_le_cost m
      simp only [work, hh, hq, HashPc.cost, List.map_cons, List.sum_cons]
      omega
    · split at h <;> cases h
      simp only [work, hh, HashPc.cost]
      omega
  case h_2 m hh =>
    split at h
    · cases h
      simp only [work, hh, HashPc.cost, List.map_nil, List.sum_nil]
      omega
    · split at h <;> cases h
      simp only [work, hh, HashPc.cost, List.map_append, List.map_cons, List.map_nil, List.sum_append, List.sum_cons,
        List.sum_nil]
      omega
  case h_3 => cases h

theorem abort_work (e : Err) (h : 1 < ln.sock.cost) : (ln.abort e).work < ln.work := by
  have hclosing : (SockPc.closing e).cost = 1 := rfl
  simp only [work, abort, hclosing, List.map_nil, List.sum_nil]
  omega

theorem sockStep_work (h : ln.sockStep cfg c = some ln') : ln'.work < ln.work := by
  have hsock : ∀ {k : SockPc}, k.cost < ln.sock.cost → ln' = { ln with sock := k } → ln'.work < ln.work := by
    rintro k hk rfl
    simp only [work]
    omega
  unfold sockStep at h
  split at h
  case h_1 hk =>
    have hc : ln.sock.cost = 5 := by rw [hk]; rfl
    split at h
    · cases h; exact abort_work _ (by omega)
    · cases h
      have hpanicked : SockPc.panicked.cost = 0 := rfl
      simp only [work, hpanicked, List.map_nil, List.sum_nil]
      omega
    · rename_i m q _ hq
      cases h
      simp only [work, hq, hk, SockPc.cost, List.map_cons, List.sum_cons, sockCost]
      omega
    · split at h <;> cases h
      exact hsock (by rw [hc]; decide) rfl
  case h_2 m hk =>
    cases h
    simp only [work, hk]
    unfold counted
    split <;> simp only [SockPc.cost, List.length_nil] <;> omega
  case h_3 m todo hne hk =>
    have hc : ln.sock.cost = todo.length + 6 := by rw [hk]; rfl
    split at h
    · cases h; exact abort_work _ (by omega)
    · split at h
      · cases h
        simp only [work, hk, SockPc.cost, List.length_drop]
        omega
      · cases h
  case h_4 hk => cases h; exact hsock (by rw [hk]; exact Nat.one_pos) rfl
  case h_5 hk =>
    split at h
    · cases h
      refine hsock ?_ rfl
      rw [hk]
      split <;> decide
    · cases h
  case h_6 hk => split at h <;> cases h; exact hsock (by rw [hk]; decide) rfl
  case h_7 hk =>
    split at h <;> cases h
    · exact abort_work _ (by rw [hk]; decide)
    · simp only [work, hk, SockPc.cost]
      omega
  case h_8 => cases h
  case h_9 => cases h

end Lane

theorem step_work {a : Act} (hu : ln.reader.Unfilled) (h : step cfg ln a = some ln') : ln'.work < ln.work := by
  rcases step_cases h with ⟨c, h⟩ | ⟨-, h⟩ | ⟨c, h⟩
  · exact Lane.readStep_work hu h
  · exact Lane.hashStep_work h
  · exact Lane.sockStep_work h

/-! ## The pipeline -/

/-- What is true of a lane's buffers in every state. -/
structure Pooled (cfg : Cfg) (ln : Lane) : Prop where
  /-- Counted once for every place they are in. -/
  bound : ln.buffers.total ≤ cfg.depth + 2
  whole : ¬ ln.halted cfg → ln.buffers.total = cfg.depth + 2
  /-- The pool has room for what the socket loop returns. -/
  returns : ∀ c ln', step cfg ln (.sock c) = some ln' → ln.pool < ln'.pool → ln.pool < cfg.depth + 2

theorem pooled_inv (h : Reachable cfg todo0 ln) : Pooled cfg ln where
  bound := (stocked_inv h).bound
  whole := (stocked_inv h).whole
  returns := fun c ln' hst hp => by
    have hb := (stocked_inv (h.step hst trivial)).bound
    unfold Buffers.total at hb
    have : ln'.buffers.pool = ln'.pool := rfl
    omega

/-- No lane deadlocks: while a stage has not returned one can go on, and no run is longer than the
work there was, so that a run that cannot go on has all of them returned. -/
theorem lane_live (hd : 1 ≤ cfg.depth) (h : Reachable cfg todo0 ln) :
    (¬ ln.Done → Moves cfg ln) ∧
    (∀ acts ln', run (step cfg) ln acts = some ln' → acts.length ≤ ln.work ∧ (¬ Moves cfg ln' → ln'.Done)) ∧
    Pooled cfg ln := by
  refine ⟨lane_progress hd h, fun acts ln' hrun => ⟨?_, fun hno => ?_⟩, pooled_inv h⟩
  · have hstep : ∀ s a s', Reachable cfg todo0 s → step cfg s a = some s' → Reachable cfg todo0 s' ∧ s'.work < s.work :=
      fun s a s' hr hs => ⟨hr.step hs trivial, step_work (unfilled_inv hr) hs⟩
    have hl := run_length_le hstep h hrun
    omega
  · by_contra hnd
    exact hno (lane_progress hd (h.trans (.of_run hrun)) hnd)

/-- A verifying lane with one slot in every queue. -/
def narrow : Cfg := ⟨true, 1, fun _ => ⟨List.replicate 32 1, by decide⟩⟩

def itemA : Item := makeItem [105] ⟨[105], by decide⟩ .file 2 0o644 0

def reads (n : Nat) : List Act := List.replicate n (.read plain)

theorem lane_live_filling : ∃ ln, run (step narrow) (.init narrow [itemA]) (reads 4) = some ln ∧
    ln.buffers = ⟨2, 1, 0, 0⟩ ∧ (¬ ln.Done → Moves narrow ln) ∧
    (∀ acts ln', run (step narrow) ln acts = some ln' → acts.length ≤ ln.work ∧ (¬ Moves narrow ln' → ln'.Done)) ∧
    Pooled narrow ln := by
  have hrun : ((run (step narrow) (.init narrow [itemA]) (reads 4)).any fun ln =>
      decide (ln.buffers = ⟨2, 1, 0, 0⟩)) = true := by decide +kernel
  obtain ⟨ln, hs, hv⟩ := (Option.any_eq_true _ _).1 hrun
  exact ⟨ln, hs, of_decide_eq_true hv, lane_live (by decide) (.of_run hs : Reachable narrow [itemA] ln)⟩

end Thunderflash.Send
