/-
Every step of a flow's threads costs some of a finite amount of work, and only bytes that arrive
bring new work: a flow that gets no more bytes comes to stand still.
-/
import Thunderflash.Recv.Live

namespace Thunderflash.Recv

open Codec Posix Lts

variable {cfg : Cfg} {c : Choice} {sh sh' : Shared} {fl fl' : Flow} {s s' : State} {fs0 : Fs} {j : Job}

/-! ## What is left to do -/

/-- The steps the writer takes over a message. -/
def Msg.wcost : Msg → Nat
  | .begin _ => 3
  | .data bytes => bytes.length + 2
  | .endFile => 6
  | .finish => 1

/-- The steps a message costs from the hash stage on. -/
def Msg.cost (m : Msg) : Nat := m.wcost + 2

def WriterPc.cost : WriterPc → Nat
  | .recv none => 1
  | .recv (some _) => 2
  | .replace .. => 3
  | .write _ bytes => bytes.length + 3
  | .chmod _ => 6
  | .stamp _ => 5
  | .flush _ => 4
  | .rename .. => 3
  | .register _ => 2
  | .failDrop .. | .lateDrop .. => 1
  | .lastDrop _ => 1
  | .closing queued _ => queued.length

def HashPc.cost : HashPc → Nat
  | .recv | .orphan _ => 1
  | .forward m => m.wcost + 2
  | .closing queued => queued.length

/-- The steps left in an entry, but for those that the bytes still to be read pay for. -/
def stageCost (j : Job) : Stage → Nat
  | .walkRoot => 2 * j.parents.length + 34
  | .walkMk _ _ todo => 2 * todo.length + 33
  | .walkOpen _ _ todo => 2 * todo.length + 32
  | .tempCreate tries => tries + 28
  | .placeCreate false => 27
  | .placeUnlink => 26
  | .placeCreate true => 25
  | .sendBegin _ => 24
  | .dropBegin _ => 1
  | .takeBuf _ => 18
  | .readBuf _ => 17
  | .sendData _ bytes => bytes.length + 23
  | .sendFinish => 16
  | .awaitDigest => 12
  | .fileDigest _ => 11
  | .sendEnd => 10
  | .linkRead => 7
  | .linkDigest _ => 6
  | .linkUnlink _ => 5
  | .linkMake _ => 4
  | .dirMk => 4
  | .linkStamp | .dirStamp => 3
  | .register => 2

def NetPc.cost : NetPc → Nat
  | .openRoot => 3
  | .registerRoot => 2
  | .decode => 1
  | .at j st => stageCost j st
  | .finished _ => 0

/-- The steps a byte on the wire can give rise to. -/
def PER_BYTE : Nat := 40

/-- The work of the stages behind the net thread. -/
def Flow.behind (fl : Flow) : Nat :=
  (fl.hq.map Msg.cost).sum + fl.hash.cost + (fl.wq.map Msg.wcost).sum + fl.writer.cost

/-- A bound on the steps a flow's threads can still take. -/
def Flow.work (fl : Flow) : Nat := PER_BYTE * fl.wire.length + fl.net.cost + fl.behind

theorem Msg.wcost_pos (m : Msg) : 0 < m.wcost := by cases m <;> simp [Msg.wcost]

theorem length_le_wcost (q : List Msg) : q.length ≤ (q.map Msg.wcost).sum := by
  induction q with
  | nil => exact le_rfl
  | cons m q ih =>
    have := m.wcost_pos
    rw [List.length_cons, List.map_cons, List.sum_cons]
    omega

theorem length_le_cost (q : List Msg) : q.length ≤ (q.map Msg.cost).sum := by
  induction q with
  | nil => exact le_rfl
  | cons m q ih =>
    have : 0 < m.cost := Nat.succ_pos _
    rw [List.length_cons, List.map_cons, List.sum_cons]
    omega

namespace Flow

/-! ## The net thread -/

/-- The net thread alone has gone on, with at most so much left before the next byte. -/
structure Leaves (fl fl' : Flow) (n : Nat) : Prop where
  wire : fl'.wire = fl.wire
  behind : fl'.behind = fl.behind
  cost : fl'.net.cost ≤ n

theorem Leaves.work {n : Nat} (h : fl.Leaves fl' n) (hlt : n < fl.net.cost) : fl'.work < fl.work := by
  have hc := h.cost
  unfold Flow.work
  rw [h.wire, h.behind]
  omega

theorem Leaves.of_goto (fl : Flow) (j : Job) (st : Stage) : fl.Leaves (fl.goto j st) (stageCost j st) := ⟨rfl, rfl, le_rfl⟩

theorem Leaves.of_fail (fl : Flow) (e : Err) : fl.Leaves (fl.fail e) 0 := ⟨rfl, rfl, le_rfl⟩

theorem complete_leaves (fl : Flow) (j : Job) : fl.Leaves (fl.complete j) 1 := ⟨rfl, rfl, le_rfl⟩

theorem made_leaves (fl : Flow) (j : Job) : fl.Leaves (fl.made cfg j) 2 := by
  unfold made
  split
  · exact .of_goto fl j .register
  · exact ⟨rfl, rfl, Nat.le_succ 1⟩

theorem dispatch_leaves (fl : Flow) (j : Job) : fl.Leaves (fl.dispatch j) 31 := by
  unfold dispatch
  constructor
  · split <;> rfl
  · split <;> rfl
  · split
    · exact (show 4 ≤ 31 by decide)
    · exact (show 7 ≤ 31 by decide)
    · exact le_rfl
    · exact Nat.zero_le _

theorem arrive_leaves (fl : Flow) (j : Job) : fl.Leaves (fl.arrive j) 31 := by
  have h := dispatch_leaves { fl with cache := some (j.parents, j.dir) } j
  exact ⟨h.wire, h.behind, h.cost⟩

theorem pump_leaves (fl : Flow) (j : Job) (remaining : Nat) : fl.Leaves (fl.pump cfg j remaining) 18 := by
  unfold pump
  refine ⟨rfl, rfl, ?_⟩
  show stageCost j _ ≤ 18
  split
  · exact le_rfl
  · split <;> simp [stageCost]

theorem linkText_leaves (fl : Flow) (j : Job) (target : Bytes) : fl.Leaves (fl.linkText j target) 5 := by
  unfold linkText
  split
  · exact .of_goto fl j (.linkUnlink target)
  · exact ⟨rfl, rfl, Nat.zero_le _⟩

theorem start_leaves (fl : Flow) (e : Entry) : fl.Leaves (fl.start cfg e) (2 * e.path.bytes.length + 36) := by
  unfold start
  split
  · exact ⟨rfl, rfl, Nat.zero_le _⟩
  · rename_i comps hs
    have hlen := sanitize_length hs
    dsimp only
    have hwalk : ∀ {fl' : Flow} {j : Job}, fl'.wire = fl.wire → fl'.behind = fl.behind → j.parents = comps.dropLast →
        fl.Leaves (fl'.goto j .walkRoot) (2 * e.path.bytes.length + 36) := by
      intro fl' j hw hb hj
      refine ⟨hw, hb, ?_⟩
      show 2 * j.parents.length + 34 ≤ _
      rw [hj, List.length_dropLast]
      omega
    split
    · split
      · obtain ⟨hw, hb, hc⟩ := dispatch_leaves _ _
        exact ⟨hw, hb, hc.trans (by omega)⟩
      · exact hwalk rfl rfl rfl
    · exact hwalk rfl rfl rfl

/-- A message sent is work for the stages behind. -/
theorem push_behind (m : Msg) (fl : Flow) : (fl.push cfg m).behind ≤ fl.behind + m.cost := by
  have hcost : m.cost = m.wcost + 2 := rfl
  unfold push behind
  dsimp only
  split <;> simp only [List.map_append, List.map_cons, List.map_nil, List.sum_append, List.sum_cons, List.sum_nil] <;> omega

theorem push_wire (m : Msg) (fl : Flow) : (fl.push cfg m).wire = fl.wire := by
  unfold push
  dsimp only
  split <;> rfl

/-- The net thread sends a message and goes on, or finds that nobody listens. -/
theorem send_work {m : Msg} {next gone : Flow → Flow} {n : Nat} (h : fl.send cfg m next gone = some fl')
    (hn : ∀ fl : Flow, fl.Leaves (next fl) n) (hlt : n + m.cost < fl.net.cost)
    (hg : ∃ k, fl.Leaves (gone fl) k ∧ k < fl.net.cost) : fl'.work < fl.work := by
  rcases send_some h with ⟨-, rfl⟩ | ⟨-, -, rfl⟩
  · obtain ⟨k, hk, hlt⟩ := hg
    exact hk.work hlt
  · obtain ⟨hw, hb, hc⟩ := hn (fl.push cfg m)
    have hp := @push_behind cfg m fl
    unfold work
    rw [hw, hb, push_wire]
    omega

/-- Reading pays for what is done with the bytes. -/
theorem read_work (rest : Bytes) {n : Nat} (hle : rest.length ≤ fl.wire.length)
    (h : (fl.consume rest).Leaves fl' n) (hlt : n < fl.net.cost + PER_BYTE * (fl.wire.length - rest.length)) :
    fl'.work < fl.work := by
  obtain ⟨hw, hb, hc⟩ := h
  have hw : fl'.wire = rest := hw
  have hb : fl'.behind = fl.behind := hb
  unfold work
  rw [hw, hb]
  unfold PER_BYTE at hlt ⊢
  omega

theorem drop_work {k n : Nat} (h : (fl.consume (fl.wire.drop k)).Leaves fl' n) (hlt : n < fl.net.cost) : fl'.work < fl.work := by
  refine read_work _ ?_ h (by omega)
  rw [List.length_drop]
  omega

theorem netLocal_work (h : fl.netLocal cfg c sh = some (sh', fl')) : fl'.work < fl.work := by
  unfold netLocal at h
  split at h
  case h_1 hpc =>
    have hc : fl.net.cost = 3 := by rw [hpc]; rfl
    split at h <;> cases h
    · exact (Leaves.of_fail fl _).work (by omega)
    · refine Leaves.work (n := 2) ⟨rfl, rfl, ?_⟩ (by omega)
      show NetPc.cost (if cfg.durable then .registerRoot else .decode) ≤ 2
      split <;> decide
  case h_2 hpc =>
    have hc : fl.net.cost = 1 := by rw [hpc]; rfl
    split at h
    · cases h; exact (Leaves.of_fail fl _).work (by omega)
    · split at h <;> cases h
      exact (Leaves.of_fail fl _).work (by omega)
    · cases h; exact (Leaves.of_fail fl _).work (by omega)
    · rename_i rest _ hd
      cases h
      have hw := congrArg List.length (Entry.decode_none hd)
      rw [List.length_cons] at hw
      exact read_work rest (n := 0) (by omega) ⟨rfl, rfl, le_rfl⟩ (by omega)
    · rename_i e rest _ hd
      cases h
      have hw := congrArg List.length (Entry.decode_some hd).1
      have hhead : e.path.bytes.length + 1 ≤ e.encode.length := by
        simp only [Entry.encode, List.length_append, List.length_cons]
        omega
      rw [List.length_append] at hw
      refine read_work rest (by omega) (start_leaves _ e) ?_
      unfold PER_BYTE
      omega
  case h_3 j hpc =>
    have hc : fl.net.cost = 2 * j.parents.length + 34 := by rw [hpc]; rfl
    split at h
    · cases h; exact (Leaves.of_fail fl _).work (by omega)
    · cases h; exact (arrive_leaves fl _).work (by omega)
    · rename_i component todo _ hp
      cases h
      rw [hp, List.length_cons] at hc
      refine Leaves.work (Leaves.of_goto fl _ _) ?_
      show 2 * todo.length + 33 < _
      omega
  case h_4 j hpc =>
    have hc : fl.net.cost = 7 := by rw [hpc]; rfl
    obtain ⟨r, hr, h⟩ := Option.map_eq_some_iff.1 h
    cases r with
    | error e => cases h; exact (Leaves.of_fail fl _).work (by omega)
    | ok target =>
      cases h
      dsimp only
      split
      · exact drop_work (n := 6) (k := target.length) ⟨rfl, rfl, le_rfl⟩ (by omega)
      · obtain ⟨hw, hb, hc'⟩ := linkText_leaves _ _ _
        exact drop_work (k := target.length) ⟨hw, hb, hc'⟩ (by omega)
  case h_5 j target hpc =>
    have hc : fl.net.cost = 6 := by rw [hpc]; rfl
    obtain ⟨r, hr, h⟩ := Option.map_eq_some_iff.1 h
    cases r with
    | error e => cases h; exact (Leaves.of_fail fl _).work (by omega)
    | ok expected =>
      cases h
      dsimp only
      split
      · obtain ⟨hw, hb, hc'⟩ := linkText_leaves _ _ _
        exact drop_work (k := expected.length) ⟨hw, hb, hc'⟩ (by omega)
      · exact drop_work (n := 0) (k := expected.length) ⟨rfl, rfl, le_rfl⟩ (by omega)
  case h_6 hpc =>
    have hc : fl.net.cost = 4 := by rw [hpc]; rfl
    split at h <;> cases h
    exact (Leaves.of_fail fl _).work (by omega)
  case h_7 j t hpc =>
    have hc : fl.net.cost = 24 := by rw [hpc]; rfl
    obtain ⟨fl1, h1, h⟩ := Option.map_eq_some_iff.1 h
    cases h
    refine send_work h1 (fun fl => pump_leaves fl _ _) ?_ ⟨1, .of_goto fl _ _, by omega⟩
    rw [hc]
    exact Nat.lt_of_sub_eq_succ rfl
  case h_8 j remaining hpc =>
    have hc : fl.net.cost = 18 := by rw [hpc]; rfl
    split at h
    · cases h; exact Leaves.work (n := 17) ⟨rfl, rfl, le_rfl⟩ (by omega)
    · split at h <;> cases h
      exact (Leaves.of_fail fl _).work (by omega)
  case h_9 j remaining hpc =>
    have hc : fl.net.cost = 17 := by rw [hpc]; rfl
    split at h
    · cases h; exact (Leaves.of_fail fl _).work (by omega)
    · split at h
      · rename_i hcount
        cases h
        refine read_work (fl.wire.drop c.count) (n := c.count + 23) ?_ ⟨rfl, rfl, ?_⟩ ?_
        · rw [List.length_drop]
          omega
        · show (fl.wire.take c.count).length + 23 ≤ c.count + 23
          rw [List.length_take]
          omega
        · rw [List.length_drop, hc]
          unfold PER_BYTE
          omega
      · split at h <;> cases h
        exact (Leaves.of_fail fl _).work (by omega)
  case h_10 j remaining bytes hpc =>
    have hc : fl.net.cost = bytes.length + 23 := by rw [hpc]; rfl
    obtain ⟨fl1, h1, h⟩ := Option.map_eq_some_iff.1 h
    cases h
    refine send_work h1 (fun fl => pump_leaves fl _ _) ?_ ⟨0, .of_fail fl _, by omega⟩
    rw [hc]
    show 18 + (bytes.length + 2 + 2) < _
    omega
  case h_11 j hpc =>
    have hc : fl.net.cost = 16 := by rw [hpc]; rfl
    obtain ⟨fl1, h1, h⟩ := Option.map_eq_some_iff.1 h
    cases h
    refine send_work h1 (fun fl => Leaves.of_goto fl _ _) ?_ ⟨0, .of_fail fl _, by omega⟩
    rw [hc]
    exact Nat.lt_of_sub_eq_succ rfl
  case h_12 j hpc =>
    have hc : fl.net.cost = 12 := by rw [hpc]; rfl
    split at h
    · cases h; exact Leaves.work (n := 11) ⟨rfl, rfl, le_rfl⟩ (by omega)
    · split at h <;> cases h
      exact (Leaves.of_fail fl _).work (by omega)
    · cases h
  case h_13 j actual hpc =>
    have hc : fl.net.cost = 11 := by rw [hpc]; rfl
    obtain ⟨r, hr, h⟩ := Option.map_eq_some_iff.1 h
    cases r with
    | error e => cases h; exact (Leaves.of_fail fl _).work (by omega)
    | ok expected =>
      cases h
      dsimp only
      split
      · exact drop_work (n := 10) (k := expected.length) ⟨rfl, rfl, le_rfl⟩ (by omega)
      · exact drop_work (n := 0) (k := expected.length) ⟨rfl, rfl, le_rfl⟩ (by omega)
  case h_14 j hpc =>
    have hc : fl.net.cost = 10 := by rw [hpc]; rfl
    obtain ⟨fl1, h1, h⟩ := Option.map_eq_some_iff.1 h
    cases h
    refine send_work h1 (fun fl => complete_leaves fl _) ?_ ⟨0, .of_fail fl _, by omega⟩
    rw [hc]
    exact Nat.lt_of_sub_eq_succ rfl
  case h_15 => cases h

theorem netResume_work {sys : Sys} (hreq : netRequest cfg c fl.net = some sys) (r : Except Errno Nat) (sh : Shared) :
    (fl.netResume cfg c r sh).2.work < fl.work := by
  have hfail : ∀ e, 0 < fl.net.cost → (fl.fail e).work < fl.work := fun e hlt => (Leaves.of_fail fl e).work hlt
  have hgoto : ∀ j st, stageCost j st < fl.net.cost → (fl.goto j st).work < fl.work :=
    fun j st hlt => (Leaves.of_goto fl j st).work hlt
  unfold netRequest at hreq
  split at hreq
  case h_14 => cases hreq
  all_goals rename_i hn
  case h_1 =>
    simp only [netResume, hn]
    have hc : fl.net.cost = 2 := by rw [hn]; rfl
    split
    · exact Leaves.work (n := 1) ⟨rfl, rfl, le_rfl⟩ (by omega)
    · exact hfail _ (by omega)
  case h_2 j done component todo =>
    simp only [netResume, hn]
    have hc : fl.net.cost = 2 * todo.length + 33 := by rw [hn]; rfl
    have hopen : stageCost j (.walkOpen done component todo) < fl.net.cost := by
      rw [hc]
      exact Nat.lt_succ_self _
    split
    · exact hgoto _ _ hopen
    · exact hgoto _ _ hopen
    · exact hfail _ (by omega)
  case h_3 j done component todo =>
    simp only [netResume, hn]
    have hc : fl.net.cost = 2 * todo.length + 32 := by rw [hn]; rfl
    split
    · exact (arrive_leaves fl _).work (by omega)
    · rename_i next todo
      refine hgoto _ _ ?_
      show 2 * todo.length + 33 < _
      rw [hc, List.length_cons]
      omega
    · exact hfail _ (by omega)
  case h_4 j =>
    simp only [netResume, hn]
    have hc : fl.net.cost = 4 := by rw [hn]; rfl
    have hstamp : stageCost j .dirStamp < fl.net.cost := by rw [hc]; exact Nat.lt_succ_self _
    split
    · exact hgoto _ _ hstamp
    · exact hgoto _ _ hstamp
    · exact hfail _ (by omega)
  case h_5 j =>
    simp only [netResume, hn]
    have hc : fl.net.cost = 3 := by rw [hn]; rfl
    exact (made_leaves fl j).work (by omega)
  case h_6 j target =>
    simp only [netResume, hn]
    have hc : fl.net.cost = 5 := by rw [hn]; rfl
    refine hgoto j (.linkMake target) ?_
    rw [hc]
    exact Nat.lt_succ_self _
  case h_7 j target =>
    simp only [netResume, hn]
    have hc : fl.net.cost = 4 := by rw [hn]; rfl
    split
    · refine hgoto j .linkStamp ?_
      rw [hc]
      exact Nat.lt_succ_self _
    · exact hfail _ (by omega)
  case h_8 j =>
    simp only [netResume, hn]
    have hc : fl.net.cost = 3 := by rw [hn]; rfl
    exact (made_leaves fl j).work (by omega)
  case h_9 j =>
    simp only [netResume, hn]
    have hc : fl.net.cost = 2 := by rw [hn]; rfl
    split
    · exact (complete_leaves fl j).work (by omega)
    · exact hfail _ (by omega)
  case h_10 j tries =>
    simp only [netResume, hn]
    have hc : fl.net.cost = tries + 28 := by rw [hn]; rfl
    split
    · exact Leaves.work (n := 24) ⟨rfl, rfl, le_rfl⟩ (by omega)
    · rename_i tries
      refine hgoto j (.tempCreate tries) ?_
      rw [hc]
      exact Nat.lt_succ_self _
    · refine hgoto j (.placeCreate false) ?_
      show 27 < _
      omega
    · exact hfail _ (by omega)
  case h_11 j again =>
    simp only [netResume, hn]
    have hc : fl.net.cost = stageCost j (.placeCreate again) := by rw [hn]; rfl
    have hle : 25 ≤ fl.net.cost := by rw [hc]; cases again <;> simp [stageCost]
    split
    · exact Leaves.work (n := 24) ⟨rfl, rfl, le_rfl⟩ (by omega)
    · refine hgoto j .placeUnlink ?_
      rw [hc]
      exact Nat.lt_succ_self _
    · exact hfail _ (by omega)
  case h_12 j =>
    simp only [netResume, hn]
    have hc : fl.net.cost = 26 := by rw [hn]; rfl
    split
    · refine hgoto j (.placeCreate true) ?_
      rw [hc]
      exact Nat.lt_succ_self _
    · exact hfail _ (by omega)
  case h_13 t =>
    simp only [netResume, hn]
    have hc : fl.net.cost = 1 := by rw [hn]; rfl
    exact Leaves.work (n := 0) ⟨rfl, rfl, le_rfl⟩ (by omega)

theorem netStep_work (h : fl.netStep cfg c sh = some (sh', fl')) : fl'.work < fl.work := by
  unfold netStep at h
  split at h
  · obtain rfl := congrArg Prod.snd (Option.some.inj h)
    exact netResume_work (by assumption) _ _
  · exact netLocal_work h

/-! ## The hash stage -/

theorem hashStep_work (h : fl.hashStep cfg c sh = some (sh', fl')) : fl'.work < fl.work := by
  unfold hashStep at h
  split at h
  case h_1 hh =>
    split at h
    case h_4 =>
      split at h <;> cases h
      simp only [work, behind, hh, HashPc.cost, List.length_nil]
      omega
    all_goals
      rename_i hq
      cases h
      simp only [work, behind, hh, hq, HashPc.cost, List.map_cons, List.sum_cons, Msg.cost]
      omega
  case h_2 m hh =>
    split at h
    · cases h
      simp only [work, behind, hh, HashPc.cost]
      omega
    · split at h <;> cases h
      simp only [work, behind, hh, HashPc.cost, List.map_append, List.map_cons, List.map_nil, List.sum_append, List.sum_cons,
        List.sum_nil]
      omega
  case h_3 m hh =>
    obtain ⟨undone, rfl⟩ := dropMsg_eq (Option.some.inj h)
    have hle := length_le_cost fl.hq
    simp only [work, behind, hh, HashPc.cost, List.map_nil, List.sum_nil]
    omega
  case h_4 m l hh =>
    obtain ⟨undone, rfl⟩ := dropMsg_eq (Option.some.inj h)
    simp only [work, behind, hh, HashPc.cost, List.length_cons]
    omega
  case h_5 => cases h

/-! ## The writer -/

/-- The writer alone has gone on. -/
structure Writes (fl fl' : Flow) (n : Nat) : Prop where
  ahead : fl'.wire = fl.wire ∧ fl'.net = fl.net ∧ fl'.hq = fl.hq ∧ fl'.hash = fl.hash
  queue : fl'.wq = fl.wq
  cost : fl'.writer.cost ≤ n

theorem Writes.work {n : Nat} (h : fl.Writes fl' n) (hlt : n < fl.writer.cost) : fl'.work < fl.work := by
  obtain ⟨⟨h1, h2, h3, h4⟩, hq, hc⟩ := h
  simp only [Flow.work, behind, h1, h2, h3, h4, hq]
  omega

/-- The writer has taken a message off its queue. -/
theorem take_work {m : Msg} {q : List Msg} {n : Nat} (hq : fl.wq = m :: q) (h : Writes { fl with wq := q } fl' n)
    (hlt : n < fl.writer.cost + m.wcost) : fl'.work < fl.work := by
  obtain ⟨⟨h1, h2, h3, h4⟩, h5, hc⟩ := h
  simp only [Flow.work, behind, h1, h2, h3, h4, h5, hq, List.map_cons, List.sum_cons]
  omega

theorem settle_writes (t : InFlight) (fl : Flow) : fl.Writes (fl.settle t) 3 := by
  unfold settle
  split
  · exact ⟨⟨rfl, rfl, rfl, rfl⟩, rfl, le_rfl⟩
  · exact ⟨⟨rfl, rfl, rfl, rfl⟩, rfl, show 1 ≤ 3 by decide⟩

/-- What a message costs pays for what the writer does with it. -/
theorem handle_writes (current : Option Cursor) (m : Msg) (sh : Shared) (hw : fl.writer = .recv current) :
    ∃ n, fl.Writes (fl.handle current m sh).2 n ∧ n < fl.writer.cost + m.wcost := by
  have hc : fl.writer.cost = (WriterPc.recv current).cost := by rw [hw]
  unfold handle
  split
  case h_1 => exact ⟨2, ⟨⟨rfl, rfl, rfl, rfl⟩, rfl, le_rfl⟩, by rw [hc]; exact Nat.lt_of_sub_eq_succ rfl⟩
  case h_2 => exact ⟨3, ⟨⟨rfl, rfl, rfl, rfl⟩, rfl, le_rfl⟩, by rw [hc]; exact Nat.lt_of_sub_eq_succ rfl⟩
  case h_3 bytes _ =>
    refine ⟨1, ⟨⟨rfl, rfl, rfl, rfl⟩, rfl, ?_⟩, ?_⟩
    · show fl.writer.cost ≤ 1
      rw [hc]
      exact le_rfl
    · rw [hc]
      simp only [WriterPc.cost, Msg.wcost]
      omega
  case h_4 bytes o =>
    refine ⟨bytes.length + 3, ⟨⟨rfl, rfl, rfl, rfl⟩, rfl, le_rfl⟩, ?_⟩
    rw [hc]
    simp only [WriterPc.cost, Msg.wcost]
    omega
  case h_5 => exact ⟨1, ⟨⟨rfl, rfl, rfl, rfl⟩, rfl, by rw [hc]; exact le_rfl⟩, by rw [hc]; exact Nat.lt_of_sub_eq_succ rfl⟩
  case h_6 o =>
    refine ⟨6, ⟨⟨rfl, rfl, rfl, rfl⟩, rfl, ?_⟩, by rw [hc]; exact Nat.lt_of_sub_eq_succ rfl⟩
    show WriterPc.cost (if o.t.mode &&& 0o600 ≠ 0o600 then .chmod o.t else .stamp o.t) ≤ 6
    split
    · exact le_rfl
    · exact Nat.le_succ 5
  case h_7 =>
    refine ⟨fl.writer.cost, ⟨⟨rfl, rfl, rfl, rfl⟩, rfl, le_rfl⟩, ?_⟩
    exact Nat.lt_succ_self _

theorem writerStep_work (h : fl.writerStep cfg c sh = some (sh', fl')) : fl'.work < fl.work := by
  -- the queue is dropped with the stage, a step for each message
  have hclose : ∀ {e : Err} {undone : List InFlight} {n : Nat}, fl.writer.cost = n + 1 →
      Flow.work { fl.writerFail e with log := { (fl.writerFail e).log with undone } } < fl.work := by
    intro e undone n hn
    have hle := length_le_wcost fl.wq
    have hqueue : (WriterPc.closing fl.wq (.error e)).cost = fl.wq.length := rfl
    simp only [Flow.work, behind, writerFail, hqueue, List.map_nil, List.sum_nil]
    omega
  unfold writerStep at h
  split at h
  case h_1 current hw =>
    split at h
    · rename_i current _ _ m q hq
      obtain rfl := congrArg Prod.snd (Option.some.inj h)
      obtain ⟨n, hw', hlt⟩ :=
        @handle_writes { fl with wq := q, log := { fl.log with taken := fl.log.taken ++ [m] } } current m sh hw
      exact take_work hq ⟨hw'.ahead, hw'.queue, hw'.cost⟩ hlt
    · split at h <;> cases h
      exact Writes.work (n := 0) ⟨⟨rfl, rfl, rfl, rfl⟩, rfl, le_rfl⟩ (by rw [hw]; decide)
    · split at h <;> cases h
      exact Writes.work (n := 1) ⟨⟨rfl, rfl, rfl, rfl⟩, rfl, le_rfl⟩ (by rw [hw]; exact Nat.lt_succ_self _)
  case h_2 old t hw =>
    obtain ⟨undone, rfl⟩ := undo_eq (Option.some.inj h)
    exact Writes.work (n := 2) ⟨⟨rfl, rfl, rfl, rfl⟩, rfl, le_rfl⟩ (by rw [hw]; exact Nat.lt_succ_self _)
  case h_3 o bytes hw =>
    have hc : fl.writer.cost = bytes.length + 3 := by rw [hw]; rfl
    split at h
    · cases h; exact Writes.work (n := 2) ⟨⟨rfl, rfl, rfl, rfl⟩, rfl, le_rfl⟩ (by omega)
    · split at h
      · split at h <;> cases h
        · refine Writes.work (n := (bytes.drop c.count).length + 3) ⟨⟨rfl, rfl, rfl, rfl⟩, rfl, le_rfl⟩ ?_
          rw [List.length_drop]
          omega
        · exact Writes.work (n := 1) ⟨⟨rfl, rfl, rfl, rfl⟩, rfl, le_rfl⟩ (by omega)
      · cases h
  case h_4 hw =>
    obtain rfl := congrArg Prod.snd (Option.some.inj h)
    exact Writes.work (n := 5) ⟨⟨rfl, rfl, rfl, rfl⟩, rfl, le_rfl⟩ (by rw [hw]; exact Nat.lt_succ_self _)
  case h_5 t hw =>
    obtain rfl := congrArg Prod.snd (Option.some.inj h)
    have hc : fl.writer.cost = 5 := by rw [hw]; rfl
    dsimp only
    split
    · exact Writes.work (n := 4) ⟨⟨rfl, rfl, rfl, rfl⟩, rfl, le_rfl⟩ (by omega)
    · exact (settle_writes t fl).work (by omega)
  case h_6 t hw =>
    have hc : fl.writer.cost = 4 := by rw [hw]; rfl
    split at h <;> cases h
    · exact (settle_writes t fl).work (by omega)
    · exact Writes.work (n := 1) ⟨⟨rfl, rfl, rfl, rfl⟩, rfl, le_rfl⟩ (by omega)
  case h_7 t final hw =>
    have hc : fl.writer.cost = 3 := by rw [hw]; rfl
    split at h <;> cases h
    · refine Writes.work (n := 2) ⟨⟨rfl, rfl, rfl, rfl⟩, rfl, ?_⟩ (by omega)
      show WriterPc.cost (if cfg.durable then .register t else .recv none) ≤ 2
      split
      · exact le_rfl
      · exact Nat.le_succ 1
    · exact Writes.work (n := 1) ⟨⟨rfl, rfl, rfl, rfl⟩, rfl, le_rfl⟩ (by omega)
  case h_8 t hw =>
    have hc : fl.writer.cost = 2 := by rw [hw]; rfl
    split at h <;> cases h
    · exact Writes.work (n := 1) ⟨⟨rfl, rfl, rfl, rfl⟩, rfl, le_rfl⟩ (by omega)
    · exact Writes.work (n := 1) ⟨⟨rfl, rfl, rfl, rfl⟩, rfl, le_rfl⟩ (by omega)
  case h_9 t e hw =>
    obtain ⟨undone, rfl⟩ := undo_eq (Option.some.inj h)
    exact hclose (n := 0) (by rw [hw]; rfl)
  case h_10 t e hw =>
    obtain rfl := congrArg Prod.snd (Option.some.inj h)
    exact hclose (n := 0) (by rw [hw]; rfl)
  case h_11 t hw =>
    obtain ⟨undone, rfl⟩ := undo_eq (Option.some.inj h)
    exact Writes.work (n := 0) ⟨⟨rfl, rfl, rfl, rfl⟩, rfl, le_rfl⟩ (by rw [hw]; exact Nat.one_pos)
  case h_12 m l r hw =>
    obtain ⟨undone, rfl⟩ := dropMsg_eq (Option.some.inj h)
    exact Writes.work (n := l.length) ⟨⟨rfl, rfl, rfl, rfl⟩, rfl, le_rfl⟩ (by rw [hw]; exact Nat.lt_succ_self _)
  case h_13 => cases h

end Flow

theorem FlowStep.work (h : FlowStep cfg c sh fl sh' fl') : fl'.work < fl.work := by
  cases h with
  | net h => exact Flow.netStep_work h
  | hash _ h => exact Flow.hashStep_work h
  | writer h => exact Flow.writerStep_work h

/-! ## Runs -/

/-- Is this a step of one of flow `i`'s threads? -/
def Act.onFlow (i : Nat) : Act → Bool
  | .net k _ | .hash k _ | .writer k _ => k == i
  | _ => false

/-- The bytes an action delivers to flow `i`. -/
def Act.brings (i : Nat) : Act → Nat
  | .deliver k bytes => if k = i then bytes.length else 0
  | _ => 0

theorem Aside.work {i : Nat} (ha : Aside s s') (hw : (s'.flow i).wire.length ≤ (s.flow i).wire.length) :
    (s'.flow i).work ≤ (s.flow i).work := by
  obtain ⟨w, e, he⟩ := ha.flow i
  rw [he] at hw ⊢
  have hle := Nat.mul_le_mul_left PER_BYTE hw
  simp only [Flow.work, Flow.behind] at hle ⊢
  omega

theorem held_flow (s : State) (e : Entry) : (s.held e).flow = s.flow := by
  unfold State.held
  split
  · rfl
  · split
    · split <;> rfl
    · rfl

/-- The thread that runs `accept_one` only takes bytes away. -/
theorem mainStep_wire (h : mainStep cfg c s = some s') (i : Nat) : (s'.flow i).wire.length ≤ (s.flow i).wire.length := by
  have hconsume : ∀ rest, rest.length ≤ (s.flow 0).wire.length → ((s.consume rest).flow i).wire.length ≤ (s.flow i).wire.length := by
    intro rest hle
    by_cases hi : i = 0
    · subst hi
      simpa [State.consume] using hle
    · simp [State.consume, Function.update_of_ne hi]
  unfold mainStep at h
  split at h
  case h_2 =>
    split at h
    · cases h; exact le_rfl
    · split at h <;> cases h; exact le_rfl
    · cases h; exact le_rfl
    · rename_i rest _ hd
      cases h
      have hw := congrArg List.length (Entry.decode_none hd)
      rw [List.length_cons] at hw
      exact hconsume rest (by omega)
    · rename_i e rest _ hd
      cases h
      have hw := congrArg List.length (Entry.decode_some hd).1
      rw [List.length_append] at hw
      split
      · rw [held_flow]
        exact hconsume rest (by omega)
      · exact hconsume rest (by omega)
  case h_6 => split at h <;> cases h <;> exact le_rfl
  case h_8 =>
    split at h
    · split at h <;> cases h <;> exact le_rfl
    · cases h
  case h_10 => cases h; exact le_rfl
  case h_12 => cases h
  all_goals split at h <;> cases h <;> exact le_rfl

/-- One action, with what it costs a flow and what it brings. -/
theorem step_turn {a : Act} (h : step cfg s a = some s') (i : Nat) :
    (a.onFlow i).toNat + (s'.flow i).work ≤ (s.flow i).work + PER_BYTE * a.brings i := by
  have hthread : ∀ {k : Nat} {x : Shared × Flow}, x.2.work < (s.flow k).work → s' = s.put k x →
      (k == i).toNat + (s'.flow i).work ≤ (s.flow i).work := by
    rintro k x hx rfl
    by_cases hk : i = k
    · subst hk
      rw [put_flow, beq_self_eq_true, Bool.toNat_true]
      omega
    · rw [put_flow_ne _ _ hk, beq_false_of_ne (Ne.symm hk), Bool.toNat_false]
      omega
  cases a with
  | net k c =>
    obtain ⟨⟨sh', fl'⟩, -, hf, he⟩ := threadStep_some h
    exact hthread (Flow.netStep_work hf) he
  | hash k c =>
    simp only [step] at h
    split at h
    · obtain ⟨⟨sh', fl'⟩, -, hf, he⟩ := threadStep_some h
      exact hthread (Flow.hashStep_work hf) he
    · cases h
  | writer k c =>
    obtain ⟨⟨sh', fl'⟩, -, hf, he⟩ := threadStep_some h
    exact hthread (Flow.writerStep_work hf) he
  | main c =>
    have hw := (mainStep_aside h).work (mainStep_wire h i)
    exact (Nat.zero_add _).trans_le hw
  | deliver k bytes =>
    simp only [step] at h
    split at h
    · cases h
    · cases h
      simp only [Act.onFlow, Act.brings, Bool.toNat_false]
      by_cases hk : k = i
      · subst hk
        rw [if_pos rfl]
        simp only [Function.update_self, Flow.work, Flow.behind, List.length_append, Nat.mul_add]
        omega
      · rw [if_neg hk]
        simp only [Function.update_of_ne (Ne.symm hk)]
        omega
  | cut k keep =>
    have ha : Aside s s' := by cases h; exact .wire s k _ _
    have hw : (s'.flow i).wire.length ≤ (s.flow i).wire.length := by
      cases h
      by_cases hk : i = k
      · subst hk
        simp
      · simp [Function.update_of_ne hk]
    exact (Nat.zero_add _).trans_le (ha.work hw)

/-- Over a run a flow takes no more steps than the work there was, and the work that the bytes
delivered to it bring. -/
theorem turns_le (i : Nat) : ∀ {acts : List Act} {s s' : State}, run (step cfg) s acts = some s' →
    acts.countP (Act.onFlow i) + (s'.flow i).work ≤ (s.flow i).work + PER_BYTE * (acts.map (Act.brings i)).sum
  | [], s, s', h => by cases h; simp
  | a :: acts, s, s', h => by
    obtain ⟨s1, h1, h2⟩ := Option.bind_eq_some_iff.1 h
    have hturn := step_turn h1 i
    have hrest := turns_le i h2
    rw [List.countP_cons, List.map_cons, List.sum_cons, Nat.mul_add]
    cases hb : a.onFlow i with
    | false =>
      rw [hb, Bool.toNat_false] at hturn
      rw [if_neg (by simp)]
      omega
    | true =>
      rw [hb, Bool.toNat_true] at hturn
      rw [if_pos rfl]
      omega

end Thunderflash.Recv
