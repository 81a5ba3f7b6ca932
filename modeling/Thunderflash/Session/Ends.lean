/-
A session ends: every step of a thread and every byte that arrives uses up some of what there is to
do, so that no schedule goes on forever.
-/
import Thunderflash.Session.Live
import Thunderflash.Recv.Work

namespace Thunderflash.Send

open Codec Lts

variable {job : Job} {c : Choice} {s s' : State} {ok : State → SessionAct → State → Prop}

/-! ## What the sender has left -/

/-- How far `send_to` is from its end. -/
def MainPc.rank : MainPc → Nat
  | .offering todo => todo.length + 5
  | .awaiting => 4
  | .pairing => 3
  | .running => 2
  | .acking => 1
  | .returned _ => 0

/-- Every lane has come to where it is from some share, and no flow has more than the session's lanes. -/
def Laned (job : Job) (lane : Nat → Lane) : Prop :=
  ∀ i, ∃ todo, Reachable job.cfg todo (lane i) ∧ (job.flows ≤ i → lane i = .init job.cfg todo)

theorem mainStep_rank (hs : mainStep job c s = some s') :
    s'.main.rank < s.main.rank ∧ (s'.lane = s.lane ∨ ∃ share : Nat → List Item, s'.lane = fun i => .init job.cfg (share i)) := by
  unfold mainStep at hs
  split at hs
  case h_1 hm =>
    cases hs
    rw [hm]
    exact ⟨show 4 < 0 + 5 by omega, .inl rfl⟩
  case h_2 todo _ hm =>
    split at hs
    · cases hs
      rw [hm]
      exact ⟨Nat.succ_pos _, .inl rfl⟩
    · split at hs
      · rename_i hcount
        cases hs
        rw [hm]
        refine ⟨?_, .inl rfl⟩
        simp only [MainPc.rank, List.length_drop]
        omega
      · cases hs
  case h_3 hm =>
    split at hs
    · cases hs
      rw [hm]
      exact ⟨Nat.succ_pos _, .inl rfl⟩
    · split at hs <;> cases hs
      rw [hm]
      exact ⟨Nat.succ_pos _, .inl rfl⟩
    · rename_i have_ rest _ _
      cases hs
      rw [hm]
      refine ⟨?_, .inr ⟨_, rfl⟩⟩
      show (if job.flows = 1 then MainPc.running else .pairing).rank < 4
      split <;> decide
  case h_4 hm =>
    split at hs <;> cases hs <;> rw [hm]
    · exact ⟨Nat.succ_pos _, .inl rfl⟩
    · exact ⟨show 2 < 3 by omega, .inl rfl⟩
  case h_5 hm =>
    split at hs
    · split at hs <;> cases hs <;> rw [hm]
      · exact ⟨Nat.succ_pos _, .inl rfl⟩
      · exact ⟨show 1 < 2 by omega, .inl rfl⟩
    · cases hs
  case h_6 hm =>
    split at hs
    · cases hs
      rw [hm]
      exact ⟨Nat.succ_pos _, .inl rfl⟩
    · split at hs <;> cases hs
      rw [hm]
      exact ⟨Nat.succ_pos _, .inl rfl⟩
    · cases hs
      rw [hm]
      exact ⟨Nat.succ_pos _, .inl rfl⟩
  case h_7 => cases hs

theorem laned_inv (h : Reach (sessionStep job) ok (.init job) s) : Laned job s.lane := by
  refine h.invariant (I := fun s => Laned job s.lane) (fun i => ⟨[], .init, fun _ => rfl⟩) ?_
  intro s a s' _ ih hst _
  cases a with
  | main c =>
    rcases (mainStep_rank hst).2 with he | ⟨share, he⟩
    · rw [he]
      exact ih
    · rw [he]
      exact fun i => ⟨share i, .init, fun _ => rfl⟩
  | lane k a =>
    obtain ⟨-, hk, ln, hs, rfl⟩ := lane_some hst
    intro i
    obtain ⟨todo, hr, hout⟩ := ih i
    by_cases hi : i = k
    · subst hi
      refine ⟨todo, ?_, fun hle => absurd hk (by omega)⟩
      show Reachable job.cfg todo (Function.update s.lane i ln i)
      rw [Function.update_self]
      exact hr.step hs trivial
    · refine ⟨todo, ?_, ?_⟩ <;> rw [show ({ s with lane := Function.update s.lane k ln } : State).lane i = s.lane i from
        Function.update_of_ne hi ..]
      · exact hr
      · exact hout
  | hear bytes =>
    rw [show sessionStep job s (.hear bytes) = if s.eof then none else some { s with heard := s.heard ++ bytes } from rfl] at hst
    split at hst <;> cases hst
    exact ih
  | cut => cases hst; exact ih

/-- What the sender has left to do: its main thread first, then the lanes. -/
def State.left (job : Job) (s : State) : ℕ ×ₗ ℕ := toLex (s.main.rank, ∑ i ∈ Finset.range job.flows, (s.lane i).work)

/-- A step of a thread of the sender. -/
theorem left_lower {a : SessionAct} (h : Laned job s.lane) (hs : sessionStep job s a = some s')
    (ha : ∀ bytes, a ≠ .hear bytes) (hc : a ≠ .cut) : s'.left job < s.left job := by
  unfold State.left
  rw [Prod.Lex.toLex_lt_toLex]
  cases a with
  | main c => exact .inl (mainStep_rank hs).1
  | lane k a =>
    obtain ⟨-, hk, ln, hst, rfl⟩ := lane_some hs
    obtain ⟨todo, hr, -⟩ := h k
    exact .inr ⟨rfl, sum_update_lt (fun _ => Lane.work) hk (step_work (unfilled_inv hr) hst)⟩
  | hear bytes => exact absurd rfl (ha bytes)
  | cut => exact absurd rfl hc

end Thunderflash.Send

namespace Thunderflash.Recv

open Codec Posix Lts

variable {cfg : Cfg} {c : Choice} {s s' : State}

/-! ## What the receiver has left -/

/-- How far `accept_one` is from its end. -/
def MainPc.rank : MainPc → Nat
  | .openRoot => 7
  | .manifest | .chainRoot .. | .chain .. | .stat .. => 6
  | .answer => 5
  | .pairing => 4
  | .running => 3
  | .flushing _ => 2
  | .acking => 1
  | .returned _ => 0

/-- What there is to do at this point: bytes of the manifest to read, work of the flows, directories to flush. -/
def State.toDo (cfg : Cfg) (s : State) : MainPc → Nat
  | .manifest | .chainRoot .. | .chain .. | .stat .. => (s.flow 0).wire.length
  | .running => ∑ i ∈ Finset.range cfg.flows, (s.flow i).work
  | .flushing todo => todo.length
  | _ => 0

/-- What the receiver has left to do. -/
def State.left (cfg : Cfg) (s : State) : ℕ ×ₗ ℕ ×ₗ ℕ := toLex (s.main.rank, toLex (s.toDo cfg s.main, s.main.steps))

theorem left_of_rank (h : s'.main.rank < s.main.rank) : s'.left cfg < s.left cfg := by
  unfold State.left
  rw [Prod.Lex.toLex_lt_toLex]
  exact .inl h

/-- The manifest is being read, or one of its files looked up. -/
def MainPc.looks : MainPc → Prop
  | .manifest | .chainRoot .. | .chain .. | .stat .. => True
  | _ => False

/-- Inside the manifest, less is left to read, or less to look up for the same entry. -/
theorem left_of_looks (hl : s.main.looks) (hl' : s'.main.looks) (h : (s'.flow 0).wire.length < (s.flow 0).wire.length ∨
    s'.flow = s.flow ∧ s'.main.steps < s.main.steps) : s'.left cfg < s.left cfg := by
  have hat : ∀ {s : State}, s.main.looks → s.main.rank = 6 ∧ s.toDo cfg s.main = (s.flow 0).wire.length := by
    intro s hl
    cases hk : s.main with
    | manifest | chainRoot | chain | stat => exact ⟨rfl, rfl⟩
    | _ => rw [hk] at hl; exact hl.elim
  obtain ⟨h1, h2⟩ := hat hl
  obtain ⟨h1', h2'⟩ := hat hl'
  unfold State.left
  rw [h1, h2, h1', h2', Prod.Lex.toLex_lt_toLex, Prod.Lex.toLex_lt_toLex]
  refine .inr ⟨rfl, ?_⟩
  rcases h with h | ⟨h, hsteps⟩
  · exact .inl h
  · exact .inr ⟨by rw [h], hsteps⟩

theorem held_looks (s : State) (e : Entry) : (s.held e).main.looks := by
  unfold State.held
  split
  · trivial
  · split
    · split <;> trivial
    · trivial

/-- A step of the thread that runs `accept_one`. -/
theorem mainStep_lower (hs : mainStep cfg c s = some s') : s'.left cfg < s.left cfg := by
  have hdown : ∀ {s' : State} (m n : Nat), s.main.rank = n → s'.main.rank = m → m < n → s'.left cfg < s.left cfg := by
    intro s' m n hn hm hlt
    refine left_of_rank ?_
    rw [hn, hm]
    exact hlt
  -- an entry that has been read is behind the thread
  have hread : ∀ {s' : State} {a rest : Bytes}, s.main = .manifest → s'.main.looks → (s.flow 0).wire = a ++ rest → a ≠ [] →
      s'.flow = (s.consume rest).flow → s'.left cfg < s.left cfg := by
    intro s' a rest hm hl hw ha hflow
    refine left_of_looks (by rw [hm]; trivial) hl (.inl ?_)
    have hlen := List.length_pos_of_ne_nil ha
    rw [hflow, (consume_stream s hw).1, hw, List.length_append]
    omega
  unfold mainStep at hs
  split at hs
  case h_1 hm =>
    have hn : s.main.rank = 7 := by rw [hm]; rfl
    split at hs <;> cases hs
    · exact hdown 0 7 hn rfl (by decide)
    · exact hdown 6 7 hn rfl (by decide)
  case h_2 hm =>
    have hn : s.main.rank = 6 := by rw [hm]; rfl
    split at hs
    · cases hs; exact hdown 0 6 hn rfl (by decide)
    · split at hs <;> cases hs; exact hdown 0 6 hn rfl (by decide)
    · cases hs; exact hdown 0 6 hn rfl (by decide)
    · cases hs; exact hdown 5 6 hn rfl (by decide)
    · rename_i e rest _ hd
      cases hs
      have hw := (Entry.decode_some hd).1
      have hne : e.encode ≠ [] := by simp [Entry.encode]
      split
      · exact hread hm (held_looks _ _) hw hne (held_keeps (s.consume rest) e).1
      · exact hread hm (by rw [show (s.consume rest).main = .manifest from hm]; trivial) hw hne rfl
  case h_3 e parents name hm =>
    have hl : s.main.looks := by rw [hm]; trivial
    have hsteps : s.main.steps = 2 + parents.length := by rw [hm]; rfl
    split at hs <;> cases hs
    · exact left_of_looks hl trivial (.inr ⟨rfl, by rw [hsteps]; show 0 < _; omega⟩)
    · exact left_of_looks hl trivial (.inr ⟨rfl, by rw [hsteps]; show 1 < _; omega⟩)
    · refine left_of_looks hl trivial (.inr ⟨rfl, ?_⟩)
      rw [hsteps]
      simp only [MainPc.steps, State.goto, List.length_cons]
      omega
  case h_4 e name dir done component todo hm =>
    have hl : s.main.looks := by rw [hm]; trivial
    have hsteps : s.main.steps = 2 + todo.length := by rw [hm]; rfl
    split at hs <;> cases hs
    · exact left_of_looks hl trivial (.inr ⟨rfl, by rw [hsteps]; show 1 < _; omega⟩)
    · refine left_of_looks hl trivial (.inr ⟨rfl, ?_⟩)
      rw [hsteps]
      simp only [MainPc.steps, State.goto, List.length_cons]
      omega
    · exact left_of_looks hl trivial (.inr ⟨rfl, by rw [hsteps]; show 0 < _; omega⟩)
  case h_5 e name dir hm =>
    have hl : s.main.looks := by rw [hm]; trivial
    have hsteps : s.main.steps = 1 := by rw [hm]; rfl
    split at hs <;> cases hs <;> exact left_of_looks hl trivial (.inr ⟨rfl, by rw [hsteps]; exact Nat.one_pos⟩)
  case h_6 hm =>
    have hn : s.main.rank = 5 := by rw [hm]; rfl
    split at hs <;> cases hs
    · exact hdown 0 5 hn rfl (by decide)
    · refine left_of_rank ?_
      rw [hn]
      show (if cfg.flows = 1 then MainPc.running else .pairing).rank < 5
      split <;> decide
  case h_7 hm =>
    have hn : s.main.rank = 4 := by rw [hm]; rfl
    split at hs <;> cases hs
    · exact hdown 0 4 hn rfl (by decide)
    · exact hdown 3 4 hn rfl (by decide)
  case h_8 hm =>
    have hn : s.main.rank = 3 := by rw [hm]; rfl
    split at hs
    · split at hs <;> cases hs
      · exact hdown 0 3 hn rfl (by decide)
      · exact hdown 2 3 hn rfl (by decide)
    · cases hs
  case h_9 d todo hm =>
    have hn : s.main.rank = 2 := by rw [hm]; rfl
    split at hs <;> cases hs
    · unfold State.left
      rw [hm, Prod.Lex.toLex_lt_toLex, Prod.Lex.toLex_lt_toLex]
      exact .inr ⟨rfl, .inl (by simp [State.toDo, State.goto])⟩
    · exact hdown 0 2 hn rfl (by decide)
  case h_10 hm =>
    cases hs
    exact hdown 1 2 (by rw [hm]; rfl) rfl (by decide)
  case h_11 hm => split at hs <;> cases hs <;> exact hdown 0 1 (by rw [hm]; rfl) rfl (by decide)
  case h_12 => cases hs

/-- A step of a thread of the receiver. -/
theorem left_lower {a : Act} (hs : step cfg s a = some s') (ha : ∀ i bytes, a ≠ .deliver i bytes) (hc : ∀ i keep, a ≠ .cut i keep) :
    s'.left cfg < s.left cfg := by
  have hthread : ∀ {i : Nat} {f : Shared → Flow → Option (Shared × Flow)},
      (∀ {y}, f s.sh (s.flow i) = some y → y.2.work < (s.flow i).work) → threadStep cfg s i f = some s' → s'.left cfg < s.left cfg := by
    intro i f hwork hst
    obtain ⟨y, hl, hf, rfl⟩ := threadStep_some hst
    unfold State.left
    rw [show (s.put i y).main = s.main from rfl, hl.1, Prod.Lex.toLex_lt_toLex, Prod.Lex.toLex_lt_toLex]
    exact .inr ⟨rfl, .inl (sum_update_lt (fun _ => Flow.work) hl.2 (hwork hf))⟩
  cases a with
  | net i c => exact hthread Flow.netStep_work hs
  | hash i c =>
    simp only [step] at hs
    split at hs
    · exact hthread Flow.hashStep_work hs
    · cases hs
  | writer i c => exact hthread Flow.writerStep_work hs
  | main c => exact mainStep_lower hs
  | deliver i bytes => exact absurd rfl (ha i bytes)
  | cut i keep => exact absurd rfl (hc i keep)

end Thunderflash.Recv

namespace Thunderflash.Session

open Codec Posix Lts

variable {x : Setup} {fs0 : Fs} {s s' : State}

/-! ## What the session has left -/

/-- The bytes on their way to the receiver, and the connections it still holds. -/
def State.underWay (x : Setup) (s : State) : Nat := ∑ i ∈ Finset.range x.flows, ((s.snd.sent i).length - s.arrived i)

def State.held (x : Setup) (s : State) : Nat := ∑ i ∈ Finset.range x.flows, (!(s.rcv.flow i).eof).toNat

/-- What is left of the reply, and of its connection. -/
def State.replying (s : State) : Nat := s.rcv.reply.length - s.back + (!s.snd.eof).toNat

/-- What there is left to do in a session: a step of the sender may bring more bytes, a byte more work for the receiver,
and the receiver's work more of a reply, but never the other way round. -/
def State.left (x : Setup) (s : State) : (ℕ ×ₗ ℕ) ×ₗ ℕ ×ₗ ℕ ×ₗ (ℕ ×ₗ ℕ ×ₗ ℕ) ×ₗ ℕ :=
  toLex (s.snd.left x.sender, toLex (s.underWay x, toLex (s.held x, toLex (s.rcv.left x.receiver, s.replying))))

theorem left_of_send (h : s'.snd.left x.sender < s.snd.left x.sender) : s'.left x < s.left x := by
  unfold State.left
  rw [Prod.Lex.toLex_lt_toLex]
  exact .inl h

theorem left_of_deliver (hs : s'.snd = s.snd) (h : s'.underWay x < s.underWay x) : s'.left x < s.left x := by
  unfold State.left
  rw [hs, Prod.Lex.toLex_lt_toLex, Prod.Lex.toLex_lt_toLex]
  exact .inr ⟨rfl, .inl h⟩

theorem left_of_cut (hs : s'.snd = s.snd) (hu : s'.arrived = s.arrived) (h : s'.held x < s.held x) : s'.left x < s.left x := by
  unfold State.left State.underWay
  rw [hs, hu, Prod.Lex.toLex_lt_toLex, Prod.Lex.toLex_lt_toLex, Prod.Lex.toLex_lt_toLex]
  exact .inr ⟨rfl, .inr ⟨rfl, .inl h⟩⟩

theorem left_of_recv (hs : s'.snd = s.snd) (hu : s'.arrived = s.arrived) (hh : s'.held x ≤ s.held x)
    (h : s'.rcv.left x.receiver < s.rcv.left x.receiver) : s'.left x < s.left x := by
  rcases hh.lt_or_eq with hlt | heq
  · exact left_of_cut hs hu hlt
  · unfold State.left State.underWay
    rw [hs, hu, heq, Prod.Lex.toLex_lt_toLex, Prod.Lex.toLex_lt_toLex, Prod.Lex.toLex_lt_toLex, Prod.Lex.toLex_lt_toLex]
    exact .inr ⟨rfl, .inr ⟨rfl, .inr ⟨rfl, .inl h⟩⟩⟩

theorem left_of_reply (hs : s'.snd.left x.sender = s.snd.left x.sender) (hw : ∀ i, s'.snd.sent i = s.snd.sent i)
    (hu : s'.arrived = s.arrived) (hr : s'.rcv = s.rcv) (h : s'.replying < s.replying) : s'.left x < s.left x := by
  have hway : s'.underWay x = s.underWay x := by
    unfold State.underWay
    rw [hu]
    exact Finset.sum_congr rfl fun i _ => by rw [hw i]
  unfold State.left State.held
  rw [hs, hway, hr, Prod.Lex.toLex_lt_toLex, Prod.Lex.toLex_lt_toLex, Prod.Lex.toLex_lt_toLex, Prod.Lex.toLex_lt_toLex]
  exact .inr ⟨rfl, .inr ⟨rfl, .inr ⟨rfl, .inr ⟨rfl, h⟩⟩⟩⟩

/-- Nothing goes out on a connection the session does not have. -/
theorem sent_outside (hf : 1 ≤ x.flows) (h : Reachable x fs0 s) {i : Nat} (hi : x.flows ≤ i) : s.snd.sent i = [] := by
  obtain ⟨todo, -, hinit⟩ := Send.laned_inv (sender_reachable h) i
  obtain ⟨r, hr⟩ := Send.Lane.init_eq x.sender.cfg todo
  unfold Send.State.sent
  rw [if_neg (by omega), hinit hi, hr]
  rfl

theorem sender_lower {a : Send.SessionAct} (h : Reachable x fs0 s) (hs : s.send x a = some s') (ha : ∀ bytes, a ≠ .hear bytes)
    (hc : a ≠ .cut) : s'.left x < s.left x := by
  obtain ⟨snd, hst, rfl⟩ := Option.map_eq_some_iff.1 hs
  exact left_of_send (Send.left_lower (Send.laned_inv (sender_reachable h)) hst ha hc)

theorem receiver_lower {a : Recv.Act} (h : Reachable x fs0 s) (hs : s.recv x a = some s') (ha : ∀ i bytes, a ≠ .deliver i bytes)
    (hc : ∀ i keep, a ≠ .cut i keep) : s'.left x < s.left x := by
  obtain ⟨rcv, hst, rfl⟩ := Option.map_eq_some_iff.1 hs
  refine left_of_recv rfl rfl (Finset.sum_le_sum fun i _ => ?_) (Recv.left_lower hst ha hc)
  have hkept := Recv.step_kept (receiver_reachable h) hst ha i
  show (!(rcv.flow i).eof).toNat ≤ (!(s.rcv.flow i).eof).toNat
  cases he : (rcv.flow i).eof with
  | true => exact Nat.zero_le _
  | false => rw [(hkept.whole he).1]

/-- Whatever goes on leaves less to do. -/
theorem onward_lower (hf : 1 ≤ x.flows) (h : Reachable x fs0 s) {a : Act} (ha : a.onward x s) (hs : step x s a = some s') :
    s'.left x < s.left x := by
  cases a with
  | sendMain c => exact sender_lower (a := .main c) h hs nofun nofun
  | lane i a => exact sender_lower (a := .lane i a) h hs nofun nofun
  | net i c => exact receiver_lower (a := .net i c) h hs nofun nofun
  | hash i c => exact receiver_lower (a := .hash i c) h hs nofun nofun
  | writer i c => exact receiver_lower (a := .writer i c) h hs nofun nofun
  | recvMain c => exact receiver_lower (a := .main c) h hs nofun nofun
  | deliver i count =>
    obtain ⟨rcv, hst, rfl⟩ := Option.map_eq_some_iff.1 hs
    have hne : next (s.snd.sent i) (s.arrived i) count ≠ [] := ha
    have hi : i < x.flows := by
      by_contra hle
      rw [sent_outside hf h (by omega)] at hne
      exact hne (by simp [next])
    have hlen : 0 < (next (s.snd.sent i) (s.arrived i) count).length := List.length_pos_of_ne_nil hne
    have hle : (next (s.snd.sent i) (s.arrived i) count).length ≤ (s.snd.sent i).length - s.arrived i := by
      simp [next]
    exact left_of_deliver rfl (sum_update_lt (fun k n => (s.snd.sent k).length - n) hi (by omega))
  | reply count =>
    obtain ⟨snd, hst, rfl⟩ := Option.map_eq_some_iff.1 hs
    have hne : next s.rcv.reply s.back count ≠ [] := ha
    rw [show Send.sessionStep x.sender s.snd (.hear (next s.rcv.reply s.back count)) = if s.snd.eof then none else
      some { s.snd with heard := s.snd.heard ++ next s.rcv.reply s.back count } from rfl] at hst
    split at hst <;> cases hst
    have hlen : 0 < (next s.rcv.reply s.back count).length := List.length_pos_of_ne_nil hne
    have hle : (next s.rcv.reply s.back count).length ≤ s.rcv.reply.length - s.back := by
      simp [next]
    refine left_of_reply rfl (fun _ => rfl) rfl rfl ?_
    show s.rcv.reply.length - (s.back + (next s.rcv.reply s.back count).length) + (!s.snd.eof).toNat <
      s.rcv.reply.length - s.back + (!s.snd.eof).toNat
    omega
  | cut i keep =>
    obtain ⟨-, hi, -, he, -⟩ := ha
    cases hs
    refine left_of_cut rfl rfl (sum_update_lt (fun _ (fl : Recv.Flow) => (!fl.eof).toNat) hi ?_)
    show 0 < (!(s.rcv.flow i).eof).toNat
    rw [he]
    exact Nat.one_pos
  | cutReply =>
    obtain ⟨-, -, he⟩ := ha
    cases hs
    refine left_of_reply rfl (fun _ => rfl) rfl rfl ?_
    show _ + (!true).toNat < _ + (!s.snd.eof).toNat
    rw [he]
    exact Nat.lt_succ_self _

/-- One end or the network does something. -/
def Onward (x : Setup) (s s' : State) : Prop := ∃ a : Act, a.onward x s ∧ step x s a = some s'

/-- A session ends: from no state it can come to, whatever fails on the way, can it go on forever. -/
theorem session_ends (hf : 1 ≤ x.flows) (h : Reachable x fs0 s) : ¬ ∃ f : ℕ → State, f 0 = s ∧ ∀ n, Onward x (f n) (f (n + 1)) := by
  rintro ⟨f, rfl, hall⟩
  refine no_endless (m := State.left x) (P := Reachable x fs0) (R := Onward x) ?_ h hall
  rintro s s' hr ⟨a, ha, hs⟩
  exact ⟨hr.step hs trivial, onward_lower hf hr ha hs⟩

theorem session_ends_pair : ¬ ∃ f : ℕ → State, f 0 = .init pair hasT ∧ ∀ n, Onward pair (f n) (f (n + 1)) :=
  session_ends (by decide) .init

end Thunderflash.Session
