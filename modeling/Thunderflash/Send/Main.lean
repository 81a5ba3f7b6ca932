/-
The sender's session around its lanes as a transition system: the manifest goes out, the answer is
read and drops the files the receiver has, what is left is dealt to the flows, and the
acknowledgement is read once every lane has returned. A v3 session is the one with a single flow.
-/
import Thunderflash.Send.Session
import Thunderflash.Send.Accounts

namespace Thunderflash.Send

open Codec Lts

/-- An `io::Error` of the session, by the place that makes it. -/
inductive Failure
  | os (code : Nat)
  | unexpectedEof
  | lane (e : Err)
  | panicked
  /-- `receiver did not acknowledge`. -/
  | refused
  deriving DecidableEq, Repr

/-- A session's parameters: those of each lane, the flow count (1 in a v3 session, 2..16 in a v4
session) and what `walk` found. -/
structure Job where
  cfg : Cfg
  flows : Nat
  items : List Item

/-! ## States -/

inductive MainPc
  /-- `write_all` of the manifest. -/
  | offering (todo : Bytes)
  | awaiting
  /-- The other connections of a v4 session are being opened. -/
  | pairing
  | running
  | acking
  | returned (r : Except Failure Stats)
  deriving DecidableEq

structure State where
  main : MainPc
  /-- What of the reply has arrived and was not read, and whether more can come. -/
  heard : Bytes
  eof : Bool
  stats : Stats
  /-- `Progress::set_totals`: files and bytes. -/
  totals : Nat × Nat
  /-- Have the lanes' threads been spawned? Those of a session that fails are not stopped. -/
  spawned : Bool
  lane : Nat → Lane
  /-- What the manifest phase has written; nothing reads it. -/
  wrote : Bytes
  /-- The answer read; nothing reads it after the filter. -/
  have_ : List Bool

namespace State

def goto (s : State) (pc : MainPc) : State := { s with main := pc }

def fail (s : State) (e : Failure) : State := s.goto (.returned (.error e))

/-- The answer is in: filter, set the totals, and deal what is left. -/
def filtered (job : Job) (s : State) (have_ : List Bool) (rest : Bytes) : State :=
  let (kept, stats) := keepUnskipped job.items have_
  { s with
    main := if job.flows = 1 then .running else .pairing
    spawned := job.flows = 1
    heard := rest
    have_
    stats
    totals := (kept.length, (kept.map fun item => item.entry.size.toNat).sum)
    lane := fun i => .init job.cfg ((deal job.flows kept).getD i []) }

end State

/-- What the join of a lane gives. -/
def Lane.result (ln : Lane) : Option (Except Failure Unit) :=
  match ln.sock with
  | .left (.ok ()) => some (.ok ())
  | .left (.error e) => some (.error (.lane e))
  | .panicked => some (.error .panicked)
  | _ => none

/-- The first failure among the lanes, the primary's first. -/
def firstFailure (job : Job) (s : State) : Option Failure :=
  (List.range job.flows).findSome? fun i =>
    match (s.lane i).result with
    | some (.error e) => some e
    | _ => none

/-- The stats of the filter and of every lane. -/
def totalStats (job : Job) (s : State) : Stats :=
  (List.range job.flows).foldl
    (fun st i => { st with
      files := st.files + (s.lane i).stats.files
      bytes := st.bytes + (s.lane i).stats.bytes }) s.stats

/-- One step of the thread that runs `send_to`. -/
def mainStep (job : Job) (c : Choice) (s : State) : Option State :=
  match s.main with
  | .offering [] => some (s.goto .awaiting)
  | .offering todo =>
    match c.fault with
    | some e => some (s.fail (.os e))
    | none =>
      if 0 < c.count ∧ c.count ≤ todo.length then
        some { s with main := .offering (todo.drop c.count), wrote := s.wrote ++ todo.take c.count }
      else none
  | .awaiting =>
    match c.fault, readBitmap (offered job.items) s.heard with
    | some e, _ => some (s.fail (.os e))
    | none, .more => if s.eof then some (s.fail .unexpectedEof) else none
    | none, .ok have_ rest => some (s.filtered job have_ rest)
  | .pairing =>
    match c.fault with
    | some e => some (s.fail (.os e))
    | none => some { s with main := .running, spawned := true }
  | .running =>
    if ∀ i < job.flows, ((s.lane i).result).isSome then
      match firstFailure job s with
      | some e => some (s.fail e)
      | none => some { s with main := .acking, stats := totalStats job s }
    else none
  | .acking =>
    match c.fault, s.heard with
    | some e, _ => some (s.fail (.os e))
    | none, [] => if s.eof then some (s.fail .unexpectedEof) else none
    | none, b :: rest =>
      some { s with heard := rest, main := .returned (if b = ACK then .ok s.stats else .error .refused) }
  | .returned _ => none

inductive SessionAct
  | main (c : Choice)
  | lane (i : Nat) (a : Act)
  /-- Bytes of the reply arrive. -/
  | hear (bytes : Bytes)
  /-- The reply's stream ends. -/
  | cut
  deriving DecidableEq

def sessionStep (job : Job) (s : State) : SessionAct → Option State
  | .main c => mainStep job c s
  | .lane i a =>
    if s.spawned ∧ i < job.flows then
      (step job.cfg (s.lane i) a).map fun ln => { s with lane := Function.update s.lane i ln }
    else none
  | .hear bytes => if s.eof then none else some { s with heard := s.heard ++ bytes }
  | .cut => some { s with eof := true }

/-- A sender whose handshake is out. -/
def State.init (job : Job) : State where
  main := .offering (manifest job.items)
  heard := []
  eof := false
  stats := ⟨0, 0, 0, 0⟩
  totals := (0, 0)
  spawned := false
  lane := fun _ => .init job.cfg []
  wrote := []
  have_ := []

/-- What has gone out on a connection behind its handshake. -/
def State.sent (s : State) (i : Nat) : Bytes := (if i = 0 then s.wrote else []) ++ (s.lane i).wrote

variable {job : Job} {c : Choice} {s s' : State} {ok : State → SessionAct → State → Prop}

/-! ## Where the session stands -/

/-- What is left to send after this answer, and the share of each flow. -/
def Job.kept (job : Job) (have_ : List Bool) : List Item := (keepUnskipped job.items have_).1

def Job.share (job : Job) (have_ : List Bool) (i : Nat) : List Item := (deal job.flows (job.kept have_)).getD i []

/-- The lanes have not been spawned, and have written nothing. -/
structure Quiet (job : Job) (spawned : Bool) (lane : Nat → Lane) : Prop where
  idle : spawned = false
  lanes : ∀ i, lane i = .init job.cfg []

/-- The lanes are at work on their shares. -/
structure Dealt (job : Job) (wrote : Bytes) (have_ : List Bool) (totals : Nat × Nat) (lane : Nat → Lane) : Prop where
  wrote : wrote = manifest job.items
  totals : totals = ((job.kept have_).length, ((job.kept have_).map fun item => item.entry.size.toNat).sum)
  lanes : ∀ i, Reachable job.cfg (job.share have_ i) (lane i)

/-- Every lane has returned Ok. -/
def AllSent (job : Job) (lane : Nat → Lane) : Prop := ∀ i < job.flows, (lane i).sock = .left (.ok ())

def SessionOk (job : Job) (s : State) : MainPc → Prop
  | .offering todo => s.wrote ++ todo = manifest job.items ∧ Quiet job s.spawned s.lane
  | .awaiting => s.wrote = manifest job.items ∧ Quiet job s.spawned s.lane
  | .pairing | .running => Dealt job s.wrote s.have_ s.totals s.lane ∧ s.stats = (keepUnskipped job.items s.have_).2
  | .acking => Dealt job s.wrote s.have_ s.totals s.lane ∧ AllSent job s.lane ∧
      s.stats = totalStats job { s with stats := (keepUnskipped job.items s.have_).2 }
  | .returned (.ok st) => (Dealt job s.wrote s.have_ s.totals s.lane ∧ AllSent job s.lane) ∧
      st = totalStats job { s with stats := (keepUnskipped job.items s.have_).2 }
  | .returned (.error _) => True

theorem Quiet.wrote {spawned : Bool} {lane : Nat → Lane} (h : Quiet job spawned lane) (i : Nat) : (lane i).wrote = [] := by
  obtain ⟨r, hr⟩ := Lane.init_eq job.cfg []
  rw [h.lanes i, hr]

/-- A lane that has returned Ok has no step left. -/
theorem lane_over {cfg : Cfg} {todo : List Item} {ln ln' : Lane} {a : Act} (h : Reachable cfg todo ln)
    (hk : ln.sock = .left (.ok ())) : step cfg ln a ≠ some ln' := by
  intro hst
  obtain ⟨hr, hh⟩ := (joined_inv h).done (.inr hk)
  rcases step_cases hst with ⟨c, hs⟩ | ⟨-, hs⟩ | ⟨c, hs⟩
  · exact (Lane.readStep_move hs).1 hr
  · exact (Lane.hashStep_only hs).1 hh
  · rw [Lane.sockStep, hk] at hs
    cases hs

/-- The lane's step, as one of the session. -/
theorem lane_some {i : Nat} {a : Act} (h : sessionStep job s (.lane i a) = some s') :
    s.spawned = true ∧ i < job.flows ∧ ∃ ln, step job.cfg (s.lane i) a = some ln ∧
      s' = { s with lane := Function.update s.lane i ln } := by
  rw [show sessionStep job s (.lane i a) = if s.spawned ∧ i < job.flows then
    (step job.cfg (s.lane i) a).map fun ln => { s with lane := Function.update s.lane i ln } else none from rfl] at h
  split at h
  · rename_i hl
    obtain ⟨ln, hst, he⟩ := Option.map_eq_some_iff.1 h
    exact ⟨hl.1, hl.2, ln, hst, he.symm⟩
  · cases h

theorem Dealt.lane {i : Nat} {a : Act} {ln : Lane} (h : Dealt job s.wrote s.have_ s.totals s.lane)
    (hst : step job.cfg (s.lane i) a = some ln) : Dealt job s.wrote s.have_ s.totals (Function.update s.lane i ln) := by
  refine ⟨h.wrote, h.totals, fun k => ?_⟩
  by_cases hk : k = i
  · subst hk
    rw [Function.update_self]
    exact .step (h.lanes k) hst trivial
  · rw [Function.update_of_ne hk]
    exact h.lanes k

theorem SessionOk.lane {i : Nat} {a : Act} (h : SessionOk job s s.main) (hs : sessionStep job s (.lane i a) = some s') :
    SessionOk job s' s'.main := by
  obtain ⟨hsp, hi, ln, hst, rfl⟩ := lane_some hs
  show SessionOk job { s with lane := Function.update s.lane i ln } s.main
  cases hm : s.main with
  | offering todo =>
    rw [hm] at h
    exact absurd (h.2.idle.symm.trans hsp) (by simp)
  | awaiting =>
    rw [hm] at h
    exact absurd (h.2.idle.symm.trans hsp) (by simp)
  | pairing | running =>
    rw [hm] at h
    exact ⟨h.1.lane hst, h.2⟩
  | acking =>
    rw [hm] at h
    exact absurd hst (lane_over (h.1.lanes i) (h.2.1 i hi))
  | returned r =>
    rw [hm] at h
    cases r with
    | ok st => exact absurd hst (lane_over (h.1.1.lanes i) (h.1.2 i hi))
    | error e => trivial

theorem firstFailure_none (h : firstFailure job s = none) (hall : ∀ i < job.flows, ((s.lane i).result).isSome) : AllSent job s.lane := by
  intro i hi
  have hnone := List.findSome?_eq_none_iff.1 h i (List.mem_range.2 hi)
  have hsome := hall i hi
  unfold Lane.result at hnone hsome
  split at hsome
  · assumption
  · rename_i e hk
    rw [hk] at hnone
    cases hnone
  · rename_i hk
    rw [hk] at hnone
    cases hnone
  · cases hsome

theorem SessionOk.mainStep (h : SessionOk job s s.main) (hs : mainStep job c s = some s') : SessionOk job s' s'.main := by
  unfold Send.mainStep at hs
  split at hs
  case h_1 hm =>
    rw [hm] at h
    cases hs
    exact ⟨by rw [← h.1, List.append_nil]; rfl, h.2⟩
  case h_2 todo _ hm =>
    rw [hm] at h
    split at hs
    · cases hs; trivial
    · split at hs <;> cases hs
      refine ⟨?_, h.2⟩
      show s.wrote ++ todo.take c.count ++ todo.drop c.count = _
      rw [List.append_assoc, List.take_append_drop]
      exact h.1
  case h_3 hm =>
    rw [hm] at h
    split at hs
    · cases hs; trivial
    · split at hs <;> cases hs; trivial
    · rename_i have_ rest _ _
      cases hs
      have hd : Dealt job s.wrote have_ ((job.kept have_).length, ((job.kept have_).map fun item => item.entry.size.toNat).sum)
          fun i => .init job.cfg (job.share have_ i) := ⟨h.1, rfl, fun i => .init⟩
      show SessionOk job (s.filtered job have_ rest) (if job.flows = 1 then .running else .pairing)
      split <;> exact ⟨hd, rfl⟩
  case h_4 hm =>
    rw [hm] at h
    split at hs <;> cases hs
    · trivial
    · exact h
  case h_5 hm =>
    rw [hm] at h
    split at hs
    · rename_i hall
      split at hs <;> cases hs
      · trivial
      · rename_i hnone
        refine ⟨h.1, firstFailure_none hnone hall, ?_⟩
        show totalStats job s = _
        rw [← h.2]
        rfl
    · cases hs
  case h_6 hm =>
    rw [hm] at h
    split at hs
    · cases hs; trivial
    · split at hs <;> cases hs; trivial
    · rename_i b rest _ _
      cases hs
      show SessionOk job _ (.returned (if b = ACK then .ok s.stats else .error .refused))
      split
      · exact ⟨⟨h.1, h.2.1⟩, h.2.2⟩
      · trivial
  case h_7 => cases hs

theorem session_inv (h : Reach (sessionStep job) ok (.init job) s) : SessionOk job s s.main := by
  refine h.invariant (I := fun s => SessionOk job s s.main) ⟨rfl, rfl, fun _ => rfl⟩ ?_
  intro s a s' _ ih hst _
  cases a with
  | main c => exact ih.mainStep hst
  | lane i a => exact ih.lane hst
  | hear bytes =>
    rw [show sessionStep job s (.hear bytes) = if s.eof then none else some { s with heard := s.heard ++ bytes } from rfl] at hst
    split at hst <;> cases hst
    show SessionOk job { s with heard := s.heard ++ bytes } s.main
    cases hm : s.main with
    | returned r => rw [hm] at ih; cases r <;> exact ih
    | _ => rw [hm] at ih; exact ih
  | cut =>
    cases hst
    show SessionOk job { s with eof := true } s.main
    cases hm : s.main with
    | returned r => rw [hm] at ih; cases r <;> exact ih
    | _ => rw [hm] at ih; exact ih

/-! ## What has gone out -/

theorem step_wrote {cfg : Cfg} {ln ln' : Lane} {a : Act} (hst : step cfg ln a = some ln') : ln.wrote <+: ln'.wrote := by
  rcases step_cases hst with ⟨c, hs⟩ | ⟨-, hs⟩ | ⟨c, hs⟩
  · cases (Lane.readStep_move hs).2 with
    | goes he => subst he; exact List.prefix_rfl
    | take _ he => subst he; exact List.prefix_rfl
    | push _ _ he =>
      subst he
      unfold Lane.push
      dsimp only
      split <;> exact List.prefix_rfl
  · obtain ⟨-, _, _, _, _, rfl⟩ := Lane.hashStep_only hs
    exact List.prefix_rfl
  · unfold Lane.sockStep at hs
    split at hs
    case h_1 =>
      split at hs
      · cases hs; exact List.prefix_rfl
      · cases hs; exact List.prefix_rfl
      · cases hs; exact List.prefix_rfl
      · split at hs <;> cases hs; exact List.prefix_rfl
    case h_2 m _ =>
      cases hs
      cases m <;> exact List.prefix_rfl
    case h_3 =>
      split at hs
      · cases hs; exact List.prefix_rfl
      · split at hs <;> cases hs; exact List.prefix_append ..
    case h_4 => cases hs; exact List.prefix_rfl
    case h_5 => split at hs <;> cases hs; exact List.prefix_rfl
    case h_6 => split at hs <;> cases hs; exact List.prefix_rfl
    case h_7 =>
      split at hs <;> cases hs
      · exact List.prefix_rfl
      · exact List.prefix_append ..
    case h_8 => cases hs
    case h_9 => cases hs

/-- While the manifest goes out, no lane has written. -/
theorem SessionOk.quiet (h : SessionOk job s s.main) (hm : (∃ todo, s.main = .offering todo) ∨ s.main = .awaiting) (i : Nat) :
    (s.lane i).wrote = [] := by
  rcases hm with ⟨todo, hm⟩ | hm
  · rw [hm] at h; exact h.2.wrote i
  · rw [hm] at h; exact h.2.wrote i

/-- What has gone out stays, and more follows it. -/
theorem sent_grows {a : SessionAct} (h : SessionOk job s s.main) (hst : sessionStep job s a = some s') (i : Nat) :
    s.sent i <+: s'.sent i := by
  have hsame : ∀ s' : State, s'.wrote = s.wrote → s'.lane = s.lane → s.sent i <+: s'.sent i := by
    intro s' hw hl
    unfold State.sent
    rw [hw, hl]
  cases a with
  | main c =>
    have hst : mainStep job c s = some s' := hst
    unfold mainStep at hst
    split at hst
    case h_1 => cases hst; exact hsame _ rfl rfl
    case h_2 hm =>
      split at hst
      · cases hst; exact hsame _ rfl rfl
      · split at hst <;> cases hst
        unfold State.sent
        rw [h.quiet (.inl ⟨_, hm⟩) i, List.append_nil, List.append_nil]
        split
        · exact List.prefix_append ..
        · exact List.prefix_rfl
    case h_3 hm =>
      split at hst
      · cases hst; exact hsame _ rfl rfl
      · split at hst <;> cases hst; exact hsame _ rfl rfl
      · rename_i have_ rest _ _
        cases hst
        obtain ⟨r, hr⟩ := Lane.init_eq job.cfg ((deal job.flows (keepUnskipped job.items have_).1).getD i [])
        have hnew : ((s.filtered job have_ rest).lane i).wrote = [] := by
          show (Lane.init job.cfg _).wrote = []
          rw [hr]
        unfold State.sent
        rw [h.quiet (.inr hm) i, hnew]
        exact List.prefix_rfl
    case h_4 => split at hst <;> cases hst <;> exact hsame _ rfl rfl
    case h_5 =>
      split at hst
      · split at hst <;> cases hst <;> exact hsame _ rfl rfl
      · cases hst
    case h_6 =>
      split at hst
      · cases hst; exact hsame _ rfl rfl
      · split at hst <;> cases hst; exact hsame _ rfl rfl
      · cases hst; exact hsame _ rfl rfl
    case h_7 => cases hst
  | lane k a =>
    obtain ⟨-, -, ln, hs, rfl⟩ := lane_some hst
    unfold State.sent
    refine (List.prefix_append_right_inj _).2 ?_
    by_cases hi : i = k
    · subst hi
      show _ <+: (Function.update s.lane i ln i).wrote
      rw [Function.update_self]
      exact step_wrote hs
    · show _ <+: (Function.update s.lane k ln i).wrote
      rw [Function.update_of_ne hi]
  | hear bytes =>
    rw [show sessionStep job s (.hear bytes) = if s.eof then none else some { s with heard := s.heard ++ bytes } from rfl] at hst
    split at hst <;> cases hst
    exact hsame _ rfl rfl
  | cut => cases hst; exact hsame _ rfl rfl

end Thunderflash.Send
