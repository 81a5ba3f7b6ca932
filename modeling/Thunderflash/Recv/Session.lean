/-
A whole session at the receiver: the manifest phase on the primary stream, the flows' threads, and
`accept_one` that joins them, flushes the directories and acknowledges.
-/
import Thunderflash.Recv.Threads
import Thunderflash.Wire.Bitmap
import Thunderflash.Lts.Run

namespace Thunderflash.Recv

open Codec Posix

namespace State

def put (s : State) (i : Nat) (x : Shared × Flow) : State :=
  { s with sh := x.1, flow := Function.update s.flow i x.2 }

def goto (s : State) (pc : MainPc) : State := { s with main := pc }

def fail (s : State) (e : Err) : State := s.goto (.returned (.error e))

/-- One File entry of the manifest is answered. -/
def answer (s : State) (e : Entry) (have_ : Bool) : State :=
  { s with
    main := .manifest
    bits := s.bits ++ [have_]
    stats := if have_ then
      { s.stats with
        skippedFiles := s.stats.skippedFiles + 1
        skippedBytes := s.stats.skippedBytes + e.size.toNat }
      else s.stats }

/-- Consume the primary stream up to `rest`. -/
def consume (s : State) (rest : Bytes) : State :=
  { s with
    flow := Function.update s.flow 0 { s.flow 0 with wire := rest }
    got := s.got ++ (s.flow 0).wire.take ((s.flow 0).wire.length - rest.length) }

/-- The parents are open: remember them and look at the file. -/
def arrive (s : State) (e : Entry) (parents : List Name) (name : Name) (dir : Nat) : State :=
  { s with cache := some (parents, dir), main := .stat e name dir }

/-- `file_held`, up to the first call. -/
def held (s : State) (e : Entry) : State :=
  match sanitize e.path.bytes with
  | .error _ => s.answer e false
  | .ok comps =>
    match s.cache with
    | some (ps, d) =>
      if ps = comps.dropLast then s.goto (.stat e (comps.getLastD []) d)
      else s.goto (.chainRoot e comps.dropLast (comps.getLastD []))
    | none => s.goto (.chainRoot e comps.dropLast (comps.getLastD []))

/-- Is inode `i` a regular file of this size and mtime? -/
def matches_ (fs : Fs) (e : Entry) (i : Nat) : Bool :=
  match fs.leaf i with
  | some (.file b) => b.length == e.size.toNat && fs.mtime i == some e.mtime
  | _ => false

end State

/-- The result of a flow's pipeline once its threads are joined. A writer error explains any send
failure the read loop saw, so it wins. -/
def Flow.result (cfg : Cfg) (fl : Flow) : Option (Except Err Unit) :=
  match fl.net, fl.hash, fl.writer with
  | .finished r, .closing [], .closing [] w =>
    match w with
    | .error e => some (.error e)
    | .ok () => some r
  | .finished r, _, .closing [] w =>
    if cfg.verify then none
    else match w with
      | .error e => some (.error e)
      | .ok () => some r
  | _, _, _ => none

/-- The first failure among the flows' results, the primary's first. -/
def firstError (cfg : Cfg) (s : State) : Option Err :=
  (List.range cfg.flows).findSome? fun i =>
    match (s.flow i).result cfg with
    | some (.error e) => some e
    | _ => none

def totalStats (cfg : Cfg) (s : State) : Stats :=
  (List.range cfg.flows).foldl
    (fun st i => { st with
      files := st.files + (s.flow i).stats.files
      bytes := st.bytes + (s.flow i).stats.bytes }) s.stats

/-- One step of the thread that runs `accept_one`. -/
def mainStep (cfg : Cfg) (c : Choice) (s : State) : Option State :=
  match s.main with
  | .openRoot =>
    match c.fault with
    | some f => some (s.fail (.os f.errno))
    | none => some (s.goto .manifest)
  | .manifest =>
    match c.fault, Entry.decode (s.flow 0).wire with
    | some f, _ => some (s.fail (.os f.errno))
    | none, .more => if (s.flow 0).eof then some (s.fail .unexpectedEof) else none
    | none, .fail e => some (s.fail (.header e))
    | none, .ok none rest => some ((s.consume rest).goto .answer)
    -- only files are worth an answer
    | none, .ok (some e) rest => some (if e.kind = .file then (s.consume rest).held e else s.consume rest)
  | .chainRoot e parents name =>
    match c.fault, parents with
    | some _, _ => some (s.answer e false)
    | none, [] => some (s.arrive e [] name cfg.root)
    | none, component :: todo => some (s.goto (.chain e name cfg.root [] component todo))
  | .chain e name dir done component todo =>
    match call cfg c s.sh (.openDir dir component), todo with
    | (sh, .ok d), [] => some ({ s with sh }.arrive e (done ++ [component]) name d)
    | (sh, .ok d), next :: todo => some ({ s with sh }.goto (.chain e name d (done ++ [component]) next todo))
    | (sh, .error _), _ => some ({ s with sh }.answer e false)
  | .stat e name dir =>
    match call cfg c s.sh (.fstatat dir name) with
    | (sh, .ok i) => some ({ s with sh }.answer e (State.matches_ sh.fs e i))
    | (sh, .error _) => some ({ s with sh }.answer e false)
  | .answer =>
    match c.fault with
    | some f => some (s.fail (.os f.errno))
    | none =>
      some ({ s with reply := s.reply ++ encodeBitmap s.bits }.goto (if cfg.flows = 1 then .running else .pairing))
  | .pairing =>
    match c.fault with
    | some f => some (s.fail (.os f.errno))
    | none => some (s.goto .running)
  | .running =>
    if ∀ i < cfg.flows, ((s.flow i).result cfg).isSome then
      match firstError cfg s with
      | some e => some (s.fail e)
      | none => some (s.goto (.flushing s.sh.regs))
    else none
  | .flushing (d :: todo) =>
    match call cfg c s.sh (.fsync d) with
    | (sh, .ok _) => some ({ s with sh }.goto (.flushing todo))
    | (sh, .error e) => some ({ s with sh }.fail (.os e))
  | .flushing [] => some (s.goto .acking)
  | .acking =>
    match c.fault with
    | some f => some (s.fail (.os f.errno))
    | none => some ({ s with reply := s.reply ++ [ACK] }.goto (.returned (.ok (totalStats cfg s))))
  | .returned _ => none

inductive Act
  | net (i : Nat) (c : Choice)
  | hash (i : Nat) (c : Choice)
  | writer (i : Nat) (c : Choice)
  | main (c : Choice)
  /-- Bytes arrive on a flow. -/
  | deliver (i : Nat) (bytes : Bytes)
  /-- A flow's stream ends, and of what was under way only so much arrives. -/
  | cut (i : Nat) (keep : Nat)
  deriving DecidableEq

/-- May the threads of flow `i` run? -/
def Live (cfg : Cfg) (s : State) (i : Nat) : Prop := s.main = .running ∧ i < cfg.flows

instance (cfg : Cfg) (s : State) (i : Nat) : Decidable (Live cfg s i) := by unfold Live; infer_instance

/-- The thread of a flow that acts. -/
def threadStep (cfg : Cfg) (s : State) (i : Nat) (f : Shared → Flow → Option (Shared × Flow)) : Option State :=
  if Live cfg s i then (f s.sh (s.flow i)).map (s.put i) else none

def step (cfg : Cfg) (s : State) : Act → Option State
  | .net i c => threadStep cfg s i (Flow.netStep cfg c)
  | .hash i c => if cfg.verify then threadStep cfg s i (Flow.hashStep cfg c) else none
  | .writer i c => threadStep cfg s i (Flow.writerStep cfg c)
  | .main c => mainStep cfg c s
  | .deliver i bytes =>
    if (s.flow i).eof then none
    else some { s with flow := Function.update s.flow i { s.flow i with wire := (s.flow i).wire ++ bytes } }
  | .cut i keep =>
    some { s with flow := Function.update s.flow i { s.flow i with wire := (s.flow i).wire.take keep, eof := true } }

/-! ## The start -/

def Log.init : Log := ⟨[], [], [], [], [], [], [], [], [], []⟩

def Flow.init (cfg : Cfg) : Flow where
  wire := []
  eof := false
  net := .openRoot
  cache := none
  stats := ⟨0, 0, 0, 0⟩
  hq := []
  -- without verification the stage is not spawned
  hash := if cfg.verify then .recv else .closing []
  hasher := []
  reply := none
  wq := []
  writer := .recv none
  pool := cfg.depth
  log := .init

/-- A receiver that has accepted the primary handshake. -/
def State.init (cfg : Cfg) (fs : Fs) : State where
  sh := ⟨fs, [], 0, []⟩
  flow := fun _ => .init cfg
  main := .openRoot
  bits := []
  cache := none
  stats := ⟨0, 0, 0, 0⟩
  reply := []
  got := []

/-- The states a session over destination `fs` can be in. -/
abbrev Reachable (cfg : Cfg) (fs : Fs) (s : State) : Prop := Lts.Reach (step cfg) Lts.Any (.init cfg fs) s

end Thunderflash.Recv
