/-
One step of each thread of a flow: the net thread (`read_entries` and `pump_file`), the hash stage
(`hash_loop`) and the writer (`write_loop`).
-/
import Thunderflash.Recv.Model

namespace Thunderflash.Recv

open Codec Posix

/-! ## Shared effects -/

/-- `DirRegistry::register`, after its `fstat`. -/
def Shared.register (d : Nat) (sh : Shared) : Shared :=
  if d ∈ sh.regs then sh else { sh with regs := sh.regs ++ [d] }

def Shared.queued (sh : Shared) : Shared := { sh with inflight := sh.inflight + 1 }

def Shared.dequeued (sh : Shared) : Shared := { sh with inflight := sh.inflight - 1 }

namespace Flow

def logBorn (t : InFlight) (fl : Flow) : Flow := { fl with log := { fl.log with born := fl.log.born ++ [t] } }

def logKept (t : InFlight) (fl : Flow) : Flow := { fl with log := { fl.log with kept := fl.log.kept ++ [t] } }

def logUndone (t : InFlight) (fl : Flow) : Flow :=
  { fl with log := { fl.log with undone := fl.log.undone ++ [t] } }

/-- The drop of an unfinished `InFlight`: unlink it, and ignore the outcome. -/
def undo (cfg : Cfg) (c : Choice) (t : InFlight) (sh : Shared) (fl : Flow) : Shared × Flow :=
  ((call cfg c sh (.unlinkat t.parent t.name)).1, fl.logUndone t)

/-- The drop of a message nobody will receive. -/
def dropMsg (cfg : Cfg) (c : Choice) (m : Msg) (sh : Shared) (fl : Flow) : Shared × Flow :=
  match m.inFlight with
  | some t => fl.undo cfg c t sh
  | none => (sh, fl)

/-! ## The net thread -/

def goto (j : Job) (st : Stage) (fl : Flow) : Flow := { fl with net := .at j st }

def fail (e : Err) (fl : Flow) : Flow := { fl with net := .finished (.error e) }

/-- Consume the wire up to `rest`. -/
def consume (rest : Bytes) (fl : Flow) : Flow :=
  { fl with
    wire := rest
    log := { fl.log with got := fl.log.got ++ fl.wire.take (fl.wire.length - rest.length) } }

/-- What an entry adds to the byte total. -/
def entryBytes (e : Entry) : Nat := if e.kind = .dir then 0 else e.size.toNat

/-- The end of an iteration. -/
def complete (j : Job) (fl : Flow) : Flow :=
  { fl with
    net := .decode
    stats := { fl.stats with files := fl.stats.files + 1, bytes := fl.stats.bytes + entryBytes j.entry }
    log := { fl.log with
      done := fl.log.done ++ [⟨j.entry, j.comps, fl.log.part, fl.log.trailer⟩]
      part := []
      trailer := [] } }

/-- An entry was made in the job's directory: record it in a durable session. -/
def made (cfg : Cfg) (j : Job) (fl : Flow) : Flow :=
  if cfg.durable then fl.goto j .register else fl.complete j

/-- The match on the entry's kind. -/
def dispatch (j : Job) (fl : Flow) : Flow :=
  match j.entry.kind with
  | .dir => fl.goto j .dirMk
  | .symlink => fl.goto j .linkRead
  | .file => fl.goto j (.tempCreate 3)
  | .end_ => fl.fail .unreachable

/-- The head of `pump_file`'s loop. -/
def pump (cfg : Cfg) (j : Job) (remaining : Nat) (fl : Flow) : Flow :=
  fl.goto j (if 0 < remaining then .takeBuf remaining else if cfg.verify then .sendFinish else .sendEnd)

/-- `String::from_utf8` of a symlink's target. -/
def linkText (j : Job) (target : Bytes) (fl : Flow) : Flow :=
  if utf8 target = true then fl.goto j (.linkUnlink target) else fl.fail .targetNotUtf8

/-- `read_exact`: an error, the next `n` bytes, or nothing as long as they have not arrived. -/
def readExact (c : Choice) (n : Nat) (fl : Flow) : Option (Except Err Bytes) :=
  match c.fault with
  | some f => some (.error (.os f.errno))
  | none =>
    if n ≤ fl.wire.length then some (.ok (fl.wire.take n))
    else if fl.eof then some (.error .unexpectedEof)
    else none

/-- The channel send of `m`, then `next`; `gone` when the other side has dropped its receiver. -/
def send (cfg : Cfg) (m : Msg) (next gone : Flow → Flow) (fl : Flow) : Option Flow :=
  if fl.sinkClosed cfg then some (gone fl)
  else if fl.sinkRoom cfg then some (next (fl.push cfg m))
  else none

/-- Start on a decoded entry: `sanitize`, then the parent cache. -/
def start (cfg : Cfg) (e : Entry) (fl : Flow) : Flow :=
  match sanitize e.path.bytes with
  | .error err => fl.fail (.refused e.path err)
  | .ok comps =>
    let fl := { fl with log := { fl.log with heard := fl.log.heard ++ [(e, comps)] } }
    let j : Job := ⟨e, comps.dropLast, comps.getLastD [], cfg.root⟩
    match fl.cache with
    | some (ps, d) => if ps = j.parents then fl.dispatch { j with dir := d } else fl.goto j .walkRoot
    | none => fl.goto j .walkRoot

/-- The walk has reached the parent: remember it. -/
def arrive (j : Job) (fl : Flow) : Flow := { fl with cache := some (j.parents, j.dir) }.dispatch j

/-- The `InFlight` of a file created beside its target, and of one written in place. -/
def scratchFile (j : Job) (c : Choice) (i : Nat) : InFlight :=
  ⟨i, j.dir, scratchName j.name c.draw, some j.name, j.entry.mtime, j.entry.mode, j.parents⟩

def placedFile (j : Job) (i : Nat) : InFlight :=
  ⟨i, j.dir, j.name, none, j.entry.mtime, j.entry.mode, j.parents⟩

/-- The call the net thread is about to make. -/
def netRequest (cfg : Cfg) (c : Choice) : NetPc → Option Sys
  | .registerRoot => some (.fstat cfg.root)
  | .at j (.walkMk _ component _) => some (.mkdirat j.dir component 0o755)
  | .at j (.walkOpen _ component _) => some (.openDir j.dir component)
  | .at j .dirMk => some (.mkdirat j.dir j.name (j.entry.mode ||| 0o700))
  | .at j .dirStamp => some (.utimensat j.dir j.name j.entry.mtime)
  | .at j (.linkUnlink _) => some (.unlinkat j.dir j.name)
  -- `cstr` refuses a target with a NUL before any call
  | .at j (.linkMake target) => if 0 ∈ target then none else some (.symlinkat target j.dir j.name)
  | .at j .linkStamp => some (.utimensat j.dir j.name j.entry.mtime)
  | .at j .register => some (.fstat j.dir)
  | .at j (.tempCreate _) => some (.openExcl j.dir (scratchName j.name c.draw) (j.entry.mode ||| 0o600))
  | .at j (.placeCreate _) => some (.openTrunc j.dir j.name (j.entry.mode ||| 0o600))
  | .at j .placeUnlink => some (.unlinkat j.dir j.name)
  | .at _ (.dropBegin t) => some (.unlinkat t.parent t.name)
  | _ => none

/-- What the net thread does with the outcome of its call. -/
def netResume (cfg : Cfg) (c : Choice) (r : Except Errno Nat) (sh : Shared) (fl : Flow) : Shared × Flow :=
  match fl.net with
  | .registerRoot =>
    match r with
    | .ok d => (sh.register d, { fl with net := .decode })
    | .error e => (sh, fl.fail (.os e))
  | .at j (.walkMk done component todo) =>
    match r with
    -- already present is the normal case
    | .ok _ | .error .EEXIST => (sh, fl.goto j (.walkOpen done component todo))
    | .error e => (sh, fl.fail (.os e))
  | .at j (.walkOpen done component todo) =>
    match r, todo with
    | .ok d, [] => (sh, fl.arrive { j with dir := d })
    | .ok d, next :: todo => (sh, fl.goto { j with dir := d } (.walkMk (done ++ [component]) next todo))
    | .error e, _ => (sh, fl.fail (.descend component e))
  | .at j .dirMk =>
    match r with
    | .ok _ | .error .EEXIST => (sh, fl.goto j .dirStamp)
    | .error e => (sh, fl.fail (.os e))
  | .at j .dirStamp => (sh, fl.made cfg j)
  | .at j (.linkUnlink target) => (sh, fl.goto j (.linkMake target))
  | .at j (.linkMake _) =>
    match r with
    | .ok _ => (sh, fl.goto j .linkStamp)
    | .error e => (sh, fl.fail (.os e))
  | .at j .linkStamp => (sh, fl.made cfg j)
  | .at j .register =>
    match r with
    | .ok d => (sh.register d, fl.complete j)
    | .error e => (sh, fl.fail (.os e))
  | .at j (.tempCreate tries) =>
    match r, tries with
    | .ok i, _ => (sh, (fl.logBorn (scratchFile j c i)).goto j (.sendBegin (scratchFile j c i)))
    | .error .EEXIST, tries + 1 => (sh, fl.goto j (.tempCreate tries))
    | .error .ENAMETOOLONG, _ => (sh, fl.goto j (.placeCreate false))
    | .error e, _ => (sh, fl.fail (.os e))
  | .at j (.placeCreate again) =>
    match r, again with
    | .ok i, _ => (sh, (fl.logBorn (placedFile j i)).goto j (.sendBegin (placedFile j i)))
    | .error .EACCES, false => (sh, fl.goto j .placeUnlink)
    | .error e, _ => (sh, fl.fail (.os e))
  | .at j .placeUnlink =>
    match r with
    | .ok _ => (sh, fl.goto j (.placeCreate true))
    | .error e => (sh, fl.fail (.os e))
  | .at _ (.dropBegin t) => (sh, (fl.logUndone t).fail .writerGone)
  | _ => (sh, fl)

/-- The net thread's steps that make no call. -/
def netLocal (cfg : Cfg) (c : Choice) (sh : Shared) (fl : Flow) : Option (Shared × Flow) :=
  match fl.net with
  | .openRoot =>
    match c.fault with
    | some f => some (sh, fl.fail (.os f.errno))
    | none => some (sh, { fl with net := if cfg.durable then .registerRoot else .decode })
  | .decode =>
    match c.fault, Entry.decode fl.wire with
    | some f, _ => some (sh, fl.fail (.os f.errno))
    | none, .more => if fl.eof then some (sh, fl.fail .unexpectedEof) else none
    | none, .fail e => some (sh, fl.fail (.header e))
    | none, .ok none rest => some (sh, { fl.consume rest with net := .finished (.ok ()) })
    | none, .ok (some e) rest => some (sh, (fl.consume rest).start cfg e)
  | .at j .walkRoot =>
    match c.fault, j.parents with
    | some f, _ => some (sh, fl.fail (.os f.errno))
    | none, [] => some (sh, fl.arrive { j with dir := cfg.root })
    | none, component :: todo => some (sh, fl.goto { j with dir := cfg.root } (.walkMk [] component todo))
  | .at j .linkRead =>
    (fl.readExact c j.entry.size.toNat).map fun
      | .error e => (sh, fl.fail e)
      | .ok target =>
        let fl := fl.consume (fl.wire.drop target.length)
        let fl := { fl with log := { fl.log with part := target } }
        (sh, if cfg.verify then fl.goto j (.linkDigest target) else fl.linkText j target)
  | .at j (.linkDigest target) =>
    (fl.readExact c DIGEST_LEN).map fun
      | .error e => (sh, fl.fail e)
      | .ok expected =>
        let fl := fl.consume (fl.wire.drop expected.length)
        let fl := { fl with log := { fl.log with trailer := expected } }
        (sh, if expected = (cfg.blake3 target).bytes then fl.linkText j target
          else fl.fail (.verification j.entry.path))
  | .at _ (.linkMake target) => if 0 ∈ target then some (sh, fl.fail .nul) else none
  | .at j (.sendBegin t) =>
    (fl.send cfg (.begin t) (pump cfg j j.entry.size.toNat) (goto j (.dropBegin t))).map (sh, ·)
  | .at j (.takeBuf remaining) =>
    if 0 < fl.pool then some (sh, { fl with pool := fl.pool - 1 }.goto j (.readBuf remaining))
    else if fl.writerClosed then some (sh, fl.fail .writerGone)
    else none
  | .at j (.readBuf remaining) =>
    match c.fault with
    | some f => some (sh, fl.fail (.os f.errno))
    | none =>
      if 0 < c.count ∧ c.count ≤ min remaining CHUNK ∧ c.count ≤ fl.wire.length then
        let bytes := fl.wire.take c.count
        let fl := fl.consume (fl.wire.drop c.count)
        let fl := { fl with log := { fl.log with part := fl.log.part ++ bytes } }
        some (sh.queued, fl.goto j (.sendData (remaining - c.count) bytes))
      else if fl.wire = [] ∧ fl.eof then
        some (sh, fl.fail (.truncated j.entry.path j.entry.size.toNat (j.entry.size.toNat - remaining)))
      else none
  | .at j (.sendData remaining bytes) =>
    (fl.send cfg (.data bytes) (pump cfg j remaining) (fail .writerGone)).map (sh, ·)
  | .at j .sendFinish => (fl.send cfg .finish (goto j .awaitDigest) (fail .writerGone)).map (sh, ·)
  | .at j .awaitDigest =>
    match fl.reply, fl.hash with
    | some d, _ => some (sh, { fl with reply := none }.goto j (.fileDigest d))
    | none, .closing l => if .finish ∈ l then none else some (sh, fl.fail .writerGone)
    | none, _ => none
  | .at j (.fileDigest actual) =>
    (fl.readExact c DIGEST_LEN).map fun
      | .error e => (sh, fl.fail e)
      | .ok expected =>
        let fl := fl.consume (fl.wire.drop expected.length)
        let fl := { fl with log := { fl.log with trailer := expected } }
        (sh, if expected = actual.bytes then fl.goto j .sendEnd else fl.fail (.verification j.entry.path))
  | .at j .sendEnd => (fl.send cfg .endFile (complete j) (fail .writerGone)).map (sh, ·)
  | _ => none

def netStep (cfg : Cfg) (c : Choice) (sh : Shared) (fl : Flow) : Option (Shared × Flow) :=
  match netRequest cfg c fl.net with
  | some sys => some (fl.netResume cfg c (call cfg c sh sys).2 (call cfg c sh sys).1)
  | none => fl.netLocal cfg c sh

/-! ## The hash stage -/

def hashStep (cfg : Cfg) (c : Choice) (sh : Shared) (fl : Flow) : Option (Shared × Flow) :=
  match fl.hash with
  | .recv =>
    match fl.hq with
    | .data bytes :: q =>
      some (sh, { fl with hq := q, hasher := fl.hasher ++ bytes, hash := .forward (.data bytes) })
    | .finish :: q => some (sh, { fl with hq := q, reply := some (cfg.blake3 fl.hasher), hasher := [] })
    | m :: q => some (sh, { fl with hq := q, hash := .forward m })
    | [] => if fl.netFinished then some (sh, { fl with hash := .closing [] }) else none
  | .forward m =>
    if fl.writerClosed then some (sh, { fl with hash := .orphan m })
    else if fl.wq.length < cfg.depth then some (sh, { fl with wq := fl.wq ++ [m], hash := .recv })
    else none
  | .orphan m => some ({ fl with hash := .closing fl.hq, hq := [] }.dropMsg cfg c m sh)
  | .closing (m :: l) => some ({ fl with hash := .closing l }.dropMsg cfg c m sh)
  | .closing [] => none

/-! ## The writer -/

/-- The last step of a file: the rename, or nothing for a write in place. -/
def settle (t : InFlight) (fl : Flow) : Flow :=
  match t.finalName with
  | some final => { fl with writer := .rename t final }
  | none => { fl.logKept t with writer := .recv none }

/-- `drop(rx); return Err(e)`. -/
def writerFail (e : Err) (fl : Flow) : Flow := { fl with writer := .closing fl.wq (.error e), wq := [] }

/-- What the writer does with a message. -/
def handle (current : Option Cursor) (m : Msg) (sh : Shared) (fl : Flow) : Shared × Flow :=
  match m, current with
  | .begin t, none => (sh, { fl with writer := .recv (some ⟨t, 0⟩) })
  | .begin t, some old => (sh, { fl with writer := .replace old.t t })
  | .data _, none => (sh.dequeued, { fl with pool := fl.pool + 1 })
  | .data bytes, some o => (sh.dequeued, { fl with writer := .write o bytes })
  | .endFile, none => (sh, fl)
  | .endFile, some o =>
    (sh, { fl with writer := if o.t.mode &&& 0o600 ≠ 0o600 then .chmod o.t else .stamp o.t })
  | .finish, _ => (sh, fl)

def writerStep (cfg : Cfg) (c : Choice) (sh : Shared) (fl : Flow) : Option (Shared × Flow) :=
  match fl.writer with
  | .recv current =>
    match fl.wq, current with
    | m :: q, _ =>
      some ({ fl with wq := q, log := { fl.log with taken := fl.log.taken ++ [m] } }.handle current m sh)
    | [], none => if fl.sourceClosed cfg then some (sh, { fl with writer := .closing [] (.ok ()) }) else none
    | [], some o => if fl.sourceClosed cfg then some (sh, { fl with writer := .lastDrop o.t }) else none
  | .replace old t => some ({ fl with writer := .recv (some ⟨t, 0⟩) }.undo cfg c old sh)
  | .write o bytes =>
    if bytes = [] then some (sh, { fl with pool := fl.pool + 1, writer := .recv (some o) })
    else if 0 < c.count ∧ c.count ≤ bytes.length then
      match call cfg c sh (.write o.t.file o.off (bytes.take c.count)) with
      | (sh, .ok _) => some (sh, { fl with writer := .write ⟨o.t, o.off + c.count⟩ (bytes.drop c.count) })
      | (sh, .error e) => some (sh, { fl with pool := fl.pool + 1, writer := .failDrop o.t (.os e) })
    else none
  | .chmod t => some ((call cfg c sh (.fchmod t.file (t.mode &&& 0o777))).1, { fl with writer := .stamp t })
  | .stamp t =>
    some ((call cfg c sh (.futimens t.file t.mtime)).1,
      if cfg.durable then { fl with writer := .flush t } else fl.settle t)
  | .flush t =>
    match call cfg c sh (.fsync t.file) with
    | (sh, .ok _) => some (sh, fl.settle t)
    | (sh, .error e) => some (sh, { fl with writer := .failDrop t (.os e) })
  | .rename t final =>
    match call cfg c sh (.renameat t.parent t.name final) with
    | (sh, .ok _) => some (sh, { fl.logKept t with writer := if cfg.durable then .register t else .recv none })
    | (sh, .error e) => some (sh, { fl with writer := .failDrop t (.os e) })
  | .register t =>
    match call cfg c sh (.fstat t.parent) with
    | (sh, .ok d) => some (sh.register d, { fl with writer := .recv none })
    | (sh, .error e) => some (sh, { fl with writer := .lateDrop t (.os e) })
  | .failDrop t e => some ((fl.writerFail e).undo cfg c t sh)
  | .lateDrop t e => some ((call cfg c sh (.unlinkat t.parent t.name)).1, fl.writerFail e)
  | .lastDrop t => some ({ fl with writer := .closing [] (.ok ()) }.undo cfg c t sh)
  | .closing (m :: l) r => some ({ fl with writer := .closing l r }.dropMsg cfg c m sh)
  | .closing [] _ => none

end Flow

end Thunderflash.Recv
