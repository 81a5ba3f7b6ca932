/-
The receiver as a transition system: every flow has its net, hash and writer thread, each stopping
at the system calls and channel operations of the source, and one step is one of these by one
thread. What the environment decides (which step comes next, how many bytes a read or write moves,
which call fails, what the random generator and the clock say) comes with the action.
-/
import Thunderflash.Posix.Fs
import Thunderflash.Wire.Entry
import Mathlib.Logic.Function.Basic

namespace Thunderflash.Recv

open Codec Posix

/-- An `io::Error`, by the place that makes it. -/
inductive Err
  | os (e : Errno)
  | unexpectedEof
  | header (e : DecodeError)
  | refused (path : Str) (e : PathError)
  | descend (component : Name) (e : Errno)
  | truncated (path : Str) (expected got : Nat)
  | verification (path : Str)
  | targetNotUtf8
  | nul
  | writerGone
  /-- A branch the source marks as unreachable. -/
  | unreachable
  deriving DecidableEq, Repr

/-- The session's parameters: the destination root, what the handshake and the command line set,
and BLAKE3. -/
structure Cfg where
  root : Nat
  verify : Bool
  durable : Bool
  /-- `queue_depth`, clamped to 1..64. -/
  depth : Nat
  /-- How many flows: 1 in a v3 session, 2..16 in a v4 session. -/
  flows : Nat
  umask : UInt32
  blake3 : Bytes → Digest

/-! ## What the threads hold -/

/-- A destination file that is not yet known good, and its own undo. -/
structure InFlight where
  file : Nat
  parent : Nat
  /-- The name the bytes land under while they are in doubt, and the one a drop removes. -/
  name : Name
  /-- Where the finished file belongs; `none` when the write went in place. -/
  finalName : Option Name
  mtime : Int64
  mode : UInt32
  /-- The components that led to `parent`; nothing reads it. -/
  dirs : List Name
  deriving DecidableEq, Repr

/-- The name the finished file has. -/
def InFlight.target (t : InFlight) : Name := t.finalName.getD t.name

def InFlight.path (t : InFlight) : List Name := t.dirs ++ [t.target]

inductive Msg
  | begin (open_ : InFlight)
  | data (bytes : Bytes)
  | endFile
  /-- The net thread asks the hash stage for the digest of what it has forwarded. -/
  | finish
  deriving DecidableEq, Repr

/-- The file the drop of a message removes. -/
def Msg.inFlight : Msg → Option InFlight
  | .begin t => some t
  | _ => none

/-- An entry being worked on: its sanitized path and the directory reached so far. -/
structure Job where
  entry : Entry
  parents : List Name
  name : Name
  dir : Nat
  deriving DecidableEq, Repr

def Job.comps (j : Job) : List Name := j.parents ++ [j.name]

/-- Where the net thread is inside an entry. -/
inductive Stage
  /-- `walk_dirs` about to duplicate the root's descriptor. -/
  | walkRoot
  | walkMk (done : List Name) (component : Name) (todo : List Name)
  | walkOpen (done : List Name) (component : Name) (todo : List Name)
  | dirMk | dirStamp
  | linkRead
  | linkDigest (target : Bytes)
  | linkUnlink (target : Bytes)
  | linkMake (target : Bytes)
  | linkStamp
  | register
  /-- `create_temp_file_at`, with this many tries after the next. -/
  | tempCreate (tries : Nat)
  /-- `create_file_at`, the second time after the unlink. -/
  | placeCreate (again : Bool)
  | placeUnlink
  | sendBegin (t : InFlight)
  /-- `Begin` came back from a channel nobody reads. -/
  | dropBegin (t : InFlight)
  | takeBuf (remaining : Nat)
  | readBuf (remaining : Nat)
  | sendData (remaining : Nat) (bytes : Bytes)
  | sendFinish | awaitDigest
  | fileDigest (actual : Digest)
  | sendEnd
  deriving DecidableEq, Repr

inductive NetPc
  | openRoot | registerRoot | decode
  | at (job : Job) (stage : Stage)
  /-- `read_entries` has returned and its sender is dropped. -/
  | finished (result : Except Err Unit)
  deriving DecidableEq

inductive HashPc
  | recv
  | forward (m : Msg)
  /-- The writer is gone and the message came back. -/
  | orphan (m : Msg)
  /-- The stage has returned; its channel drops what was still queued. -/
  | closing (queued : List Msg)
  deriving DecidableEq, Repr

/-- The writer's current file and its cursor. -/
structure Cursor where
  t : InFlight
  off : Nat
  deriving DecidableEq, Repr

inductive WriterPc
  | recv (current : Option Cursor)
  /-- A second `Begin`: the assignment drops the first file. -/
  | replace (old t : InFlight)
  | write (c : Cursor) (bytes : Bytes)
  | chmod (t : InFlight)
  | stamp (t : InFlight)
  | flush (t : InFlight)
  | rename (t : InFlight) (final : Name)
  | register (t : InFlight)
  /-- An error dropped the current file. -/
  | failDrop (t : InFlight) (e : Err)
  /-- The registration failed after the rename, and the value is dropped unfinished. -/
  | lateDrop (t : InFlight) (e : Err)
  /-- The channel closed in mid-file. -/
  | lastDrop (t : InFlight)
  | closing (queued : List Msg) (result : Except Err Unit)
  deriving DecidableEq

/-! ## States -/

/-- One entry as it stood on the wire, and its sanitized path. -/
structure Frame where
  entry : Entry
  comps : List Name
  payload : Bytes
  /-- The digest that followed on the wire, if any. -/
  trailer : Bytes
  deriving DecidableEq, Repr

/-- What a flow has done so far; nothing in the program reads it. -/
structure Log where
  /-- Every entry accepted by `sanitize`, with its components, in order. -/
  heard : List (Entry × List Name)
  /-- Every entry completed, in order. -/
  done : List Frame
  /-- The payload and trailer of the entry under way, as far as read. -/
  part : Bytes
  trailer : Bytes
  /-- Everything the net thread has consumed from the wire. -/
  got : Bytes
  /-- What the net thread has sent on its channel, and what the writer has taken off its own. -/
  sent : List Msg
  taken : List Msg
  /-- The files created, those committed under their final name, and those dropped. -/
  born : List InFlight
  kept : List InFlight
  undone : List InFlight
  deriving DecidableEq, Repr

structure Flow where
  /-- Bytes that have arrived and were not read. -/
  wire : Bytes
  /-- No more will arrive. -/
  eof : Bool
  net : NetPc
  cache : Option (List Name × Nat)
  stats : Stats
  /-- net to hash, in a verifying session. -/
  hq : List Msg
  hash : HashPc
  /-- The bytes hashed since the last reset. -/
  hasher : Bytes
  reply : Option Digest
  /-- What the writer reads from. -/
  wq : List Msg
  writer : WriterPc
  /-- Buffers in the pool's channel. -/
  pool : Nat
  log : Log

inductive MainPc
  | openRoot
  | manifest
  | chainRoot (e : Entry) (parents : List Name) (name : Name)
  | chain (e : Entry) (name : Name) (dir : Nat) (done : List Name) (component : Name) (todo : List Name)
  | stat (e : Entry) (name : Name) (dir : Nat)
  | answer
  /-- The other connections of a v4 session are being accepted. -/
  | pairing
  | running
  | flushing (todo : List Nat)
  | acking
  /-- `accept_one` has returned. -/
  | returned (result : Except Err Stats)
  deriving DecidableEq

/-- What all threads share: the file system, the registry of a durable session and the in-flight
counter of the diagnostics. -/
structure Shared where
  fs : Fs
  regs : List Nat
  inflight : Int
  /-- The calls that succeeded, with the inode each acted on; nothing reads it. -/
  trace : List (Sys × Nat)

structure State where
  sh : Shared
  flow : Nat → Flow
  main : MainPc
  /-- The manifest's answers so far, and its parent cache. -/
  bits : List Bool
  cache : Option (List Name × Nat)
  stats : Stats
  /-- What went back to the sender on the primary stream. -/
  reply : Bytes
  /-- What the manifest phase has consumed; nothing reads it. -/
  got : Bytes

/-! ## Calls -/

/-- The failures a call may meet for no reason in the directory tree. -/
inductive Fault
  | EACCES | EIO
  deriving DecidableEq, Repr

def Fault.errno : Fault → Errno
  | EACCES => .EACCES
  | EIO => Errno.EIO

/-- What the environment decides about one step. -/
structure Choice where
  fault : Option Fault
  /-- `arc4random`. -/
  draw : UInt32
  /-- How many bytes a read or write moves. -/
  count : Nat
  now : Int64
  deriving DecidableEq, Repr

def call (cfg : Cfg) (c : Choice) (sh : Shared) (sys : Sys) : Shared × Except Errno Nat :=
  match c.fault with
  | some f => (sh, .error f.errno)
  | none =>
    match sh.fs.exec cfg.umask c.now sys with
    | .ok (fs, i) => ({ sh with fs, trace := sh.trace ++ [(sys, i)] }, .ok i)
    | .error e => (sh, .error e)

def hexDigit (n : Nat) : UInt8 := UInt8.ofNat (if n < 10 then 48 + n else 87 + n)

/-- `{:08x}`. -/
def hex8 (x : UInt32) : Bytes :=
  [7, 6, 5, 4, 3, 2, 1, 0].map fun k => hexDigit (x.toNat / 16 ^ k % 16)

/-- `.tf-partial`. -/
def PARTIAL : Bytes := [46, 116, 102, 45, 112, 97, 114, 116, 105, 97, 108]

/-- The name a payload lands under: `.{name}.{:08x}.tf-partial`. -/
def scratchName (name : Name) (draw : UInt32) : Name :=
  [DOT] ++ name ++ [DOT] ++ hex8 draw ++ PARTIAL

/-! ## Channels -/

namespace Flow

/-- Has the stage the net thread sends to dropped its receiver? -/
def sinkClosed (cfg : Cfg) (fl : Flow) : Prop :=
  match cfg.verify, fl.hash, fl.writer with
  | true, .closing _, _ => True
  | false, _, .closing .. => True
  | _, _, _ => False

instance (cfg : Cfg) (fl : Flow) : Decidable (fl.sinkClosed cfg) := by
  unfold sinkClosed; split <;> infer_instance

def writerClosed (fl : Flow) : Prop :=
  match fl.writer with
  | .closing .. => True
  | _ => False

instance (fl : Flow) : Decidable fl.writerClosed := by unfold writerClosed; split <;> infer_instance

def hashClosed (fl : Flow) : Prop :=
  match fl.hash with
  | .closing _ => True
  | _ => False

instance (fl : Flow) : Decidable fl.hashClosed := by unfold hashClosed; split <;> infer_instance

def netFinished (fl : Flow) : Prop :=
  match fl.net with
  | .finished _ => True
  | _ => False

instance (fl : Flow) : Decidable fl.netFinished := by unfold netFinished; split <;> infer_instance

/-- Has the stage that sends to the writer dropped its sender? -/
def sourceClosed (cfg : Cfg) (fl : Flow) : Prop := if cfg.verify then fl.hashClosed else fl.netFinished

instance (cfg : Cfg) (fl : Flow) : Decidable (fl.sourceClosed cfg) := by unfold sourceClosed; infer_instance

/-- Room in the net thread's channel. -/
def sinkRoom (cfg : Cfg) (fl : Flow) : Prop := (if cfg.verify then fl.hq else fl.wq).length < cfg.depth

instance (cfg : Cfg) (fl : Flow) : Decidable (fl.sinkRoom cfg) := by unfold sinkRoom; infer_instance

/-- The net thread's `tx.send`, with room for it. -/
def push (cfg : Cfg) (m : Msg) (fl : Flow) : Flow :=
  let fl := { fl with log := { fl.log with sent := fl.log.sent ++ [m] } }
  if cfg.verify then { fl with hq := fl.hq ++ [m] } else { fl with wq := fl.wq ++ [m] }

end Flow

end Thunderflash.Recv
