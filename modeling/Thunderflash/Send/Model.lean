/-
One flow of the sender as a transition system: the reader thread (`read_items`, `stream_file`), the
hash stage (`hash_items`) and the socket loop of `send_lane_inner`, each stopping at its system
calls and channel operations. What the source file system answers, how much a socket write takes
and which call fails comes with the action.
-/
import Thunderflash.Wire.Entry

namespace Thunderflash.Send

open Codec

/-- An `io::Error`, by the place that makes it. -/
inductive Err
  | os (code : Nat)
  /-- A symlink has another length than its header announced. -/
  | changed (path : Str) (announced now : Nat)
  | shrank (path : Str) (expected read : Nat)
  deriving DecidableEq, Repr

/-- One thing to send. -/
structure Item where
  /-- Where it is read from. -/
  abs : Bytes
  entry : Entry
  /-- The header as it travels on the wire, encoded once at the walk. -/
  header : Bytes
  deriving DecidableEq, Repr

def makeItem (abs : Bytes) (rel : Str) (kind : Kind) (size : UInt64) (mode : UInt32) (mtime : Int64) : Item :=
  ⟨abs, ⟨kind, rel, size, mode, mtime⟩, (⟨kind, rel, size, mode, mtime⟩ : Entry).encode⟩

inductive Msg
  | header (bytes : Bytes)
  | target (bytes : Bytes)
  /-- File data in a recycled buffer. -/
  | chunk (bytes : Bytes)
  | digest (d : Digest)
  /-- The end of a file's chunks, which the hash stage turns into a digest. -/
  | endPayload
  deriving DecidableEq, Repr

/-- What the socket loop writes for a message. -/
def Msg.bytes : Msg → Bytes
  | .header bytes | .target bytes | .chunk bytes => bytes
  | .digest d => d.bytes
  | .endPayload => []

/-- The parameters of a lane. -/
structure Cfg where
  verify : Bool
  /-- `queue_depth`, clamped to 1..64. -/
  depth : Nat
  blake3 : Bytes → Digest

/-! ## What the threads hold -/

/-- Where the reader is inside an item. -/
inductive Stage
  | header
  | readLink
  | sendTarget (target : Bytes)
  | sendDigest (digest : Digest)
  | openFile
  | takeBuf (sent : Nat)
  /-- The loop that fills a buffer. -/
  | fill (sent : Nat) (filled : Bytes)
  | sendChunk (sent : Nat) (bytes : Bytes)
  | sendEnd
  deriving DecidableEq, Repr

inductive ReaderPc
  | at (item : Item) (stage : Stage) (todo : List Item)
  | sendErr (e : Err)
  /-- `read_items` has returned; its sender and its end of the pool are dropped. -/
  | left
  deriving DecidableEq, Repr

inductive HashPc
  | recv
  | forward (m : Except Err Msg)
  | left
  deriving DecidableEq

inductive SockPc
  | recv
  | writing (m : Msg) (todo : Bytes)
  /-- An error leaves the loop: its receiver is dropped, the pool's sender not yet. -/
  | closing (e : Err)
  | joinReader
  | joinHasher
  | terminator
  /-- `send_lane_inner` has returned. -/
  | left (r : Except Err Unit)
  /-- The arm the source calls unreachable. -/
  | panicked
  deriving DecidableEq

/-- What a lane has done so far; nothing in the program reads it. -/
structure Log where
  /-- What the reader has sent on its channel, and what the socket loop has taken off its own. -/
  sent : List (Except Err Msg)
  taken : List Msg
  deriving DecidableEq

structure Lane where
  reader : ReaderPc
  /-- reader to hash, in a verifying session. -/
  rq : List (Except Err Msg)
  hash : HashPc
  /-- The bytes hashed since the last reset. -/
  hasher : Bytes
  /-- What the socket loop reads from. -/
  sq : List (Except Err Msg)
  sock : SockPc
  /-- Buffers in the pool's channel. -/
  pool : Nat
  stats : Stats
  /-- Everything written to the socket. -/
  wrote : Bytes
  /-- This lane's share of the progress counters: files finished and bytes moved. -/
  finished : Nat
  moved : Nat
  log : Log

/-- What the environment decides about one step. -/
structure Choice where
  fault : Option Nat
  /-- What a read of the source gives: a link's target, or the next bytes of a file. -/
  data : Bytes
  /-- How many bytes a socket write takes. -/
  count : Nat
  deriving DecidableEq, Repr

namespace Lane

variable (cfg : Cfg)

/-! ## Channels -/

/-- Has the socket loop dropped its receiver? -/
def rxGone (ln : Lane) : Prop :=
  match ln.sock with
  | .recv | .writing .. => False
  | _ => True

instance (ln : Lane) : Decidable ln.rxGone := by unfold rxGone; split <;> infer_instance

/-- Has the function returned, so that the pool's sender is dropped too? -/
def returned (ln : Lane) : Prop :=
  match ln.sock with
  | .left _ | .panicked => True
  | _ => False

instance (ln : Lane) : Decidable ln.returned := by unfold returned; split <;> infer_instance

def readerLeft (ln : Lane) : Prop := ln.reader = .left

instance (ln : Lane) : Decidable ln.readerLeft := by unfold readerLeft; infer_instance

def hashLeft (ln : Lane) : Prop := ln.hash = .left

instance (ln : Lane) : Decidable ln.hashLeft := by unfold hashLeft; infer_instance

/-- Has the stage the reader sends to dropped its receiver? -/
def sinkGone (ln : Lane) : Prop := if cfg.verify then ln.hashLeft else ln.rxGone

instance (ln : Lane) : Decidable (ln.sinkGone cfg) := by unfold sinkGone; infer_instance

/-- Room in the reader's channel. -/
def sinkRoom (ln : Lane) : Prop := (if cfg.verify then ln.rq else ln.sq).length < cfg.depth

instance (ln : Lane) : Decidable (ln.sinkRoom cfg) := by unfold sinkRoom; infer_instance

/-- Has the stage that sends to the socket loop dropped its sender? -/
def sourceLeft (ln : Lane) : Prop := if cfg.verify then ln.hashLeft else ln.readerLeft

instance (ln : Lane) : Decidable (ln.sourceLeft cfg) := by unfold sourceLeft; infer_instance

/-- The reader's `tx.send`, with room for it. -/
def push (m : Except Err Msg) (ln : Lane) : Lane :=
  let ln := { ln with log := { ln.log with sent := ln.log.sent ++ [m] } }
  if cfg.verify then { ln with rq := ln.rq ++ [m] } else { ln with sq := ln.sq ++ [m] }

/-- The channel send of `m`, then `next`; `gone` when the other side has dropped its receiver. -/
def send (m : Except Err Msg) (next gone : Lane → Lane) (ln : Lane) : Option Lane :=
  if ln.sinkGone cfg then some (gone ln)
  else if ln.sinkRoom cfg then some (next (ln.push cfg m))
  else none

/-! ## The reader -/

def goto (item : Item) (st : Stage) (todo : List Item) (ln : Lane) : Lane := { ln with reader := .at item st todo }

def leave (ln : Lane) : Lane := { ln with reader := .left }

/-- The reader's error, to be sent in-band. -/
def fail (e : Err) (ln : Lane) : Lane := { ln with reader := .sendErr e }

/-- The head of `read_items`' loop. -/
def items (todo : List Item) (ln : Lane) : Lane :=
  match todo with
  | [] => ln.leave
  | item :: todo => ln.goto item .header todo

/-- `progress.finish_file`, and the next item. -/
def finish (todo : List Item) (ln : Lane) : Lane := { ln with finished := ln.finished + 1 }.items todo

/-- The match on the entry's kind. -/
def body (item : Item) (todo : List Item) (ln : Lane) : Lane :=
  match item.entry.kind with
  | .dir | .end_ => ln.finish todo
  | .symlink => ln.goto item .readLink todo
  | .file => ln.goto item .openFile todo

/-- The head of `stream_file`'s loop. -/
def stream (item : Item) (todo : List Item) (sent : Nat) (ln : Lane) : Lane :=
  if sent < item.entry.size.toNat then ln.goto item (.takeBuf sent) todo
  else if cfg.verify then ln.goto item .sendEnd todo
  else ln.finish todo

/-- How much the next chunk takes. -/
def want (item : Item) (sent : Nat) : Nat := min (item.entry.size.toNat - sent) CHUNK

def readStep (c : Choice) (ln : Lane) : Option Lane :=
  match ln.reader with
  | .at item .header todo => ln.send cfg (.ok (.header item.header)) (body item todo) leave
  | .at item .readLink todo =>
    match c.fault with
    | some e => some (ln.fail (.os e))
    | none =>
      some (if (lossy c.data).length = item.entry.size.toNat then ln.goto item (.sendTarget (lossy c.data)) todo
        else ln.fail (.changed item.entry.path item.entry.size.toNat (lossy c.data).length))
  | .at item (.sendTarget target) todo =>
    ln.send cfg (.ok (.target target))
      (fun ln => if cfg.verify then ln.goto item (.sendDigest (cfg.blake3 target)) todo else ln.finish todo) leave
  | .at _ (.sendDigest d) todo => ln.send cfg (.ok (.digest d)) (finish todo) leave
  | .at item .openFile todo =>
    match c.fault with
    | some e => some (ln.fail (.os e))
    | none => some (ln.stream cfg item todo 0)
  | .at item (.takeBuf sent) todo =>
    if 0 < ln.pool then some ({ ln with pool := ln.pool - 1 }.goto item (.fill sent []) todo)
    -- the writer is gone: `stream_file` returns Ok all the same
    else if ln.returned then some (ln.finish todo)
    else none
  | .at item (.fill sent filled) todo =>
    match c.fault with
    | some e => some (ln.fail (.os e))
    | none =>
      if c.data = [] then
        some (ln.fail (.shrank item.entry.path item.entry.size.toNat (sent + filled.length)))
      else if (filled ++ c.data).length < want item sent then some (ln.goto item (.fill sent (filled ++ c.data)) todo)
      else if (filled ++ c.data).length = want item sent then
        some (ln.goto item (.sendChunk (sent + want item sent) (filled ++ c.data)) todo)
      else none
  | .at item (.sendChunk sent bytes) todo =>
    ln.send cfg (.ok (.chunk bytes)) (stream cfg item todo sent) (finish todo)
  | .at _ .sendEnd todo => ln.send cfg (.ok .endPayload) (finish todo) (finish todo)
  | .sendErr e => ln.send cfg (.error e) leave leave
  | .left => none

/-! ## The hash stage -/

def hashStep (ln : Lane) : Option Lane :=
  match ln.hash with
  | .recv =>
    match ln.rq with
    | .ok (.chunk bytes) :: q =>
      some { ln with rq := q, hasher := ln.hasher ++ bytes, hash := .forward (.ok (.chunk bytes)) }
    | .ok .endPayload :: q =>
      some { ln with rq := q, hasher := [], hash := .forward (.ok (.digest (cfg.blake3 ln.hasher))) }
    | m :: q => some { ln with rq := q, hash := .forward m }
    | [] => if ln.readerLeft then some { ln with hash := .left } else none
  | .forward m =>
    -- the message and what is queued go with the stage
    if ln.rxGone then some { ln with hash := .left, rq := [] }
    else if ln.sq.length < cfg.depth then some { ln with sq := ln.sq ++ [m], hash := .recv }
    else none
  | .left => none

/-! ## The socket loop -/

/-- An error leaves the loop. -/
def abort (e : Err) (ln : Lane) : Lane := { ln with sock := .closing e, sq := [] }

/-- The message is written: count it, and return its buffer. -/
def counted (m : Msg) (ln : Lane) : Lane :=
  match m with
  | .header _ => { ln with sock := .recv, stats := { ln.stats with files := ln.stats.files + 1 } }
  | .target bytes =>
    { ln with
      sock := .recv
      stats := { ln.stats with bytes := ln.stats.bytes + bytes.length }
      moved := ln.moved + bytes.length }
  | .chunk bytes =>
    { ln with
      sock := .recv
      stats := { ln.stats with bytes := ln.stats.bytes + bytes.length }
      moved := ln.moved + bytes.length
      pool := ln.pool + 1 }
  | .digest _ | .endPayload => { ln with sock := .recv }

def sockStep (c : Choice) (ln : Lane) : Option Lane :=
  match ln.sock with
  | .recv =>
    match ln.sq with
    | .error e :: _ => some (ln.abort e)
    | .ok .endPayload :: _ => some { ln with sock := .panicked, sq := [] }
    | .ok m :: q =>
      some { ln with sq := q, sock := .writing m m.bytes, log := { ln.log with taken := ln.log.taken ++ [m] } }
    | [] => if ln.sourceLeft cfg then some { ln with sock := .joinReader } else none
  | .writing m [] => some (ln.counted m)
  | .writing m todo =>
    match c.fault with
    | some e => some (ln.abort (.os e))
    | none =>
      if 0 < c.count ∧ c.count ≤ todo.length then
        some { ln with sock := .writing m (todo.drop c.count), wrote := ln.wrote ++ todo.take c.count }
      else none
  | .closing e => some { ln with sock := .left (.error e) }
  | .joinReader =>
    if ln.readerLeft then some { ln with sock := if cfg.verify then .joinHasher else .terminator } else none
  | .joinHasher => if ln.hashLeft then some { ln with sock := .terminator } else none
  | .terminator =>
    match c.fault with
    | some e => some (ln.abort (.os e))
    | none => some { ln with sock := .left (.ok ()), wrote := ln.wrote ++ [0] }
  | .left _ | .panicked => none

end Lane

inductive Act
  | read (c : Choice)
  | hash
  | sock (c : Choice)
  deriving DecidableEq

def step (cfg : Cfg) (ln : Lane) : Act → Option Lane
  | .read c => ln.readStep cfg c
  | .hash => if cfg.verify then ln.hashStep cfg else none
  | .sock c => ln.sockStep cfg c

/-- A lane before its threads have run. -/
def Lane.init (cfg : Cfg) (todo : List Item) : Lane :=
  { reader := .left
    rq := []
    -- without verification the stage is not spawned
    hash := if cfg.verify then .recv else .left
    hasher := []
    sq := []
    sock := .recv
    -- one buffer per queue slot, one being filled and one being written
    pool := cfg.depth + 2
    stats := ⟨0, 0, 0, 0⟩
    wrote := []
    finished := 0
    moved := 0
    log := ⟨[], []⟩ : Lane }.items todo

end Thunderflash.Send
