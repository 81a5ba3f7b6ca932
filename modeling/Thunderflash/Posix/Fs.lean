/-
A POSIX file system as a table of inodes: directories bind names to inodes, regular files hold
bytes, symbolic links a target. Every call works on an open directory (an inode) and one name, or
on an open file, as the `*at` calls do, and none of them follows a link.
-/
import Thunderflash.Posix.Paths
import Thunderflash.Codec.Bytes

namespace Posix

open Codec (Bytes)

/-- One component of a path, as the kernel sees it: bytes. -/
abbrev Name := Bytes

/-- The longest name a directory takes. -/
def NAME_MAX : Nat := 255

inductive Errno
  | ENOENT | EEXIST | ENOTDIR | EISDIR | ELOOP | ENAMETOOLONG | ENOTEMPTY | ENXIO | EPERM | EBADF | EACCES | EIO
  deriving DecidableEq, Repr

inductive Node
  | dir (entries : List (Name × Nat))
  | file (data : Bytes)
  | symlink (target : Bytes)
  /-- A FIFO, socket or device. -/
  | special
  deriving DecidableEq, Repr

/-- What a path names, with a directory's entries left out. -/
inductive Leaf
  | dir
  | file (data : Bytes)
  | symlink (target : Bytes)
  | special
  deriving DecidableEq, Repr

def Node.leaf : Node → Leaf
  | .dir _ => .dir
  | .file b => .file b
  | .symlink t => .symlink t
  | .special => .special

structure Inode where
  node : Node
  mode : UInt32
  mtime : Int64
  deriving DecidableEq, Repr

structure Fs where
  inodes : List Inode
  deriving DecidableEq, Repr

/-- The bytes of a file after writing `bytes` at offset `off`; a gap reads as zeros. -/
def overwrite (data : Bytes) (off : Nat) (bytes : Bytes) : Bytes :=
  data.take off ++ List.replicate (off - data.length) 0 ++ bytes ++ data.drop (off + bytes.length)

theorem overwrite_end (data bytes : Bytes) : overwrite data data.length bytes = data ++ bytes := by
  simp [overwrite]

namespace Fs

/-! ## Looking -/

def node (fs : Fs) (i : Nat) : Option Node := (fs.inodes[i]?).map Inode.node

def leaf (fs : Fs) (i : Nat) : Option Leaf := (fs.node i).map Node.leaf

/-- The inode that name `n` of directory `d` is bound to. -/
def entry (fs : Fs) (d : Nat) (n : Name) : Option Nat :=
  match fs.node d with
  | some (.dir es) => es.lookup n
  | _ => none

def mode (fs : Fs) (i : Nat) : Option UInt32 := (fs.inodes[i]?).map Inode.mode

def mtime (fs : Fs) (i : Nat) : Option Int64 := (fs.inodes[i]?).map Inode.mtime

/-! ## Changing -/

def update (fs : Fs) (i : Nat) (f : Inode → Inode) : Fs := ⟨fs.inodes.modify i f⟩

/-- Add or replace the binding of `n` in a directory. -/
def bind (n : Name) (i : Nat) (now : Int64) (x : Inode) : Inode :=
  match x.node with
  | .dir es => { x with node := .dir ((n, i) :: es.filter fun e => e.1 != n), mtime := now }
  | _ => x

/-- Remove the binding of `n` from a directory. -/
def unbind (n : Name) (now : Int64) (x : Inode) : Inode :=
  match x.node with
  | .dir es => { x with node := .dir (es.filter fun e => e.1 != n), mtime := now }
  | _ => x

/-- A new inode, bound to `n` in `d`. -/
def create (fs : Fs) (d : Nat) (n : Name) (node : Node) (mode : UInt32) (now : Int64) : Fs :=
  update ⟨fs.inodes ++ [⟨node, mode, now⟩]⟩ d (bind n fs.inodes.length now)

def unlink (fs : Fs) (d : Nat) (n : Name) (now : Int64) : Fs := fs.update d (unbind n now)

/-- Move the binding of `src` to `dst` inside `d`. -/
def move (fs : Fs) (d : Nat) (src dst : Name) (i : Nat) (now : Int64) : Fs :=
  fs.update d fun x => bind dst i now (unbind src now x)

def setNode (node : Node) (now : Int64) (x : Inode) : Inode := { x with node, mtime := now }

end Fs

/-! ## Calls -/

inductive Sys
  | mkdirat (d : Nat) (n : Name) (mode : UInt32)
  /-- `openat` with `O_RDONLY | O_DIRECTORY | O_NOFOLLOW`. -/
  | openDir (d : Nat) (n : Name)
  /-- `openat` with `O_WRONLY | O_CREAT | O_EXCL | O_NOFOLLOW`. -/
  | openExcl (d : Nat) (n : Name) (mode : UInt32)
  /-- `openat` with `O_WRONLY | O_CREAT | O_TRUNC | O_NOFOLLOW`. -/
  | openTrunc (d : Nat) (n : Name) (mode : UInt32)
  /-- `unlinkat` without `AT_REMOVEDIR`. -/
  | unlinkat (d : Nat) (n : Name)
  | symlinkat (target : Bytes) (d : Nat) (n : Name)
  /-- `renameat` inside one directory. -/
  | renameat (d : Nat) (src dst : Name)
  /-- `utimensat` with `AT_SYMLINK_NOFOLLOW`. -/
  | utimensat (d : Nat) (n : Name) (mtime : Int64)
  | write (i : Nat) (off : Nat) (bytes : Bytes)
  | fchmod (i : Nat) (mode : UInt32)
  | futimens (i : Nat) (mtime : Int64)
  | fsync (i : Nat)
  | fstat (i : Nat)
  /-- `fstatat` with `AT_SYMLINK_NOFOLLOW`. -/
  | fstatat (d : Nat) (n : Name)
  deriving DecidableEq, Repr

namespace Fs

/-- Everything a call on a name of a directory checks first. -/
def checkAt (fs : Fs) (d : Nat) (n : Name) : Except Errno Unit :=
  if n.length > NAME_MAX then .error .ENAMETOOLONG
  else if fs.leaf d = some .dir then .ok ()
  else .error .ENOTDIR

/-- May `i` be renamed over `j`? -/
def replaces (fs : Fs) (i j : Nat) : Except Errno Unit :=
  match fs.node i, fs.node j with
  | some (.dir _), some (.dir es) => if es.isEmpty then .ok () else .error .ENOTEMPTY
  | some (.dir _), _ => .error .ENOTDIR
  | _, some (.dir _) => .error .EISDIR
  | _, _ => .ok ()

/-- What a call does: the file system after it and the inode it opened or acted on. -/
def exec (umask : UInt32) (now : Int64) (fs : Fs) : Sys → Except Errno (Fs × Nat)
  | .mkdirat d n mode => do
    fs.checkAt d n
    match fs.entry d n with
    | some _ => .error .EEXIST
    | none => .ok (fs.create d n (.dir []) (mode &&& 0o777 &&& ~~~umask) now, fs.inodes.length)
  | .openDir d n => do
    fs.checkAt d n
    match fs.entry d n with
    | none => .error .ENOENT
    | some i =>
      match fs.leaf i with
      | some .dir => .ok (fs, i)
      | some (.symlink _) => .error .ELOOP
      | _ => .error .ENOTDIR
  | .openExcl d n mode => do
    fs.checkAt d n
    match fs.entry d n with
    | some _ => .error .EEXIST
    | none => .ok (fs.create d n (.file []) (mode &&& 0o7777 &&& ~~~umask) now, fs.inodes.length)
  | .openTrunc d n mode => do
    fs.checkAt d n
    match fs.entry d n with
    | none => .ok (fs.create d n (.file []) (mode &&& 0o7777 &&& ~~~umask) now, fs.inodes.length)
    | some i =>
      match fs.leaf i with
      | some (.file _) => .ok (fs.update i (setNode (.file []) now), i)
      | some .dir => .error .EISDIR
      | some (.symlink _) => .error .ELOOP
      | _ => .error Errno.ENXIO
  | .unlinkat d n => do
    fs.checkAt d n
    match fs.entry d n with
    | none => .error .ENOENT
    | some i => if fs.leaf i = some .dir then .error .EPERM else .ok (fs.unlink d n now, i)
  | .symlinkat target d n => do
    fs.checkAt d n
    match fs.entry d n with
    | some _ => .error .EEXIST
    | none => .ok (fs.create d n (.symlink target) (0o777 &&& ~~~umask) now, fs.inodes.length)
  | .renameat d src dst => do
    fs.checkAt d src
    fs.checkAt d dst
    match fs.entry d src with
    | none => .error .ENOENT
    | some i =>
      match fs.entry d dst with
      | none => .ok (fs.move d src dst i now, i)
      | some j =>
        -- two names of one file: nothing to do
        if i = j then .ok (fs, i)
        else do
          fs.replaces i j
          .ok (fs.move d src dst i now, i)
  | .utimensat d n mtime => do
    fs.checkAt d n
    match fs.entry d n with
    | none => .error .ENOENT
    | some i => .ok (fs.update i fun x => { x with mtime }, i)
  | .write i off bytes =>
    match fs.leaf i with
    | some (.file b) => .ok (fs.update i (setNode (.file (overwrite b off bytes)) now), i)
    | _ => .error .EBADF
  | .fchmod i mode =>
    if i < fs.inodes.length then .ok (fs.update i fun x => { x with mode }, i) else .error .EBADF
  | .futimens i mtime =>
    if i < fs.inodes.length then .ok (fs.update i fun x => { x with mtime }, i) else .error .EBADF
  | .fsync i => if i < fs.inodes.length then .ok (fs, i) else .error .EBADF
  | .fstat i => if i < fs.inodes.length then .ok (fs, i) else .error .EBADF
  | .fstatat d n => do
    fs.checkAt d n
    match fs.entry d n with
    | none => .error .ENOENT
    | some i => .ok (fs, i)

end Fs

end Posix
