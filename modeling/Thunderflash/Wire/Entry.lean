/-
The entry headers of a session, their codec, and the string-level rules for the paths they carry.
-/
import Thunderflash.Posix.Fs

namespace Thunderflash

open Codec
open Posix (Name)

def MAX_PATH_LEN : Nat := 4096
/-- Read and write chunk size. -/
def CHUNK : Nat := 4 * 1024 * 1024
def DIGEST_LEN : Nat := 32
/-- The receiver's one byte of commitment. -/
def ACK : UInt8 := 0xFF

/-- What a session moved, and what the quick check spared it. -/
structure Stats where
  files : Nat
  bytes : Nat
  skippedFiles : Nat
  skippedBytes : Nat
  deriving DecidableEq, Repr

/-! ## Entries -/

inductive Kind
  | end_ | file | dir | symlink
  deriving DecidableEq, Repr

def Kind.toU8 : Kind → UInt8
  | end_ => 0
  | file => 1
  | dir => 2
  | symlink => 3

def Kind.fromU8 (b : UInt8) : Option Kind :=
  if b = 0 then some end_ else if b = 1 then some file else if b = 2 then some dir
  else if b = 3 then some symlink else none

/-- A `String`: bytes that are valid UTF-8. -/
structure Str where
  bytes : Bytes
  valid : utf8 bytes = true
  deriving DecidableEq, Repr

structure Entry where
  kind : Kind
  path : Str
  /-- File: byte length. Symlink: length of the target string. Dir: 0. -/
  size : UInt64
  mode : UInt32
  mtime : Int64
  deriving DecidableEq, Repr

inductive PathError
  | empty | absolute | parentRef | nul | tooLong
  deriving DecidableEq, Repr

/-- The BLAKE3 digest of a payload. -/
structure Digest where
  bytes : Bytes
  length : bytes.length = DIGEST_LEN
  deriving DecidableEq, Repr

/-- Every value has a binary form and nothing else decodes to it. -/
def Entry.encode (e : Entry) : Bytes :=
  e.kind.toU8 :: (toLe 2 e.path.bytes.length ++ (e.path.bytes ++
    (toLe 8 e.size.toNat ++ (toLe 4 e.mode.toNat ++ toLe 8 e.mtime.toUInt64.toNat))))

/-- Why a header is refused. -/
inductive DecodeError
  | unknownKind (byte : UInt8)
  | pathNotUtf8
  | targetTooLong (size : Nat)
  deriving DecidableEq, Repr

/-- Read one entry; `none` when the terminator is reached. -/
def Entry.decode (bs : Bytes) : Read DecodeError (Option Entry) :=
  (readExact 1 bs).bind fun byte bs =>
  match Kind.fromU8 (byte.headD 0) with
  | none => .fail (.unknownKind (byte.headD 0))
  | some .end_ => .ok none bs
  | some kind =>
    (readExact 2 bs).bind fun len bs =>
    (readExact (ofLe len) bs).bind fun path bs =>
    if h : utf8 path = true then
      (readExact 8 bs).bind fun size bs =>
      -- a target is a path, so it can never legitimately exceed PATH_MAX
      if kind = .symlink ∧ MAX_PATH_LEN < ofLe size then .fail (.targetTooLong (ofLe size))
      else
        (readExact 4 bs).bind fun mode bs =>
        (readExact 8 bs).bind fun mtime bs =>
        .ok (some ⟨kind, ⟨path, h⟩, UInt64.ofNat (ofLe size), UInt32.ofNat (ofLe mode),
          (UInt64.ofNat (ofLe mtime)).toInt64⟩) bs
    else .fail .pathNotUtf8

/-- What `decode` can give back: not the terminator, a path that fits the length field, a target
that fits a path. -/
structure Entry.Framed (e : Entry) : Prop where
  kind : e.kind ≠ .end_
  path : e.path.bytes.length < 65536
  target : e.kind = .symlink → e.size.toNat ≤ MAX_PATH_LEN

theorem fromU8_toU8 (k : Kind) : Kind.fromU8 k.toU8 = some k := by cases k <;> rfl

theorem toU8_fromU8 {b : UInt8} {k : Kind} (h : Kind.fromU8 b = some k) : k.toU8 = b := by
  unfold Kind.fromU8 at h
  split at h
  · cases h; symm; assumption
  · split at h
    · cases h; symm; assumption
    · split at h
      · cases h; symm; assumption
      · split at h
        · cases h; symm; assumption
        · cases h

theorem readExact_toLe {ε : Type} (w n : Nat) (rest : Bytes) :
    (readExact w (toLe w n ++ rest) : Read ε Bytes) = .ok (toLe w n) rest := by
  simpa using readExact_append (ε := ε) (a := toLe w n) rest

/-- Decoding an encoded entry gives it back and leaves what follows unread. -/
theorem Entry.decode_encode {e : Entry} (he : e.Framed) (rest : Bytes) :
    decode (e.encode ++ rest) = .ok (some e) rest := by
  obtain ⟨kind, path, size, mode, mtime⟩ := e
  have hs : size.toNat < 256 ^ 8 := by have := size.toNat_lt; norm_num; omega
  have hm : mode.toNat < 256 ^ 4 := by have := mode.toNat_lt; norm_num; omega
  have ht : mtime.toUInt64.toNat < 256 ^ 8 := by have := mtime.toUInt64.toNat_lt; norm_num; omega
  have hp : path.bytes.length < 256 ^ 2 := by have := he.path; norm_num; exact this
  have h1 : ∀ b (l : Bytes), (readExact 1 (b :: l) : Read DecodeError Bytes) = .ok [b] l :=
    fun b l => readExact_append (a := [b]) l
  have hb : ∀ (l : Bytes), (readExact path.bytes.length (path.bytes ++ l) : Read DecodeError Bytes) =
      .ok path.bytes l := fun l => readExact_append l
  unfold decode encode
  simp only [List.cons_append, List.append_assoc, h1, Read.bind, List.headD_cons, fromU8_toU8]
  cases kind with
  | end_ => exact absurd rfl he.kind
  | file | dir =>
    simp only [readExact_toLe, ofLe_toLe hp, hb, path.valid, dif_pos, ofLe_toLe hs, ofLe_toLe hm, ofLe_toLe ht]
    simp
  | symlink =>
    have hl : ¬ MAX_PATH_LEN < size.toNat := not_lt.2 (he.target rfl)
    simp only [readExact_toLe, ofLe_toLe hp, hb, path.valid, dif_pos, ofLe_toLe hs, ofLe_toLe hm, ofLe_toLe ht]
    simp [hl]

theorem Entry.decode_some {bs rest : Bytes} {e : Entry} (h : decode bs = .ok (some e) rest) :
    bs = e.encode ++ rest ∧ e.Framed := by
  unfold decode at h
  obtain ⟨byte, bs1, h1, g1⟩ := Read.bind_eq_ok.1 h
  obtain ⟨rfl, hl1⟩ := readExact_ok h1
  obtain ⟨b, rfl⟩ := List.length_eq_one_iff.1 hl1
  dsimp only [List.headD] at g1
  split at g1
  · cases g1
  · cases g1
  · rename_i k hne hk
    obtain ⟨len, bs2, h2, g2⟩ := Read.bind_eq_ok.1 g1
    obtain ⟨path, bs3, h3, g3⟩ := Read.bind_eq_ok.1 g2
    split at g3
    · rename_i hu
      obtain ⟨size, bs4, h4, g4⟩ := Read.bind_eq_ok.1 g3
      split at g4
      · cases g4
      · rename_i hsym
        obtain ⟨mode, bs5, h5, g5⟩ := Read.bind_eq_ok.1 g4
        obtain ⟨mtime, bs6, h6, g6⟩ := Read.bind_eq_ok.1 g5
        obtain ⟨rfl, l2⟩ := readExact_ok h2
        obtain ⟨rfl, l3⟩ := readExact_ok h3
        obtain ⟨rfl, l4⟩ := readExact_ok h4
        obtain ⟨rfl, l5⟩ := readExact_ok h5
        obtain ⟨rfl, l6⟩ := readExact_ok h6
        cases g6
        have w2 : ofLe len < 65536 := by simpa [l2] using ofLe_lt len
        have w4 : ofLe size < 2 ^ 64 := by simpa [l4] using ofLe_lt size
        have w5 : ofLe mode < 2 ^ 32 := by simpa [l5] using ofLe_lt mode
        have w6 : ofLe mtime < 2 ^ 64 := by simpa [l6] using ofLe_lt mtime
        have e2 : toLe 2 path.length = len := by rw [l3, ← l2, toLe_ofLe]
        have e4 : toLe 8 (UInt64.ofNat (ofLe size)).toNat = size := by
          rw [UInt64.toNat_ofNat', Nat.mod_eq_of_lt w4, ← l4, toLe_ofLe]
        have e5 : toLe 4 (UInt32.ofNat (ofLe mode)).toNat = mode := by
          rw [UInt32.toNat_ofNat', Nat.mod_eq_of_lt w5, ← l5, toLe_ofLe]
        have e6 : toLe 8 (UInt64.ofNat (ofLe mtime)).toInt64.toUInt64.toNat = mtime := by
          rw [UInt64.toUInt64_toInt64, UInt64.toNat_ofNat', Nat.mod_eq_of_lt w6, ← l6, toLe_ofLe]
        refine ⟨by simp only [encode, toU8_fromU8 hk, e2, e4, e5, e6]; simp, hne, by simpa [l3] using w2, fun hs => ?_⟩
        have : ¬ MAX_PATH_LEN < ofLe size := fun hlt => hsym ⟨hs, hlt⟩
        simp only [UInt64.toNat_ofNat', Nat.mod_eq_of_lt w4]
        omega
    · cases g3

theorem Entry.decode_none {bs rest : Bytes} (h : decode bs = .ok none rest) : bs = 0 :: rest := by
  unfold decode at h
  obtain ⟨byte, bs1, h1, g1⟩ := Read.bind_eq_ok.1 h
  obtain ⟨rfl, hl1⟩ := readExact_ok h1
  obtain ⟨b, rfl⟩ := List.length_eq_one_iff.1 hl1
  dsimp only [List.headD] at g1
  split at g1
  · cases g1
  · rename_i hk; cases g1; rw [← toU8_fromU8 hk]; rfl
  · obtain ⟨len, bs2, -, g2⟩ := Read.bind_eq_ok.1 g1
    obtain ⟨path, bs3, -, g3⟩ := Read.bind_eq_ok.1 g2
    split at g3
    · obtain ⟨size, bs4, -, g4⟩ := Read.bind_eq_ok.1 g3
      split at g4
      · cases g4
      · obtain ⟨mode, bs5, -, g5⟩ := Read.bind_eq_ok.1 g4
        obtain ⟨mtime, bs6, -, g6⟩ := Read.bind_eq_ok.1 g5
        cases g6
    · cases g3

theorem Entry.decode_terminator (rest : Bytes) : decode (0 :: rest) = .ok none rest := rfl

/-! ## Paths -/

def SLASH : UInt8 := 47
def DOT : UInt8 := 46

/-- The components of a split path, with "" and "." dropped and ".." refused. -/
def parts : List Bytes → Except PathError (List Name)
  | [] => .ok []
  | part :: rest =>
    if part = [] ∨ part = [DOT] then parts rest
    else if part = [DOT, DOT] then .error .parentRef
    else (parts rest).map (part :: ·)

/-- Split a sender-supplied relative path into components, rejecting anything that could escape
the destination directory at the string level. -/
def sanitize (path : Bytes) : Except PathError (List Name) :=
  if MAX_PATH_LEN < path.length then .error .tooLong
  else if 0 ∈ path then .error .nul
  else if path.head? = some SLASH then .error .absolute
  else
    match parts (path.splitOn SLASH) with
    | .ok [] => .error .empty
    | r => r

/-- A component that names something inside its directory. -/
structure Proper (n : Name) : Prop where
  ne_nil : n ≠ []
  ne_dot : n ≠ [DOT]
  ne_dots : n ≠ [DOT, DOT]
  nul : (0 : UInt8) ∉ n
  slash : SLASH ∉ n

theorem parts_ok : ∀ {l : List Bytes} {ps : List Name}, parts l = .ok ps →
    ∀ n ∈ ps, n ∈ l ∧ n ≠ [] ∧ n ≠ [DOT] ∧ n ≠ [DOT, DOT]
  | [], ps, h => by cases h; simp
  | part :: rest, ps, h => by
    intro n hn
    unfold parts at h
    split at h
    · have := parts_ok h n hn; exact ⟨List.mem_cons_of_mem _ this.1, this.2⟩
    · split at h
      · cases h
      · cases hr : parts rest with
        | error e => rw [hr] at h; cases h
        | ok qs =>
          rw [hr] at h; cases h
          rcases List.mem_cons.1 hn with rfl | hn
          · exact ⟨List.mem_cons_self .., by tauto⟩
          · have := parts_ok hr n hn; exact ⟨List.mem_cons_of_mem _ this.1, this.2⟩

theorem parts_proper : ∀ {l : List Name}, (∀ n ∈ l, Proper n) → parts l = .ok l
  | [], _ => rfl
  | n :: l, h => by
    have hn := h n (List.mem_cons_self ..)
    have ih := parts_proper fun m hm => h m (List.mem_cons_of_mem _ hm)
    unfold parts
    rw [if_neg (by rintro (he | he); exacts [hn.ne_nil he, hn.ne_dot he]), if_neg hn.ne_dots, ih]
    rfl

theorem not_mem_of_splitOn (x : UInt8) : ∀ {l : Bytes}, ∀ part ∈ l.splitOn x, x ∉ part
  | [], part, h => by simp only [List.splitOn_nil, List.mem_singleton] at h; simp [h]
  | y :: l, part, h => by
    have ih := fun part h => not_mem_of_splitOn x (l := l) part h
    rw [List.splitOn_cons_eq_if_modifyHead] at h
    split at h
    · rcases List.mem_cons.1 h with rfl | h
      · simp
      · exact ih part h
    · rename_i hy
      cases hl : l.splitOn x with
      | nil => exact absurd hl (List.splitOn_ne_nil _ _)
      | cons q qs =>
        rw [hl, List.modifyHead_cons] at h
        rcases List.mem_cons.1 h with rfl | h
        · have := ih q (by rw [hl]; exact List.mem_cons_self ..)
          simp only [List.mem_cons, not_or]
          exact ⟨fun he => hy (by simp [he]), this⟩
        · exact ih part (by rw [hl]; exact List.mem_cons_of_mem _ h)

theorem mem_of_splitOn {x b : UInt8} {l : Bytes} {part : Bytes} (h : part ∈ l.splitOn x) (hb : b ∈ part) :
    b ∈ l := by
  have hjoin : [x].intercalate (l.splitOn x) = l := List.intercalate_splitOn x
  rw [← hjoin]
  have hj : part ∈ (l.splitOn x).intersperse [x] := by
    generalize l.splitOn x = ls at h
    induction ls with
    | nil => cases h
    | cons p ps ih =>
      cases ps with
      | nil => simpa using h
      | cons q qs =>
        rw [List.intersperse_cons_cons]
        rcases List.mem_cons.1 h with rfl | h
        · exact List.mem_cons_self ..
        · exact List.mem_cons_of_mem _ (List.mem_cons_of_mem _ (ih h))
  exact List.mem_flatten.2 ⟨part, hj, hb⟩

theorem parts_length : ∀ {l : List Bytes} {ps : List Name}, parts l = .ok ps → ps.length ≤ l.length
  | [], ps, h => by cases h; exact le_rfl
  | part :: rest, ps, h => by
    unfold parts at h
    split at h
    · exact (parts_length h).trans (Nat.le_succ _)
    · split at h
      · cases h
      · cases hr : parts rest with
        | error e => rw [hr] at h; cases h
        | ok qs =>
          rw [hr] at h
          cases h
          exact Nat.succ_le_succ (parts_length hr)

theorem splitOn_length (x : UInt8) : ∀ l : Bytes, (l.splitOn x).length ≤ l.length + 1
  | [] => by simp
  | y :: l => by
    have ih := splitOn_length x l
    rw [List.splitOn_cons_eq_if_modifyHead]
    split
    · simpa using ih
    · rw [List.length_modifyHead, List.length_cons]
      omega

/-- An accepted path has a component and none that leads out of its directory. -/
theorem sanitize_ok {path : Bytes} {ps : List Name} (h : sanitize path = .ok ps) :
    ps ≠ [] ∧ ∀ n ∈ ps, Proper n := by
  unfold sanitize at h
  split at h
  · cases h
  split at h
  · cases h
  rename_i hnul
  split at h
  · cases h
  split at h
  · cases h
  rename_i hne
  refine ⟨by rintro rfl; exact hne h, fun n hn => ?_⟩
  obtain ⟨hm, h1, h2, h3⟩ := parts_ok h n hn
  exact ⟨h1, h2, h3, fun h0 => hnul (mem_of_splitOn hm h0), not_mem_of_splitOn _ _ hm⟩

/-- A path has at most one component more than bytes. -/
theorem sanitize_length {path : Bytes} {ps : List Name} (h : sanitize path = .ok ps) : ps.length ≤ path.length + 1 := by
  unfold sanitize at h
  split at h
  · cases h
  split at h
  · cases h
  split at h
  · cases h
  split at h
  · cases h
  exact (parts_length h).trans (splitOn_length _ _)

/-- The path with these components. -/
def joinPath (ps : List Name) : Bytes := [SLASH].intercalate ps

theorem nul_not_mem_joinPath : ∀ {ps : List Name}, (∀ n ∈ ps, Proper n) → 0 ∉ joinPath ps
  | [], _ => by simp [joinPath]
  | [n], h => by simpa [joinPath] using (h n (by simp)).nul
  | n :: m :: ps, h => by
    have ih : 0 ∉ joinPath (m :: ps) := nul_not_mem_joinPath fun k hk => h k (List.mem_cons_of_mem _ hk)
    have hn := (h n (List.mem_cons_self ..)).nul
    unfold joinPath at ih ⊢
    rw [List.intercalate_cons_cons]
    simp only [List.mem_append, List.mem_singleton, not_or]
    exact ⟨⟨hn, by decide⟩, ih⟩

theorem head?_joinPath : ∀ {ps : List Name}, (∀ n ∈ ps, Proper n) → (joinPath ps).head? ≠ some SLASH
  | [], _ => by simp [joinPath]
  | n :: ps, h => by
    have hn := h n (List.mem_cons_self ..)
    obtain ⟨b, n', rfl⟩ := List.exists_cons_of_ne_nil hn.ne_nil
    have hb : b ≠ SLASH := fun he => hn.slash (by simp [he])
    cases ps <;> simpa [joinPath, List.intercalate_cons_cons] using hb

/-- The path built from proper components is accepted and gives them back. -/
theorem sanitize_joinPath {ps : List Name} (hne : ps ≠ []) (hp : ∀ n ∈ ps, Proper n)
    (hl : (joinPath ps).length ≤ MAX_PATH_LEN) : sanitize (joinPath ps) = .ok ps := by
  unfold sanitize
  rw [if_neg (by omega), if_neg (nul_not_mem_joinPath hp), if_neg (head?_joinPath hp)]
  unfold joinPath
  rw [List.splitOn_intercalate _ (fun n hn => (hp n hn).slash) hne, parts_proper hp]
  cases ps with
  | nil => exact absurd rfl hne
  | cons n ps => rfl

end Thunderflash
