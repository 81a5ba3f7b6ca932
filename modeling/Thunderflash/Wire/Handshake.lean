/-
The handshake that opens a connection: protocol, version, flags and token, and in a v4 session how
many flows there are and which of them this connection is.
-/
import Thunderflash.Wire.Entry

namespace Thunderflash

open Codec

def MAGIC : Nat := 0x54464C53
/-- One flow. -/
def VERSION : UInt8 := 3
/-- Several flows, paired by the stream tail. -/
def VERSION_MULTI : UInt8 := 4
def TOKEN_LEN : Nat := 32
def HANDSHAKE_LEN : Nat := 6 + TOKEN_LEN
def STREAMS_EXTRA_LEN : Nat := 8
def MAX_STREAMS : UInt32 := 16
def FLAG_NO_VERIFY : UInt8 := 1
/-- A flag outside these is refused, not ignored. -/
def KNOWN_FLAGS : UInt8 := FLAG_NO_VERIFY

structure Token where
  bytes : Bytes
  length : bytes.length = TOKEN_LEN
  deriving DecidableEq, Repr

/-- Compare without stopping at the first difference. -/
def ctEq (a b : Bytes) : Bool :=
  if a.length ≠ b.length then false
  else (a.zip b).foldl (fun diff x => diff ||| (x.1 ^^^ x.2)) 0 == 0

structure Handshake where
  version : UInt8
  flags : UInt8
  token : Bytes
  /-- v4 only: the total of flows, and this connection's index. -/
  streams : Option (UInt32 × UInt32)
  deriving DecidableEq, Repr

def Handshake.verify (h : Handshake) : Bool := h.flags &&& FLAG_NO_VERIFY == 0

def baseHandshake (version flags : UInt8) (token : Token) : Bytes :=
  toLe 4 MAGIC ++ ([version, flags] ++ token.bytes)

def encodeHandshake (flags : UInt8) (token : Token) : Bytes := baseHandshake VERSION flags token

/-- The stream tail. -/
def encodeStreams (count index : UInt32) : Bytes := toLe 4 count.toNat ++ toLe 4 index.toNat

def encodeHandshakeMulti (flags : UInt8) (token : Token) (count index : UInt32) : Bytes :=
  baseHandshake VERSION_MULTI flags token ++ encodeStreams count index

def decodeStreams (buf : Bytes) : UInt32 × UInt32 :=
  (UInt32.ofNat (ofLe (buf.take 4)), UInt32.ofNat (ofLe (buf.drop 4)))

/-- Why a handshake is refused. -/
inductive HandshakeError
  | foreign
  | version (v : UInt8)
  | flags (f : UInt8)
  deriving DecidableEq, Repr

/-- The version, the flags and the token, none of them compared with anything yet. -/
def decodeHandshake (buf : Bytes) : Except HandshakeError (UInt8 × UInt8 × Bytes) :=
  if ofLe (buf.take 4) ≠ MAGIC then .error .foreign
  else if buf.getD 4 0 ≠ VERSION ∧ buf.getD 4 0 ≠ VERSION_MULTI then .error (.version (buf.getD 4 0))
  else if buf.getD 5 0 &&& ~~~KNOWN_FLAGS ≠ 0 then .error (.flags (buf.getD 5 0))
  else .ok (buf.getD 4 0, buf.getD 5 0, buf.drop 6)

/-- The base, and for v4 the stream tail. -/
def readHandshake (bs : Bytes) : Read HandshakeError Handshake :=
  (readExact HANDSHAKE_LEN bs).bind fun buf bs =>
  match decodeHandshake buf with
  | .error e => .fail e
  | .ok (version, flags, token) =>
    if version = VERSION_MULTI then
      (readExact STREAMS_EXTRA_LEN bs).bind fun tail bs => .ok ⟨version, flags, token, some (decodeStreams tail)⟩ bs
    else .ok ⟨version, flags, token, none⟩ bs

/-! ## Comparison -/

theorem or_eq_zero {a b : UInt8} (h : a ||| b = 0) : a = 0 ∧ b = 0 := by
  have hn := congrArg UInt8.toNat h
  rw [UInt8.toNat_or, UInt8.toNat_zero, Nat.or_eq_zero_iff] at hn
  exact ⟨UInt8.toNat_inj.1 hn.1, UInt8.toNat_inj.1 hn.2⟩

theorem foldl_diff : ∀ {l : List (UInt8 × UInt8)} {d : UInt8},
    l.foldl (fun diff x => diff ||| (x.1 ^^^ x.2)) d = 0 ↔ d = 0 ∧ ∀ x ∈ l, x.1 = x.2
  | [], d => by simp
  | x :: l, d => by
    rw [List.foldl_cons, foldl_diff]
    constructor
    · rintro ⟨h, hl⟩
      obtain ⟨hd, hx⟩ := or_eq_zero h
      refine ⟨hd, fun y hy => ?_⟩
      rcases List.mem_cons.1 hy with rfl | hy
      · exact UInt8.xor_eq_zero_iff.1 hx
      · exact hl y hy
    · rintro ⟨rfl, hl⟩
      refine ⟨?_, fun y hy => hl y (by simp [hy])⟩
      simp [hl x (by simp)]

/-- The comparison is equality. -/
theorem ctEq_iff {a b : Bytes} : ctEq a b = true ↔ a = b := by
  unfold ctEq
  split
  · rename_i hl
    simp only [Bool.false_eq_true, false_iff]
    rintro rfl
    exact hl rfl
  · rename_i hl
    rw [beq_iff_eq, foldl_diff]
    constructor
    · rintro ⟨-, h⟩
      refine List.ext_getElem (by omega) fun i h1 h2 => ?_
      exact h (a[i], b[i]) (List.mem_iff_getElem.2 ⟨i, by simp; omega, by simp⟩)
    · rintro rfl
      refine ⟨rfl, fun x hx => ?_⟩
      obtain ⟨i, hi, rfl⟩ := List.mem_iff_getElem.1 hx
      simp

/-! ## Round trips -/

theorem decodeStreams_encodeStreams (count index : UInt32) : decodeStreams (encodeStreams count index) = (count, index) := by
  have hc : count.toNat < 256 ^ 4 := by have := count.toNat_lt; norm_num; omega
  have hi : index.toNat < 256 ^ 4 := by have := index.toNat_lt; norm_num; omega
  have ht : (encodeStreams count index).take 4 = toLe 4 count.toNat := by simp [encodeStreams]
  have hd : (encodeStreams count index).drop 4 = toLe 4 index.toNat := by simp [encodeStreams]
  unfold decodeStreams
  rw [ht, hd, ofLe_toLe hc, ofLe_toLe hi]
  simp

theorem length_baseHandshake (version flags : UInt8) (token : Token) : (baseHandshake version flags token).length = HANDSHAKE_LEN := by
  simp [baseHandshake, HANDSHAKE_LEN, token.length]
  omega

theorem decodeHandshake_base {version flags : UInt8} (token : Token) (hv : version = VERSION ∨ version = VERSION_MULTI)
    (hf : flags &&& ~~~KNOWN_FLAGS = 0) : decodeHandshake (baseHandshake version flags token) = .ok (version, flags, token.bytes) := by
  have ht : (baseHandshake version flags token).take 4 = toLe 4 MAGIC := by simp [baseHandshake]
  have h4 : (baseHandshake version flags token).getD 4 0 = version := by simp [baseHandshake]
  have h5 : (baseHandshake version flags token).getD 5 0 = flags := by simp [baseHandshake, List.getElem?_append]
  have hd : (baseHandshake version flags token).drop 6 = token.bytes := by simp [baseHandshake, List.drop_append]
  unfold decodeHandshake
  rw [ht, h4, h5, hd, ofLe_toLe (by decide), if_neg (by simp), if_neg (by tauto), if_neg (by simp [hf])]

theorem readHandshake_encode {flags : UInt8} (hf : flags &&& ~~~KNOWN_FLAGS = 0) (token : Token) (rest : Bytes) :
    readHandshake (encodeHandshake flags token ++ rest) = .ok ⟨VERSION, flags, token.bytes, none⟩ rest := by
  have hr := readExact_append (ε := HandshakeError) (a := encodeHandshake flags token) rest
  rw [encodeHandshake, length_baseHandshake] at hr
  unfold readHandshake encodeHandshake
  rw [hr]
  show (match decodeHandshake (baseHandshake VERSION flags token) with
    | .error e => _
    | .ok (version, flags, token) => _) = _
  rw [decodeHandshake_base token (.inl rfl) hf]
  rfl

theorem readHandshake_encodeMulti {flags : UInt8} (hf : flags &&& ~~~KNOWN_FLAGS = 0) (token : Token) (count index : UInt32)
    (rest : Bytes) : readHandshake (encodeHandshakeMulti flags token count index ++ rest) =
      .ok ⟨VERSION_MULTI, flags, token.bytes, some (count, index)⟩ rest := by
  have hr := readExact_append (ε := HandshakeError) (a := baseHandshake VERSION_MULTI flags token) (encodeStreams count index ++ rest)
  rw [length_baseHandshake] at hr
  have htail := readExact_append (ε := HandshakeError) (a := encodeStreams count index) rest
  unfold readHandshake encodeHandshakeMulti
  rw [List.append_assoc, hr]
  show (match decodeHandshake (baseHandshake VERSION_MULTI flags token) with
    | .error e => _
    | .ok (version, flags, token) => _) = _
  rw [decodeHandshake_base token (.inr rfl) hf]
  show ((readExact STREAMS_EXTRA_LEN (encodeStreams count index ++ rest)).bind fun tail bs =>
    Read.ok (⟨VERSION_MULTI, flags, token.bytes, some (decodeStreams tail)⟩ : Handshake) bs) = _
  rw [show STREAMS_EXTRA_LEN = (encodeStreams count index).length by simp [encodeStreams, STREAMS_EXTRA_LEN], htail]
  simp [Read.bind, decodeStreams_encodeStreams]

/-- What a handshake that is read looks like. -/
theorem readHandshake_ok {bs rest : Bytes} {h : Handshake} (hr : readHandshake bs = .ok h rest) :
    (h.version = VERSION ∧ h.streams = none) ∨ (h.version = VERSION_MULTI ∧ ∃ count index, h.streams = some (count, index)) := by
  unfold readHandshake at hr
  obtain ⟨buf, mid, -, hm⟩ := Read.bind_eq_ok.1 hr
  split at hm
  · cases hm
  · rename_i version flags token hd
    have hv : version = VERSION ∨ version = VERSION_MULTI := by
      unfold decodeHandshake at hd
      split at hd
      · cases hd
      · split at hd
        · cases hd
        · rename_i hver
          split at hd <;> cases hd
          by_contra hcon
          push Not at hcon
          exact hver hcon
    split at hm
    · rename_i hmulti
      obtain ⟨tail, mid', -, hm⟩ := Read.bind_eq_ok.1 hm
      cases hm
      exact .inr ⟨hmulti, _, _, rfl⟩
    · rename_i hmulti
      cases hm
      exact .inl ⟨hv.resolve_right hmulti, rfl⟩

/-! ## Both directions -/

theorem encodeStreams_decodeStreams {buf : Bytes} (hl : buf.length = STREAMS_EXTRA_LEN) :
    encodeStreams (decodeStreams buf).1 (decodeStreams buf).2 = buf := by
  have hword : ∀ {bs : Bytes}, bs.length = 4 → toLe 4 (UInt32.ofNat (ofLe bs)).toNat = bs := by
    intro bs hbs
    have hlt := ofLe_lt bs
    have hle := toLe_ofLe bs
    rw [hbs] at hlt hle
    rw [UInt32.toNat_ofNat', Nat.mod_eq_of_lt (by simpa using hlt), hle]
  have ht : (buf.take 4).length = 4 := by rw [List.length_take, hl]; rfl
  have hd : (buf.drop 4).length = 4 := by rw [List.length_drop, hl]; rfl
  unfold encodeStreams decodeStreams
  rw [hword ht, hword hd, List.take_append_drop]

/-- A base handshake that is decoded is the encoding of what it gives. -/
theorem decodeHandshake_ok {buf token : Bytes} {version flags : UInt8} (hl : buf.length = HANDSHAKE_LEN)
    (h : decodeHandshake buf = .ok (version, flags, token)) :
    (version = VERSION ∨ version = VERSION_MULTI) ∧ flags &&& ~~~KNOWN_FLAGS = 0 ∧
      ∃ t : Token, t.bytes = token ∧ buf = baseHandshake version flags t := by
  unfold decodeHandshake at h
  split at h
  · cases h
  rename_i hmagic
  split at h
  · cases h
  rename_i hversion
  split at h
  · cases h
  rename_i hflags
  cases h
  refine ⟨by tauto, not_not.1 hflags, ⟨buf.drop 6, by rw [List.length_drop, hl]; rfl⟩, rfl, ?_⟩
  have hfour : toLe 4 MAGIC = buf.take 4 := by
    have hle := toLe_ofLe (buf.take 4)
    rw [not_not.1 hmagic, List.length_take, hl] at hle
    exact hle
  have h4 : 4 < buf.length := by rw [hl]; decide
  have h5 : 5 < buf.length := by rw [hl]; decide
  have e4 : buf.getD 4 0 = buf[4] := by simp [h4]
  have e5 : buf.getD 5 0 = buf[5] := by simp [h5]
  unfold baseHandshake
  rw [hfour, e4, e5]
  calc buf = buf.take 4 ++ buf.drop 4 := (List.take_append_drop 4 buf).symm
    _ = buf.take 4 ++ (buf[4] :: buf[5] :: buf.drop 6) := by
      rw [List.drop_eq_getElem_cons h4, List.drop_eq_getElem_cons h5]

/-- This handshake is what an encoder wrote, with the fields it was given. -/
inductive Encoded : Handshake → Bytes → Prop
  | single {flags : UInt8} (token : Token) : flags &&& ~~~KNOWN_FLAGS = 0 →
      Encoded ⟨VERSION, flags, token.bytes, none⟩ (encodeHandshake flags token)
  | multi {flags : UInt8} (token : Token) (count index : UInt32) : flags &&& ~~~KNOWN_FLAGS = 0 →
      Encoded ⟨VERSION_MULTI, flags, token.bytes, some (count, index)⟩ (encodeHandshakeMulti flags token count index)

theorem Encoded.read {h : Handshake} {bs : Bytes} (he : Encoded h bs) (rest : Bytes) : readHandshake (bs ++ rest) = .ok h rest := by
  cases he with
  | single token hf => exact readHandshake_encode hf token rest
  | multi token count index hf => exact readHandshake_encodeMulti hf token count index rest

theorem readHandshake_encoded {bs rest : Bytes} {h : Handshake} (hr : readHandshake bs = .ok h rest) :
    ∃ enc, Encoded h enc ∧ bs = enc ++ rest := by
  unfold readHandshake at hr
  obtain ⟨buf, mid, hbuf, hm⟩ := Read.bind_eq_ok.1 hr
  obtain ⟨rfl, hl⟩ := readExact_ok hbuf
  split at hm
  · cases hm
  · rename_i version flags token hd
    obtain ⟨hv, hf, t, rfl, rfl⟩ := decodeHandshake_ok hl hd
    split at hm
    · rename_i hmulti
      subst hmulti
      obtain ⟨tail, mid', htail, hm'⟩ := Read.bind_eq_ok.1 hm
      obtain ⟨rfl, hlt⟩ := readExact_ok htail
      cases hm'
      refine ⟨_, .multi t (decodeStreams tail).1 (decodeStreams tail).2 hf, ?_⟩
      rw [encodeHandshakeMulti, encodeStreams_decodeStreams hlt, List.append_assoc]
    · rename_i hsingle
      obtain rfl := hv.resolve_right hsingle
      cases hm
      exact ⟨_, .single t hf, rfl⟩

/-- No encoding is a beginning of another one. -/
theorem Encoded.prefix_free {h h' : Handshake} {bs bs' : Bytes} (he : Encoded h bs) (he' : Encoded h' bs') (hp : bs <+: bs') :
    bs = bs' := by
  obtain ⟨more, rfl⟩ := hp
  have hr := he'.read []
  rw [List.append_nil, he.read more] at hr
  injection hr with _ hmore
  rw [hmore, List.append_nil]

/-- On a stream that ends, `read_handshake` succeeds exactly behind an encoding, with the fields that
were encoded and all that follows left unread; it fails on every other stream, and so on every
beginning of an encoding that is cut short. -/
theorem readHandshake_spec (bs : Bytes) :
    (∀ h rest, (readHandshake bs).atEof = .ok (h, rest) ↔ ∃ enc, Encoded h enc ∧ bs = enc ++ rest) ∧
    ((¬ ∃ h enc, Encoded h enc ∧ enc <+: bs) ↔ ∃ e, (readHandshake bs).atEof = .error e) ∧
    (∀ h enc, Encoded h enc → bs <+: enc → bs ≠ enc → ∃ e, (readHandshake bs).atEof = .error e) := by
  have hiff : ∀ h rest, (readHandshake bs).atEof = .ok (h, rest) ↔ ∃ enc, Encoded h enc ∧ bs = enc ++ rest := by
    intro h rest
    constructor
    · intro hr
      refine readHandshake_encoded ?_
      cases hb : readHandshake bs <;> rw [hb] at hr <;> cases hr
      rfl
    · rintro ⟨enc, he, rfl⟩
      rw [he.read rest]
      rfl
  have herror : (¬ ∃ h enc, Encoded h enc ∧ enc <+: bs) ↔ ∃ e, (readHandshake bs).atEof = .error e := by
    constructor
    · intro hno
      cases hr : (readHandshake bs).atEof with
      | error e => exact ⟨e, rfl⟩
      | ok x =>
        obtain ⟨enc, he, hbs⟩ := (hiff x.1 x.2).1 hr
        exact absurd ⟨x.1, enc, he, x.2, hbs.symm⟩ hno
    · rintro ⟨e, hr⟩ ⟨h, enc, he, rest, hbs⟩
      rw [(hiff h rest).2 ⟨enc, he, hbs.symm⟩] at hr
      cases hr
  refine ⟨hiff, herror, ?_⟩
  intro h enc he hp hne
  refine herror.1 ?_
  rintro ⟨h', enc', he', hp'⟩
  have heq := he'.prefix_free he (hp'.trans hp)
  subst heq
  exact hne (hp.eq_of_length (Nat.le_antisymm hp.length_le hp'.length_le))

end Thunderflash
