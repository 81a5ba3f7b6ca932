/-
Byte strings: little-endian numbers of a fixed width, UTF-8, and readers that take a prefix of
what has arrived so far or ask for more.
-/
import Mathlib.Data.List.Basic
import Mathlib.Tactic

namespace Codec

abbrev Bytes := List UInt8

/-! ## Little-endian numbers -/

def toLe : Nat → Nat → Bytes
  | 0, _ => []
  | w + 1, n => UInt8.ofNat (n % 256) :: toLe w (n / 256)

def ofLe : Bytes → Nat
  | [] => 0
  | b :: bs => b.toNat + 256 * ofLe bs

@[simp] theorem length_toLe : ∀ w n, (toLe w n).length = w
  | 0, _ => rfl
  | w + 1, n => by simp [toLe, length_toLe w]

theorem ofLe_toLe : ∀ {w n}, n < 256 ^ w → ofLe (toLe w n) = n
  | 0, n, h => by simp only [pow_zero] at h; simp [toLe, ofLe]; omega
  | w + 1, n, h => by
    have hq : n / 256 < 256 ^ w := by rw [Nat.div_lt_iff_lt_mul (by norm_num)]; rwa [pow_succ] at h
    have hb : (UInt8.ofNat (n % 256)).toNat = n % 256 := by
      rw [UInt8.toNat_ofNat']; omega
    simp only [toLe, ofLe, ofLe_toLe hq, hb]
    omega

theorem ofLe_lt : ∀ bs : Bytes, ofLe bs < 256 ^ bs.length
  | [] => by simp [ofLe]
  | b :: bs => by
    have h1 := ofLe_lt bs
    have h2 : b.toNat < 256 := b.toNat_lt
    simp only [ofLe, List.length_cons, pow_succ]
    omega

theorem toLe_ofLe : ∀ bs : Bytes, toLe bs.length (ofLe bs) = bs
  | [] => rfl
  | b :: bs => by
    have h2 : b.toNat < 256 := b.toNat_lt
    have hm : (b.toNat + 256 * ofLe bs) % 256 = b.toNat := by omega
    have hd : (b.toNat + 256 * ofLe bs) / 256 = ofLe bs := by omega
    simp only [List.length_cons, ofLe, toLe, hm, hd, toLe_ofLe bs]
    congr 1
    exact UInt8.ofNat_toNat

/-! ## UTF-8 -/

/-- What a decoder inside a character waits for: how many continuation bytes, and the range of the
next one. Between characters nothing is due. -/
structure Due where
  left : Nat
  lo : UInt8
  hi : UInt8
  deriving DecidableEq, Repr

def Due.none : Due := ⟨0, 0, 0⟩

/-- What the first byte of a character makes due; `none` when no character starts with it. -/
def lead (b : UInt8) : Option Due :=
  if b < 0x80 then some .none
  else if b < 0xC2 then none
  else if b < 0xE0 then some ⟨1, 0x80, 0xBF⟩
  else if b = 0xE0 then some ⟨2, 0xA0, 0xBF⟩
  else if b = 0xED then some ⟨2, 0x80, 0x9F⟩
  else if b < 0xF0 then some ⟨2, 0x80, 0xBF⟩
  else if b = 0xF0 then some ⟨3, 0x90, 0xBF⟩
  else if b < 0xF4 then some ⟨3, 0x80, 0xBF⟩
  else if b = 0xF4 then some ⟨3, 0x80, 0x8F⟩
  else none

/-- What is due after one more byte. -/
def Due.next (d : Due) (b : UInt8) : Option Due :=
  match d.left with
  | 0 => lead b
  | n + 1 => if d.lo ≤ b ∧ b ≤ d.hi then some ⟨n, 0x80, 0xBF⟩ else Option.none

def utf8From : Due → Bytes → Bool
  | d, [] => d.left == 0
  | d, b :: bs =>
    match d.next b with
    | some d' => utf8From d' bs
    | none => false

/-- Is this a sequence of whole characters? -/
def utf8 (bs : Bytes) : Bool := utf8From .none bs

theorem next_of_left_zero {d : Due} (h : d.left = 0) (b : UInt8) : d.next b = lead b := by
  simp [Due.next, h]

theorem utf8From_append : ∀ {a : Bytes} {d : Due} {b : Bytes}, utf8From d a = true → utf8 b = true →
    utf8From d (a ++ b) = true
  | [], d, [], ha, _ => ha
  | [], d, x :: b, ha, hb => by
    have h0 : d.left = 0 := by simpa [utf8From] using ha
    have hn : Due.none.next x = lead x := rfl
    simpa only [List.nil_append, utf8From, utf8, next_of_left_zero h0, hn] using hb
  | x :: a, d, b, ha, hb => by
    simp only [utf8From, List.cons_append] at ha ⊢
    cases h : d.next x with
    | none => simp [h] at ha
    | some d' => rw [h] at ha; exact utf8From_append ha hb

theorem utf8_append {a b : Bytes} (ha : utf8 a = true) (hb : utf8 b = true) : utf8 (a ++ b) = true :=
  utf8From_append ha hb

/-- U+FFFD. -/
def replacement : Bytes := [0xEF, 0xBF, 0xBD]

/-- Decode with every maximal part that no character can contain replaced by U+FFFD; `held` are the
bytes of the character under way. -/
def lossyFrom : Due → Bytes → Bytes → Bytes
  | d, held, [] => if d.left = 0 then held else replacement
  | d, held, b :: bs =>
    match d.next b with
    | some d' => if d.left = 0 then held ++ lossyFrom d' [b] bs else lossyFrom d' (held ++ [b]) bs
    | none =>
      -- the byte that broke the character may start the next one
      (if d.left = 0 then held else replacement) ++
        match lead b with
        | some d' => lossyFrom d' [b] bs
        | none => replacement ++ lossyFrom .none [] bs

/-- `String::from_utf8_lossy`. -/
def lossy (bs : Bytes) : Bytes := lossyFrom .none [] bs

theorem lossyFrom_of_utf8 : ∀ {bs : Bytes} {d : Due} (held : Bytes), utf8From d bs = true →
    lossyFrom d held bs = held ++ bs
  | [], d, held, h => by
    have h0 : d.left = 0 := by simpa [utf8From] using h
    simp [lossyFrom, h0]
  | b :: bs, d, held, h => by
    simp only [utf8From] at h
    cases hn : d.next b with
    | none => simp [hn] at h
    | some d' =>
      rw [hn] at h
      have ih := fun held => lossyFrom_of_utf8 held h
      simp only [lossyFrom, hn, ih]
      split <;> simp

/-- A valid string is its own lossy form. -/
theorem lossy_of_utf8 {bs : Bytes} (h : utf8 bs = true) : lossy bs = bs :=
  lossyFrom_of_utf8 [] h

/-! ## Readers -/

/-- The outcome of reading from the bytes that have arrived: more are needed, they are refused, or
a value and what is left. -/
inductive Read (ε α : Type)
  | more
  | fail (e : ε)
  | ok (a : α) (rest : Bytes)
  deriving DecidableEq, Repr

namespace Read

variable {ε α β : Type}

def bind (r : Read ε α) (f : α → Bytes → Read ε β) : Read ε β :=
  match r with
  | more => more
  | fail e => fail e
  | ok a rest => f a rest

theorem bind_eq_ok {r : Read ε α} {f : α → Bytes → Read ε β} {b : β} {rest : Bytes} :
    r.bind f = ok b rest ↔ ∃ a mid, r = ok a mid ∧ f a mid = ok b rest := by
  cases r <;> simp [bind]

end Read

/-- `read_exact`: the next `n` bytes. -/
def readExact {ε : Type} (n : Nat) (bs : Bytes) : Read ε Bytes :=
  if n ≤ bs.length then .ok (bs.take n) (bs.drop n) else .more

theorem readExact_append {ε : Type} {a : Bytes} (rest : Bytes) :
    (readExact a.length (a ++ rest) : Read ε Bytes) = .ok a rest := by
  simp [readExact]

theorem readExact_ok {ε : Type} {n : Nat} {bs a rest : Bytes}
    (h : (readExact n bs : Read ε Bytes) = .ok a rest) : bs = a ++ rest ∧ a.length = n := by
  unfold readExact at h
  split at h
  · cases h; simp [List.take_append_drop]; omega
  · cases h

namespace Read

variable {ε α β : Type}

/-- What a read comes to when the stream ends after the bytes that have arrived; `none` stands for
`UnexpectedEof`. -/
def atEof : Read ε α → Except (Option ε) (α × Bytes)
  | more => .error none
  | fail e => .error (some e)
  | ok a rest => .ok (a, rest)

/-- Bytes that arrive later do not change an outcome, they are left unread. -/
structure Stable (f : Bytes → Read ε α) : Prop where
  ok : ∀ {bs a rest}, f bs = .ok a rest → ∀ later, f (bs ++ later) = .ok a (rest ++ later)
  fail : ∀ {bs e}, f bs = .fail e → ∀ later, f (bs ++ later) = .fail e

theorem Stable.of_ok (a : α) : Stable (ε := ε) fun bs => .ok a bs :=
  ⟨fun h later => (by cases h; rfl), fun h => (by cases h)⟩

theorem Stable.of_fail (e : ε) : Stable (α := α) fun _ => .fail e :=
  ⟨fun h => (by cases h), fun h _ => h⟩

theorem stable_readExact (n : Nat) : Stable (readExact (ε := ε) n) := by
  refine ⟨fun {bs a rest} h later => ?_, fun {bs e} h => ?_⟩
  · obtain ⟨rfl, rfl⟩ := readExact_ok h
    rw [List.append_assoc]
    exact readExact_append _
  · unfold readExact at h
    split at h <;> cases h

theorem Stable.bind {f : Bytes → Read ε α} {g : α → Bytes → Read ε β} (hf : Stable f) (hg : ∀ a, Stable (g a)) :
    Stable fun bs => (f bs).bind g := by
  refine ⟨fun {bs b rest} h later => ?_, fun {bs e} h later => ?_⟩
  · obtain ⟨a, mid, h1, h2⟩ := bind_eq_ok.1 h
    exact bind_eq_ok.2 ⟨a, _, hf.ok h1 later, (hg a).ok h2 later⟩
  · cases hfb : f bs with
    | more => simp [hfb, Read.bind] at h
    | fail e' =>
      simp only [hfb, Read.bind] at h
      cases h
      simp [hf.fail hfb, Read.bind]
    | ok a mid =>
      simp only [hfb, Read.bind] at h
      simp only [hf.ok hfb, Read.bind]
      exact (hg a).fail h later

end Read

end Codec
