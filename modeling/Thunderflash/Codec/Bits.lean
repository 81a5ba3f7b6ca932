/-
Numbers and bytes as strings of bits, the most significant bit first: what a number's bits are, what
number a string of bits is, and how both split where strings are appended.
-/
import Thunderflash.Codec.Bytes

namespace Codec

/-- The low `w` bits of a number. -/
def bitsOf : Nat → Nat → List Bool
  | 0, _ => []
  | w + 1, n => n.testBit w :: bitsOf w n

/-- The number a string of bits is. -/
def ofBits (l : List Bool) : Nat := l.foldl (fun n b => 2 * n + b.toNat) 0

/-- The bits of some bytes. -/
def bits (bs : Bytes) : List Bool := bs.flatMap fun b => bitsOf 8 b.toNat

/-! ## Bits of numbers -/

@[simp] theorem length_bitsOf (w n : Nat) : (bitsOf w n).length = w := by
  induction w with
  | zero => rfl
  | succ w ih => rw [bitsOf, List.length_cons, ih]

/-- The bits of a number are those of its upper and its lower half. -/
theorem bitsOf_add (v w n : Nat) : bitsOf (v + w) n = bitsOf v (n / 2 ^ w) ++ bitsOf w n := by
  induction v with
  | zero => simp [bitsOf]
  | succ v ih =>
    rw [Nat.succ_add, bitsOf, bitsOf, List.cons_append, ih, Nat.testBit_div_two_pow, Nat.add_comm]

theorem bitsOf_mod (w n : Nat) : bitsOf w (n % 2 ^ w) = bitsOf w n := by
  have hlow : ∀ {v : Nat}, v ≤ w → bitsOf v (n % 2 ^ w) = bitsOf v n := by
    intro v
    induction v with
    | zero => exact fun _ => rfl
    | succ v ih =>
      intro hv
      have hbit : (n % 2 ^ w).testBit v = n.testBit v := by
        rw [Nat.testBit_mod_two_pow, decide_eq_true (Nat.lt_of_succ_le hv), Bool.true_and]
      rw [bitsOf, bitsOf, hbit, ih (Nat.le_of_succ_le hv)]
  exact hlow le_rfl

theorem bitsOf_zero (w : Nat) : bitsOf w 0 = List.replicate w false := by
  induction w with
  | zero => rfl
  | succ w ih => rw [bitsOf, Nat.zero_testBit, ih, List.replicate_succ]

/-! ## Numbers of bits -/

theorem foldl_bits (l : List Bool) (n : Nat) :
    l.foldl (fun n b => 2 * n + b.toNat) n = n * 2 ^ l.length + ofBits l := by
  induction l generalizing n with
  | nil => simp [ofBits]
  | cons b l ih =>
    have h1 := ih (2 * n + b.toNat)
    have h2 := ih (2 * 0 + b.toNat)
    rw [ofBits, List.foldl_cons, List.foldl_cons, h1, h2, List.length_cons, pow_succ]
    ring

theorem ofBits_append (a b : List Bool) : ofBits (a ++ b) = ofBits a * 2 ^ b.length + ofBits b := by
  rw [ofBits, List.foldl_append, foldl_bits]
  rfl

/-- A number within `w` bits is the number of its bits. -/
theorem ofBits_bitsOf {w n : Nat} (h : n < 2 ^ w) : ofBits (bitsOf w n) = n := by
  induction w generalizing n with
  | zero =>
    have h0 : n = 0 := by simpa using h
    rw [h0]
    rfl
  | succ w ih =>
    have hmod : n % 2 ^ w < 2 ^ w := Nat.mod_lt _ (Nat.two_pow_pos w)
    have htop : (n.testBit w).toNat = n / 2 ^ w := by
      rw [Nat.toNat_testBit, Nat.mod_eq_of_lt]
      rw [Nat.div_lt_iff_lt_mul (Nat.two_pow_pos w)]
      rw [pow_succ] at h
      omega
    calc ofBits (bitsOf (w + 1) n)
        = ofBits [n.testBit w] * 2 ^ w + ofBits (bitsOf w n) := by
          rw [bitsOf, ← List.singleton_append, ofBits_append, length_bitsOf]
      _ = n / 2 ^ w * 2 ^ w + n % 2 ^ w := by
          rw [← bitsOf_mod, ih hmod, ← htop]
          simp [ofBits]
      _ = n := by rw [Nat.mul_comm]; exact Nat.div_add_mod n (2 ^ w)

/-! ## Bytes -/

@[simp] theorem bits_nil : bits [] = [] := rfl

@[simp] theorem bits_append (a b : Bytes) : bits (a ++ b) = bits a ++ bits b := by simp [bits]

theorem bits_singleton (b : UInt8) : bits [b] = bitsOf 8 b.toNat := by simp [bits]

theorem bits_cons (b : UInt8) (bs : Bytes) : bits (b :: bs) = bitsOf 8 b.toNat ++ bits bs := rfl

@[simp] theorem length_bits (bs : Bytes) : (bits bs).length = 8 * bs.length := by
  induction bs with
  | nil => rfl
  | cons b bs ih =>
    rw [bits_cons, List.length_append, length_bitsOf, ih, List.length_cons]
    omega

theorem bits_take (bs : Bytes) (n : Nat) : bits (bs.take n) = (bits bs).take (8 * n) := by
  by_cases hn : n ≤ bs.length
  · have hsplit : bits bs = bits (bs.take n) ++ bits (bs.drop n) := by rw [← bits_append, List.take_append_drop]
    rw [hsplit, List.take_left' (by rw [length_bits, List.length_take, Nat.min_eq_left hn])]
  · rw [List.take_of_length_le (by omega), List.take_of_length_le]
    rw [length_bits]
    omega

theorem bits_drop (bs : Bytes) (n : Nat) : bits (bs.drop n) = (bits bs).drop (8 * n) := by
  by_cases hn : n ≤ bs.length
  · have hsplit : bits bs = bits (bs.take n) ++ bits (bs.drop n) := by rw [← bits_append, List.take_append_drop]
    rw [hsplit, List.drop_left' (by rw [length_bits, List.length_take, Nat.min_eq_left hn])]
  · rw [List.drop_of_length_le (by omega), List.drop_of_length_le]
    · rfl
    · rw [length_bits]
      omega

theorem bits_zeros (n : Nat) : bits (List.replicate n 0) = List.replicate (8 * n) false := by
  induction n with
  | zero => rfl
  | succ n ih =>
    rw [List.replicate_succ, bits_cons, ih, UInt8.toNat_zero, bitsOf_zero, ← List.replicate_add, Nat.mul_succ, Nat.add_comm]

/-- Bytes are told apart by their bits. -/
theorem bits_injective : ∀ {a b : Bytes}, bits a = bits b → a = b
  | [], [], _ => rfl
  | [], _ :: _, h => by simpa using congrArg List.length h
  | _ :: _, [], h => by simpa using congrArg List.length h
  | x :: a, y :: b, h => by
    rw [bits_cons, bits_cons] at h
    obtain ⟨hx, htail⟩ := List.append_inj h (by rw [length_bitsOf, length_bitsOf])
    have hxy : x.toNat = y.toNat := by
      rw [← ofBits_bitsOf (w := 8) x.toNat_lt, hx, ofBits_bitsOf (w := 8) y.toNat_lt]
    rw [UInt8.toNat_inj.1 hxy, bits_injective htail]

/-! ## Words -/

/-- A number as `w` bytes, the most significant first. -/
def toBe (w n : Nat) : Bytes := (toLe w n).reverse

/-- The number `w` bytes are, the most significant first. -/
def ofBe (bs : Bytes) : Nat := ofLe bs.reverse

theorem length_toBe (w n : Nat) : (toBe w n).length = w := by simp [toBe]

theorem toBe_succ (w n : Nat) : toBe (w + 1) n = toBe w (n / 256) ++ [UInt8.ofNat (n % 256)] := by simp [toBe, toLe]

theorem bits_toBe (w n : Nat) : bits (toBe w n) = bitsOf (8 * w) n := by
  induction w generalizing n with
  | zero => rfl
  | succ w ih =>
    have hlow : (UInt8.ofNat (n % 256)).toNat = n % 2 ^ 8 := by
      rw [UInt8.toNat_ofNat', Nat.mod_mod]
      rfl
    rw [toBe_succ, bits_append, ih, bits_singleton, hlow, bitsOf_mod, Nat.mul_succ, bitsOf_add]
    rfl

/-- The number of some bytes is that of their bits. -/
theorem ofBits_bits (bs : Bytes) : ofBits (bits bs) = ofBe bs := by
  induction bs using List.reverseRecOn with
  | nil => rfl
  | append_singleton bs b ih =>
    rw [bits_append, bits_singleton, ofBits_append, length_bitsOf, ih, ofBits_bitsOf (w := 8) b.toNat_lt]
    simp only [ofBe, List.reverse_append, List.reverse_cons, List.reverse_nil, List.nil_append, List.singleton_append, ofLe]
    omega

end Codec
