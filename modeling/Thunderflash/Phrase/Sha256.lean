/-
The SHA-256 that turns a phrase into a token, as it is written out in the program, and that it is the
standard's.
-/
import Thunderflash.Sha.Fips

namespace Thunderflash.Phrase

open Codec Fips

/-! ## The code -/

def K : List Word := [
  0x428a2f98, 0x71374491, 0xb5c0fbcf, 0xe9b5dba5, 0x3956c25b, 0x59f111f1, 0x923f82a4, 0xab1c5ed5,
  0xd807aa98, 0x12835b01, 0x243185be, 0x550c7dc3, 0x72be5d74, 0x80deb1fe, 0x9bdc06a7, 0xc19bf174,
  0xe49b69c1, 0xefbe4786, 0x0fc19dc6, 0x240ca1cc, 0x2de92c6f, 0x4a7484aa, 0x5cb0a9dc, 0x76f988da,
  0x983e5152, 0xa831c66d, 0xb00327c8, 0xbf597fc7, 0xc6e00bf3, 0xd5a79147, 0x06ca6351, 0x14292967,
  0x27b70a85, 0x2e1b2138, 0x4d2c6dfc, 0x53380d13, 0x650a7354, 0x766a0abb, 0x81c2c92e, 0x92722c85,
  0xa2bfe8a1, 0xa81a664b, 0xc24b8b70, 0xc76c51a3, 0xd192e819, 0xd6990624, 0xf40e3585, 0x106aa070,
  0x19a4c116, 0x1e376c08, 0x2748774c, 0x34b0bcb5, 0x391c0cb3, 0x4ed8aa4a, 0x5b9cca4f, 0x682e6ff3,
  0x748f82ee, 0x78a5636f, 0x84c87814, 0x8cc70208, 0x90befffa, 0xa4506ceb, 0xbef9a3f7, 0xc67178f2]

/-- The initial `h`. -/
def h0 : Vars :=
  ⟨0x6a09e667, 0xbb67ae85, 0x3c6ef372, 0xa54ff53a, 0x510e527f, 0x9b05688c, 0x1f83d9ab, 0x5be0cd19⟩

/-- `while msg.len() % 64 != 56 { msg.push(0) }`. -/
def padZeros (msg : Bytes) : Bytes :=
  if msg.length % 64 = 56 then msg else padZeros (msg ++ [0])
termination_by (120 - msg.length % 64) % 64
decreasing_by
  rw [List.length_append, List.length_singleton]
  omega

/-- The length in bits, a wrapping product. -/
def bitLen (data : Bytes) : UInt64 := UInt64.ofNat data.length * 8

def padded (data : Bytes) : Bytes := padZeros (data ++ [0x80]) ++ toBe 8 (bitLen data).toNat

/-- `chunks_exact(64)`. -/
def chunksExact (msg : Bytes) : List Bytes :=
  if 64 ≤ msg.length then msg.take 64 :: chunksExact (msg.drop 64) else []
termination_by msg.length
decreasing_by
  rw [List.length_drop]
  omega

/-- `u32::from_be_bytes` of the four bytes of word `i`. -/
def wordAt (block : Bytes) (i : Nat) : Word :=
  BitVec.ofNat 32 (ofBe [block.getD (4 * i) 0, block.getD (4 * i + 1) 0, block.getD (4 * i + 2) 0, block.getD (4 * i + 3) 0])

/-- One turn of the loop that extends the schedule in place. -/
def extend (w : List Word) (i : Nat) : List Word :=
  let x0 := w.getD (i - 15) 0
  let x1 := w.getD (i - 2) 0
  let s0 := x0.rotateRight 7 ^^^ x0.rotateRight 18 ^^^ (x0 >>> 3)
  let s1 := x1.rotateRight 17 ^^^ x1.rotateRight 19 ^^^ (x1 >>> 10)
  w.set i (w.getD (i - 16) 0 + s0 + w.getD (i - 7) 0 + s1)

/-- The first sixteen words of the array are the block's, and the others are computed from them. -/
def expand (block : Bytes) : List Word :=
  (List.range' 16 48).foldl extend ((List.range 16).foldl (fun w i => w.set i (wordAt block i)) (List.replicate 64 0))

/-- One turn of the loop over the eight variables. -/
def turn (w : List Word) (v : Vars) (i : Nat) : Vars :=
  let s1 := v.e.rotateRight 6 ^^^ v.e.rotateRight 11 ^^^ v.e.rotateRight 25
  let ch := (v.e &&& v.f) ^^^ (~~~v.e &&& v.g)
  let t1 := v.h + s1 + ch + K.getD i 0 + w.getD i 0
  let s0 := v.a.rotateRight 2 ^^^ v.a.rotateRight 13 ^^^ v.a.rotateRight 22
  let maj := (v.a &&& v.b) ^^^ (v.a &&& v.c) ^^^ (v.b &&& v.c)
  let t2 := s0 + maj
  let v := { v with h := v.g }
  let v := { v with g := v.f }
  let v := { v with f := v.e }
  let v := { v with e := v.d + t1 }
  let v := { v with d := v.c }
  let v := { v with c := v.b }
  let v := { v with b := v.a }
  { v with a := t1 + t2 }

/-- The loop's body for one block. -/
def absorb (h : Vars) (block : Bytes) : Vars :=
  let w := expand block
  let v := (List.range 64).foldl (turn w) h
  ⟨h.a + v.a, h.b + v.b, h.c + v.c, h.d + v.d, h.e + v.e, h.f + v.f, h.g + v.g, h.h + v.h⟩

def sha256 (data : Bytes) : Bytes :=
  let h := (chunksExact (padded data)).foldl absorb h0
  [h.a, h.b, h.c, h.d, h.e, h.f, h.g, h.h].flatMap fun word => toBe 4 word.toNat

/-! ## Padding -/

/-- The loop ends, and has added as many zeros as are missing. -/
theorem padZeros_eq (msg : Bytes) : padZeros msg = msg ++ List.replicate ((120 - msg.length % 64) % 64) 0 := by
  fun_induction padZeros msg with
  | case1 msg h => simp [h]
  | case2 msg h ih =>
    have hmore : (120 - msg.length % 64) % 64 = (120 - (msg.length + 1) % 64) % 64 + 1 := by omega
    rw [ih, List.length_append, List.length_singleton, hmore, List.replicate_succ, List.append_assoc]
    rfl

theorem toNat_bitLen {data : Bytes} (h : data.length < 2 ^ 61) : (bitLen data).toNat = 8 * data.length := by
  unfold bitLen
  rw [UInt64.toNat_mul, UInt64.toNat_ofNat']
  have h8 : (8 : UInt64).toNat = 8 := rfl
  rw [h8]
  omega

theorem padded_eq {data : Bytes} (h : data.length < 2 ^ 61) : padded data =
    data ++ (0x80 :: (List.replicate ((120 - (data.length + 1) % 64) % 64) 0 ++ toBe 8 (8 * data.length))) := by
  unfold padded
  rw [padZeros_eq, toNat_bitLen h, List.length_append, List.length_singleton]
  simp

theorem length_padded {data : Bytes} (h : data.length < 2 ^ 61) : (padded data).length % 64 = 0 := by
  rw [padded_eq h]
  simp only [List.length_append, List.length_cons, List.length_replicate, length_toBe]
  omega

theorem zeros_eq (n : Nat) : zeros (8 * n) = 7 + 8 * ((120 - (n + 1) % 64) % 64) := by
  unfold zeros
  rw [Nat.find_eq_iff]
  refine ⟨by omega, fun m hm => by omega⟩

/-- The padded message is the standard's. -/
theorem bits_padded {data : Bytes} (h : data.length < 2 ^ 61) : bits (padded data) = pad (bits data) := by
  have hmark : bits [0x80] = true :: List.replicate 7 false := by decide
  unfold pad
  rw [padded_eq h, length_bits, zeros_eq, bits_append, List.replicate_add, ← List.singleton_append, bits_append, bits_append,
    hmark, bits_zeros, bits_toBe]
  simp

/-- Distinct messages have distinct paddings. -/
theorem padded_injective {a b : Bytes} (ha : a.length < 2 ^ 61) (hb : b.length < 2 ^ 61) (h : padded a = padded b) : a = b := by
  have hbits := congrArg bits h
  rw [bits_padded ha, bits_padded hb] at hbits
  -- the last 64 bits tell the lengths
  obtain ⟨hfront, hlen⟩ := List.append_inj' hbits (by rw [length_bitsOf, length_bitsOf])
  have hl : (bits a).length = (bits b).length := by
    have hlt : ∀ {d : Bytes}, d.length < 2 ^ 61 → (bits d).length < 2 ^ 64 := by
      intro d hd
      rw [length_bits]
      omega
    rw [← ofBits_bitsOf (hlt ha), hlen, ofBits_bitsOf (hlt hb)]
  exact bits_injective (List.append_inj hfront hl).1

/-! ## Blocks -/

/-- Nothing is dropped where the length is a multiple of 64. -/
theorem chunksExact_flatten (msg : Bytes) (h : msg.length % 64 = 0) : (chunksExact msg).flatten = msg := by
  fun_induction chunksExact msg with
  | case1 msg hle ih =>
    rw [List.flatten_cons, ih (by rw [List.length_drop]; omega), List.take_append_drop]
  | case2 msg hlt =>
    have h0 : msg.length = 0 := by omega
    rw [List.length_eq_zero_iff.1 h0]
    rfl

theorem chunksExact_eq (msg : Bytes) :
    chunksExact msg = (List.range (msg.length / 64)).map fun i => (msg.drop (64 * i)).take 64 := by
  fun_induction chunksExact msg with
  | case1 msg hle ih =>
    have hlen : msg.length / 64 = (msg.drop 64).length / 64 + 1 := by
      rw [List.length_drop]
      omega
    rw [ih, hlen, List.range_succ_eq_map, List.map_cons, List.map_map]
    congr 1
    refine List.map_congr_left fun i _ => ?_
    rw [Function.comp_apply, List.drop_drop, Nat.mul_succ, Nat.add_comm]
  | case2 msg hlt =>
    rw [show msg.length / 64 = 0 by omega]
    rfl

theorem blocks_bits (msg : Bytes) : blocks (bits msg) = (chunksExact msg).map bits := by
  have hcount : (bits msg).length / 512 = msg.length / 64 := by
    rw [length_bits]
    omega
  unfold blocks
  rw [chunksExact_eq, List.map_map, hcount]
  refine List.map_congr_left fun i _ => ?_
  rw [Function.comp_apply, bits_take, bits_drop, show 512 * i = 8 * (64 * i) by omega]

theorem length_of_mem_chunks {msg block : Bytes} (h : block ∈ chunksExact msg) : block.length = 64 := by
  rw [chunksExact_eq] at h
  obtain ⟨i, hi, rfl⟩ := List.mem_map.1 h
  have hlt := List.mem_range.1 hi
  rw [List.length_take, List.length_drop]
  omega

/-! ## The schedule -/

/-- A word of a block is the standard's. -/
theorem wordAt_eq {block : Bytes} {i : Nat} (hl : block.length = 64) (hi : i < 16) : wordAt block i = wordOf (bits block) i := by
  have hfour : (block.drop (4 * i)).take 4 =
      [block.getD (4 * i) 0, block.getD (4 * i + 1) 0, block.getD (4 * i + 2) 0, block.getD (4 * i + 3) 0] := by
    have hget : ∀ {k : Nat}, k < 64 → block.drop k = block.getD k 0 :: block.drop (k + 1) := by
      intro k hk
      have hk' : k < block.length := by omega
      rw [List.drop_eq_getElem_cons hk']
      simp [hk']
    rw [hget (by omega), hget (k := 4 * i + 1) (by omega), hget (k := 4 * i + 1 + 1) (by omega),
      hget (k := 4 * i + 1 + 1 + 1) (by omega)]
    rfl
  unfold wordAt wordOf
  rw [← hfour, ← ofBits_bits, bits_take, bits_drop, show 32 * i = 8 * (4 * i) by omega]

theorem rotateRight_eq (x : Word) {n : Nat} (h : n < 32) : x.rotateRight n = ROTR n x := by
  rw [BitVec.rotateRight_def, Nat.mod_eq_of_lt h]
  rfl

theorem getD_set {w : List Word} {i k : Nat} {x : Word} (hi : i < w.length) :
    (w.set i x).getD k 0 = if k = i then x else w.getD k 0 := by
  by_cases hk : k = i
  · subst hk
    simp [hi]
  · simp [Ne.symm hk, hk]

/-- The first loop loads the block's words. -/
theorem load_eq (word : Nat → Word) (w : List Word) : ∀ n ≤ w.length,
    ((List.range n).foldl (fun w i => w.set i (word i)) w).length = w.length ∧
    ∀ k < n, ((List.range n).foldl (fun w i => w.set i (word i)) w).getD k 0 = word k
  | 0, _ => ⟨rfl, nofun⟩
  | n + 1, hn => by
    obtain ⟨hl, hk⟩ := load_eq word w n (by omega)
    rw [List.range_succ, List.foldl_append, List.foldl_cons, List.foldl_nil]
    refine ⟨by rw [List.length_set, hl], fun k hlt => ?_⟩
    rw [getD_set (by rw [hl]; omega)]
    split
    · rename_i he
      rw [he]
    · exact hk k (by omega)

/-- The second loop keeps the words there are and adds the next one: the array holds the schedule so
far. -/
theorem extend_eq {M : Nat → Word} {w : List Word} (hl : w.length = 64) (h16 : ∀ k < 16, w.getD k 0 = schedule M k) :
    ∀ n ≤ 48, ((List.range' 16 n).foldl extend w).length = 64 ∧
      ∀ k < 16 + n, ((List.range' 16 n).foldl extend w).getD k 0 = schedule M k
  | 0, _ => ⟨hl, h16⟩
  | n + 1, hn => by
    obtain ⟨hl', hk⟩ := extend_eq hl h16 n (by omega)
    rw [List.range'_1_concat, List.foldl_append, List.foldl_cons, List.foldl_nil]
    have hnext : schedule M (16 + n) = schedule M n + s0 (schedule M (n + 1)) + schedule M (n + 9) + s1 (schedule M (n + 14)) := by
      rw [schedule, if_neg (by omega), show 16 + n - 2 = n + 14 by omega, show 16 + n - 7 = n + 9 by omega,
        show 16 + n - 15 = n + 1 by omega, show 16 + n - 16 = n by omega]
      ac_rfl
    generalize (List.range' 16 n).foldl extend w = w' at hl' hk ⊢
    unfold extend
    refine ⟨by rw [List.length_set, hl'], fun k hlt => ?_⟩
    rw [getD_set (by rw [hl']; omega)]
    split
    · rename_i he
      rw [he, hnext, ← hk n (by omega), ← hk (n + 1) (by omega), ← hk (n + 9) (by omega), ← hk (n + 14) (by omega),
        show 16 + n - 2 = n + 14 by omega, show 16 + n - 7 = n + 9 by omega, show 16 + n - 15 = n + 1 by omega,
        show 16 + n - 16 = n by omega]
      simp only [rotateRight_eq _ (show 7 < 32 by decide), rotateRight_eq _ (show 18 < 32 by decide),
        rotateRight_eq _ (show 17 < 32 by decide), rotateRight_eq _ (show 19 < 32 by decide)]
      rfl
    · exact hk k (by omega)

/-- The array is the standard's message schedule. -/
theorem expand_eq {block : Bytes} (hl : block.length = 64) {t : Nat} (ht : t < 64) :
    (expand block).getD t 0 = schedule (wordOf (bits block)) t := by
  obtain ⟨hlen, hload⟩ := load_eq (wordAt block) (List.replicate 64 0) 16 (by decide)
  refine (extend_eq (by rw [hlen]; rfl) (fun k hk => ?_) 48 le_rfl).2 t ht
  rw [hload k hk, wordAt_eq hl hk, schedule, if_pos hk]

/-! ## The rounds -/

/-- The table is the standard's: the cube roots of the first 64 primes. -/
theorem K_eq : ∀ t < 64, K.getD t 0 = Fips.K t := by decide +kernel

theorem h0_eq : h0 = H0 := by decide +kernel

theorem turn_eq {w : List Word} {W : Nat → Word} {t : Nat} (ht : t < 64) (hw : w.getD t 0 = W t) (v : Vars) :
    turn w v t = round v (Fips.K t) (W t) := by
  unfold turn
  rw [hw, K_eq t ht]
  simp only [rotateRight_eq _ (show 6 < 32 by decide), rotateRight_eq _ (show 11 < 32 by decide),
    rotateRight_eq _ (show 25 < 32 by decide), rotateRight_eq _ (show 2 < 32 by decide),
    rotateRight_eq _ (show 13 < 32 by decide), rotateRight_eq _ (show 22 < 32 by decide)]
  rfl

theorem rounds_eq {w : List Word} {W : Nat → Word} (hw : ∀ t < 64, w.getD t 0 = W t) (v : Vars) :
    ∀ n ≤ 64, (List.range n).foldl (turn w) v = rounds W v n
  | 0, _ => rfl
  | n + 1, hn => by
    rw [List.range_succ, List.foldl_append, List.foldl_cons, List.foldl_nil, rounds_eq hw v n (by omega),
      turn_eq (by omega) (hw n (by omega))]
    rfl

theorem absorb_eq {block : Bytes} (hl : block.length = 64) (h : Vars) : absorb h block = compress h (bits block) := by
  show h.add ((List.range 64).foldl (turn (expand block)) h) = _
  rw [rounds_eq (fun t ht => expand_eq hl ht) h 64 le_rfl]
  rfl

theorem foldl_absorb : ∀ {blocks : List Bytes} (h : Vars), (∀ block ∈ blocks, block.length = 64) →
    blocks.foldl absorb h = (blocks.map bits).foldl compress h
  | [], _, _ => rfl
  | block :: blocks, h, hl => by
    rw [List.foldl_cons, List.map_cons, List.foldl_cons, absorb_eq (hl block (by simp))]
    exact foldl_absorb _ fun b hb => hl b (by simp [hb])

/-- The words are written as the standard's bits. -/
theorem bits_words : ∀ words : List Word, bits (words.flatMap fun word => toBe 4 word.toNat) = words.flatMap fun x => bitsOf 32 x.toNat
  | [] => rfl
  | word :: words => by
    rw [List.flatMap_cons, List.flatMap_cons, bits_append, bits_toBe, bits_words words]

/-- `sha256` is the standard's hash, of every message whose length in bits a 64-bit number holds: its
padding loop ends on a whole number of blocks, of which `chunks_exact` drops nothing, the padded
message is the standard's, and no two messages have the same. -/
theorem sha256_spec (data : Bytes) (h : data.length < 2 ^ 61) :
    bits (sha256 data) = Fips.sha256 (bits data) ∧
    (padded data).length % 64 = 0 ∧ (chunksExact (padded data)).flatten = padded data ∧
    bits (padded data) = pad (bits data) ∧
    ∀ other : Bytes, other.length < 2 ^ 61 → padded other = padded data → other = data := by
  refine ⟨?_, length_padded h, chunksExact_flatten _ (length_padded h), bits_padded h, fun other ho he => padded_injective ho h he⟩
  unfold sha256 Fips.sha256
  rw [foldl_absorb _ fun block hb => length_of_mem_chunks hb, ← blocks_bits, bits_padded h, h0_eq]
  exact bits_words _

/-- The hash of `abc`. -/
theorem sha256_spec_abc : bits (sha256 [97, 98, 99]) = Fips.sha256 (bits [97, 98, 99]) ∧
    (padded [97, 98, 99]).length % 64 = 0 ∧ (chunksExact (padded [97, 98, 99])).flatten = padded [97, 98, 99] ∧
    bits (padded [97, 98, 99]) = pad (bits [97, 98, 99]) ∧
    ∀ other : Bytes, other.length < 2 ^ 61 → padded other = padded [97, 98, 99] → other = [97, 98, 99] :=
  sha256_spec [97, 98, 99] (by decide)

example : sha256 [97, 98, 99] =
    [0xba, 0x78, 0x16, 0xbf, 0x8f, 0x01, 0xcf, 0xea, 0x41, 0x41, 0x40, 0xde, 0x5d, 0xae, 0x22, 0x23, 0xb0, 0x03, 0x61,
      0xa3, 0x96, 0x17, 0x7a, 0x9c, 0xb4, 0x10, 0xff, 0x61, 0xf2, 0x00, 0x15, 0xad] := by
  unfold sha256
  rw [padded_eq (by decide), chunksExact_eq]
  decide +kernel

end Thunderflash.Phrase
