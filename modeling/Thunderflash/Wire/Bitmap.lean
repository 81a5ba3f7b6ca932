/-
The manifest's answer: one bit per File entry, least significant first within each byte.
-/
import Thunderflash.Codec.Bytes

namespace Thunderflash

open Codec

/-- The byte whose bit `j` is set when `bit j` is. -/
def packByte (bit : Nat → Bool) : UInt8 :=
  (List.range 8).foldl (fun b j => if bit j then b ||| (1 <<< UInt8.ofNat j) else b) 0

/-- Pack one bit per File entry, in wire order. -/
def encodeBitmap (bits : List Bool) : Bytes :=
  (List.range ((bits.length + 7) / 8)).map fun k => packByte fun j => bits.getD (8 * k + j) false

def bitAt (bytes : Bytes) (i : Nat) : Bool :=
  bytes.getD (i / 8) 0 >>> UInt8.ofNat (i % 8) &&& 1 == 1

/-- Read the bitmap answering a manifest of `n` File entries. -/
def readBitmap (n : Nat) (bs : Bytes) : Read Empty (List Bool) :=
  (readExact ((n + 7) / 8) bs).bind fun bytes rest => .ok ((List.range n).map (bitAt bytes)) rest

@[simp] theorem length_encodeBitmap (bits : List Bool) :
    (encodeBitmap bits).length = (bits.length + 7) / 8 := by simp [encodeBitmap]

theorem bit_packByte (bit : Nat → Bool) {j : Nat} (hj : j < 8) :
    (packByte bit >>> UInt8.ofNat j &&& 1 == 1) = bit j := by
  have h : ∀ b0 b1 b2 b3 b4 b5 b6 b7 : Bool, ∀ j : Fin 8,
      (packByte (fun k => [b0, b1, b2, b3, b4, b5, b6, b7].getD k false) >>> UInt8.ofNat j.val &&& 1 == 1) =
        [b0, b1, b2, b3, b4, b5, b6, b7].getD j.val false := by
    decide +kernel
  have hb : ∀ k < 8, [bit 0, bit 1, bit 2, bit 3, bit 4, bit 5, bit 6, bit 7].getD k false = bit k := by
    intro k hk
    interval_cases k <;> rfl
  have hp : packByte bit =
      packByte fun k => [bit 0, bit 1, bit 2, bit 3, bit 4, bit 5, bit 6, bit 7].getD k false := by
    simp [packByte, List.range_succ]
  rw [hp, h _ _ _ _ _ _ _ _ ⟨j, hj⟩, hb j hj]

/-- Reading back what was packed gives the bits and leaves what follows. -/
theorem readBitmap_encodeBitmap (bits : List Bool) (rest : Bytes) :
    readBitmap bits.length (encodeBitmap bits ++ rest) = .ok bits rest := by
  unfold readBitmap
  have hr := readExact_append (ε := Empty) (a := encodeBitmap bits) rest
  rw [length_encodeBitmap] at hr
  simp only [hr, Read.bind, Read.ok.injEq, and_true]
  refine List.ext_getElem (by simp) fun i h1 h2 => ?_
  have hk : i / 8 < (bits.length + 7) / 8 := by omega
  have he : 8 * (i / 8) + i % 8 = i := by omega
  simp only [List.getElem_map, List.getElem_range, bitAt]
  have hb : (encodeBitmap bits).getD (i / 8) 0 = packByte fun j => bits.getD (8 * (i / 8) + j) false := by
    rw [List.getD_eq_getElem?_getD, List.getElem?_eq_getElem (by simpa using hk)]
    simp [encodeBitmap]
  rw [hb, bit_packByte _ (Nat.mod_lt _ (by norm_num)), he]
  simp [List.getD_eq_getElem?_getD, List.getElem?_eq_getElem h2]

theorem stable_readBitmap (n : Nat) : Read.Stable (readBitmap n) := (Read.stable_readExact _).bind fun _ => .of_ok _

end Thunderflash
