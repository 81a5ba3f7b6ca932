/-
SHA-256 as FIPS 180-4 defines it: on strings of bits, with the padding of section 5.1.1, the
recursive message schedule and the compression function of section 6.2.2, and the constants as the
fractional parts of roots of primes.
-/
import Thunderflash.Codec.Bits
import Mathlib.Data.Nat.NthRoot.Defs
import Mathlib.Data.Nat.Prime.Defs

namespace Fips

open Codec

abbrev Word := BitVec 32

/-! ## Functions -/

def ROTR (n : Nat) (x : Word) : Word := (x >>> n) ||| (x <<< (32 - n))

def SHR (n : Nat) (x : Word) : Word := x >>> n

def Ch (x y z : Word) : Word := (x &&& y) ^^^ (~~~x &&& z)

def Maj (x y z : Word) : Word := (x &&& y) ^^^ (x &&& z) ^^^ (y &&& z)

/-- The upper-case sigmas. -/
def S0 (x : Word) : Word := ROTR 2 x ^^^ ROTR 13 x ^^^ ROTR 22 x
def S1 (x : Word) : Word := ROTR 6 x ^^^ ROTR 11 x ^^^ ROTR 25 x

/-- The lower-case ones. -/
def s0 (x : Word) : Word := ROTR 7 x ^^^ ROTR 18 x ^^^ SHR 3 x
def s1 (x : Word) : Word := ROTR 17 x ^^^ ROTR 19 x ^^^ SHR 10 x

/-! ## Constants -/

/-- The first 64 primes. -/
def primes : List Nat := (List.range 312).filter Nat.Prime

/-- The first 32 bits of the fractional part of the `k`-th root of `p`. -/
def rootBits (k p : Nat) : Word := BitVec.ofNat 32 (Nat.nthRoot k (p * 2 ^ (32 * k)))

/-- Of the cube roots of the first 64 primes. -/
def K (t : Nat) : Word := rootBits 3 (primes.getD t 0)

/-- Eight words: a hash value, or the working variables. -/
structure Vars where
  a : Word
  b : Word
  c : Word
  d : Word
  e : Word
  f : Word
  g : Word
  h : Word
  deriving DecidableEq, Repr

/-- Of the square roots of the first eight primes. -/
def H0 : Vars where
  a := rootBits 2 (primes.getD 0 0)
  b := rootBits 2 (primes.getD 1 0)
  c := rootBits 2 (primes.getD 2 0)
  d := rootBits 2 (primes.getD 3 0)
  e := rootBits 2 (primes.getD 4 0)
  f := rootBits 2 (primes.getD 5 0)
  g := rootBits 2 (primes.getD 6 0)
  h := rootBits 2 (primes.getD 7 0)

theorem length_primes : primes.length = 64 := by decide +kernel

/-! ## Padding -/

theorem exists_zeros (l : Nat) : ∃ k, (l + 1 + k) % 512 = 448 := ⟨(959 - l % 512) % 512, by omega⟩

/-- The smallest `k` with `l + 1 + k = 448` modulo 512. -/
def zeros (l : Nat) : Nat := Nat.find (exists_zeros l)

/-- The message, a one, `k` zeros and the length as a 64-bit number. -/
def pad (M : List Bool) : List Bool := M ++ true :: List.replicate (zeros M.length) false ++ bitsOf 64 M.length

/-- The blocks of 512 bits. -/
def blocks (P : List Bool) : List (List Bool) := (List.range (P.length / 512)).map fun i => (P.drop (512 * i)).take 512

/-- The words of a block. -/
def wordOf (B : List Bool) (t : Nat) : Word := BitVec.ofNat 32 (ofBits ((B.drop (32 * t)).take 32))

/-! ## The hash -/

/-- The message schedule. -/
def schedule (M : Nat → Word) (t : Nat) : Word :=
  if t < 16 then M t
  else s1 (schedule M (t - 2)) + schedule M (t - 7) + s0 (schedule M (t - 15)) + schedule M (t - 16)
termination_by t

def T1 (v : Vars) (k w : Word) : Word := v.h + S1 v.e + Ch v.e v.f v.g + k + w

def T2 (v : Vars) : Word := S0 v.a + Maj v.a v.b v.c

def round (v : Vars) (k w : Word) : Vars := ⟨T1 v k w + T2 v, v.a, v.b, v.c, v.d + T1 v k w, v.e, v.f, v.g⟩

/-- The working variables before round `t`. -/
def rounds (W : Nat → Word) (v : Vars) : Nat → Vars
  | 0 => v
  | t + 1 => round (rounds W v t) (K t) (W t)

def Vars.add (x y : Vars) : Vars :=
  ⟨x.a + y.a, x.b + y.b, x.c + y.c, x.d + y.d, x.e + y.e, x.f + y.f, x.g + y.g, x.h + y.h⟩

/-- The hash value after a block. -/
def compress (H : Vars) (B : List Bool) : Vars := H.add (rounds (schedule (wordOf B)) H 64)

def Vars.bits (H : Vars) : List Bool := [H.a, H.b, H.c, H.d, H.e, H.f, H.g, H.h].flatMap fun x => bitsOf 32 x.toNat

def sha256 (M : List Bool) : List Bool := ((blocks (pad M)).foldl compress H0).bits

end Fips
