import XcmpPrototype.Scale

/-!
# Keccak-256

The sponge with 1088 rate bits over the permutation of 24 rounds on 25 lanes of 64 bits.  The state is one number whose
lane `i = x + 5 y` occupies the bits `64 i, …, 64 i + 63`, so that a round is a handful of big-number operations and the
function can be evaluated inside a proof.
-/

open Scale

namespace Keccak

def laneMask : ℕ := 0xffffffffffffffff

def lane (s i : ℕ) : ℕ := (s >>> (64 * i)) &&& laneMask

def rotl (x r : ℕ) : ℕ := ((x <<< r) ||| (x >>> (64 - r))) &&& laneMask

/-- The state with the lanes `f 0, …, f (n - 1)`. -/
def pack (f : ℕ → ℕ) : ℕ → ℕ
  | 0 => 0
  | n + 1 => pack f n ||| (f n <<< (64 * n))

def roundConstants : List ℕ :=
  [0x0000000000000001, 0x0000000000008082, 0x800000000000808a, 0x8000000080008000, 0x000000000000808b,
    0x0000000080000001, 0x8000000080008081, 0x8000000000008009, 0x000000000000008a, 0x0000000000000088,
    0x0000000080008009, 0x000000008000000a, 0x000000008000808b, 0x800000000000008b, 0x8000000000008089,
    0x8000000000008003, 0x8000000000008002, 0x8000000000000080, 0x000000000000800a, 0x800000008000000a,
    0x8000000080008081, 0x8000000000008080, 0x0000000080000001, 0x8000000080008008]

/-- The rotation of each lane. -/
def offsets : List ℕ :=
  [0, 1, 62, 28, 27, 36, 44, 6, 55, 20, 3, 10, 43, 25, 39, 41, 45, 15, 21, 8, 18, 2, 61, 56, 14]

def theta (s : ℕ) : ℕ :=
  let c := pack (fun x => lane s x ^^^ lane s (x + 5) ^^^ lane s (x + 10) ^^^ lane s (x + 15) ^^^ lane s (x + 20)) 5
  let d := pack (fun x => lane c ((x + 4) % 5) ^^^ rotl (lane c ((x + 1) % 5)) 1) 5
  pack (fun i => lane s i ^^^ lane d (i % 5)) 25

/-- Rotates every lane and moves lane `(x, y)` to `(y, 2 x + 3 y)`. -/
def rhoPi (s : ℕ) : ℕ :=
  pack (fun j =>
    let i := (j % 5 + 3 * (j / 5)) % 5 + 5 * (j % 5)
    rotl (lane s i) (offsets.getD i 0)) 25

def chi (s : ℕ) : ℕ :=
  pack (fun j =>
    let row := 5 * (j / 5)
    lane s j ^^^ ((laneMask ^^^ lane s ((j + 1) % 5 + row)) &&& lane s ((j + 2) % 5 + row))) 25

def permute (s : ℕ) : ℕ := roundConstants.foldl (fun s k => chi (rhoPi (theta s)) ^^^ k) s

/-- Absorbs blocks of 136 bytes; the last one is padded with `0x01 … 0x80`. -/
def absorb : ℕ → ℕ → Bytes → ℕ
  | 0, s, _ => s
  | n + 1, s, b =>
    if b.length < 136 then permute (s ^^^ ofLeBytes b ^^^ (1 <<< (8 * b.length)) ^^^ (0x80 <<< (8 * 135)))
    else absorb n (permute (s ^^^ ofLeBytes (b.take 136))) (b.drop 136)

/-- The digest of `b`: 32 bytes.  Only the kernel should ever unfold it. -/
@[irreducible] def digest (b : Bytes) : Bytes := leBytes 32 (absorb (b.length + 1) 0 b)

@[simp] theorem length_digest (b : Bytes) : (digest b).length = 32 := by
  unfold digest
  exact length_leBytes 32 _

example : (digest []).take 4 = [0xc5, 0xd2, 0x46, 0x01] := by decide +kernel

end Keccak
