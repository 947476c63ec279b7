import Mathlib.Data.Nat.Notation
import Resonantia.Library.Bytes
import Resonantia.Library.Slice

/-!
# The secure hash standard

SHA-256 as the standard defines it: the message is padded to whole blocks, and every block
transforms a hash value of eight words. The constants are the first bits of the fractional parts of
roots of primes. The transformation of a sequence of blocks is stated for any block size.

## Main definitions

* `SecureHash.absorb`: the transformation of a hash value by the blocks of a message.
* `SecureHash.pad`: padding.
* `SecureHash.schedule`, `SecureHash.compress`: the message schedule and the rounds of one block.
* `SecureHash.sha256`: the digest of a message.

## Main results

* `SecureHash.absorb_append`: whole blocks are absorbed one after the other.
* `SecureHash.exists_root`: the constants have the bits of the roots.
* `SecureHash.zeros_least`: the padding is the shortest one.
-/

namespace SecureHash

open ByteString Slices

/-! ### Sequences of blocks -/

section Absorb

variable {S α : Type} {f : S → List α → S} {n : ℕ}

/-- A hash value after the whole blocks of a message. -/
def absorb (f : S → List α → S) (n : ℕ) (s : S) (message : List α) : S :=
  (List.range (message.length / n)).foldl
    (fun s i => f s (slice message (i * n) ((i + 1) * n))) s

theorem absorb_of_length (hn : 0 < n) (s : S) {block : List α} (h : block.length = n) :
    absorb f n s block = f s block := by
  rw [absorb, h, Nat.div_self hn, List.range_one, List.foldl_cons, List.foldl_nil, Nat.zero_mul,
    Nat.zero_add, Nat.one_mul, slice_zero_of_length h]

theorem absorb_nil (s : S) : absorb f n s [] = s := by
  rw [absorb, List.length_nil, Nat.zero_div, List.range_zero, List.foldl_nil]

/-- **Whole blocks** are absorbed one after the other. -/
theorem absorb_append (hn : 0 < n) (s : S) {a : List α} (b : List α) (h : n ∣ a.length) :
    absorb f n s (a ++ b) = absorb f n (absorb f n s a) b := by
  obtain ⟨p, hp⟩ := h
  have hlength : (a ++ b).length / n = p + b.length / n := by
    rw [List.length_append, hp, Nat.mul_add_div hn]
  have hfirst : a.length / n = p := by
    rw [hp, Nat.mul_div_cancel_left p hn]
  rw [absorb, hlength, List.range_add, List.foldl_append, List.foldl_map]
  have hblocks : (List.range p).foldl
      (fun s i => f s (slice (a ++ b) (i * n) ((i + 1) * n))) s = absorb f n s a := by
    rw [absorb, hfirst]
    refine List.foldl_ext _ _ _ fun s i hi => ?_
    have hle : (i + 1) * n ≤ p * n := Nat.mul_le_mul_right n (List.mem_range.1 hi)
    rw [slice_append_left a b (by rw [hp, Nat.mul_comm n p]; exact hle)]
  rw [hblocks, absorb]
  refine List.foldl_ext _ _ _ fun s i _ => ?_
  have hstart : (p + i) * n = a.length + i * n := by
    rw [hp, Nat.add_mul, Nat.mul_comm n p]
  have hend : (p + i + 1) * n = a.length + (i + 1) * n := by
    rw [hp, Nat.add_assoc, Nat.add_mul, Nat.mul_comm n p]
  rw [slice_append_right a b (by omega), hstart, hend, Nat.add_sub_cancel_left,
    Nat.add_sub_cancel_left]

end Absorb

/-! ### Words -/

/-- The number with these bytes, the most significant one first. -/
def ofBigEndian (l : Bytes) : ℕ := ofLittleEndian l.reverse

/-- The lowest `count` bytes of a number, the most significant one first. -/
def bigEndian (count n : ℕ) : Bytes := (littleEndian count n).reverse

@[simp]
theorem length_bigEndian (count n : ℕ) : (bigEndian count n).length = count := by
  rw [bigEndian, List.length_reverse, length_littleEndian]

/-- Rotation to the right. -/
def rotr (x : UInt32) (n : UInt32) : UInt32 := x >>> n ||| x <<< (32 - n)

def ch (x y z : UInt32) : UInt32 := (x &&& y) ^^^ (~~~x &&& z)

def maj (x y z : UInt32) : UInt32 := (x &&& y) ^^^ (x &&& z) ^^^ (y &&& z)

def bigSigma0 (x : UInt32) : UInt32 := rotr x 2 ^^^ rotr x 13 ^^^ rotr x 22

def bigSigma1 (x : UInt32) : UInt32 := rotr x 6 ^^^ rotr x 11 ^^^ rotr x 25

def smallSigma0 (x : UInt32) : UInt32 := rotr x 7 ^^^ rotr x 18 ^^^ x >>> 3

def smallSigma1 (x : UInt32) : UInt32 := rotr x 17 ^^^ rotr x 19 ^^^ x >>> 10

/-! ### Constants -/

/-- The integer part of the root of degree `k`, from its highest bit down. -/
def rootBits (k n : ℕ) : ℕ → ℕ → ℕ
  | 0, root => root
  | bit + 1, root =>
    rootBits k n bit (if (root + 2 ^ bit) ^ k ≤ n then root + 2 ^ bit else root)

/-- The search finds the integer part of a root. -/
theorem rootBits_spec {k n bit root : ℕ} (hle : root ^ k ≤ n) (hlt : n < (root + 2 ^ bit) ^ k) :
    rootBits k n bit root ^ k ≤ n ∧ n < (rootBits k n bit root + 1) ^ k := by
  induction bit generalizing root with
  | zero => exact ⟨hle, hlt⟩
  | succ bit ih =>
    rw [rootBits]
    split_ifs with hroot
    · refine ih hroot ?_
      rw [Nat.add_assoc, ← Nat.two_mul, ← Nat.pow_succ']
      exact hlt
    · exact ih hle (Nat.lt_of_not_le hroot)

/-- The first 32 bits of the fractional part of the root of degree `k` of a small number. -/
def rootFraction (k n : ℕ) : UInt32 := (rootBits k (n * 2 ^ (32 * k)) 40 0).toUInt32

theorem exists_root {k n : ℕ} (hk : k ≠ 0) (h : n < 2 ^ (8 * k)) :
    ∃ root, rootFraction k n = root.toUInt32 ∧ root ^ k ≤ n * 2 ^ (32 * k) ∧
      n * 2 ^ (32 * k) < (root + 1) ^ k := by
  refine ⟨_, rfl, rootBits_spec ?_ ?_⟩
  · rw [Nat.zero_pow (Nat.pos_of_ne_zero hk)]
    exact Nat.zero_le _
  · have hsplit : (0 + 2 ^ 40) ^ k = 2 ^ (8 * k) * 2 ^ (32 * k) := by
      rw [Nat.zero_add, ← Nat.pow_mul, ← Nat.pow_add]
      congr 1
      omega
    rw [hsplit]
    exact Nat.mul_lt_mul_of_pos_right h (Nat.two_pow_pos _)

/-- The first 64 primes. -/
def primes : List ℕ :=
  [2, 3, 5, 7, 11, 13, 17, 19, 23, 29, 31, 37, 41, 43, 47, 53, 59, 61, 67, 71, 73, 79, 83, 89, 97,
    101, 103, 107, 109, 113, 127, 131, 137, 139, 149, 151, 157, 163, 167, 173, 179, 181, 191, 193,
    197, 199, 211, 223, 227, 229, 233, 239, 241, 251, 257, 263, 269, 271, 277, 281, 283, 293, 307,
    311]

/-- The constants of the rounds, from the cube roots. -/
def roundConstants : List UInt32 := primes.map (rootFraction 3)

/-- The words of a hash value, and the working variables of the rounds. -/
structure Words where
  a : UInt32
  b : UInt32
  c : UInt32
  d : UInt32
  e : UInt32
  f : UInt32
  g : UInt32
  h : UInt32
deriving DecidableEq

def Words.toList (s : Words) : List UInt32 := [s.a, s.b, s.c, s.d, s.e, s.f, s.g, s.h]

/-- The initial hash value, from the square roots of the first eight primes. -/
def initial : Words :=
  ⟨rootFraction 2 2, rootFraction 2 3, rootFraction 2 5, rootFraction 2 7, rootFraction 2 11,
    rootFraction 2 13, rootFraction 2 17, rootFraction 2 19⟩

/-! ### One block -/

/-- The words of a block. -/
def messageWord (block : Bytes) (t : ℕ) : UInt32 :=
  (ofBigEndian (slice block (4 * t) (4 * t + 4))).toUInt32

/-- The message schedule. -/
def schedule (block : Bytes) (t : ℕ) : UInt32 :=
  if t < 16 then messageWord block t
  else
    smallSigma1 (schedule block (t - 2)) + schedule block (t - 7) +
      smallSigma0 (schedule block (t - 15)) + schedule block (t - 16)
termination_by t

/-- One round. -/
def round (s : Words) (k w : UInt32) : Words :=
  let t₁ := s.h + bigSigma1 s.e + ch s.e s.f s.g + k + w
  let t₂ := bigSigma0 s.a + maj s.a s.b s.c
  ⟨t₁ + t₂, s.a, s.b, s.c, s.d + t₁, s.e, s.f, s.g⟩

def Words.add (s t : Words) : Words :=
  ⟨s.a + t.a, s.b + t.b, s.c + t.c, s.d + t.d, s.e + t.e, s.f + t.f, s.g + t.g, s.h + t.h⟩

/-- The next hash value. -/
def compress (s : Words) (block : Bytes) : Words :=
  s.add ((List.range 64).foldl
    (fun s t => round s (roundConstants.getD t 0) (schedule block t)) s)

/-! ### Messages -/

/-- The count of zero bytes in the padding of a message of `n` bytes. -/
def zeros (n : ℕ) : ℕ := (55 + 64 - n % 64) % 64

/-- The padding is the shortest one: a bit and zeros up to 448 modulo 512 bits. -/
theorem zeros_least (n : ℕ) :
    (8 * n + 1 + (8 * zeros n + 7)) % 512 = 448 ∧
      ∀ k, (8 * n + 1 + k) % 512 = 448 → 8 * zeros n + 7 ≤ k := by
  rw [zeros]
  refine ⟨by omega, fun k hk => ?_⟩
  omega

/-- The message with a bit, zeros and its length in bits. -/
def pad (message : Bytes) : Bytes :=
  message ++ 0x80 :: List.replicate (zeros message.length) 0 ++ bigEndian 8 (8 * message.length)

/-- The digest of a message of less than `2 ^ 64` bits. -/
def sha256 (message : Bytes) : Bytes :=
  (absorb compress 64 initial (pad message)).toList.flatMap fun w => bigEndian 4 w.toNat

theorem length_sha256 (message : Bytes) : (sha256 message).length = 32 := by
  simp [sha256, Words.toList]

end SecureHash
