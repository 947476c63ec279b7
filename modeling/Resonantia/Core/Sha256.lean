import Mathlib.Data.List.GetD
import Resonantia.Library.Scatter
import Resonantia.Library.SecureHash

/-!
# Streaming SHA-256

`Sha256` takes a message in pieces of any sizes. It keeps a block that is not yet full, and the
count of the bytes so far; `finish` pads a copy, so that more pieces may follow.

## Main definitions

* `Core.Sha256`: the object, with `Core.Sha256.update` and `Core.Sha256.finish`.
* `Core.Sha256.Represents`: what an object says about the message that it was given.

## Main results

* `Core.Sha256.compress_eq`: the transformation of a block is the one of the standard.
* `Core.Sha256.update_spec`, `Core.Sha256.finish_eq`: the calls on a message.
* `Core.Sha256.run_eq`: every sequence of calls has the digests of the standard.
-/

namespace Resonantia.Core

open ByteString Slices
open SecureHash (Words ofBigEndian bigEndian rotr)

/-- `Sha256`. -/
structure Sha256 where
  h : Words
  block : Bytes
  used : ℕ
  bytes : ℕ

namespace Sha256

/-- A new object. -/
def init : Sha256 where
  h := ⟨0x6a09e667, 0xbb67ae85, 0x3c6ef372, 0xa54ff53a, 0x510e527f, 0x9b05688c, 0x1f83d9ab,
    0x5be0cd19⟩
  block := List.replicate 64 0
  used := 0
  bytes := 0

/-! ### One block -/

def k : List UInt32 :=
  [0x428a2f98, 0x71374491, 0xb5c0fbcf, 0xe9b5dba5, 0x3956c25b, 0x59f111f1, 0x923f82a4, 0xab1c5ed5,
    0xd807aa98, 0x12835b01, 0x243185be, 0x550c7dc3, 0x72be5d74, 0x80deb1fe, 0x9bdc06a7, 0xc19bf174,
    0xe49b69c1, 0xefbe4786, 0x0fc19dc6, 0x240ca1cc, 0x2de92c6f, 0x4a7484aa, 0x5cb0a9dc, 0x76f988da,
    0x983e5152, 0xa831c66d, 0xb00327c8, 0xbf597fc7, 0xc6e00bf3, 0xd5a79147, 0x06ca6351, 0x14292967,
    0x27b70a85, 0x2e1b2138, 0x4d2c6dfc, 0x53380d13, 0x650a7354, 0x766a0abb, 0x81c2c92e, 0x92722c85,
    0xa2bfe8a1, 0xa81a664b, 0xc24b8b70, 0xc76c51a3, 0xd192e819, 0xd6990624, 0xf40e3585, 0x106aa070,
    0x19a4c116, 0x1e376c08, 0x2748774c, 0x34b0bcb5, 0x391c0cb3, 0x4ed8aa4a, 0x5b9cca4f, 0x682e6ff3,
    0x748f82ee, 0x78a5636f, 0x84c87814, 0x8cc70208, 0x90befffa, 0xa4506ceb, 0xbef9a3f7, 0xc67178f2]

/-- The word of four bytes of the block. -/
def loadWord (block : Bytes) (i : ℕ) : UInt32 :=
  (block.getD (4 * i) 0).toUInt32 <<< 24 ||| (block.getD (4 * i + 1) 0).toUInt32 <<< 16 |||
    (block.getD (4 * i + 2) 0).toUInt32 <<< 8 ||| (block.getD (4 * i + 3) 0).toUInt32

/-- One turn of the loop that extends the words. -/
def extend (w : List UInt32) (i : ℕ) : List UInt32 :=
  let x := w.getD (i - 15) 0
  let y := w.getD (i - 2) 0
  w ++ [w.getD (i - 16) 0 + (rotr x 7 ^^^ rotr x 18 ^^^ x >>> 3) + w.getD (i - 7) 0 +
    (rotr y 17 ^^^ rotr y 19 ^^^ y >>> 10)]

/-- The array `w`. -/
def expand (block : Bytes) : List UInt32 :=
  (List.range' 16 48).foldl extend ((List.range 16).map (loadWord block))

/-- One turn of the loop over the working variables. -/
def turn (w : List UInt32) (s : Words) (i : ℕ) : Words :=
  let t1 := s.h + (rotr s.e 6 ^^^ rotr s.e 11 ^^^ rotr s.e 25) +
    ((s.e &&& s.f) ^^^ (~~~s.e &&& s.g)) + k.getD i 0 + w.getD i 0
  let t2 := (rotr s.a 2 ^^^ rotr s.a 13 ^^^ rotr s.a 22) +
    ((s.a &&& s.b) ^^^ (s.a &&& s.c) ^^^ (s.b &&& s.c))
  { a := t1 + t2, b := s.a, c := s.b, d := s.c, e := s.d + t1, f := s.e, g := s.f, h := s.g }

/-- `compress`. -/
def compress (s : Sha256) : Sha256 :=
  let w := expand s.block
  let v := (List.range 64).foldl (turn w) s.h
  { s with h :=
    ⟨s.h.a + v.a, s.h.b + v.b, s.h.c + v.c, s.h.d + v.d, s.h.e + v.e, s.h.f + v.f, s.h.g + v.g,
      s.h.h + v.h⟩ }

/-- `compress(); used_ = 0;` -/
def flush (s : Sha256) : Sha256 := { s.compress with used := 0 }

/-! ### The calls -/

/-- Copy bytes into the block. -/
def overwrite (block : Bytes) (position : ℕ) (data : Bytes) : Bytes :=
  block.take position ++ data ++ block.drop (position + data.length)

/-- The loop of `update`; every turn takes at least one byte. -/
def absorb : ℕ → Sha256 → Bytes → Sha256
  | 0, s, _ => s
  | turns + 1, s, data =>
    if data = [] then s
    else
      let take := min data.length (64 - s.used)
      let next : Sha256 :=
        { s with block := overwrite s.block s.used (data.take take), used := s.used + take }
      absorb turns (if next.used = 64 then next.flush else next) (data.drop take)

/-- `update`, which throws when the input is too large. -/
def update (s : Sha256) (data : Bytes) : Option Sha256 :=
  if (2 ^ 64 - 1) / 8 - s.bytes < data.length then none
  else some (absorb data.length { s with bytes := s.bytes + data.length } data)

/-- The first step of `finish`: the bit after the message, and a whole block if it leaves no room
for the length. -/
def terminate (s : Sha256) : Sha256 :=
  let s := { s with block := overwrite s.block s.used [0x80], used := s.used + 1 }
  if 56 < s.used then
    flush { s with block := overwrite s.block s.used (List.replicate (64 - s.used) 0) }
  else s

/-- The last block of `finish`. -/
def lastBlock (s : Sha256) (bits : ℕ) : Sha256 :=
  let filled := overwrite s.block s.used (List.replicate (56 - s.used) 0)
  let block := (List.range 8).foldl
    (fun block i => overwrite block (63 - i) [(bits / 2 ^ (8 * i)).toUInt8]) filled
  { s with block }

def hexDigit (n : ℕ) : UInt8 := if n < 10 then (48 + n).toUInt8 else (87 + n).toUInt8

/-- A word as a stream writes it with `hex`, `setfill('0')` and `setw(8)`. -/
def hexWord (w : UInt32) : Bytes :=
  (List.range 8).map fun i => hexDigit (w.toNat / 16 ^ (7 - i) % 16)

/-- `finish`, with the object that it leaves. -/
def finish (s : Sha256) : Bytes × Sha256 :=
  let bits := s.bytes * 8 % 2 ^ 64
  let copy := compress (lastBlock (terminate s) bits)
  (copy.h.toList.flatMap hexWord, s)

inductive Call
  | update (data : Bytes)
  | finish

/-- A sequence of calls, with the texts that it returns. -/
def run : Sha256 → List Call → Option (List Bytes × Sha256)
  | s, [] => some ([], s)
  | s, .update data :: calls => do run (← s.update data) calls
  | s, .finish :: calls => do
    let (texts, t) ← run s.finish.2 calls
    some (s.finish.1 :: texts, t)

/-! ### The rounds -/

theorem k_eq : k = SecureHash.roundConstants := by decide +kernel

theorem h_init : init.h = SecureHash.initial := by decide +kernel

/-- The bits of four bytes are the number that they store. -/
theorem word_eq (a b c d : UInt8) :
    a.toUInt32 <<< 24 ||| b.toUInt32 <<< 16 ||| c.toUInt32 <<< 8 ||| d.toUInt32 =
      (ofLittleEndian [d, c, b, a]).toUInt32 := by
  have ha := a.toNat_lt
  have hb := b.toNat_lt
  have hc := c.toNat_lt
  have hd := d.toNat_lt
  have hlow : 2 ^ 8 * c.toNat + d.toNat = 2 ^ 8 * c.toNat ||| d.toNat :=
    Nat.two_pow_add_eq_or_of_lt hd c.toNat
  have hmiddle : 2 ^ 16 * b.toNat + (2 ^ 8 * c.toNat + d.toNat) =
      2 ^ 16 * b.toNat ||| (2 ^ 8 * c.toNat + d.toNat) :=
    Nat.two_pow_add_eq_or_of_lt (by omega) b.toNat
  have hhigh : 2 ^ 24 * a.toNat + (2 ^ 16 * b.toNat + (2 ^ 8 * c.toNat + d.toNat)) =
      2 ^ 24 * a.toNat ||| (2 ^ 16 * b.toNat + (2 ^ 8 * c.toNat + d.toNat)) :=
    Nat.two_pow_add_eq_or_of_lt (by omega) a.toNat
  apply UInt32.toNat_inj.1
  rw [UInt32.toNat_or, UInt32.toNat_or, UInt32.toNat_or, UInt32.toNat_shiftLeft,
    UInt32.toNat_shiftLeft, UInt32.toNat_shiftLeft, UInt32.toNat_ofNat', Nat.or_assoc, Nat.or_assoc]
  change a.toNat <<< 24 % 2 ^ 32 ||| (b.toNat <<< 16 % 2 ^ 32 ||| (c.toNat <<< 8 % 2 ^ 32 |||
    d.toNat)) = (d.toNat + 256 * (c.toNat + 256 * (b.toNat + 256 * (a.toNat + 256 * 0)))) % 2 ^ 32
  rw [Nat.shiftLeft_eq, Nat.shiftLeft_eq, Nat.shiftLeft_eq, Nat.mod_eq_of_lt (by omega),
    Nat.mod_eq_of_lt (by omega), Nat.mod_eq_of_lt (by omega), Nat.mul_comm a.toNat,
    Nat.mul_comm b.toNat, Nat.mul_comm c.toNat, ← hlow, ← hmiddle, ← hhigh]
  omega

theorem loadWord_eq {block : Bytes} (h : block.length = 64) {t : ℕ} (ht : t < 16) :
    loadWord block t = SecureHash.messageWord block t := by
  have hslice : slice block (4 * t) (4 * t + 4) =
      [block.getD (4 * t) 0, block.getD (4 * t + 1) 0, block.getD (4 * t + 2) 0,
        block.getD (4 * t + 3) 0] := by
    rw [slice, Nat.add_sub_cancel_left, List.getD_eq_getElem _ _ (by omega),
      List.getD_eq_getElem _ _ (by omega), List.getD_eq_getElem _ _ (by omega),
      List.getD_eq_getElem _ _ (by omega), List.drop_eq_getElem_cons (by omega),
      List.drop_eq_getElem_cons (by omega), List.drop_eq_getElem_cons (by omega),
      List.drop_eq_getElem_cons (by omega)]
    rfl
  rw [loadWord, word_eq, SecureHash.messageWord, hslice]
  rfl

theorem extend_map (block : Bytes) {t : ℕ} (ht : 16 ≤ t) :
    extend ((List.range t).map (SecureHash.schedule block)) t =
      (List.range (t + 1)).map (SecureHash.schedule block) := by
  have hword : ∀ d, 0 < d → d ≤ 16 →
      ((List.range t).map (SecureHash.schedule block)).getD (t - d) 0 =
        SecureHash.schedule block (t - d) :=
    fun d hpos hle => Scatter.getD_map_range _ (by omega) 0
  have hrecurrence : SecureHash.schedule block t =
      SecureHash.smallSigma1 (SecureHash.schedule block (t - 2)) +
        SecureHash.schedule block (t - 7) +
        SecureHash.smallSigma0 (SecureHash.schedule block (t - 15)) +
        SecureHash.schedule block (t - 16) := by
    rw [SecureHash.schedule, if_neg (Nat.not_lt.2 ht)]
  rw [extend, hword 15 (by decide) (by decide), hword 2 (by decide) (by decide),
    hword 16 (by decide) (by decide), hword 7 (by decide) (by decide), List.range_succ,
    List.map_append, List.map_singleton, hrecurrence]
  congr 2
  rw [SecureHash.smallSigma0, SecureHash.smallSigma1]
  ac_rfl

theorem foldl_extend (block : Bytes) (n : ℕ) :
    (List.range' 16 n).foldl extend ((List.range 16).map (SecureHash.schedule block)) =
      (List.range (16 + n)).map (SecureHash.schedule block) := by
  induction n with
  | zero => rfl
  | succ n ih =>
    rw [List.range'_1_concat, List.foldl_append, ih, List.foldl_cons, List.foldl_nil,
      extend_map block (Nat.le_add_right 16 n), Nat.add_assoc]

/-- The array of words is the message schedule. -/
theorem expand_eq {block : Bytes} (h : block.length = 64) :
    expand block = (List.range 64).map (SecureHash.schedule block) := by
  have hfirst : (List.range 16).map (loadWord block) =
      (List.range 16).map (SecureHash.schedule block) := by
    refine List.map_congr_left fun t ht => ?_
    rw [List.mem_range] at ht
    rw [loadWord_eq h ht, SecureHash.schedule, if_pos ht]
  rw [expand, hfirst, foldl_extend]

/-- **One block.** -/
theorem compress_eq {s : Sha256} (h : s.block.length = 64) :
    s.compress = { s with h := SecureHash.compress s.h s.block } := by
  have hrounds : (List.range 64).foldl (turn (expand s.block)) s.h =
      (List.range 64).foldl (fun v t => SecureHash.round v
        (SecureHash.roundConstants.getD t 0) (SecureHash.schedule s.block t)) s.h := by
    refine List.foldl_ext _ _ _ fun v t ht => ?_
    rw [turn, expand_eq h, Scatter.getD_map_range _ (List.mem_range.1 ht), k_eq]
    rfl
  rw [compress, hrounds]
  rfl

theorem flush_eq {s : Sha256} (h : s.block.length = 64) :
    s.flush = ⟨SecureHash.compress s.h s.block, s.block, 0, s.bytes⟩ := by
  rw [flush, compress_eq h]

/-! ### Pieces of a message -/

theorem length_overwrite {block data : Bytes} {position : ℕ}
    (h : position + data.length ≤ block.length) :
    (overwrite block position data).length = block.length := by
  rw [overwrite, List.length_append, List.length_append, List.length_take, List.length_drop]
  omega

theorem take_overwrite {block data : Bytes} {position : ℕ} (h : position ≤ block.length) :
    (overwrite block position data).take (position + data.length) =
      block.take position ++ data := by
  have hlength : (block.take position ++ data).length = position + data.length := by
    rw [List.length_append, List.length_take, Nat.min_eq_left h]
  rw [overwrite, List.take_left' hlength]

/-- The whole blocks that an object has absorbed, and the bytes that it keeps. -/
structure Represents (s : Sha256) (whole rest : Bytes) : Prop where
  dvd : 64 ∣ whole.length
  h : s.h = SecureHash.absorb SecureHash.compress 64 SecureHash.initial whole
  length_block : s.block.length = 64
  used : s.used = rest.length
  lt : rest.length < 64
  block : s.block.take rest.length = rest

theorem represents_init : Represents init [] [] where
  dvd := ⟨0, rfl⟩
  h := by rw [SecureHash.absorb_nil, h_init]
  length_block := rfl
  used := rfl
  lt := by decide
  block := rfl

section Represents

variable {s : Sha256} {whole rest : Bytes}

/-- A copy that leaves room in the block. -/
theorem Represents.append (h : Represents s whole rest) {data : Bytes}
    (hroom : rest.length + data.length < 64) :
    Represents { s with block := overwrite s.block s.used data, used := s.used + data.length }
      whole (rest ++ data) where
  dvd := h.dvd
  h := h.h
  length_block := by
    rw [length_overwrite, h.length_block]
    rw [h.used, h.length_block]
    omega
  used := by
    rw [List.length_append, h.used]
  lt := by rwa [List.length_append]
  block := by
    rw [List.length_append, h.used, take_overwrite, h.block]
    rw [h.length_block]
    exact h.lt.le

/-- A copy that fills the block. -/
theorem Represents.overwrite (h : Represents s whole rest) {data : Bytes}
    (hfull : rest.length + data.length = 64) : overwrite s.block s.used data = rest ++ data := by
  have htake : (Sha256.overwrite s.block s.used data).take (s.used + data.length) =
      s.block.take s.used ++ data := by
    refine take_overwrite ?_
    rw [h.used, h.length_block]
    exact h.lt.le
  have hlength : (Sha256.overwrite s.block s.used data).length = 64 := by
    rw [length_overwrite, h.length_block]
    rw [h.used, h.length_block]
    exact hfull.le
  rwa [List.take_of_length_le, h.used, h.block, ← h.used] at htake
  rw [hlength, h.used]
  exact hfull.ge

/-- A full block is absorbed. -/
theorem Represents.flush (h : Represents s whole rest) {t : Sha256} (hh : t.h = s.h)
    (hblock : t.block.length = 64) : Represents t.flush (whole ++ t.block) [] := by
  rw [flush_eq hblock, hh, h.h]
  refine ⟨?_, ?_, hblock, rfl, by decide, rfl⟩
  · rw [List.length_append, hblock]
    exact Nat.dvd_add h.dvd (Nat.dvd_refl 64)
  · rw [SecureHash.absorb_append (by decide) _ _ h.dvd,
      SecureHash.absorb_of_length (by decide) _ hblock]

/-- **The loop of an update** takes the data piece by piece. -/
theorem absorb_spec {turns : ℕ} {data : Bytes} (h : Represents s whole rest)
    (hturns : data.length ≤ turns) :
    ∃ whole' rest', Represents (absorb turns s data) whole' rest' ∧
      whole' ++ rest' = whole ++ rest ++ data ∧ (absorb turns s data).bytes = s.bytes := by
  induction turns generalizing s whole rest data with
  | zero =>
    obtain rfl := List.length_eq_zero_iff.1 (Nat.le_zero.1 hturns)
    exact ⟨whole, rest, h, by rw [List.append_nil], rfl⟩
  | succ turns ih =>
    rw [absorb]
    by_cases hnil : data = []
    · rw [if_pos hnil, hnil]
      exact ⟨whole, rest, h, by rw [List.append_nil], rfl⟩
    rw [if_neg hnil]
    have hpos := List.length_pos_iff.2 hnil
    have hlt := h.lt
    dsimp only
    generalize htake : min data.length (64 - s.used) = take
    rw [h.used] at htake
    have hlength : (data.take take).length = take := by
      rw [List.length_take]
      omega
    have hdrop : (data.drop take).length ≤ turns := by
      rw [List.length_drop]
      omega
    by_cases hfull : s.used + take = 64
    · rw [if_pos hfull]
      rw [h.used] at hfull
      have hblock := h.overwrite (hlength.symm ▸ hfull)
      have hfilled : (overwrite s.block s.used (data.take take)).length = 64 := by
        rw [hblock, List.length_append, hlength, hfull]
      let next : Sha256 := ⟨s.h, overwrite s.block s.used (data.take take), s.used + take, s.bytes⟩
      have hnext : Represents next.flush (whole ++ next.block) [] := h.flush rfl hfilled
      have hsame : next.flush.bytes = s.bytes := by
        rw [flush_eq (s := next) hfilled]
      obtain ⟨whole', rest', hlast, heq, hbytes⟩ := ih hnext hdrop
      refine ⟨whole', rest', hlast, ?_, hbytes.trans hsame⟩
      have hnextBlock : next.block = rest ++ data.take take := hblock
      rw [heq, hnextBlock, List.append_nil, List.append_assoc, List.append_assoc,
        List.take_append_drop, List.append_assoc]
    · rw [if_neg hfull]
      rw [h.used] at hfull
      have hnext := @Represents.append _ _ _ h (data.take take) (by
        rw [hlength]
        omega)
      rw [hlength] at hnext
      obtain ⟨whole', rest', hlast, heq, hbytes⟩ := ih hnext hdrop
      refine ⟨whole', rest', hlast, ?_, hbytes⟩
      rw [heq, List.append_assoc, List.append_assoc, List.take_append_drop, List.append_assoc]

end Represents

/-! ### The calls on a message -/

/-- An object that was given this message. -/
structure Holds (s : Sha256) (message : Bytes) : Prop where
  bytes : s.bytes = message.length
  lt : message.length < 2 ^ 61
  represents : ∃ whole rest, message = whole ++ rest ∧ Represents s whole rest

theorem holds_init : Holds init [] := ⟨rfl, by decide, [], [], rfl, represents_init⟩

/-- **Updating.** -/
theorem update_spec {s : Sha256} {message : Bytes} (h : Holds s message) (data : Bytes) :
    (2 ^ 61 ≤ message.length + data.length ∧ s.update data = none) ∨
      message.length + data.length < 2 ^ 61 ∧
        ∃ t, s.update data = some t ∧ Holds t (message ++ data) := by
  obtain ⟨hbytes, hlt, whole, rest, rfl, hrest⟩ := h
  rw [update, hbytes]
  split_ifs with hlarge
  · exact Or.inl ⟨by omega, rfl⟩
  have hsmall : (whole ++ rest).length + data.length < 2 ^ 61 := by omega
  refine Or.inr ⟨hsmall, _, rfl, ?_⟩
  have hstart : Represents { s with bytes := (whole ++ rest).length + data.length } whole rest :=
    ⟨hrest.dvd, hrest.h, hrest.length_block, hrest.used, hrest.lt, hrest.block⟩
  obtain ⟨whole', rest', hlast, heq, hcount⟩ := absorb_spec hstart le_rfl
  have hlength : (whole ++ rest ++ data).length = (whole ++ rest).length + data.length :=
    List.length_append
  refine ⟨hcount.trans hlength.symm, ?_, whole', rest', heq.symm, hlast⟩
  rwa [hlength]

theorem littleEndian_succ (count n : ℕ) :
    littleEndian (count + 1) n = littleEndian count n ++ [(n / 256 ^ count).toUInt8] := by
  induction count generalizing n with
  | zero => rw [littleEndian, littleEndian, littleEndian, pow_zero, Nat.div_one, List.nil_append]
  | succ count ih =>
    rw [littleEndian, ih, littleEndian, List.cons_append, Nat.div_div_eq_div_mul, Nat.pow_succ,
      Nat.mul_comm 256]

/-- The loop that writes the length from the last byte backwards. -/
theorem foldl_overwrite {filled : Bytes} (h : filled.length = 64) (bits : ℕ) {n : ℕ} (hn : n ≤ 8) :
    (List.range n).foldl
        (fun block i => overwrite block (63 - i) [(bits / 2 ^ (8 * i)).toUInt8]) filled =
      filled.take (64 - n) ++ bigEndian n bits := by
  induction n with
  | zero =>
    rw [List.range_zero, List.foldl_nil, Nat.sub_zero, ← h, List.take_length]
    exact (List.append_nil _).symm
  | succ n ih =>
    have hlength : (filled.take (64 - n)).length = 64 - n := by
      rw [List.length_take]
      omega
    have hpower : 2 ^ (8 * n) = 256 ^ n := by
      rw [Nat.pow_mul]
    have hdrop : 63 - n + 1 = 64 - n := by omega
    have htake : min (63 - n) (64 - n) = 63 - n := by omega
    have hprefix : 63 - n ≤ (filled.take (64 - n)).length := by omega
    rw [List.range_succ, List.foldl_append, ih (by omega), List.foldl_cons, List.foldl_nil,
      overwrite, List.length_singleton, hdrop, List.drop_left' hlength, List.take_append_of_le_length hprefix,
      List.take_take, htake, bigEndian, bigEndian, littleEndian_succ, hpower, List.reverse_append,
      List.reverse_singleton, List.append_assoc]
    have hindex : 64 - (n + 1) = 63 - n := by omega
    rw [hindex]

/-- Two copies, the second right after the first. -/
theorem overwrite_overwrite {block first second : Bytes} {position : ℕ}
    (h : position ≤ block.length) :
    overwrite (overwrite block position first) (position + first.length) second =
      overwrite block position (first ++ second) := by
  have hlength : (block.take position ++ first).length = position + first.length := by
    rw [List.length_append, List.length_take, Nat.min_eq_left h]
  have hdrop : (overwrite block position first).drop
      (position + first.length + second.length) =
        block.drop (position + first.length + second.length) := by
    rw [overwrite, ← List.drop_drop, List.drop_left' hlength, List.drop_drop]
  rw [overwrite, take_overwrite h, hdrop, overwrite, List.length_append, List.append_assoc,
    List.append_assoc, List.append_assoc, List.append_assoc, ← Nat.add_assoc]

/-- The padding up to the length, in one block or in two. -/
theorem terminate_spec {s : Sha256} {whole rest : Bytes} (h : Represents s whole rest) :
    ∃ whole' rest', Represents (terminate s) whole' rest' ∧ rest'.length ≤ 56 ∧
      whole' ++ (rest' ++ List.replicate (56 - rest'.length) 0) =
        whole ++ rest ++ 0x80 :: List.replicate (SecureHash.zeros (whole ++ rest).length) 0 := by
  have hlt := h.lt
  have hmod : (whole ++ rest).length % 64 = rest.length := by
    obtain ⟨p, hp⟩ := h.dvd
    rw [List.length_append, hp, Nat.mul_add_mod, Nat.mod_eq_of_lt hlt]
  rw [terminate, h.used, SecureHash.zeros, hmod]
  dsimp only
  by_cases hroom : 56 < rest.length + 1
  · rw [if_pos hroom]
    have hzeros : (55 + 64 - rest.length) % 64 = 64 - (rest.length + 1) + 56 := by omega
    have hle : rest.length ≤ s.block.length := by
      rw [h.length_block]
      exact hlt.le
    have hblock : overwrite (overwrite s.block rest.length [0x80]) (rest.length + 1)
        (List.replicate (64 - (rest.length + 1)) 0) =
          rest ++ 0x80 :: List.replicate (64 - (rest.length + 1)) 0 := by
      have hfull := @Represents.overwrite _ _ _ h
        (0x80 :: List.replicate (64 - (rest.length + 1)) 0) (by
        rw [List.length_cons, List.length_replicate]
        omega)
      rw [← hfull, h.used]
      exact overwrite_overwrite hle
    have hlength : (rest ++ 0x80 :: List.replicate (64 - (rest.length + 1)) (0 : UInt8)).length =
        64 := by
      rw [List.length_append, List.length_cons, List.length_replicate]
      omega
    rw [hblock]
    refine ⟨_, [], h.flush (t := ⟨s.h, _, rest.length + 1, s.bytes⟩) rfl hlength, by decide, ?_⟩
    dsimp only
    rw [hzeros, List.replicate_add, List.nil_append, List.length_nil, Nat.sub_zero]
    simp only [List.append_assoc, List.cons_append]
  · rw [if_neg hroom]
    have hzeros : (55 + 64 - rest.length) % 64 = 56 - (rest.length + 1) := by omega
    have hnext := @Represents.append _ _ _ h [0x80] (by
      rw [List.length_singleton]
      omega)
    rw [h.used] at hnext
    refine ⟨whole, rest ++ [0x80], hnext, ?_, ?_⟩
    · rw [List.length_append, List.length_singleton]
      omega
    · rw [hzeros, List.length_append, List.length_singleton]
      simp only [List.append_assoc, List.cons_append, List.nil_append]

/-- The last block ends with the length. -/
theorem lastBlock_eq {s : Sha256} {whole rest : Bytes} (h : Represents s whole rest)
    (hrest : rest.length ≤ 56) (bits : ℕ) :
    lastBlock s bits =
      { s with block := rest ++ List.replicate (56 - rest.length) 0 ++ bigEndian 8 bits } := by
  have hlength : (overwrite s.block s.used (List.replicate (56 - s.used) 0)).length = 64 := by
    rw [length_overwrite, h.length_block]
    rw [List.length_replicate, h.length_block, h.used]
    omega
  have htake : (overwrite s.block s.used (List.replicate (56 - s.used) 0)).take (64 - 8) =
      rest ++ List.replicate (56 - rest.length) 0 := by
    have hsum : 64 - 8 = s.used + (List.replicate (56 - s.used) (0 : UInt8)).length := by
      rw [List.length_replicate, h.used]
      omega
    rw [hsum, take_overwrite, h.used, h.block]
    rw [h.used, h.length_block]
    omega
  rw [lastBlock, foldl_overwrite hlength bits le_rfl, htake]

/-- Two digits for every byte. -/
def hexByte (b : UInt8) : Bytes := [hexDigit (b.toNat / 16), hexDigit (b.toNat % 16)]

theorem hexByte_eq (n : ℕ) : hexByte n.toUInt8 = [hexDigit (n / 16 % 16), hexDigit (n % 16)] := by
  have hhigh : n % 256 / 16 = n / 16 % 16 := by omega
  have hlow : n % 256 % 16 = n % 16 := by omega
  rw [hexByte, UInt8.toNat_ofNat', hhigh, hlow]

theorem hexWord_eq (w : UInt32) : hexWord w = (bigEndian 4 w.toNat).flatMap hexByte := by
  have hbytes : bigEndian 4 w.toNat = [(w.toNat / 256 ^ 3).toUInt8, (w.toNat / 256 ^ 2).toUInt8,
      (w.toNat / 256 ^ 1).toUInt8, w.toNat.toUInt8] := by
    simp [bigEndian, littleEndian, Nat.div_div_eq_div_mul]
  have hrange : List.range 8 = [0, 1, 2, 3, 4, 5, 6, 7] := by decide
  rw [hbytes, hexWord, hrange]
  simp only [List.map_cons, List.map_nil, List.flatMap_cons, List.flatMap_nil, hexByte_eq,
    List.cons_append, List.nil_append, Nat.div_div_eq_div_mul]
  simp

/-- The text of a digest. -/
def hexText (digest : Bytes) : Bytes := digest.flatMap hexByte

/-- **Finishing.** The text is the digest of the message, and the object is as it was. -/
theorem finish_eq {s : Sha256} {message : Bytes} (h : Holds s message) :
    s.finish = (hexText (SecureHash.sha256 message), s) := by
  obtain ⟨hbytes, hlt, whole, rest, rfl, hrest⟩ := h
  obtain ⟨whole', rest', hlast, hle, hpad⟩ := terminate_spec hrest
  have hbits : s.bytes * 8 % 2 ^ 64 = 8 * (whole ++ rest).length := by
    rw [hbytes]
    omega
  have hlength : (rest' ++ List.replicate (56 - rest'.length) 0 ++
      bigEndian 8 (8 * (whole ++ rest).length)).length = 64 := by
    rw [List.length_append, List.length_append, List.length_replicate, SecureHash.length_bigEndian]
    omega
  have hmessage : SecureHash.pad (whole ++ rest) = whole' ++ (rest' ++
      List.replicate (56 - rest'.length) 0 ++ bigEndian 8 (8 * (whole ++ rest).length)) := by
    rw [SecureHash.pad, ← hpad, List.append_assoc]
  have hhash : (compress (lastBlock (terminate s) (8 * (whole ++ rest).length))).h =
      SecureHash.absorb SecureHash.compress 64 SecureHash.initial
        (SecureHash.pad (whole ++ rest)) := by
    rw [lastBlock_eq hlast hle, compress_eq hlength, hmessage,
      SecureHash.absorb_append (by decide) _ _ hlast.dvd,
      SecureHash.absorb_of_length (by decide) _ hlength, hlast.h]
  rw [finish, hbits, hhash, hexText, SecureHash.sha256, List.flatMap_assoc, ← funext hexWord_eq]

/-- The digests of the messages that a sequence of calls finishes. -/
def digests : Bytes → List Call → List Bytes
  | _, [] => []
  | message, .update data :: calls => digests (message ++ data) calls
  | message, .finish :: calls => hexText (SecureHash.sha256 message) :: digests message calls

/-- The data of the updates. -/
def given (calls : List Call) : Bytes :=
  calls.flatMap fun
    | .update data => data
    | .finish => []

/-- **Every sequence of calls** has the digests of the data so far. -/
theorem run_eq {s : Sha256} {message : Bytes} (h : Holds s message) (calls : List Call)
    (hlt : message.length + (given calls).length < 2 ^ 61) :
    ∃ t, run s calls = some (digests message calls, t) ∧ Holds t (message ++ given calls) := by
  induction calls generalizing s message with
  | nil => exact ⟨s, rfl, by rwa [given, List.flatMap_nil, List.append_nil]⟩
  | cons call calls ih =>
    cases call with
    | update data =>
      have hgiven : given (.update data :: calls) = data ++ given calls := List.flatMap_cons
      rw [hgiven, List.length_append] at hlt
      rcases update_spec h data with ⟨hlarge, -⟩ | ⟨-, t, ht, hnext⟩
      · omega
      obtain ⟨u, hu, hholds⟩ := ih hnext (by rw [List.length_append]; omega)
      refine ⟨u, ?_, by rwa [hgiven, ← List.append_assoc]⟩
      rw [run, ht, Option.bind_eq_bind, Option.bind_some, hu, digests]
    | finish =>
      have hgiven : given (.finish :: calls) = given calls := rfl
      rw [hgiven] at hlt
      obtain ⟨u, hu, hholds⟩ := ih h hlt
      refine ⟨u, ?_, by rwa [hgiven]⟩
      rw [run, finish_eq h, hu, digests]
      rfl

theorem given_map_update (chunks : List Bytes) :
    given (chunks.map .update) = chunks.flatten := by
  induction chunks with
  | nil => rfl
  | cons chunk chunks ih =>
    rw [List.map_cons, given, List.flatMap_cons, ← given, ih, List.flatten_cons]

theorem digests_map_update (message : Bytes) (chunks : List Bytes) :
    digests message (chunks.map .update ++ [.finish]) =
      [hexText (SecureHash.sha256 (message ++ chunks.flatten))] := by
  induction chunks generalizing message with
  | nil => rw [List.map_nil, List.nil_append, digests, digests, List.flatten_nil, List.append_nil]
  | cons chunk chunks ih =>
    rw [List.map_cons, List.cons_append, digests, ih, List.flatten_cons, List.append_assoc]

/-- **Streaming.** Whatever the pieces, finishing gives the digest of their concatenation. Every
sequence of calls gives the digests of the data so far, so that a finished object goes on as if it
had not been finished. -/
theorem streaming (chunks : List Bytes) (calls : List Call)
    (hchunks : chunks.flatten.length < 2 ^ 61) (hcalls : (given calls).length < 2 ^ 61) :
    (∃ t, run init (chunks.map .update ++ [.finish]) =
        some ([hexText (SecureHash.sha256 chunks.flatten)], t)) ∧
      ∃ t, run init calls = some (digests [] calls, t) := by
  have hstart : ([] : Bytes).length + (given calls).length < 2 ^ 61 := by
    rwa [List.length_nil, Nat.zero_add]
  have hgiven : given (chunks.map .update ++ [.finish]) = chunks.flatten := by
    rw [given, List.flatMap_append, ← given, given_map_update]
    exact List.append_nil _
  obtain ⟨t, ht, -⟩ := run_eq holds_init calls hstart
  obtain ⟨u, hu, -⟩ := run_eq holds_init (chunks.map .update ++ [.finish]) (by
    rwa [hgiven, List.length_nil, Nat.zero_add])
  rw [digests_map_update, List.nil_append] at hu
  exact ⟨⟨u, hu⟩, t, ht⟩

/-- A message in two pieces, finished after each of them. -/
def abcCalls : List Call :=
  [.update (ByteString.bytes "a"), .finish, .update (ByteString.bytes "bc"), .finish]

theorem streaming_abc :
    (run init abcCalls).map Prod.fst =
        some [ByteString.bytes "ca978112ca1bbdcafac231b39a23dc4da786eff8147c4e72b9807785afee48bb",
          ByteString.bytes "ba7816bf8f01cfea414140de5dae2223b00361a396177a9cb410ff61f20015ad"] ∧
      (∃ t, run init ([[97], [], [98, 99]].map .update ++ [.finish]) =
        some ([hexText (SecureHash.sha256 [97, 98, 99])], t)) ∧
      ∃ t, run init abcCalls = some (digests [] abcCalls, t) :=
  ⟨by decide +kernel, streaming [[97], [], [98, 99]] abcCalls (by decide) (by decide)⟩

end Sha256

/-- `sha256`. -/
def sha256 (text : Bytes) : Option Bytes := do
  let h ← Sha256.init.update text
  some h.finish.1

theorem sha256_eq {text : Bytes} (h : text.length < 2 ^ 61) :
    sha256 text = some (Sha256.hexText (SecureHash.sha256 text)) := by
  rcases Sha256.update_spec Sha256.holds_init text with ⟨hlarge, -⟩ | ⟨-, t, ht, hholds⟩
  · rw [List.length_nil, Nat.zero_add] at hlarge
    omega
  · rw [sha256, ht, Option.bind_eq_bind, Option.bind_some, Sha256.finish_eq hholds, List.nil_append]

end Resonantia.Core
