import Resonantia.Library.Json
import Resonantia.Web.Multipart

/-!
# Names of uploaded files

`safe_filename` keeps the letters, digits and a few signs of a name that a client gives, and all
characters beyond ASCII that are encoded as UTF-8 has them. `collect_uploads` takes the extension of
a known audio format from such a name and gives it the extension `.wav` instead; two uploads of one
name are refused.

## Main definitions

* `Web.safeFilename`, `Web.collectUploads`.
* `Web.ValidUtf8`: sequences of encoded code points.
* `Web.SingleComponent`: names of direct children of a directory.

## Main results

* `Web.safeFilename_eq`: what a safe name is.
* `Web.upload_names`: the names that are given are safe, and all different.
-/

namespace Resonantia.Web

open ByteString
open Multipart (lower)

/-! ### Safe names -/

def slash : UInt8 := 47

def backslash : UInt8 := 92

def dot : UInt8 := 46

/-- `std::isalnum` in the classic locale. -/
def isAlnum (c : UInt8) : Bool := 48 ≤ c && c ≤ 57 || 65 ≤ c && c ≤ 90 || 97 ≤ c && c ≤ 122

/-- The ASCII characters that a safe name keeps. -/
def isSafeAscii (c : UInt8) : Bool := isAlnum c || c = 95 || c = 45 || c = dot

/-- `width`: the length of a multi-byte character by its first byte, 0 where there is none. -/
def utf8Width (c : UInt8) : ℕ :=
  if 0xc2 ≤ c ∧ c ≤ 0xdf then 2
  else if 0xe0 ≤ c ∧ c ≤ 0xef then 3
  else if 0xf0 ≤ c ∧ c ≤ 0xf4 then 4
  else 0

/-- The loop over the bytes after the first one, which has set `codepoint`. -/
def continueCodepoint : ℕ → Bytes → Option ℕ
  | codepoint, [] => some codepoint
  | codepoint, next :: l =>
    if next &&& 0xc0 ≠ 0x80 then none
    else continueCodepoint (codepoint * 64 + next.toNat % 64) l

/-- The checks of a multi-byte character that begins with `c`: its width. -/
def checkCharacter (c : UInt8) (tail : Bytes) : Option ℕ :=
  let width := utf8Width c
  if width = 0 ∨ tail.length + 1 < width then none
  else
    match continueCodepoint (c.toNat % 2 ^ (7 - width)) (tail.take (width - 1)) with
    | none => none
    | some codepoint =>
      if (width = 3 ∧ codepoint < 0x800) ∨ (width = 4 ∧ codepoint < 0x10000) ∨
          (0xd800 ≤ codepoint ∧ codepoint ≤ 0xdfff) ∨ 0x10ffff < codepoint then none
      else some width

/-- The loop of `safe_filename` over the characters; every turn takes at least one byte. -/
def sanitize : ℕ → Bytes → Bytes → Option Bytes
  | 0, _, output => some output
  | _ + 1, [], output => some output
  | turns + 1, c :: tail, output =>
    if c < 0x80 then sanitize turns tail (if isSafeAscii c = true then output ++ [c] else output)
    else
      match checkCharacter c tail with
      | none => none
      | some width =>
        sanitize turns (tail.drop (width - 1)) (output ++ c :: tail.take (width - 1))

/-- The tests before and after the loop. -/
def refusedName (name : Bytes) : Bool :=
  name = [] || name = [dot] || name = [dot, dot] || 255 < name.length

/-- `safe_filename`. A name without a slash is its own last component. -/
def safeFilename (value : Bytes) : Bytes :=
  if slash ∈ value ∨ backslash ∈ value ∨ 0 ∈ value then []
  else if refusedName value = true then []
  else
    match sanitize value.length value [] with
    | none => []
    | some output => if refusedName output = true then [] else output

/-! ### Uploads -/

/-- The position of the last dot. -/
def lastDot : Bytes → Option ℕ
  | [] => none
  | c :: l =>
    match lastDot l with
    | some position => some (position + 1)
    | none => if c = dot then some 0 else none

/-- `fs::path::extension` of a single component. -/
def extension (name : Bytes) : Bytes :=
  if name = [dot] ∨ name = [dot, dot] then []
  else
    match lastDot name with
    | none | some 0 => []
    | some position => name.drop position

def kWavExtension : Bytes := bytes ".wav"

/-- `replace_extension(".wav")`. -/
def replaceExtension (name : Bytes) : Bytes :=
  name.take (name.length - (extension name).length) ++ kWavExtension

/-- `audio_demuxer` has one for these extensions. -/
def demuxed : List Bytes :=
  [bytes ".mp3", bytes ".m4a", bytes ".aac", bytes ".flac", bytes ".ogg", bytes ".opus",
    bytes ".wma", bytes ".aif", bytes ".aiff"]

/-- `valid_audio_upload`. -/
def validAudioUpload (filename data : Bytes) : Bool :=
  let ext := lower (extension filename)
  if ext ≠ kWavExtension then ext ∈ demuxed && data ≠ []
  else 12 ≤ data.length && data.take 4 = bytes "RIFF" && (data.drop 8).take 4 = bytes "WAVE"

/-- The name and the content of a part; a part that is no file has an empty name. -/
structure UploadPart where
  filename : Bytes
  data : Bytes

/-- The loop of `collect_uploads`; it fails with a response. -/
def collectLoop : List UploadPart → List (UploadPart × Bytes) →
    Except String (List (UploadPart × Bytes))
  | [], uploads => .ok uploads
  | part :: parts, uploads =>
    if part.filename = [] then collectLoop parts uploads
    else
      let filename := safeFilename part.filename
      if filename = [] ∨ validAudioUpload filename part.data = false then
        .error "upload must be non-empty WAV, MP3, M4A, AAC, FLAC, OGG, Opus, WMA or AIFF/AIF audio"
      else if replaceExtension filename ∈ uploads.map Prod.snd then
        .error "duplicate upload filename"
      else collectLoop parts (uploads ++ [(part, replaceExtension filename)])

/-- `collect_uploads`. -/
def collectUploads (parts : List UploadPart) : Except String (List (UploadPart × Bytes)) :=
  collectLoop parts []

/-! ### What names are -/

/-- A sequence of code points in UTF-8. -/
def ValidUtf8 (text : Bytes) : Prop :=
  ∃ characters : List Bytes, text = characters.flatten ∧
    ∀ character ∈ characters, ∃ codepoint, Json.utf8 codepoint = some character

/-- A name of a direct child of a directory. -/
structure SingleComponent (name : Bytes) : Prop where
  ne_nil : name ≠ []
  slash_notMem : slash ∉ name
  zero_notMem : 0 ∉ name
  ne_dot : name ≠ [dot]
  ne_dots : name ≠ [dot, dot]

/-! ### Multi-byte characters -/

theorem continuation_iff (c : UInt8) : c &&& 0xc0 = 0x80 ↔ 128 ≤ c.toNat ∧ c.toNat < 192 := by
  have hall : ∀ i < 256, (UInt8.ofNat i &&& 0xc0 = 0x80) ↔
      128 ≤ (UInt8.ofNat i).toNat ∧ (UInt8.ofNat i).toNat < 192 := by decide +kernel
  have hc := hall c.toNat c.toNat_lt
  rwa [UInt8.ofNat_toNat] at hc

theorem continueCodepoint_cons {codepoint n : ℕ} {next : UInt8} {l : Bytes}
    (h : continueCodepoint codepoint (next :: l) = some n) :
    (128 ≤ next.toNat ∧ next.toNat < 192) ∧
      continueCodepoint (codepoint * 64 + next.toNat % 64) l = some n := by
  rw [continueCodepoint] at h
  by_cases hnext : next &&& 0xc0 ≠ 0x80
  · rw [if_pos hnext] at h
    cases h
  · rw [if_neg hnext] at h
    exact ⟨(continuation_iff next).1 (not_not.1 hnext), h⟩

theorem toUInt8_eq {n : ℕ} {c : UInt8} (h : n = c.toNat) : n.toUInt8 = c := by
  rw [h]
  exact UInt8.ofNat_toNat

/-- The first byte of a character and its width. -/
theorem utf8Width_cases {c : UInt8} (h : utf8Width c ≠ 0) :
    (utf8Width c = 2 ∧ 0xc2 ≤ c.toNat ∧ c.toNat ≤ 0xdf) ∨
      (utf8Width c = 3 ∧ 0xe0 ≤ c.toNat ∧ c.toNat ≤ 0xef) ∨
        (utf8Width c = 4 ∧ 0xf0 ≤ c.toNat ∧ c.toNat ≤ 0xf4) := by
  rw [utf8Width] at h ⊢
  split_ifs at h ⊢ with h2 h3 h4
  · exact Or.inl ⟨rfl, h2⟩
  · exact Or.inr (Or.inl ⟨rfl, h3⟩)
  · exact Or.inr (Or.inr ⟨rfl, h4⟩)
  · exact absurd rfl h

/-- The bytes of a character in the right range are the UTF-8 form of its code point. -/
theorem utf8_of_continueCodepoint {c : UInt8} {t : Bytes} {n : ℕ} (hne : utf8Width c ≠ 0)
    (hlength : t.length + 1 = utf8Width c)
    (hcode : continueCodepoint (c.toNat % 2 ^ (7 - utf8Width c)) t = some n)
    (hrange : ¬((utf8Width c = 3 ∧ n < 0x800) ∨ (utf8Width c = 4 ∧ n < 0x10000) ∨
      (0xd800 ≤ n ∧ n ≤ 0xdfff) ∨ 0x10ffff < n)) :
    (∀ b ∈ t, 128 ≤ b.toNat) ∧ Json.utf8 n = some (c :: t) := by
  rcases utf8Width_cases hne with ⟨hwidth, hlow, hhigh⟩ | ⟨hwidth, hlow, hhigh⟩ |
    ⟨hwidth, hlow, hhigh⟩
  · rw [hwidth] at hlength hcode hrange
    obtain ⟨a, rfl⟩ := List.length_eq_one_iff.1 (show t.length = 1 by omega)
    obtain ⟨ha, hcode⟩ := continueCodepoint_cons hcode
    have hn := Option.some.inj hcode
    rw [Json.utf8, if_neg (by omega), if_pos (by omega), toUInt8_eq (c := c) (by omega),
      toUInt8_eq (c := a) (by omega)]
    exact ⟨by simpa using ha.1, rfl⟩
  · rw [hwidth] at hlength hcode hrange
    obtain ⟨a, b, rfl⟩ := List.length_eq_two.1 (show t.length = 2 by omega)
    obtain ⟨ha, hcode⟩ := continueCodepoint_cons hcode
    obtain ⟨hb, hcode⟩ := continueCodepoint_cons hcode
    have hn := Option.some.inj hcode
    rw [Json.utf8, if_neg (by omega), if_neg (by omega), if_pos (by omega), if_neg (by omega),
      toUInt8_eq (c := c) (by omega), toUInt8_eq (c := a) (by omega), toUInt8_eq (c := b) (by omega)]
    exact ⟨by simpa using ⟨ha.1, hb.1⟩, rfl⟩
  · rw [hwidth] at hlength hcode hrange
    obtain ⟨a, b, d, rfl⟩ := List.length_eq_three.1 (show t.length = 3 by omega)
    obtain ⟨ha, hcode⟩ := continueCodepoint_cons hcode
    obtain ⟨hb, hcode⟩ := continueCodepoint_cons hcode
    obtain ⟨hd, hcode⟩ := continueCodepoint_cons hcode
    have hn := Option.some.inj hcode
    rw [Json.utf8, if_neg (by omega), if_neg (by omega), if_neg (by omega), if_pos (by omega),
      toUInt8_eq (c := c) (by omega), toUInt8_eq (c := a) (by omega), toUInt8_eq (c := b) (by omega),
      toUInt8_eq (c := d) (by omega)]
    exact ⟨by simpa using ⟨ha.1, hb.1, hd.1⟩, rfl⟩

/-- A character that passes the checks is the UTF-8 form of a code point, and what follows it does
not matter. -/
theorem exists_of_checkCharacter {c : UInt8} {tail : Bytes} {width : ℕ}
    (h : checkCharacter c tail = some width) :
    ∃ t rest, tail = t ++ rest ∧ t.length + 1 = width ∧ tail.take (width - 1) = t ∧
      tail.drop (width - 1) = rest ∧ (∀ b ∈ t, 128 ≤ b.toNat) ∧
      (∃ n, Json.utf8 n = some (c :: t)) ∧
      ∀ rest', checkCharacter c (t ++ rest') = some width := by
  rw [checkCharacter] at h
  split_ifs at h with hwidth
  rw [not_or, not_lt] at hwidth
  cases hcode : continueCodepoint (c.toNat % 2 ^ (7 - utf8Width c))
      (tail.take (utf8Width c - 1)) with
  | none =>
    rw [hcode] at h
    cases h
  | some n =>
    rw [hcode] at h
    dsimp only at h
    split_ifs at h with hrange
    obtain rfl := Option.some.inj h
    have hlength : (tail.take (utf8Width c - 1)).length = utf8Width c - 1 := by
      rw [List.length_take]
      omega
    obtain ⟨hbytes, hutf8⟩ := utf8_of_continueCodepoint hwidth.1 (by omega) hcode hrange
    refine ⟨tail.take (utf8Width c - 1), tail.drop (utf8Width c - 1),
      (List.take_append_drop _ _).symm, by omega, rfl, rfl, hbytes, ⟨n, hutf8⟩, fun rest' => ?_⟩
    rw [checkCharacter]
    rw [if_neg (by rw [List.length_append, hlength]; omega),
      List.take_append_of_le_length (by rw [hlength]), List.take_of_length_le (by rw [hlength]),
      hcode]
    exact if_neg hrange

/-! ### What the loop keeps -/

/-- Texts of safe characters. -/
inductive Clean : Bytes → Prop
  | nil : Clean []
  | ascii {c : UInt8} {rest : Bytes} (hlow : c < 0x80) (hsafe : isSafeAscii c = true)
      (h : Clean rest) : Clean (c :: rest)
  | multi {c : UInt8} {t rest : Bytes} (hhigh : ¬c < 0x80) (hbytes : ∀ b ∈ t, 128 ≤ b.toNat)
      (hutf8 : ∃ n, Json.utf8 n = some (c :: t))
      (hcheck : ∀ rest', checkCharacter c (t ++ rest') = some (t.length + 1)) (h : Clean rest) :
      Clean (c :: t ++ rest)

/-- What the loop keeps is clean, and not longer than what it was given. -/
theorem clean_of_sanitize {turns : ℕ} {rest output result : Bytes} (hturns : rest.length ≤ turns)
    (h : sanitize turns rest output = some result) :
    ∃ kept, result = output ++ kept ∧ Clean kept ∧ kept.length ≤ rest.length := by
  induction turns generalizing rest output with
  | zero =>
    obtain rfl := List.length_eq_zero_iff.1 (Nat.le_zero.1 hturns)
    exact ⟨[], by rw [← Option.some.inj h, List.append_nil], .nil, le_rfl⟩
  | succ turns ih =>
    cases rest with
    | nil => exact ⟨[], by rw [← Option.some.inj h, List.append_nil], .nil, le_rfl⟩
    | cons c tail =>
      rw [List.length_cons] at hturns
      rw [sanitize] at h
      by_cases hlow : c < 0x80
      · rw [if_pos hlow] at h
        obtain ⟨kept, rfl, hclean, hle⟩ := ih (by omega) h
        by_cases hsafe : isSafeAscii c = true
        · rw [if_pos hsafe]
          refine ⟨c :: kept, by rw [List.append_assoc]; rfl, .ascii hlow hsafe hclean, ?_⟩
          rw [List.length_cons, List.length_cons]
          omega
        · rw [if_neg hsafe]
          exact ⟨kept, rfl, hclean, by rw [List.length_cons]; omega⟩
      · rw [if_neg hlow] at h
        cases hcheck : checkCharacter c tail with
        | none =>
          rw [hcheck] at h
          cases h
        | some width =>
          obtain ⟨t, rest', htail, hwidth, htake, hdrop, hbytes, hutf8, hframe⟩ :=
            exists_of_checkCharacter hcheck
          rw [hcheck] at h
          dsimp only at h
          rw [htake, hdrop] at h
          have hlength : tail.length = t.length + rest'.length := by
            rw [htail, List.length_append]
          obtain ⟨kept, rfl, hclean, hle⟩ := ih (by omega) h
          refine ⟨c :: t ++ kept, by rw [List.append_assoc],
            .multi hlow hbytes hutf8 (fun rest => hwidth ▸ hframe rest) hclean, ?_⟩
          rw [List.length_append, List.length_cons, List.length_cons]
          omega

/-- The loop keeps all of a clean text. -/
theorem sanitize_of_clean {turns : ℕ} {rest : Bytes} (h : Clean rest)
    (hturns : rest.length ≤ turns) (output : Bytes) :
    sanitize turns rest output = some (output ++ rest) := by
  induction h generalizing turns output with
  | nil =>
    cases turns with
    | zero => rw [sanitize, List.append_nil]
    | succ turns => rw [sanitize, List.append_nil]
  | @ascii c rest hlow hsafe h ih =>
    cases turns with
    | zero => exact absurd hturns (Nat.not_succ_le_zero _)
    | succ turns =>
      rw [List.length_cons] at hturns
      rw [sanitize, if_pos hlow, if_pos hsafe, ih (by omega), List.append_assoc,
        List.singleton_append]
  | @multi c t rest hhigh hbytes hutf8 hcheck h ih =>
    cases turns with
    | zero => exact absurd hturns (Nat.not_succ_le_zero _)
    | succ turns =>
      rw [List.cons_append, List.length_cons, List.length_append] at hturns
      rw [List.cons_append, sanitize, if_neg hhigh, hcheck]
      dsimp only
      rw [Nat.add_sub_cancel, List.take_left' rfl, List.drop_left' rfl, ih (by omega),
        List.append_assoc, List.cons_append]

theorem Clean.validUtf8 {text : Bytes} (h : Clean text) : ValidUtf8 text := by
  induction h with
  | nil => exact ⟨[], rfl, by simp⟩
  | @ascii c rest hlow hsafe h ih =>
    obtain ⟨characters, rfl, hall⟩ := ih
    refine ⟨[c] :: characters, rfl, ?_⟩
    rintro character hmem
    rcases List.mem_cons.1 hmem with rfl | hmem
    · have hle : c.toNat ≤ 0x7f := by
        have hlt : c.toNat < 128 := hlow
        omega
      exact ⟨c.toNat, by rw [Json.utf8, if_pos hle, toUInt8_eq rfl]⟩
    · exact hall character hmem
  | @multi c t rest hhigh hbytes hutf8 hcheck h ih =>
    obtain ⟨characters, rfl, hall⟩ := ih
    refine ⟨(c :: t) :: characters, rfl, ?_⟩
    rintro character hmem
    rcases List.mem_cons.1 hmem with rfl | hmem
    · exact hutf8
    · exact hall character hmem

/-- The bytes of a clean text are safe, or beyond ASCII. -/
theorem Clean.of_mem {text : Bytes} (h : Clean text) {b : UInt8} (hb : b ∈ text) :
    isSafeAscii b = true ∨ 128 ≤ b.toNat := by
  induction h with
  | nil => cases hb
  | @ascii c rest hlow hsafe h ih =>
    rcases List.mem_cons.1 hb with rfl | hb
    · exact Or.inl hsafe
    · exact ih hb
  | @multi c t rest hhigh hbytes hutf8 hcheck h ih =>
    rcases List.mem_append.1 hb with hb | hb
    · rcases List.mem_cons.1 hb with rfl | hb
      · exact Or.inr (Nat.le_of_not_lt hhigh)
      · exact Or.inr (hbytes b hb)
    · exact ih hb

theorem Clean.notMem {text : Bytes} (h : Clean text) :
    slash ∉ text ∧ backslash ∉ text ∧ 0 ∉ text := by
  refine ⟨fun hb => ?_, fun hb => ?_, fun hb => ?_⟩
  · exact absurd (h.of_mem hb) (by decide)
  · exact absurd (h.of_mem hb) (by decide)
  · exact absurd (h.of_mem hb) (by decide)

/-! ### Safe names -/

/-- What a name is that is not refused. -/
theorem refusedName_eq_false_iff {name : Bytes} :
    refusedName name = false ↔
      name ≠ [] ∧ name ≠ [dot] ∧ name ≠ [dot, dot] ∧ name.length ≤ 255 := by
  simp [refusedName, and_assoc]

/-- **A safe name** is empty, or it is clean and not refused. -/
theorem safeFilename_eq (value : Bytes) :
    safeFilename value = [] ∨
      Clean (safeFilename value) ∧ refusedName (safeFilename value) = false := by
  rw [safeFilename]
  split_ifs with hseparator hrefused
  · exact Or.inl rfl
  · exact Or.inl rfl
  · cases hsanitize : sanitize value.length value [] with
    | none => exact Or.inl rfl
    | some output =>
      dsimp only
      split_ifs with houtput
      · exact Or.inl rfl
      · obtain ⟨kept, rfl, hclean, -⟩ := clean_of_sanitize le_rfl hsanitize
        exact Or.inr ⟨hclean, by simpa using houtput⟩

/-- A clean name that is not refused is safe as it is. -/
theorem safeFilename_of_clean {name : Bytes} (h : Clean name) (hrefused : refusedName name = false) :
    safeFilename name = name := by
  obtain ⟨hslash, hbackslash, hzero⟩ := h.notMem
  rw [safeFilename, if_neg (by simp [hslash, hbackslash, hzero]), hrefused,
    if_neg Bool.false_ne_true, sanitize_of_clean h le_rfl]
  dsimp only
  rw [List.nil_append, hrefused, if_neg Bool.false_ne_true]

theorem safeFilename_safeFilename (value : Bytes) :
    safeFilename (safeFilename value) = safeFilename value := by
  rcases safeFilename_eq value with hnil | ⟨hclean, hrefused⟩
  · rw [hnil]
    rfl
  · exact safeFilename_of_clean hclean hrefused

theorem singleComponent_of_clean {name : Bytes} (h : Clean name) (hrefused : refusedName name = false) :
    SingleComponent name := by
  obtain ⟨hslash, -, hzero⟩ := h.notMem
  obtain ⟨hne, hdot, hdots, -⟩ := refusedName_eq_false_iff.1 hrefused
  exact ⟨hne, hslash, hzero, hdot, hdots⟩

/-! ### The names that are given -/

theorem lastDot_append {m : Bytes} {position : ℕ} (h : lastDot m = some position) (l : Bytes) :
    lastDot (l ++ m) = some (l.length + position) := by
  induction l with
  | nil => rw [List.nil_append, h, List.length_nil, Nat.zero_add]
  | cons c l ih =>
    rw [List.cons_append, lastDot, ih, List.length_cons, Nat.add_right_comm]

/-- An extension follows a stem that is not empty. -/
theorem exists_of_extension_ne_nil {name : Bytes} (h : extension name ≠ []) :
    ∃ stem, stem ≠ [] ∧ name = stem ++ extension name ∧
      replaceExtension name = stem ++ kWavExtension := by
  have hparts := h
  rw [extension] at h
  split_ifs at h with hspecial
  · exact absurd rfl h
  · split at h
    · exact absurd rfl h
    · exact absurd rfl h
    · rename_i position hzero hposition
      have hextension : extension name = name.drop position := by
        rw [extension, if_neg hspecial, hposition]
        cases position with
        | zero => exact absurd rfl hzero
        | succ position => rfl
      have hlt : position < name.length := by
        by_contra hle
        exact h (List.drop_eq_nil_of_le (Nat.le_of_not_lt hle))
      refine ⟨name.take position, ?_, ?_, ?_⟩
      · intro hnil
        have hlength := congrArg List.length hnil
        rw [List.length_take, List.length_nil] at hlength
        exact hzero (by omega)
      · rw [hextension, List.take_append_drop]
      · rw [replaceExtension, hextension, List.length_drop, Nat.sub_sub_self hlt.le]

/-- The extensions of audio formats have at least four bytes. -/
theorem four_le_of_validAudioUpload {filename data : Bytes}
    (h : validAudioUpload filename data = true) : 4 ≤ (extension filename).length := by
  have hlower : (lower (extension filename)).length = (extension filename).length :=
    List.length_map _
  rw [← hlower]
  rw [validAudioUpload] at h
  split_ifs at h with hwav
  · have hall : ∀ ext ∈ demuxed, 4 ≤ ext.length := by decide
    exact hall _ (of_decide_eq_true (Bool.and_eq_true_iff.1 h).1)
  · rw [not_not.1 hwav]
    decide

theorem extension_append_kWavExtension {stem : Bytes} (h : stem ≠ []) :
    extension (stem ++ kWavExtension) = kWavExtension := by
  have hlast : lastDot (stem ++ kWavExtension) = some stem.length :=
    lastDot_append (show lastDot kWavExtension = some 0 by decide) stem
  have hlength : (stem ++ kWavExtension).length = stem.length + 4 := List.length_append
  have hspecial : ¬(stem ++ kWavExtension = [dot] ∨ stem ++ kWavExtension = [dot, dot]) := by
    rintro (heq | heq)
    · rw [heq] at hlength
      simp at hlength
    · rw [heq] at hlength
      simp at hlength
  rw [extension, if_neg hspecial, hlast]
  obtain ⟨c, l, rfl⟩ := List.exists_cons_of_ne_nil h
  exact List.drop_left' rfl

/-- What a name is that is given to an upload. -/
structure UploadName (name : Bytes) : Prop where
  component : SingleComponent name
  length_le : name.length ≤ 255
  extension_eq : extension name = kWavExtension

theorem uploadName_of_valid {value data : Bytes} (hne : safeFilename value ≠ [])
    (hvalid : validAudioUpload (safeFilename value) data = true) :
    UploadName (replaceExtension (safeFilename value)) := by
  obtain ⟨hclean, hrefused⟩ := (safeFilename_eq value).resolve_left hne
  have hfour := four_le_of_validAudioUpload hvalid
  have hextension : extension (safeFilename value) ≠ [] := by
    intro hnil
    rw [hnil] at hfour
    exact absurd hfour (by decide)
  obtain ⟨stem, hstem, hname, hreplaced⟩ := exists_of_extension_ne_nil hextension
  obtain ⟨hslash, -, hzero⟩ := hclean.notMem
  have hlength := (refusedName_eq_false_iff.1 hrefused).2.2.2
  have hsplit := congrArg List.length hname
  rw [List.length_append] at hsplit
  have htotal : (stem ++ kWavExtension).length = stem.length + 4 := List.length_append
  have hmem : ∀ b, b ∉ safeFilename value → b ∉ kWavExtension → b ∉ stem ++ kWavExtension := by
    intro b hb hwav hmem
    rcases List.mem_append.1 hmem with hmem | hmem
    · refine hb ?_
      rw [hname]
      exact List.mem_append_left _ hmem
    · exact hwav hmem
  rw [hreplaced]
  refine ⟨⟨?_, hmem slash hslash (by decide), hmem 0 hzero (by decide), ?_, ?_⟩, by omega,
    extension_append_kWavExtension hstem⟩
  · intro hnil
    rw [hnil] at htotal
    simp at htotal
  · intro hdot
    rw [hdot] at htotal
    simp at htotal
  · intro hdots
    rw [hdots] at htotal
    simp at htotal

/-- The files among the parts, with the names that they are given. -/
def namedFiles (parts : List UploadPart) : List (UploadPart × Bytes) :=
  (parts.filter fun part => part.filename ≠ []).map fun part =>
    (part, replaceExtension (safeFilename part.filename))

/-- Every part that is collected keeps the names good and different; all files are collected. -/
theorem collectLoop_spec {parts : List UploadPart} {uploads result : List (UploadPart × Bytes)}
    (hnodup : (uploads.map Prod.snd).Nodup) (hnames : ∀ name ∈ uploads.map Prod.snd, UploadName name)
    (h : collectLoop parts uploads = .ok result) :
    (result.map Prod.snd).Nodup ∧ (∀ name ∈ result.map Prod.snd, UploadName name) ∧
      result = uploads ++ namedFiles parts := by
  induction parts generalizing uploads with
  | nil =>
    obtain rfl := Except.ok.inj h
    exact ⟨hnodup, hnames, (List.append_nil _).symm⟩
  | cons part parts ih =>
    rw [collectLoop] at h
    by_cases hempty : part.filename = []
    · rw [if_pos hempty] at h
      rw [namedFiles, List.filter_cons_of_neg (by simpa using hempty)]
      exact ih hnodup hnames h
    · rw [if_neg hempty] at h
      dsimp only at h
      split_ifs at h with hrefused hduplicate
      rw [not_or] at hrefused
      have hname := uploadName_of_valid hrefused.1 (by simpa using hrefused.2)
      rw [namedFiles, List.filter_cons_of_pos (by simpa using hempty), List.map_cons,
        List.append_cons]
      refine ih ?_ ?_ h
      · rw [List.map_append, List.nodup_append]
        refine ⟨hnodup, by simp, ?_⟩
        rintro name hmem last hlast rfl
        rw [List.mem_singleton.1 hlast] at hmem
        exact hduplicate hmem
      · intro name hmem
        rw [List.map_append] at hmem
        rcases List.mem_append.1 hmem with hmem | hmem
        · exact hnames name hmem
        · rw [List.mem_singleton.1 hmem]
          exact hname

/-- The path of a file that is staged. -/
def stagedPath (directory name : Bytes) : Bytes := directory ++ slash :: name

/-- The directory that holds a path: what stands before the last slash. -/
def parentOf (path : Bytes) : Bytes := (path.reverse.dropWhile (· ≠ slash)).tail.reverse

theorem parentOf_stagedPath {directory name : Bytes} (h : slash ∉ name) :
    parentOf (stagedPath directory name) = directory := by
  have hwhile : (name.reverse ++ slash :: directory.reverse).dropWhile (· ≠ slash) =
      slash :: directory.reverse := by
    rw [List.dropWhile_append_of_pos]
    · rw [List.dropWhile_cons_of_neg (by simp)]
    · intro c hc
      simp only [ne_eq, decide_not, Bool.not_eq_eq_eq_not, Bool.not_true, decide_eq_false_iff_not]
      rintro rfl
      exact h (List.mem_reverse.1 hc)
  rw [parentOf, stagedPath, List.reverse_append, List.reverse_cons, List.append_assoc,
    List.singleton_append, hwhile, List.tail_cons, List.reverse_reverse]

/-- **Names of uploads.** A safe name is empty, or a single component in UTF-8 of at most 255 bytes;
making it safe again changes nothing. The names that uploads are given are single components with
the extension `.wav`, and all different, so that the staged files are different direct children of
their directory; every file of the request has one, in order. -/
theorem upload_names :
    (∀ value, safeFilename (safeFilename value) = safeFilename value ∧
      (safeFilename value = [] ∨ ValidUtf8 (safeFilename value) ∧
        (safeFilename value).length ≤ 255 ∧ SingleComponent (safeFilename value))) ∧
      ∀ parts uploads, collectUploads parts = .ok uploads →
        (uploads.map Prod.snd).Nodup ∧
          (∀ name ∈ uploads.map Prod.snd, SingleComponent name ∧ name.length ≤ 255 ∧
            extension name = kWavExtension) ∧
          (∀ directory, (uploads.map fun upload => stagedPath directory upload.2).Nodup ∧
            ∀ upload ∈ uploads, parentOf (stagedPath directory upload.2) = directory) ∧
          uploads = namedFiles parts := by
  refine ⟨fun value => ⟨safeFilename_safeFilename value, ?_⟩, fun parts uploads h => ?_⟩
  · rcases safeFilename_eq value with hnil | ⟨hclean, hrefused⟩
    · exact Or.inl hnil
    · exact Or.inr ⟨hclean.validUtf8, (refusedName_eq_false_iff.1 hrefused).2.2.2,
        singleComponent_of_clean hclean hrefused⟩
  · obtain ⟨hnodup, hnames, huploads⟩ := collectLoop_spec (by simp) (by simp) h
    refine ⟨hnodup, fun name hmem => ?_, fun directory => ⟨?_, fun upload hmem => ?_⟩, huploads⟩
    · exact ⟨(hnames name hmem).component, (hnames name hmem).length_le,
        (hnames name hmem).extension_eq⟩
    · have hpaths : (uploads.map fun upload => stagedPath directory upload.2) =
          (uploads.map Prod.snd).map (stagedPath directory) := by
        rw [List.map_map]
        rfl
      rw [hpaths]
      refine List.Pairwise.map _ (fun a b hne hab => hne ?_) hnodup
      exact (List.cons.inj (List.append_cancel_left hab)).2
    · exact parentOf_stagedPath (hnames _ (List.mem_map_of_mem hmem)).component.slash_notMem

/-- Two files with a field between them. -/
def twoFiles : List UploadPart :=
  [⟨bytes "Lead.FLAC", [1]⟩, ⟨[], bytes "alto"⟩, ⟨bytes "b.wav", bytes "RIFF....WAVE"⟩]

theorem upload_names_twoFiles :
    ∃ uploads, collectUploads twoFiles = .ok uploads ∧
      uploads.map Prod.snd = [bytes "Lead.wav", bytes "b.wav"] ∧
      (uploads.map fun upload => stagedPath (bytes "raw") upload.2).Nodup := by
  have haccepted : collectUploads twoFiles = .ok (namedFiles twoFiles) := by rfl
  obtain ⟨-, -, hpaths, -⟩ := upload_names.2 _ _ haccepted
  exact ⟨_, haccepted, by decide, (hpaths _).1⟩

end Resonantia.Web
