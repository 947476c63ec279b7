import Mathlib.Data.Nat.Notation
import Mathlib.Data.Option.Basic
import Mathlib.Tactic.SplitIfs
import Resonantia.Library.Bytes
import Resonantia.Library.Search

/-!
# Multipart bodies

The parser of `multipart/form-data` request bodies. A position of the source is the list of bytes
from there on.

## Main definitions

* `Web.Multipart.parseMultipart`: the parser, with `parsePartHeaders` and `parseDisposition`.
* `Web.Multipart.serialize`: a body with given parts, names and filenames as quoted strings.
* `Web.Multipart.frame`: delimiter lines, header blocks and contents, one after the other.

## Main results

* `Web.Multipart.parseMultipart_serialize`: serialized parts are read back.
* `Web.Multipart.frame_of_parseMultipart`: an accepted body is framed as the returned parts.
-/

namespace Resonantia.Web.Multipart

open ByteString Search

/-! ### Bytes -/

def crlf : Bytes := [13, 10]

def dashes : Bytes := [45, 45]

/-- `std::tolower` of the C locale. -/
def toLower (c : UInt8) : UInt8 := if 65 ≤ c ∧ c ≤ 90 then c + 32 else c

def lower (value : Bytes) : Bytes := value.map toLower

/-! ### The header of one part -/

structure Part where
  name : Bytes := []
  filename : Bytes := []
  data : Bytes := []
deriving DecidableEq, Repr

/-- `mime_parameter_token`: a visible character other than the MIME separators. -/
def mimeParameterToken (c : UInt8) : Bool :=
  32 < c && c < 127 && !(bytes "()<>@,;:\\\"/[]?=").contains c

/-- The rest of a comment that is open to this depth. -/
def skipComment : ℕ → Bytes → Option Bytes
  | 0, l => some l
  | _ + 1, [] => none
  | depth + 1, c :: l =>
    if c = byte '\\' then
      match l with
      | [] => none
      | _ :: l => skipComment (depth + 1) l
    else if c = byte '(' then skipComment (depth + 2) l
    else if c = byte ')' then skipComment depth l
    else skipComment (depth + 1) l

theorem suffix_of_skipComment {depth : ℕ} {l rest : Bytes} (h : skipComment depth l = some rest) :
    rest <:+ l := by
  fun_induction skipComment depth l with
  | case1 l => exact (Option.some.inj h) ▸ List.suffix_refl l
  | case2 | case3 => cases h
  | case4 depth c l ih => exact (ih h).trans ⟨[_, c], rfl⟩
  | case5 depth l _ ih | case6 depth l _ _ ih | case7 depth c l _ _ _ ih =>
    exact (ih h).trans (List.suffix_cons _ _)

/-- `skip_space` of `parse_disposition`: blanks and comments; `none` is an open comment. -/
def skipSpace (l : Bytes) : Option Bytes :=
  match l with
  | [] => some []
  | c :: l =>
    if c = byte ' ' ∨ c = byte '\t' then skipSpace l
    else if c = byte '(' then
      match h : skipComment 1 l with
      | none => none
      | some rest =>
        have : rest.length < (c :: l).length :=
          Nat.lt_succ_of_le (suffix_of_skipComment h).length_le
        skipSpace rest
    else some (c :: l)
termination_by l.length
decreasing_by all_goals simp only [List.length_cons] at *; omega

theorem suffix_of_skipSpace {l rest : Bytes} (h : skipSpace l = some rest) : rest <:+ l := by
  fun_induction skipSpace l with
  | case1 => exact (Option.some.inj h) ▸ List.suffix_refl _
  | case2 c l _ ih => exact (ih h).trans (List.suffix_cons _ _)
  | case3 => cases h
  | case4 l rest' hcomment _ _ ih =>
    exact (ih h).trans ((suffix_of_skipComment hcomment).trans (List.suffix_cons _ _))
  | case5 => exact (Option.some.inj h) ▸ List.suffix_refl _

/-- `token` of `parse_disposition`. -/
def token (l : Bytes) : Bytes × Bytes :=
  (l.takeWhile mimeParameterToken, l.dropWhile mimeParameterToken)

/-- A quoted string after its opening mark: the text and what follows the closing mark. -/
def quotedString : Bytes → Option (Bytes × Bytes)
  | [] => none
  | c :: l =>
    if c = byte '"' then some ([], l)
    else if c = byte '\\' then
      match l with
      | [] => none
      | c :: l => (quotedString l).map fun r => (c :: r.1, r.2)
    else (quotedString l).map fun r => (c :: r.1, r.2)

theorem suffix_of_quotedString {l text rest : Bytes} (h : quotedString l = some (text, rest)) :
    rest <:+ l := by
  fun_induction quotedString l generalizing text with
  | case1 => cases h
  | case2 l =>
    obtain ⟨-, rfl⟩ := Prod.mk.inj (Option.some.inj h)
    exact List.suffix_cons _ _
  | case3 => cases h
  | case4 d l _ ih =>
    obtain ⟨⟨text', rest'⟩, hrest, heq⟩ := Option.map_eq_some_iff.1 h
    obtain ⟨-, rfl⟩ := Prod.mk.inj heq
    exact (ih hrest).trans ⟨[_, d], rfl⟩
  | case5 c l _ _ ih =>
    obtain ⟨⟨text', rest'⟩, hrest, heq⟩ := Option.map_eq_some_iff.1 h
    obtain ⟨-, rfl⟩ := Prod.mk.inj heq
    exact (ih hrest).trans (List.suffix_cons _ _)

/-- The value of one parameter: a quoted string or a nonempty token. -/
def parameterValue (l : Bytes) : Option (Bytes × Bytes) :=
  if l.head? = some (byte '"') then quotedString l.tail
  else if (token l).1 = [] then none
  else some (token l)

/-- One parameter after its semicolon: its name, its value, and the rest, which is empty or starts
with the next semicolon. -/
def parseParameter (l : Bytes) : Option (Bytes × Bytes × Bytes) := do
  let l ← skipSpace l
  let name := lower (token l).1
  guard (name ≠ [])
  let l ← skipSpace (token l).2
  guard (l.head? = some (byte '='))
  let l ← skipSpace l.tail
  let (parameter, l) ← parameterValue l
  let l ← skipSpace l
  guard (l = [] ∨ l.head? = some (byte ';'))
  return (name, parameter, l)

theorem suffix_of_parameterValue {l text rest : Bytes} (h : parameterValue l = some (text, rest)) :
    rest <:+ l := by
  rw [parameterValue] at h
  split_ifs at h
  · exact (suffix_of_quotedString h).trans (List.tail_suffix l)
  · obtain ⟨-, rfl⟩ := Prod.mk.inj (Option.some.inj h)
    exact List.dropWhile_suffix _

theorem suffix_of_parseParameter {l name parameter rest : Bytes}
    (h : parseParameter l = some (name, parameter, rest)) : rest <:+ l := by
  simp only [parseParameter, Option.bind_eq_bind, Option.bind_eq_some_iff,
    Option.guard_eq_some'] at h
  obtain ⟨l₁, hspace₁, -, -, l₂, hspace₂, -, -, l₃, hspace₃, ⟨text, l₄⟩, hvalue, l₅, hspace₄, -, -,
    heq⟩ := h
  obtain ⟨-, -, rfl⟩ : _ ∧ _ ∧ l₅ = rest := by simpa using heq
  calc l₅ <:+ l₄ := suffix_of_skipSpace hspace₄
    _ <:+ l₃ := suffix_of_parameterValue hvalue
    _ <:+ l₂ := (suffix_of_skipSpace hspace₃).trans (List.tail_suffix l₂)
    _ <:+ l₁ := (suffix_of_skipSpace hspace₂).trans (List.dropWhile_suffix _)
    _ <:+ l := suffix_of_skipSpace hspace₁

/-- What the parameters of a disposition have set. -/
structure Disposition where
  part : Part
  haveName : Bool := false
  haveFilename : Bool := false
deriving DecidableEq

/-- Record one parameter; `name` and `filename` at most once, `filename*` never. -/
def Disposition.set (d : Disposition) (name parameter : Bytes) : Option Disposition :=
  if name = bytes "name" then
    if d.haveName then none
    else some { d with part := { d.part with name := parameter }, haveName := true }
  else if name = bytes "filename" then
    if d.haveFilename then none
    else some { d with part := { d.part with filename := parameter }, haveFilename := true }
  else if name = bytes "filename*" then none
  else some d

/-- The parameter loop of `parse_disposition`. -/
def parseParameters (d : Disposition) (l : Bytes) : Option Disposition :=
  match l with
  | [] => some d
  | c :: l =>
    if c ≠ byte ';' then none
    else
      match h : parseParameter l with
      | none => none
      | some (name, parameter, rest) =>
        have : rest.length < (c :: l).length :=
          Nat.lt_succ_of_le (suffix_of_parseParameter h).length_le
        (d.set name parameter).bind fun d => parseParameters d rest
termination_by l.length
decreasing_by all_goals simp only [List.length_cons] at *; omega

/-- `parse_disposition`. -/
def parseDisposition (value : Bytes) (part : Part) : Option Part := do
  let l ← skipSpace value
  guard (lower (token l).1 = bytes "form-data")
  let l ← skipSpace (token l).2
  let d ← parseParameters { part } l
  guard d.haveName
  return d.part

/-- The header lines of a block; a line ends at CRLF or at the end of the block. -/
def splitLines (headers : Bytes) : List Bytes :=
  if headers = [] then []
  else
    match _hcut : splitAtFirst crlf headers with
    | none => [headers]
    | some (line, rest) => line :: splitLines rest
termination_by headers.length
decreasing_by exact length_lt_of_splitAtFirst (by decide) _hcut

/-- The header that is being collected, and the part so far. -/
structure HeaderState where
  key : Bytes := []
  value : Bytes := []
  haveDisposition : Bool := false
  part : Part := {}
deriving DecidableEq

/-- `finish_header`. -/
def finishHeader (s : HeaderState) : Option HeaderState :=
  if s.key ≠ bytes "content-disposition" then some s
  else if s.haveDisposition then none
  else (parseDisposition s.value s.part).map fun part => { s with haveDisposition := true, part }

/-- One line of the header block. -/
def headerLine (s : HeaderState) (line : Bytes) : Option HeaderState := do
  guard (line ≠ [])
  guard (line.all fun c => (32 ≤ c || c = byte '\t') && c ≠ 127)
  if line.head? = some (byte ' ') ∨ line.head? = some (byte '\t') then
    guard (s.key ≠ [])
    return { s with value := s.value ++ line }
  else
    let s ← finishHeader s
    let (key, value) ← splitAtFirst [byte ':'] line
    guard (key ≠ [])
    guard (key.all fun c => 33 ≤ c && c ≤ 126)
    return { s with key := lower key, value }

/-- `parse_part_headers`. -/
def parsePartHeaders (headers : Bytes) : Option Part := do
  let s ← (splitLines headers).foldlM headerLine {}
  let s ← finishHeader s
  guard s.haveDisposition
  return s.part

/-! ### The parts -/

inductive MultipartResult
  | ok
  | malformed
  | tooManyParts
  | tooLarge
deriving DecidableEq, Repr

def maxHeaderBytes : ℕ := 64 * 1024

def maxFileBytes : ℕ := 64 * 1024 * 1024

def maxFieldBytes : ℕ := 16 * 1024

def maxMultipartParts : ℕ := 128

/-- `"\r\n--" + boundary`. -/
def marker (boundary : Bytes) : Bytes := crlf ++ (dashes ++ boundary)

theorem marker_ne_nil (boundary : Bytes) : marker boundary ≠ [] := by simp [marker, crlf]

/-- What follows the marker makes it a complete delimiter line. -/
def completes (suffix : Bytes) : Bool :=
  crlf <+: suffix || (dashes <+: suffix && (suffix.drop 2 = [] || crlf <+: suffix.drop 2))

/-- The parts after a delimiter. -/
def parseParts (boundary : Bytes) (rest : Bytes) (parts : List Part) :
    MultipartResult × List Part :=
  if dashes <+: rest then
    if rest.drop 2 = [] ∨ rest.drop 2 = crlf then (.ok, parts) else (.malformed, parts)
  else if crlf <+: rest then
    match hheader : splitAtFirst (crlf ++ crlf) (rest.drop 2) with
    | none => (.malformed, parts)
    | some (headers, body) =>
      if maxHeaderBytes < headers.length then (.malformed, parts)
      else
        match hdata : splitAtWhere (marker boundary) (marker_ne_nil boundary) completes body with
        | none => (.malformed, parts)
        | some (data, suffix) =>
          if maxMultipartParts ≤ parts.length then (.tooManyParts, parts)
          else
            match parsePartHeaders headers with
            | none => (.malformed, parts)
            | some part =>
              if (if part.filename = [] then maxFieldBytes else maxFileBytes) < data.length then
                (.tooLarge, parts)
              else
                have : suffix.length < rest.length := by
                  have hbody := length_lt_of_splitAtFirst (by decide) hheader
                  rw [(eq_append_of_splitAtWhere hdata).1, List.length_append,
                    List.length_append, List.length_drop] at hbody
                  omega
                parseParts boundary suffix (parts ++ [{ part with data }])
  else (.malformed, parts)
termination_by rest.length

/-- The boundaries that `parse_multipart` accepts. -/
def ValidBoundary (boundary : Bytes) : Prop :=
  boundary ≠ [] ∧ boundary.length ≤ 200 ∧ (13 : UInt8) ∉ boundary ∧ (10 : UInt8) ∉ boundary

instance (boundary : Bytes) : Decidable (ValidBoundary boundary) := by
  unfold ValidBoundary
  infer_instance

/-- `parse_multipart`. -/
def parseMultipart (body boundary : Bytes) (parts : List Part) : MultipartResult × List Part :=
  if ¬ValidBoundary boundary then (.malformed, parts)
  else if dashes ++ boundary <+: body then
    parseParts boundary (body.drop (dashes ++ boundary).length) parts
  else (.malformed, parts)

/-! ### Serialized parts -/

/-- A byte of a quoted string, after a backslash where it needs one. -/
def escape (c : UInt8) : Bytes := if c = byte '"' ∨ c = byte '\\' then [byte '\\', c] else [c]

def quoted (text : Bytes) : Bytes := byte '"' :: (text.flatMap escape ++ [byte '"'])

/-- The header block of a part. -/
def headerBlock (p : Part) : Bytes :=
  bytes "Content-Disposition: form-data; name=" ++ quoted p.name ++
    if p.filename = [] then [] else bytes "; filename=" ++ quoted p.filename

/-- The bytes of header blocks and contents between delimiter lines. -/
def frame (boundary : Bytes) (blocks : List (Bytes × Part)) (trailer : Bytes) : Bytes :=
  (blocks.flatMap fun block =>
    dashes ++ boundary ++ crlf ++ block.1 ++ crlf ++ crlf ++ block.2.data ++ crlf) ++
  dashes ++ boundary ++ dashes ++ trailer

def serialize (boundary : Bytes) (parts : List Part) (trailer : Bytes) : Bytes :=
  frame boundary (parts.map fun p => (headerBlock p, p)) trailer

/-- No control character. -/
def PlainText (text : Bytes) : Prop := ∀ c ∈ text, 32 ≤ c ∧ c ≠ 127

/-- The content, with the line break that ends it, holds no complete delimiter line. -/
def ContentSafe (boundary content : Bytes) : Prop :=
  ¬marker boundary ++ crlf <:+: content ++ crlf ∧
    ¬marker boundary ++ dashes ++ crlf <:+: content ++ crlf

/-- The parts that can be sent. -/
structure Serializable (boundary : Bytes) (p : Part) : Prop where
  named : p.name ≠ []
  name : PlainText p.name
  filename : PlainText p.filename
  header : (headerBlock p).length ≤ maxHeaderBytes
  size : p.data.length ≤ if p.filename = [] then maxFieldBytes else maxFileBytes
  content : ContentSafe boundary p.data

/-! ### Reading a quoted string -/

theorem quotedString_append (text rest : Bytes) :
    quotedString (text.flatMap escape ++ byte '"' :: rest) = some (text, rest) := by
  induction text with
  | nil =>
    rw [List.flatMap_nil, List.nil_append, quotedString.eq_def]
    exact if_pos rfl
  | cons c text ih =>
    rw [List.flatMap_cons, List.append_assoc, escape]
    by_cases hc : c = byte '"' ∨ c = byte '\\'
    · have hbackslash : byte '\\' ≠ byte '"' := by decide
      rw [if_pos hc, List.cons_append, List.cons_append, List.nil_append, quotedString,
        if_neg hbackslash, if_pos rfl, ih, Option.map_some]
    · rw [not_or] at hc
      rw [if_neg (not_or.2 hc), List.cons_append, List.nil_append, quotedString.eq_def]
      simp only [hc.1, hc.2, if_false, ih, Option.map_some]

theorem skipSpace_of_not_blank {c : UInt8} {l : Bytes}
    (h : c ≠ byte ' ' ∧ c ≠ byte '\t' ∧ c ≠ byte '(') : skipSpace (c :: l) = some (c :: l) := by
  rw [skipSpace, if_neg (not_or.2 ⟨h.1, h.2.1⟩), if_neg h.2.2]

theorem skipSpace_blank (l : Bytes) : skipSpace (byte ' ' :: l) = skipSpace l := by
  rw [skipSpace, if_pos (Or.inl rfl)]

theorem token_append {word rest : Bytes} {c : UInt8} (hword : ∀ x ∈ word, mimeParameterToken x)
    (hc : mimeParameterToken c = false) : token (word ++ c :: rest) = (word, c :: rest) := by
  rw [token, List.takeWhile_append_of_pos hword, List.dropWhile_append_of_pos hword]
  simp [hc]

/-- What may follow a parameter. -/
def Sequel (rest : Bytes) : Prop := rest = [] ∨ rest.head? = some (byte ';')

theorem skipSpace_sequel {rest : Bytes} (h : Sequel rest) : skipSpace rest = some rest := by
  cases rest with
  | nil => rw [skipSpace]
  | cons c l =>
    have hc : c = byte ';' := by simpa [Sequel] using h
    exact skipSpace_of_not_blank (by rw [hc]; decide)

/-- A parameter with a quoted value is read. -/
theorem parseParameter_quoted {x : UInt8} {word text rest : Bytes}
    (hword : ∀ y ∈ x :: word, mimeParameterToken y) (hlower : lower (x :: word) = x :: word)
    (hrest : Sequel rest) :
    parseParameter (byte ' ' :: (x :: word ++ byte '=' :: (quoted text ++ rest))) =
      some (x :: word, text, rest) := by
  have hx : x ≠ byte ' ' ∧ x ≠ byte '\t' ∧ x ≠ byte '(' := by
    have htoken := hword x (by simp)
    refine ⟨?_, ?_, ?_⟩ <;> rintro rfl <;> revert htoken <;> decide
  have htoken := @token_append _ (quoted text ++ rest) _ hword
    (show mimeParameterToken (byte '=') = false by decide)
  have hspace : skipSpace (x :: word ++ byte '=' :: (quoted text ++ rest)) =
      some (x :: word ++ byte '=' :: (quoted text ++ rest)) := skipSpace_of_not_blank hx
  have hvalue : parameterValue (quoted text ++ rest) = some (text, rest) := by
    rw [parameterValue, quoted, List.cons_append, if_pos (by rfl), List.tail_cons,
      List.append_assoc]
    exact quotedString_append text rest
  have hquote : skipSpace (quoted text ++ rest) = some (quoted text ++ rest) :=
    skipSpace_of_not_blank (by decide)
  have hequals : skipSpace (byte '=' :: (quoted text ++ rest)) =
      some (byte '=' :: (quoted text ++ rest)) := skipSpace_of_not_blank (by decide)
  rw [parseParameter, skipSpace_blank, hspace]
  simp only [Option.bind_eq_bind, Option.bind_some, htoken, hlower, hequals, List.head?_cons,
    List.tail_cons, hquote, hvalue, skipSpace_sequel hrest]
  simp [guard, show rest = [] ∨ rest.head? = some (byte ';') from hrest]

/-! ### Reading a header block -/

theorem parseParameters_cons {d d' : Disposition} {l name parameter rest : Bytes}
    (hparse : parseParameter l = some (name, parameter, rest))
    (hset : d.set name parameter = some d') :
    parseParameters d (byte ';' :: l) = parseParameters d' rest := by
  rw [parseParameters]
  simp only [ne_eq, not_true_eq_false, if_false]
  split
  · rename_i hnone
    rw [hparse] at hnone
    cases hnone
  · rename_i hsome
    rw [hparse] at hsome
    obtain ⟨rfl, heq⟩ := Prod.mk.inj (Option.some.inj hsome)
    obtain ⟨rfl, rfl⟩ := Prod.mk.inj heq
    rw [hset, Option.bind_some]

/-- The value of the header of a serialized part. -/
def dispositionValue (p : Part) : Bytes :=
  bytes " form-data" ++ byte ';' :: (byte ' ' :: (bytes "name" ++ byte '=' :: (quoted p.name ++
    if p.filename = [] then []
    else byte ';' :: (byte ' ' :: (bytes "filename" ++ byte '=' :: (quoted p.filename ++ []))))))

theorem headerBlock_eq (p : Part) :
    headerBlock p = bytes "Content-Disposition" ++ byte ':' :: dispositionValue p := by
  rw [headerBlock, dispositionValue]
  split_ifs
  · simp [bytes, byte]
  · simp [bytes, byte]

/-- The disposition of a serialized part is read back. -/
theorem parseDisposition_value (p : Part) :
    parseDisposition (dispositionValue p) {} = some { p with data := [] } := by
  have hname : ∀ rest, Sequel rest →
      parseParameter (byte ' ' :: (bytes "name" ++ byte '=' :: (quoted p.name ++ rest))) =
        some (bytes "name", p.name, rest) := fun rest hrest =>
    parseParameter_quoted (forall_mem_of_all (by decide)) (by decide) hrest
  have hfilename :
      parseParameter (byte ' ' :: (bytes "filename" ++ byte '=' :: (quoted p.filename ++ []))) =
        some (bytes "filename", p.filename, []) :=
    parseParameter_quoted (forall_mem_of_all (by decide)) (by decide) (Or.inl rfl)
  have hparameters : ∃ d, parseParameters { part := {} } (byte ';' :: (byte ' ' :: (bytes "name" ++
      byte '=' :: (quoted p.name ++ if p.filename = [] then []
        else byte ';' :: (byte ' ' :: (bytes "filename" ++ byte '=' ::
          (quoted p.filename ++ [])))))) ) = some d ∧ d.haveName = true ∧
        d.part = { p with data := [] } := by
    by_cases hempty : p.filename = []
    · rw [if_pos hempty]
      refine ⟨{ part := { name := p.name }, haveName := true }, ?_, rfl, by simp [hempty]⟩
      rw [parseParameters_cons (hname [] (Or.inl rfl)) rfl, parseParameters]
    · rw [if_neg hempty]
      refine ⟨{ part := { p with data := [] }, haveName := true, haveFilename := true }, ?_, rfl,
        rfl⟩
      rw [parseParameters_cons (hname _ (Or.inr rfl)) rfl, parseParameters_cons hfilename rfl,
        parseParameters]
  obtain ⟨d, hd, hhave, hpart⟩ := hparameters
  have hspace : ∀ rest, skipSpace (bytes " form-data" ++ byte ';' :: rest) =
      some (bytes "form-data" ++ byte ';' :: rest) := fun rest =>
    (skipSpace_blank _).trans (skipSpace_of_not_blank (by decide))
  have htoken : ∀ rest, token (bytes "form-data" ++ byte ';' :: rest) =
      (bytes "form-data", byte ';' :: rest) := fun rest => token_append (forall_mem_of_all (by decide)) (by decide)
  have hsemicolon : ∀ rest, skipSpace (byte ';' :: rest) = some (byte ';' :: rest) :=
    fun rest => skipSpace_sequel (Or.inr rfl)
  rw [parseDisposition, dispositionValue, hspace]
  simp only [Option.bind_eq_bind, Option.bind_some, htoken, hsemicolon, hd, hhave, hpart]
  rfl

theorem plainText_headerBlock {p : Part} (hname : PlainText p.name)
    (hfilename : PlainText p.filename) : PlainText (headerBlock p) := by
  have hquoted : ∀ text, PlainText text → PlainText (quoted text) := by
    intro text htext c hc
    rw [quoted, List.mem_cons, List.mem_append, List.mem_singleton, List.mem_flatMap] at hc
    rcases hc with rfl | ⟨x, hx, hc⟩ | rfl
    · decide
    · rw [escape] at hc
      split_ifs at hc
      · rcases List.mem_cons.1 hc with rfl | hc
        · decide
        · exact List.mem_singleton.1 hc ▸ htext x hx
      · exact List.mem_singleton.1 hc ▸ htext x hx
    · decide
  intro c hc
  rw [headerBlock, List.mem_append, List.mem_append] at hc
  rcases hc with (hc | hc) | hc
  · exact (show PlainText (bytes "Content-Disposition: form-data; name=") from
      forall_mem_of_all (by decide)) c hc
  · exact hquoted _ hname c hc
  · split_ifs at hc
    · cases hc
    · rcases List.mem_append.1 hc with hc | hc
      · exact (show PlainText (bytes "; filename=") from
        forall_mem_of_all (by decide)) c hc
      · exact hquoted _ hfilename c hc

/-- A plain header block without a line break is one line. -/
theorem splitLines_plain {headers : Bytes} (hne : headers ≠ []) (h : PlainText headers) :
    splitLines headers = [headers] := by
  have hcut : splitAtFirst crlf headers = none :=
    splitAtFirst_eq_none_of_not_mem fun hmem => absurd (h 13 hmem).1 (by decide)
  rw [splitLines, if_neg hne]
  split
  · rfl
  · rename_i hsome
    rw [hcut] at hsome
    cases hsome

/-- The header block of a serialized part is read back. -/
theorem parsePartHeaders_headerBlock {p : Part} (hname : PlainText p.name)
    (hfilename : PlainText p.filename) :
    parsePartHeaders (headerBlock p) = some { p with data := [] } := by
  have hplain := plainText_headerBlock hname hfilename
  have hne : headerBlock p ≠ [] := by simp [headerBlock, bytes]
  have hline : headerLine {} (headerBlock p) =
      some { key := bytes "content-disposition", value := dispositionValue p } := by
    have hcut : splitAtFirst [byte ':'] (headerBlock p) =
        some (bytes "Content-Disposition", dispositionValue p) := by
      rw [headerBlock_eq]
      simpa using splitAtFirst_append_of_not_mem (p := ([] : Bytes)) (b := dispositionValue p)
        (show byte ':' ∉ bytes "Content-Disposition" by decide)
    have hall : (headerBlock p).all fun c => (32 ≤ c || c = byte '\t') && c ≠ 127 := by
      rw [List.all_eq_true]
      intro c hc
      simpa using ⟨Or.inl (hplain c hc).1, (hplain c hc).2⟩
    have hhead : (headerBlock p).head? = some (byte 'C') := by
      rw [headerBlock_eq]
      rfl
    rw [headerLine]
    simp only [hall, hhead, hcut]
    rfl
  rw [parsePartHeaders, splitLines_plain hne hplain]
  simp only [List.foldlM_cons, List.foldlM_nil, hline, Option.bind_eq_bind, Option.bind_some,
    Option.pure_def]
  rw [finishHeader]
  simp only [parseDisposition_value, ne_eq, not_true_eq_false, if_false, Option.map_some]
  rfl

/-! ### Bodies -/

/-- What follows a delimiter in a framed body. -/
def afterDelimiter (boundary : Bytes) (trailer : Bytes) : List (Bytes × Part) → Bytes
  | [] => dashes ++ trailer
  | block :: blocks =>
    crlf ++ (block.1 ++ (crlf ++ crlf) ++
      (block.2.data ++ marker boundary ++ afterDelimiter boundary trailer blocks))

theorem frame_eq (boundary : Bytes) (blocks : List (Bytes × Part)) (trailer : Bytes) :
    frame boundary blocks trailer =
      dashes ++ boundary ++ afterDelimiter boundary trailer blocks := by
  induction blocks with
  | nil => simp [frame, afterDelimiter]
  | cons block blocks ih =>
    have hcons : frame boundary (block :: blocks) trailer =
        dashes ++ boundary ++ crlf ++ block.1 ++ crlf ++ crlf ++ block.2.data ++ crlf ++
          frame boundary blocks trailer := by simp [frame]
    rw [hcons, ih]
    simp [afterDelimiter, marker]

theorem completes_afterDelimiter {boundary trailer : Bytes}
    (htrailer : trailer = [] ∨ trailer = crlf) (blocks : List (Bytes × Part)) :
    completes (afterDelimiter boundary trailer blocks) = true := by
  cases blocks with
  | nil =>
    rcases htrailer with rfl | rfl <;> simp [afterDelimiter, completes, dashes, crlf]
  | cons block blocks =>
    have hprefix : crlf <+: afterDelimiter boundary trailer (block :: blocks) :=
      List.prefix_append _ _
    simp [completes, hprefix]

/-- A prefix of two lists joined lies in the first if it is no longer than that. -/
theorem prefix_of_append {p a b : Bytes} (h : p <+: a ++ b) (hle : p.length ≤ a.length) : p <+: a :=
  List.prefix_of_prefix_length_le h (List.prefix_append a b) hle

/-- In safe content no delimiter line is complete, whatever part of it the search looks at. -/
theorem not_completes_of_contentSafe {boundary content front back sequel : Bytes}
    (hsafe : ContentSafe boundary content) (hcontent : content = front ++ marker boundary ++ back) :
    completes (back ++ marker boundary ++ sequel) = false := by
  subst hcontent
  obtain ⟨hline, hclose⟩ := hsafe
  have hsplit : back ++ marker boundary ++ sequel =
      (back ++ crlf) ++ (dashes ++ boundary ++ sequel) := by simp [marker]
  have hnotLine : ¬crlf <+: back ++ marker boundary ++ sequel := by
    rw [hsplit]
    intro h
    obtain ⟨rest, hrest⟩ := prefix_of_append h (by simp)
    refine hline ⟨front, rest, ?_⟩
    rw [List.append_assoc (front ++ marker boundary), ← hrest]
    simp
  have hnotClose : ¬(dashes <+: back ++ marker boundary ++ sequel ∧
      ((back ++ marker boundary ++ sequel).drop 2 = [] ∨
        crlf <+: (back ++ marker boundary ++ sequel).drop 2)) := by
    rintro ⟨⟨rest, hrest⟩, hend⟩
    have hdrop : (back ++ marker boundary ++ sequel).drop 2 = rest := by
      rw [← hrest]
      rfl
    rw [hdrop] at hend
    rcases hend with rfl | ⟨rest', rfl⟩
    · have hlength := congrArg List.length hrest
      simp [dashes, marker, crlf] at hlength
      omega
    · -- The two dashes and the line break lie in the content and the break that ends it.
      match back, hrest with
      | [], hrest => simp [dashes, crlf, marker] at hrest
      | [x], hrest => simp [dashes, crlf, marker] at hrest
      | x :: y :: back, hrest =>
        have hprefix : dashes ++ crlf <+: x :: y :: back ++ crlf := by
          rw [hsplit] at hrest
          refine prefix_of_append (b := dashes ++ boundary ++ sequel) ⟨rest', ?_⟩ ?_
          · rw [← hrest]
            simp
          · simp [dashes, crlf]
        obtain ⟨tail, htail⟩ := hprefix
        refine hclose ⟨front, tail, ?_⟩
        rw [List.append_assoc (front ++ marker boundary), ← htail]
        simp
  rw [completes, Bool.or_eq_false_iff, Bool.and_eq_false_iff]
  refine ⟨by simpa using hnotLine, ?_⟩
  by_cases hdashes : dashes <+: back ++ marker boundary ++ sequel
  · refine Or.inr ?_
    simpa using fun h => hnotClose ⟨hdashes, h⟩
  · exact Or.inl (by simpa using hdashes)

/-- The end of safe content is found. -/
theorem splitAtWhere_content {boundary content sequel : Bytes} (hboundary : ValidBoundary boundary)
    (hsafe : ContentSafe boundary content) (hsequel : completes sequel = true) :
    splitAtWhere (marker boundary) (marker_ne_nil boundary) completes
      (content ++ marker boundary ++ sequel) = some (content, sequel) := by
  refine splitAtWhere_append hsequel fun i hi hprefix => ?_
  -- The marker has its only line break in front, so it cannot reach into the next one.
  have hfit : i + (marker boundary).length ≤ content.length := by
    by_contra hlt
    obtain ⟨rest, hrest⟩ := hprefix
    have hget : (marker boundary)[content.length - i]? = some 13 := by
      have hat := congrArg (·[content.length - i]?) hrest
      rw [List.getElem?_append_left (by omega), List.getElem?_drop,
        Nat.add_sub_cancel' hi.le, List.append_assoc, List.getElem?_append_right le_rfl,
        Nat.sub_self] at hat
      rw [hat]
      rfl
    obtain ⟨k, hk⟩ : ∃ k, content.length - i = k + 1 := ⟨content.length - i - 1, by omega⟩
    rw [hk] at hget
    have hmem : (13 : UInt8) ∈ (10 : UInt8) :: (dashes ++ boundary) :=
      List.mem_of_getElem? hget
    simp only [List.mem_cons, List.mem_append, dashes] at hmem
    rcases hmem with h | h | h
    · exact absurd h (by decide)
    · exact absurd h (by decide)
    · exact hboundary.2.2.1 h
  refine ⟨hfit, ?_⟩
  obtain ⟨front, back, hcontent, rfl⟩ :
      ∃ front back, content = front ++ marker boundary ++ back ∧ i = front.length := by
    obtain ⟨rest, hrest⟩ := hprefix
    rw [List.append_assoc, List.drop_append_of_le_length hi.le] at hrest
    obtain ⟨back, hback⟩ : marker boundary <+: content.drop i :=
      prefix_of_append ⟨rest, hrest⟩ (by rw [List.length_drop]; omega)
    refine ⟨content.take i, back, ?_, ?_⟩
    · rw [List.append_assoc, hback, List.take_append_drop]
    · rw [List.length_take, min_eq_left hi.le]
  have hdrop : (content ++ marker boundary ++ sequel).drop
      (front.length + (marker boundary).length) = back ++ marker boundary ++ sequel := by
    rw [hcontent, ← List.length_append, List.append_assoc (front ++ marker boundary),
      List.append_assoc (front ++ marker boundary), List.drop_left, List.append_assoc]
  rw [hdrop]
  exact not_completes_of_contentSafe hsafe hcontent

/-- A block that the parser takes over. -/
structure Admissible (boundary : Bytes) (block : Bytes × Part) : Prop where
  oneBreak : (13 : UInt8) ∉ block.1
  header : block.1.length ≤ maxHeaderBytes
  read : parsePartHeaders block.1 = some { block.2 with data := [] }
  size : block.2.data.length ≤ if block.2.filename = [] then maxFieldBytes else maxFileBytes
  content : ContentSafe boundary block.2.data

/-- The blocks of a framed body are read one after the other. -/
theorem parseParts_afterDelimiter {boundary trailer : Bytes} {blocks : List (Bytes × Part)}
    {parts : List Part} (hboundary : ValidBoundary boundary)
    (htrailer : trailer = [] ∨ trailer = crlf)
    (hblocks : ∀ block ∈ blocks, Admissible boundary block)
    (hroom : parts.length + blocks.length ≤ maxMultipartParts) :
    parseParts boundary (afterDelimiter boundary trailer blocks) parts =
      (.ok, parts ++ blocks.map Prod.snd) := by
  induction blocks generalizing parts with
  | nil =>
    rw [parseParts, afterDelimiter, if_pos (List.prefix_append _ _)]
    have hdrop : (dashes ++ trailer).drop 2 = trailer := rfl
    rw [hdrop, if_pos htrailer, List.map_nil, List.append_nil]
  | cons block blocks ih =>
    obtain ⟨honeBreak, hheader, hread, hsize, hcontent⟩ := hblocks block (by simp)
    rw [List.length_cons] at hroom
    have hnext : parts.length < maxMultipartParts := by omega
    have hrec := @ih (parts ++ [block.2]) (fun b hb => hblocks b (by simp [hb]))
      (by rw [List.length_append, List.length_singleton]; omega)
    have hdashes : ¬dashes <+: afterDelimiter boundary trailer (block :: blocks) := by
      simp [afterDelimiter, dashes, crlf]
    have hcrlf : crlf <+: afterDelimiter boundary trailer (block :: blocks) :=
      List.prefix_append _ _
    have hdrop : (afterDelimiter boundary trailer (block :: blocks)).drop 2 =
        block.1 ++ (crlf ++ crlf) ++
          (block.2.data ++ marker boundary ++ afterDelimiter boundary trailer blocks) := rfl
    have hcutHeader := splitAtFirst_append_of_not_mem (p := [10, 13, 10])
      (b := block.2.data ++ marker boundary ++ afterDelimiter boundary trailer blocks) honeBreak
    have hcutData := splitAtWhere_content hboundary hcontent
      (@completes_afterDelimiter boundary _ htrailer blocks)
    rw [parseParts, if_neg hdashes, if_pos hcrlf]
    split
    · rename_i hnone
      rw [hdrop] at hnone
      exact absurd (hcutHeader.symm.trans hnone) (by simp)
    · rename_i headers body hsome
      rw [hdrop] at hsome
      obtain ⟨rfl, rfl⟩ := Prod.mk.inj (Option.some.inj (hcutHeader.symm.trans hsome))
      rw [if_neg (Nat.not_lt.2 hheader)]
      split
      · rename_i hnone
        exact absurd (hcutData.symm.trans hnone) (by simp)
      · rename_i data suffix hsome
        obtain ⟨rfl, rfl⟩ := Prod.mk.inj (Option.some.inj (hcutData.symm.trans hsome))
        rw [if_neg (Nat.not_le.2 hnext)]
        simp only [hread]
        rw [if_neg (Nat.not_lt.2 hsize), hrec, List.map_cons, List.append_assoc,
          List.singleton_append]

/-- **Serialized parts are read back.** -/
theorem parseMultipart_serialize {boundary trailer : Bytes} {parts : List Part}
    (hboundary : ValidBoundary boundary) (htrailer : trailer = [] ∨ trailer = crlf)
    (hparts : ∀ p ∈ parts, Serializable boundary p) (hroom : parts.length ≤ maxMultipartParts) :
    parseMultipart (serialize boundary parts trailer) boundary [] = (.ok, parts) := by
  have hblocks : ∀ block ∈ parts.map fun p => (headerBlock p, p), Admissible boundary block := by
    intro block hblock
    obtain ⟨p, hp, rfl⟩ := List.mem_map.1 hblock
    have h := hparts p hp
    refine ⟨fun hmem => ?_, h.header, parsePartHeaders_headerBlock h.name h.filename, h.size,
      h.content⟩
    exact absurd (plainText_headerBlock h.name h.filename 13 hmem).1 (by decide)
  have hparse := @parseParts_afterDelimiter _ _ _ [] hboundary htrailer hblocks (by simpa)
  rw [serialize, frame_eq, parseMultipart, if_neg (not_not.2 hboundary),
    if_pos (List.prefix_append _ _), List.drop_left, hparse]
  simp [Function.comp_def]

/-- The header block reads as the name and filename of the part. -/
def HeadedBy (headers : Bytes) (p : Part) : Prop :=
  ∃ part, parsePartHeaders headers = some part ∧ p = { part with data := p.data }

/-- What is accepted after a delimiter is framed as the new parts. -/
theorem afterDelimiter_of_parseParts {boundary rest : Bytes} {parts parts' : List Part}
    (h : parseParts boundary rest parts = (.ok, parts')) :
    ∃ blocks trailer, (trailer = [] ∨ trailer = crlf) ∧
      rest = afterDelimiter boundary trailer blocks ∧ parts' = parts ++ blocks.map Prod.snd ∧
      ∀ block ∈ blocks, HeadedBy block.1 block.2 := by
  fun_induction parseParts boundary rest parts with
  | case1 rest parts hdashes hend =>
    obtain ⟨-, rfl⟩ := Prod.mk.inj h
    refine ⟨[], rest.drop 2, hend, ?_, by simp, by simp⟩
    exact (List.prefix_append_drop hdashes)
  | case9 rest parts _ hcrlf headers body hheader _ data suffix hdata _ part hread _ _ ih =>
    obtain ⟨blocks, trailer, htrailer, rfl, rfl, hheaded⟩ := ih h
    refine ⟨(headers, { part with data }) :: blocks, trailer, htrailer, ?_, by simp, ?_⟩
    · calc rest = crlf ++ rest.drop 2 := List.prefix_append_drop hcrlf
        _ = crlf ++ (headers ++ (crlf ++ crlf) ++ body) := by
          rw [← eq_append_of_splitAtFirst hheader]
        _ = _ := by rw [(eq_append_of_splitAtWhere hdata).1, afterDelimiter]
    · intro block hblock
      rcases List.mem_cons.1 hblock with rfl | hblock
      · exact ⟨part, hread, rfl⟩
      · exact hheaded block hblock
  | _ => cases (Prod.mk.inj h).1

/-- **No byte is lost or duplicated.** An accepted body is framed as the returned parts. -/
theorem frame_of_parseMultipart {body boundary : Bytes} {parts : List Part}
    (h : parseMultipart body boundary [] = (.ok, parts)) :
    ∃ blocks trailer, (trailer = [] ∨ trailer = crlf) ∧ body = frame boundary blocks trailer ∧
      parts = blocks.map Prod.snd ∧ ∀ block ∈ blocks, HeadedBy block.1 block.2 := by
  rw [parseMultipart] at h
  split_ifs at h with hboundary hdelimiter
  · obtain ⟨blocks, trailer, htrailer, hrest, rfl, hheaded⟩ := afterDelimiter_of_parseParts h
    refine ⟨blocks, trailer, htrailer, ?_, by simp, hheaded⟩
    rw [frame_eq, ← hrest]
    exact List.prefix_append_drop hdelimiter
  · cases (Prod.mk.inj h).1
  · cases (Prod.mk.inj h).1

/-- **Multipart round trip.** Serialized parts are read back, and an accepted body is, in order and
without rest, the delimiter lines, header blocks and contents of the returned parts. -/
theorem parseMultipart_roundTrip :
    (∀ (boundary trailer : Bytes) (parts : List Part), ValidBoundary boundary →
      (trailer = [] ∨ trailer = crlf) → (∀ p ∈ parts, Serializable boundary p) →
      parts.length ≤ maxMultipartParts →
      parseMultipart (serialize boundary parts trailer) boundary [] = (.ok, parts)) ∧
    ∀ (body boundary : Bytes) (parts : List Part),
      parseMultipart body boundary [] = (.ok, parts) →
      ∃ blocks trailer, (trailer = [] ∨ trailer = crlf) ∧ body = frame boundary blocks trailer ∧
        parts = blocks.map Prod.snd ∧ ∀ block ∈ blocks, HeadedBy block.1 block.2 :=
  ⟨fun _ _ _ hboundary htrailer hparts hroom =>
      parseMultipart_serialize hboundary htrailer hparts hroom,
    fun _ _ _ h => frame_of_parseMultipart h⟩

/-- A field with an escaped mark in its name and content that starts like a delimiter. -/
theorem parseMultipart_roundTrip_nearDelimiter :
    ∃ body, parseMultipart body (bytes "b") [] =
        (.ok, [{ name := bytes "a\"b", data := crlf ++ bytes "--bx" }, { name := bytes "c" }]) ∧
      ∃ blocks trailer, (trailer = [] ∨ trailer = crlf) ∧ body = frame (bytes "b") blocks trailer ∧
        blocks.map (fun block => block.2.data) = [crlf ++ bytes "--bx", []] := by
  have hparse := parseMultipart_roundTrip.1 (bytes "b") crlf
    [{ name := bytes "a\"b", data := crlf ++ bytes "--bx" }, { name := bytes "c" }] (by decide)
    (by decide)
    (by
      simp only [List.forall_mem_cons, List.not_mem_nil, IsEmpty.forall_iff, implies_true, and_true]
      exact ⟨⟨by decide, forall_mem_of_all (by decide), forall_mem_of_all (by decide), by decide,
          by decide, by unfold ContentSafe; decide⟩,
        ⟨by decide, forall_mem_of_all (by decide), forall_mem_of_all (by decide), by decide,
          by decide, by unfold ContentSafe; decide⟩⟩)
    (by decide)
  obtain ⟨blocks, trailer, htrailer, hbody, hparts, -⟩ := parseMultipart_roundTrip.2 _ _ _ hparse
  refine ⟨_, hparse, blocks, trailer, htrailer, hbody, ?_⟩
  have hdata := congrArg (List.map Part.data) hparts
  rw [List.map_map] at hdata
  exact hdata.symm

end Resonantia.Web.Multipart
