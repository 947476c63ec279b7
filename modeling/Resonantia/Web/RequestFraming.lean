import Resonantia.Library.InputStream
import Resonantia.Web.Boundary

/-!
# Framing of requests

`read_request` collects pieces of a byte stream until the blank line that ends the header, parses the
header, and reads as many bytes as the header announces. How the stream is cut into pieces matters
only where the blank line starts within the last three bytes of the limit.

## Main definitions

* `Web.readRequest`: the two reading loops and the parser between them.
* `Web.framed`: the result for a header and what follows it, without pieces.
* `Web.SegmentationFree`: the pieces do not matter, and what is returned is framed as announced.

## Main results

* `Web.readHead_cases`: how the first loop ends.
* `Web.segmentationFree_iff`: for which streams the pieces do not matter.
-/

namespace Resonantia.Web

open ByteString Search
open Multipart (lower maxHeaderBytes)
open Boundary (isBlank skipBlanks)

/-! ### The header -/

structure Request where
  method : Bytes := []
  path : Bytes := []
  query : Bytes := []
  contentType : Bytes := []
  authorization : Bytes := []
  range : Bytes := []
  body : Bytes := []
deriving DecidableEq

/-- The results of `read_request` other than success. -/
inductive Refusal
  | badRequest
  | payloadTooLarge
  | unauthorized
  | serverBusy
deriving DecidableEq

def kMaxBodyBytes : ℕ := 128 * 1024 * 1024

def kMaxInflightBodyBytes : ℕ := 256 * 1024 * 1024

/-- `parse_size`, for numbers of 64 bits. -/
def parseSize (value : Bytes) : Option ℕ :=
  if value = [] then none
  else
    value.foldlM (fun parsed c =>
      if Json.isDigit c = false then none
      else if (18446744073709551615 - (c.toNat - 48)) / 10 < parsed then none
      else some (parsed * 10 + (c.toNat - 48))) 0

/-- `constant_time_equal`. -/
def constantTimeEqual (left right : Bytes) : Bool :=
  (List.range (max left.length right.length)).foldl
    (fun difference i => difference ||| ((left.getD i 0).toNat ^^^ (right.getD i 0).toNat))
    (left.length ^^^ right.length) == 0

def kBearer : Bytes := bytes "Bearer "

/-- `authorized`. -/
def authorized (authorization token : Bytes) : Bool :=
  if token = [] then true
  else if authorization.length < 7 then false
  else lower (authorization.take 7) == lower kBearer &&
    constantTimeEqual (authorization.drop 7) token

/-- The lines that `getline` finds. -/
def headLines (head : Bytes) : List Bytes :=
  if (head.splitOn 10).getLast? = some [] then (head.splitOn 10).dropLast else head.splitOn 10

/-- The words of a line, as `>>` reads them. -/
def lineWords (line : Bytes) : List Bytes :=
  (line.splitOnP InputStream.isSpace).filter (· ≠ [])

/-- The method, the path and the query of the first line. -/
def parseRequestLine (line : Bytes) : Option (Bytes × Bytes × Bytes) :=
  match lineWords line with
  | [method, target, version] =>
    if version ≠ bytes "HTTP/1.0" ∧ version ≠ bytes "HTTP/1.1" then none
    else if (target.takeWhile (· ≠ byte '?')).head? = some (byte '/') then
      some (method, target.takeWhile (· ≠ byte '?'), (target.dropWhile (· ≠ byte '?')).tail)
    else none
  | _ => none

/-- The letters, the digits and the hyphen. -/
def isKeyByte (c : UInt8) : Bool :=
  (97 ≤ c && c ≤ 122) || (65 ≤ c && c ≤ 90) || (48 ≤ c && c ≤ 57) || c == byte '-'

/-- A line without the carriage return that ends it. -/
def dropReturn (line : Bytes) : Bytes := if line.getLast? = some 13 then line.dropLast else line

/-- The key and the value of a line. -/
def parseField (line : Bytes) : Option (Bytes × Bytes) :=
  let line := dropReturn line
  if line = [] ∨ line.head? = some (byte ' ') ∨ line.head? = some (byte '\t') then none
  else if byte ':' ∉ line ∨ line.head? = some (byte ':') then none
  else
    let key := lower (line.takeWhile (· ≠ byte ':'))
    if key.all isKeyByte = true then
      some (key, (skipBlanks (line.dropWhile (· ≠ byte ':')).tail).rdropWhile isBlank)
    else none

/-- The fields that are kept; each may be given once. -/
structure Fields where
  contentLength : Option ℕ := none
  contentType : Option Bytes := none
  authorization : Option Bytes := none
  range : Option Bytes := none

def kContentLength : Bytes := bytes "content-length"

def kContentType : Bytes := bytes "content-type"

def kAuthorization : Bytes := bytes "authorization"

def kRange : Bytes := bytes "range"

/-- Record one field. -/
def Fields.add (fields : Fields) (key value : Bytes) : Option Fields :=
  if key = kContentLength then
    if fields.contentLength ≠ none then none
    else (parseSize value).map fun n => { fields with contentLength := some n }
  else if key = kContentType then
    if fields.contentType ≠ none then none else some { fields with contentType := some value }
  else if key = kAuthorization then
    if fields.authorization ≠ none then none else some { fields with authorization := some value }
  else if key = kRange then
    if fields.range ≠ none then none else some { fields with range := some value }
  else if key = bytes "transfer-encoding" then none
  else some fields

/-- The loop over the lines after the first one. -/
def parseFields (fields : Fields) : List Bytes → Option Fields
  | [] => some fields
  | line :: lines =>
    match parseField line with
    | none => none
    | some (key, value) => (fields.add key value).bind fun fields => parseFields fields lines

/-- What `read_request` does with the header: the request without its body, and the length of the
body. -/
def parseHead (token head : Bytes) : Except Refusal (Request × ℕ) :=
  match parseRequestLine ((headLines head).headD []), parseFields {} (headLines head).tail with
  | some (method, path, query), some fields =>
    if kMaxBodyBytes < fields.contentLength.getD 0 then .error .payloadTooLarge
    else if (method = bytes "POST" ∨ method = bytes "PUT") ∧ fields.contentLength = none then
      .error .badRequest
    else if bytes "/api/" <+: path ∧ authorized (fields.authorization.getD []) token = false then
      .error .unauthorized
    else
      .ok (⟨method, path, query, fields.contentType.getD [], fields.authorization.getD [],
        fields.range.getD [], []⟩, fields.contentLength.getD 0)
  | _, _ => .error .badRequest

/-! ### Reading -/

/-- The sizes of the pieces that `recv` returns, by the number of the call. -/
structure Segmentation where
  size : ℕ → ℕ
  pos : ∀ i, 0 < size i

/-- The size of `chunk`. -/
def kChunkBytes : ℕ := 8192

/-- `receive_before` with room for `capacity` bytes; no byte comes after the stream. -/
def receive (segmentation : Segmentation) (i capacity : ℕ) (rest : Bytes) : Bytes :=
  rest.take (min (segmentation.size i) capacity)

/-- The line break at the end of the header and the blank line. -/
def blankLine : Bytes := Multipart.crlf ++ Multipart.crlf

/-- The loop that looks for the end of the header; every turn receives at least one byte. -/
def readHead (segmentation : Segmentation) :
    ℕ → ℕ → Bytes → Bytes → Except Refusal (Bytes × Bytes × ℕ × Bytes)
  | 0, _, _, _ => .error .badRequest
  | turns + 1, i, buffer, rest =>
    let piece := receive segmentation i kChunkBytes rest
    if piece = [] then .error .badRequest
    else
      match splitAtFirst blankLine (buffer ++ piece) with
      | none =>
        if maxHeaderBytes < (buffer ++ piece).length then .error .payloadTooLarge
        else readHead segmentation turns (i + 1) (buffer ++ piece) (rest.drop piece.length)
      | some (head, body) =>
        if maxHeaderBytes < head.length then .error .payloadTooLarge
        else .ok (head, body, i + 1, rest.drop piece.length)

/-- The loop that reads the body. -/
def readBody (segmentation : Segmentation) (contentLength : ℕ) :
    ℕ → ℕ → Bytes → Bytes → Except Refusal Bytes
  | 0, _, body, _ => .ok body
  | turns + 1, i, body, rest =>
    if contentLength ≤ body.length then .ok body
    else
      let piece := receive segmentation i (min kChunkBytes (contentLength - body.length)) rest
      if piece = [] then .error .badRequest
      else readBody segmentation contentLength turns (i + 1) (body ++ piece) (rest.drop piece.length)

/-- `read_request` on a stream, where `inflight` bytes are reserved by other requests. -/
def readRequest (segmentation : Segmentation) (token : Bytes) (inflight : ℕ) (stream : Bytes) :
    Except Refusal Request :=
  match readHead segmentation (stream.length + 1) 0 [] stream with
  | .error refusal => .error refusal
  | .ok (head, body, i, rest) =>
    match parseHead token head with
    | .error refusal => .error refusal
    | .ok (request, contentLength) =>
      if kMaxInflightBodyBytes < inflight ∨ kMaxInflightBodyBytes - inflight < contentLength then
        .error .serverBusy
      else
        match readBody segmentation contentLength contentLength i (body.take contentLength) rest with
        | .error refusal => .error refusal
        | .ok body => .ok { request with body := body }

/-! ### The stream without pieces -/

/-- The result for a header and what follows it. -/
def framed (token : Bytes) (inflight : ℕ) (head after : Bytes) : Except Refusal Request :=
  match parseHead token head with
  | .error refusal => .error refusal
  | .ok (request, contentLength) =>
    if kMaxInflightBodyBytes < inflight ∨ kMaxInflightBodyBytes - inflight < contentLength then
      .error .serverBusy
    else if after.length < contentLength then .error .badRequest
    else .ok { request with body := after.take contentLength }

/-- The keys and values of a header. -/
def fieldsOf (head : Bytes) : List (Bytes × Bytes) := (headLines head).tail.filterMap parseField

/-- A request is what the stream announces: the header ends at the first blank line and is within
its limit, the body has the announced length and follows the blank line, and no field that is kept
is given twice. -/
structure Framed (stream : Bytes) (request : Request) : Prop where
  body : ∃ head after, splitAtFirst blankLine stream = some (head, after) ∧
    head.length ≤ maxHeaderBytes ∧ request.body <+: after ∧
    (∀ value, (kContentLength, value) ∈ fieldsOf head →
      parseSize value = some request.body.length) ∧
    ((∀ value, (kContentLength, value) ∉ fieldsOf head) → request.body = []) ∧
    ∀ key ∈ [kContentLength, kContentType, kAuthorization, kRange],
      ((fieldsOf head).filter fun field => field.1 = key).length ≤ 1

/-- The pieces of a stream do not matter, and a request that is returned is what the stream
announces. -/
def SegmentationFree (token : Bytes) (inflight : ℕ) (stream : Bytes) : Prop :=
  (∀ segmentation segmentation', readRequest segmentation token inflight stream =
    readRequest segmentation' token inflight stream) ∧
  ∀ segmentation request, readRequest segmentation token inflight stream = .ok request →
    Framed stream request

/-- The blank line does not start within the last three bytes of the limit, unless the header is
refused as too large anyway. -/
def Settled (token stream : Bytes) : Prop :=
  ∀ head after, splitAtFirst blankLine stream = some (head, after) →
    maxHeaderBytes ≤ head.length + 2 → head.length ≤ maxHeaderBytes →
    parseHead token head = .error .payloadTooLarge

/-! ### Prefixes of the stream -/

theorem splitAtFirst_take_none {stream : Bytes} (h : splitAtFirst blankLine stream = none) (n : ℕ) :
    splitAtFirst blankLine (stream.take n) = none := by
  cases hcut : splitAtFirst blankLine (stream.take n) with
  | none => rfl
  | some cut =>
    obtain ⟨a, b⟩ := cut
    have happend := eq_append_of_splitAtFirst hcut
    have hinfix : blankLine <:+: stream :=
      ⟨a, b ++ stream.drop n, by
        rw [← List.append_assoc, ← happend, List.take_append_drop]⟩
    have hsome := splitAtFirst_isSome hinfix
    rw [h] at hsome
    cases hsome

/-- A prefix of the stream is cut at the same place if it reaches far enough, and not at all
otherwise. -/
theorem splitAtFirst_take {stream head after : Bytes}
    (h : splitAtFirst blankLine stream = some (head, after)) (n : ℕ) :
    splitAtFirst blankLine (stream.take n) =
      if n < head.length + 4 then none else some (head, after.take (n - (head.length + 4))) := by
  have hstream := eq_append_of_splitAtFirst h
  have hfour : (head ++ blankLine).length = head.length + 4 := List.length_append
  split_ifs with hn
  · cases hcut : splitAtFirst blankLine (stream.take n) with
    | none => rfl
    | some cut =>
      obtain ⟨a, b⟩ := cut
      have happend := eq_append_of_splitAtFirst hcut
      have hlength : a.length + 4 + b.length ≤ n := by
        have hle : (stream.take n).length ≤ n := List.length_take_le _ _
        rw [happend, List.length_append, List.length_append] at hle
        exact hle
      have hprefix : blankLine <+: stream.drop a.length := by
        rw [← List.take_append_drop n stream, happend, List.append_assoc, List.append_assoc,
          List.drop_left]
        exact List.prefix_append _ _
      exact absurd hprefix (not_prefix_of_splitAtFirst h (by omega))
  · have htake : stream.take n = head ++ blankLine ++ after.take (n - (head.length + 4)) := by
      rw [hstream, List.take_append, hfour, List.take_of_length_le (by omega)]
    rw [htake]
    refine splitAtFirst_append fun i hi hprefix => not_prefix_of_splitAtFirst h hi ?_
    have hle : i ≤ (stream.take n).length := by
      rw [htake, List.length_append, hfour]
      omega
    rw [← List.take_append_drop n stream, htake, List.drop_append_of_le_length (by rwa [htake] at hle)]
    exact hprefix.trans (List.prefix_append _ _)

/-- How many bytes are there after a call. -/
def reach (segmentation : Segmentation) (i n total : ℕ) : ℕ :=
  min (n + min (segmentation.size i) kChunkBytes) total

theorem reach_bounds (segmentation : Segmentation) {i n total : ℕ} (h : n < total) :
    n < reach segmentation i n total ∧ reach segmentation i n total ≤ total := by
  have hpos := segmentation.pos i
  rw [reach, kChunkBytes]
  omega

/-- A piece and what remains of the stream after it. -/
theorem receive_drop (segmentation : Segmentation) {i n : ℕ} {stream : Bytes} (h : n < stream.length) :
    receive segmentation i kChunkBytes (stream.drop n) ≠ [] ∧
      stream.take n ++ receive segmentation i kChunkBytes (stream.drop n) =
        stream.take (reach segmentation i n stream.length) ∧
      (stream.drop n).drop (receive segmentation i kChunkBytes (stream.drop n)).length =
        stream.drop (reach segmentation i n stream.length) := by
  have hbounds := reach_bounds segmentation (i := i) h
  have hlength : (receive segmentation i kChunkBytes (stream.drop n)).length =
      reach segmentation i n stream.length - n := by
    rw [receive, List.length_take, List.length_drop, reach]
    omega
  have hreceive : receive segmentation i kChunkBytes (stream.drop n) =
      (stream.drop n).take (reach segmentation i n stream.length - n) := by
    rw [← hlength]
    exact List.prefix_iff_eq_take.1 (List.take_prefix _ _)
  refine ⟨?_, ?_, ?_⟩
  · intro hnil
    rw [hnil, List.length_nil] at hlength
    omega
  · rw [hreceive, ← List.take_add]
    congr 1
    omega
  · rw [hlength, List.drop_drop]
    congr 1
    omega

/-! ### The first loop -/

variable {segmentation : Segmentation} {stream head after : Bytes} {turns i n : ℕ}

/-- Without a blank line the loop ends where the limit or the stream does. -/
theorem readHead_of_none (h : splitAtFirst blankLine stream = none) (hn : n ≤ stream.length)
    (hlimit : n ≤ maxHeaderBytes) (hturns : stream.length - n < turns) :
    readHead segmentation turns i (stream.take n) (stream.drop n) =
      .error (if maxHeaderBytes < stream.length then .payloadTooLarge else .badRequest) := by
  induction turns generalizing i n with
  | zero => exact absurd hturns (Nat.not_lt_zero _)
  | succ turns ih =>
    rw [readHead]
    rcases hn.lt_or_eq with hlt | rfl
    · obtain ⟨hne, htake, hdrop⟩ := receive_drop segmentation (i := i) hlt
      obtain ⟨hreach, hle⟩ := reach_bounds segmentation (i := i) hlt
      rw [if_neg hne, htake, splitAtFirst_take_none h, hdrop]
      dsimp only
      rw [List.length_take_of_le hle]
      split_ifs with hlarge htotal htotal
      · rfl
      · exact absurd (hlarge.trans_le hle) htotal
      · rw [ih hle (Nat.le_of_not_lt hlarge) (by omega), if_pos htotal]
      · rw [ih hle (Nat.le_of_not_lt hlarge) (by omega), if_neg htotal]
    · have hnil : receive segmentation i kChunkBytes (stream.drop stream.length) = [] := by
        rw [List.drop_length, receive, List.take_nil]
      rw [if_pos hnil, if_neg (Nat.not_lt.2 hlimit)]

/-- One turn before the end of the header. -/
theorem readHead_succ (h : splitAtFirst blankLine stream = some (head, after))
    (hn : n < head.length + 4) :
    readHead segmentation (turns + 1) i (stream.take n) (stream.drop n) =
      let m := reach segmentation i n stream.length
      if m < head.length + 4 then
        if maxHeaderBytes < m then .error .payloadTooLarge
        else readHead segmentation turns (i + 1) (stream.take m) (stream.drop m)
      else if maxHeaderBytes < head.length then .error .payloadTooLarge
      else .ok (head, after.take (m - (head.length + 4)), i + 1, stream.drop m) := by
  have htotal : head.length + 4 + after.length = stream.length := by
    conv_rhs => rw [eq_append_of_splitAtFirst h, List.length_append, List.length_append]
    rfl
  have hlt : n < stream.length := by omega
  obtain ⟨hne, htake, hdrop⟩ := receive_drop segmentation (i := i) hlt
  obtain ⟨hreach, hle⟩ := reach_bounds segmentation (i := i) hlt
  rw [readHead]
  dsimp only
  rw [if_neg hne, htake, splitAtFirst_take h, hdrop]
  split_ifs with hshort <;> dsimp only
  all_goals simp_all [List.length_take_of_le hle]

/-- What the first loop leaves of the stream after the blank line. -/
theorem take_append_drop_after (h : splitAtFirst blankLine stream = some (head, after)) {m : ℕ}
    (hm : head.length + 4 ≤ m) : after.take (m - (head.length + 4)) ++ stream.drop m = after := by
  have hfour : (head ++ blankLine).length = head.length + 4 := List.length_append
  have hdrop : stream.drop m = after.drop (m - (head.length + 4)) := by
    rw [eq_append_of_splitAtFirst h, List.drop_append, hfour, List.drop_of_length_le (by omega),
      List.nil_append]
  rw [hdrop, List.take_append_drop]

/-- **How the first loop ends** where the stream has a blank line: with the header, or with a refusal,
which happens only if the blank line ends close to the limit or beyond. -/
theorem readHead_cases (h : splitAtFirst blankLine stream = some (head, after))
    (hn : n < head.length + 4) (hlimit : n ≤ maxHeaderBytes) (hturns : stream.length - n < turns) :
    (readHead segmentation turns i (stream.take n) (stream.drop n) = .error .payloadTooLarge ∧
      maxHeaderBytes ≤ head.length + 2) ∨
    ∃ body j rest, readHead segmentation turns i (stream.take n) (stream.drop n) =
      .ok (head, body, j, rest) ∧ body ++ rest = after ∧ head.length ≤ maxHeaderBytes := by
  induction turns generalizing i n with
  | zero => exact absurd hturns (Nat.not_lt_zero _)
  | succ turns ih =>
    have htotal : head.length + 4 + after.length = stream.length := by
      conv_rhs => rw [eq_append_of_splitAtFirst h, List.length_append, List.length_append]
      rfl
    obtain ⟨hreach, hle⟩ := reach_bounds segmentation (i := i) (show n < stream.length by omega)
    rw [readHead_succ h hn]
    dsimp only
    generalize reach segmentation i n stream.length = m at hreach hle
    split_ifs with hshort hlarge hhead
    · exact Or.inl ⟨rfl, by omega⟩
    · exact ih hshort (Nat.le_of_not_lt hlarge) (by omega)
    · exact Or.inl ⟨rfl, by omega⟩
    · exact Or.inr ⟨_, _, _, rfl, take_append_drop_after h (Nat.le_of_not_lt hshort),
        Nat.le_of_not_lt hhead⟩

/-- Single bytes. -/
def singleBytes : Segmentation := ⟨fun _ => 1, fun _ => Nat.one_pos⟩

/-- Pieces that are as large as the room for them. -/
def wholeChunks : Segmentation := ⟨fun _ => kChunkBytes, fun _ => by decide⟩

/-- With single bytes a header that ends close to the limit is refused. -/
theorem readHead_singleBytes (h : splitAtFirst blankLine stream = some (head, after))
    (hn : n < head.length + 4) (hlimit : n ≤ maxHeaderBytes) (hturns : stream.length - n < turns)
    (hclose : maxHeaderBytes ≤ head.length + 2) :
    readHead singleBytes turns i (stream.take n) (stream.drop n) = .error .payloadTooLarge := by
  induction turns generalizing i n with
  | zero => exact absurd hturns (Nat.not_lt_zero _)
  | succ turns ih =>
    have htotal : head.length + 4 + after.length = stream.length := by
      conv_rhs => rw [eq_append_of_splitAtFirst h, List.length_append, List.length_append]
      rfl
    have hreach : reach singleBytes i n stream.length = n + 1 := by
      rw [reach, singleBytes, kChunkBytes]
      dsimp only
      omega
    rw [readHead_succ h hn, hreach]
    dsimp only
    split_ifs with hshort hlarge hhead
    · rfl
    · exact ih hshort (Nat.le_of_not_lt hlarge) (by omega)
    · rfl
    · omega

/-- With whole pieces a header within the limit is accepted. -/
theorem readHead_wholeChunks (h : splitAtFirst blankLine stream = some (head, after))
    (hn : n < head.length + 4) (hwhole : kChunkBytes ∣ n) (hturns : stream.length - n < turns)
    (hhead : head.length ≤ maxHeaderBytes) :
    ∃ body j rest, readHead wholeChunks turns i (stream.take n) (stream.drop n) =
      .ok (head, body, j, rest) := by
  induction turns generalizing i n with
  | zero => exact absurd hturns (Nat.not_lt_zero _)
  | succ turns ih =>
    have htotal : head.length + 4 + after.length = stream.length := by
      conv_rhs => rw [eq_append_of_splitAtFirst h, List.length_append, List.length_append]
      rfl
    have hreach : reach wholeChunks i n stream.length = min (n + kChunkBytes) stream.length := by
      rw [reach, wholeChunks]
      dsimp only
      rw [Nat.min_self]
    rw [readHead_succ h hn, hreach]
    dsimp only
    rw [if_neg (Nat.not_lt.2 hhead)]
    split_ifs with hshort hlarge
    · rw [kChunkBytes] at *
      rw [maxHeaderBytes] at hlarge hhead
      omega
    · have hmin : min (n + kChunkBytes) stream.length = n + kChunkBytes := by
        omega
      rw [hmin] at hshort ⊢
      exact ih hshort (Nat.dvd_add hwhole (Nat.dvd_refl _)) (by rw [kChunkBytes]; omega)
    · exact ⟨_, _, _, rfl⟩

/-! ### The second loop -/

/-- The body is what the stream holds after the header, up to the announced length. -/
theorem readBody_eq {contentLength : ℕ} {body rest : Bytes} (hbody : body.length ≤ contentLength)
    (hturns : contentLength - body.length ≤ turns) :
    readBody segmentation contentLength turns i body rest =
      if (body ++ rest).length < contentLength then .error .badRequest
      else .ok ((body ++ rest).take contentLength) := by
  have hwhole : body.length = contentLength →
      (.ok body : Except Refusal Bytes) =
        if (body ++ rest).length < contentLength then .error .badRequest
        else .ok ((body ++ rest).take contentLength) := by
    rintro rfl
    rw [if_neg (by rw [List.length_append]; omega), List.take_left]
  induction turns generalizing i body rest with
  | zero => exact hwhole (by omega)
  | succ turns ih =>
    rw [readBody]
    by_cases hdone : contentLength ≤ body.length
    · rw [if_pos hdone]
      exact hwhole (by omega)
    rw [if_neg hdone]
    dsimp only
    cases rest with
    | nil =>
      rw [receive, List.take_nil, if_pos rfl, List.append_nil, if_pos (Nat.lt_of_not_le hdone)]
    | cons c rest =>
      have hlength : (receive segmentation i (min kChunkBytes (contentLength - body.length))
          (c :: rest)).length = min (min (segmentation.size i)
            (min kChunkBytes (contentLength - body.length))) (rest.length + 1) := by
        rw [receive, List.length_take, List.length_cons]
      have hsplit : receive segmentation i (min kChunkBytes (contentLength - body.length)) (c :: rest) ++
          (c :: rest).drop (receive segmentation i
            (min kChunkBytes (contentLength - body.length)) (c :: rest)).length = c :: rest :=
        (List.prefix_append_drop (List.take_prefix _ _)).symm
      generalize receive segmentation i (min kChunkBytes (contentLength - body.length)) (c :: rest) =
        piece at hlength hsplit
      have hpos := segmentation.pos i
      rw [kChunkBytes] at hlength
      have hne : piece ≠ [] := by
        rintro rfl
        rw [List.length_nil] at hlength
        omega
      have hlengths : (body ++ piece).length = body.length + piece.length := List.length_append
      have happend : (body ++ piece) ++ (c :: rest).drop piece.length = body ++ c :: rest := by
        rw [List.append_assoc, hsplit]
      rw [if_neg hne, ih (by omega) (by have := List.length_pos_iff.2 hne; omega), happend]
      rintro heq
      rw [happend, if_neg (by rw [← happend, List.length_append]; omega), ← happend, ← heq,
        List.take_left]

/-- After the header, only what follows it matters. -/
theorem readRequest_of_head {token : Bytes} {inflight j : ℕ} {body rest : Bytes}
    (h : readHead segmentation (stream.length + 1) 0 [] stream = .ok (head, body, j, rest))
    (hafter : body ++ rest = after) :
    readRequest segmentation token inflight stream = framed token inflight head after := by
  rw [readRequest, h, framed]
  dsimp only
  cases parseHead token head with
  | error refusal => rfl
  | ok parsed =>
    obtain ⟨request, contentLength⟩ := parsed
    dsimp only
    by_cases hbusy : kMaxInflightBodyBytes < inflight ∨
        kMaxInflightBodyBytes - inflight < contentLength
    · rw [if_pos hbusy, if_pos hbusy]
    rw [if_neg hbusy, if_neg hbusy, readBody_eq (List.length_take_le _ _) (Nat.sub_le _ _)]
    have hlength : (body.take contentLength ++ rest).length < contentLength ↔
        after.length < contentLength := by
      rw [← hafter, List.length_append, List.length_append, List.length_take]
      omega
    have htake : (body.take contentLength ++ rest).take contentLength = after.take contentLength := by
      rw [← hafter, List.take_append, List.take_append, List.take_take, Nat.min_self,
        List.length_take]
      congr 2
      omega
    rw [htake, if_congr hlength rfl rfl]
    split_ifs <;> rfl

/-! ### What the header announces -/

def keptKeys : List Bytes := [kContentLength, kContentType, kAuthorization, kRange]

/-- Whether a field was recorded. -/
def Fields.given (fields : Fields) (key : Bytes) : Bool :=
  if key = kContentLength then fields.contentLength.isSome
  else if key = kContentType then fields.contentType.isSome
  else if key = kAuthorization then fields.authorization.isSome
  else if key = kRange then fields.range.isSome
  else false

/-- What recording one field does. -/
theorem Fields.add_cases {fields fields' : Fields} {key value : Bytes}
    (h : fields.add key value = some fields') :
    (key = kContentLength ∧ fields.contentLength = none ∧
      fields' = { fields with contentLength := parseSize value } ∧ parseSize value ≠ none) ∨
    (key = kContentType ∧ fields.contentType = none ∧
      fields' = { fields with contentType := some value }) ∨
    (key = kAuthorization ∧ fields.authorization = none ∧
      fields' = { fields with authorization := some value }) ∨
    (key = kRange ∧ fields.range = none ∧ fields' = { fields with range := some value }) ∨
    (key ∉ keptKeys ∧ fields' = fields) := by
  rw [Fields.add] at h
  split_ifs at h with hlength hgiven htype hgiven hauth hgiven hrange hgiven hencoding
  · obtain ⟨n, hn, rfl⟩ := Option.map_eq_some_iff.1 h
    refine Or.inl ⟨hlength, not_not.1 hgiven, by rw [hn], by rw [hn]; exact Option.some_ne_none n⟩
  · exact Or.inr (Or.inl ⟨htype, not_not.1 hgiven, (Option.some.inj h).symm⟩)
  · exact Or.inr (Or.inr (Or.inl ⟨hauth, not_not.1 hgiven, (Option.some.inj h).symm⟩))
  · exact Or.inr (Or.inr (Or.inr (Or.inl ⟨hrange, not_not.1 hgiven, (Option.some.inj h).symm⟩)))
  · refine Or.inr (Or.inr (Or.inr (Or.inr ⟨?_, (Option.some.inj h).symm⟩)))
    simp only [keptKeys, List.mem_cons, List.not_mem_nil, or_false, not_or]
    exact ⟨hlength, htype, hauth, hrange⟩

/-- A field that is kept is recorded once. -/
theorem Fields.given_of_add {fields fields' : Fields} {key value k : Bytes}
    (h : fields.add key value = some fields') (hk : k ∈ keptKeys) :
    fields'.given k = (fields.given k || decide (key = k)) ∧
      (key = k → fields.given k = false) := by
  have h₁ : kContentType ≠ kContentLength := by decide
  have h₂ : kAuthorization ≠ kContentLength := by decide
  have h₃ : kAuthorization ≠ kContentType := by decide
  have h₄ : kRange ≠ kContentLength := by decide
  have h₅ : kRange ≠ kContentType := by decide
  have h₆ : kRange ≠ kAuthorization := by decide
  have hother : key ∉ keptKeys → key ≠ k := fun hnot heq => hnot (heq ▸ hk)
  simp only [keptKeys, List.mem_cons, List.not_mem_nil, or_false] at hk
  rcases add_cases h with ⟨rfl, hnone, rfl, hsize⟩ | ⟨rfl, hnone, rfl⟩ | ⟨rfl, hnone, rfl⟩ |
    ⟨rfl, hnone, rfl⟩ | ⟨hnot, rfl⟩
  · rcases hk with rfl | rfl | rfl | rfl <;>
      simp [given, *, h₁.symm, h₂.symm, h₄.symm, Option.isSome_iff_ne_none]
  · rcases hk with rfl | rfl | rfl | rfl <;> simp [given, *, h₃.symm, h₅.symm]
  · rcases hk with rfl | rfl | rfl | rfl <;> simp [given, *, h₆.symm]
  · rcases hk with rfl | rfl | rfl | rfl <;> simp [given, *]
  · simp [hother hnot]

/-- No field that is kept is given twice. -/
theorem count_of_parseFields {fields fields' : Fields} {lines : List Bytes} {k : Bytes}
    (h : parseFields fields lines = some fields') (hk : k ∈ keptKeys) :
    ((lines.filterMap parseField).filter fun field => field.1 = k).length +
      (fields.given k).toNat ≤ 1 := by
  induction lines generalizing fields with
  | nil =>
    rw [List.filterMap_nil, List.filter_nil, List.length_nil, Nat.zero_add]
    exact Bool.toNat_le _
  | cons line lines ih =>
    rw [parseFields] at h
    cases hparse : parseField line with
    | none =>
      rw [hparse] at h
      cases h
    | some field =>
      obtain ⟨key, value⟩ := field
      rw [hparse] at h
      obtain ⟨next, hadd, hnext⟩ := Option.bind_eq_some_iff.1 h
      obtain ⟨hgiven, hfresh⟩ := Fields.given_of_add hadd hk
      have hrest := ih hnext
      rw [hgiven] at hrest
      rw [List.filterMap_cons_some hparse]
      by_cases hkey : key = k
      · rw [List.filter_cons_of_pos (by simpa using hkey), List.length_cons, hfresh hkey]
        rw [hfresh hkey, Bool.false_or, decide_eq_true hkey] at hrest
        exact hrest
      · rw [List.filter_cons_of_neg (by simpa using hkey)]
        rw [decide_eq_false hkey, Bool.or_false] at hrest
        exact hrest

/-- The length that is announced is that of the first field with its key. -/
theorem contentLength_of_parseFields {fields fields' : Fields} {lines : List Bytes}
    (h : parseFields fields lines = some fields') :
    (∀ value, (kContentLength, value) ∈ lines.filterMap parseField →
      ∃ n, parseSize value = some n ∧ fields'.contentLength = some n) ∧
    ((∀ value, (kContentLength, value) ∉ lines.filterMap parseField) →
      fields'.contentLength = fields.contentLength) ∧
    (fields.contentLength ≠ none → fields'.contentLength = fields.contentLength) := by
  induction lines generalizing fields with
  | nil =>
    obtain rfl := Option.some.inj h
    refine ⟨fun value hmem => ?_, fun _ => rfl, fun _ => rfl⟩
    cases hmem
  | cons line lines ih =>
    rw [parseFields] at h
    cases hparse : parseField line with
    | none =>
      rw [hparse] at h
      cases h
    | some field =>
      obtain ⟨key, value⟩ := field
      rw [hparse] at h
      obtain ⟨next, hadd, hnext⟩ := Option.bind_eq_some_iff.1 h
      obtain ⟨hmem, hnotMem, hkept⟩ := ih hnext
      rw [List.filterMap_cons_some hparse]
      have hsame : key ≠ kContentLength → next.contentLength = fields.contentLength := by
        intro hkey
        rcases Fields.add_cases hadd with ⟨heq, -, -, -⟩ | ⟨-, -, rfl⟩ | ⟨-, -, rfl⟩ | ⟨-, -, rfl⟩ |
          ⟨-, rfl⟩
        · exact absurd heq hkey
        all_goals rfl
      by_cases hkey : key = kContentLength
      · have hfirst : fields.contentLength = none ∧ next.contentLength = parseSize value ∧
            parseSize value ≠ none := by
          rcases Fields.add_cases hadd with ⟨-, hnone, rfl, hsize⟩ | ⟨heq, -⟩ | ⟨heq, -⟩ | ⟨heq, -⟩ |
            ⟨hnot, -⟩
          · exact ⟨hnone, rfl, hsize⟩
          · rw [hkey] at heq
            exact absurd heq (by decide)
          · rw [hkey] at heq
            exact absurd heq (by decide)
          · rw [hkey] at heq
            exact absurd heq (by decide)
          · rw [hkey] at hnot
            exact absurd (show kContentLength ∈ keptKeys by decide) hnot
        obtain ⟨hnone, hvalue, hsize⟩ := hfirst
        refine ⟨fun value' hmem' => ?_, fun hnot => ?_, fun hsome => absurd hnone hsome⟩
        · rcases List.mem_cons.1 hmem' with heq | hmem'
          · obtain ⟨-, rfl⟩ := Prod.mk.inj heq
            obtain ⟨n, hn⟩ := Option.ne_none_iff_exists'.1 hsize
            exact ⟨n, hn, by rw [hkept (hvalue ▸ hsize), hvalue, hn]⟩
          · exact hmem _ hmem'
        · rw [hkey] at hnot
          exact absurd List.mem_cons_self (hnot value)
      · refine ⟨fun value' hmem' => ?_, fun hnot => ?_, fun hsome => ?_⟩
        · rcases List.mem_cons.1 hmem' with heq | hmem'
          · exact absurd (Prod.mk.inj heq).1.symm hkey
          · exact hmem _ hmem'
        · rw [hnotMem fun value' hmem' => hnot value' (List.mem_cons_of_mem _ hmem'), hsame hkey]
        · rw [hkept (by rwa [hsame hkey]), hsame hkey]

/-- A header that is accepted has fields that were all recorded. -/
theorem parseHead_eq_ok {token : Bytes} {request : Request} {contentLength : ℕ}
    (h : parseHead token head = .ok (request, contentLength)) :
    ∃ fields, parseFields {} (headLines head).tail = some fields ∧
      contentLength = fields.contentLength.getD 0 := by
  rw [parseHead] at h
  cases hfields : parseFields {} (headLines head).tail with
  | none =>
    rw [hfields] at h
    cases hline : parseRequestLine ((headLines head).headD []) with
    | none =>
      rw [hline] at h
      cases h
    | some line =>
      rw [hline] at h
      cases h
  | some fields =>
    rw [hfields] at h
    cases hline : parseRequestLine ((headLines head).headD []) with
    | none =>
      rw [hline] at h
      cases h
    | some line =>
      obtain ⟨method, path, query⟩ := line
      rw [hline] at h
      dsimp only at h
      split_ifs at h
      exact ⟨fields, rfl, (Prod.mk.inj (Except.ok.inj h)).2.symm⟩

/-- A request that is returned is what the stream announces. -/
theorem framed_of_ok {token : Bytes} {inflight : ℕ} {request : Request}
    (hcut : splitAtFirst blankLine stream = some (head, after)) (hlimit : head.length ≤ maxHeaderBytes)
    (h : framed token inflight head after = .ok request) : Framed stream request := by
  rw [framed] at h
  cases hparse : parseHead token head with
  | error refusal =>
    rw [hparse] at h
    cases h
  | ok parsed =>
    obtain ⟨request', contentLength⟩ := parsed
    rw [hparse] at h
    dsimp only at h
    split_ifs at h with hbusy hshort
    obtain rfl := Except.ok.inj h
    obtain ⟨fields, hfields, hlength⟩ := parseHead_eq_ok hparse
    obtain ⟨hmem, hnotMem, -⟩ := contentLength_of_parseFields hfields
    have hbody : (after.take contentLength).length = contentLength :=
      List.length_take_of_le (Nat.le_of_not_lt hshort)
    refine ⟨head, after, hcut, hlimit, List.take_prefix _ _, fun value hvalue => ?_, fun hnot => ?_,
      fun key hkey => ?_⟩
    · obtain ⟨n, hn, hfield⟩ := hmem value hvalue
      rw [hbody, hn, hlength, hfield]
      rfl
    · rw [hnotMem hnot] at hlength
      show after.take contentLength = []
      rw [hlength]
      exact List.take_zero
    · exact (Nat.le_add_right _ _).trans (count_of_parseFields hfields hkey)

/-! ### Where the pieces matter -/

theorem readRequest_of_refused {token : Bytes} {inflight : ℕ} {refusal : Refusal}
    (h : readHead segmentation (stream.length + 1) 0 [] stream = .error refusal) :
    readRequest segmentation token inflight stream = .error refusal := by
  rw [readRequest, h]

/-- The two ways in which a stream with a blank line is read. -/
theorem readRequest_cases (h : splitAtFirst blankLine stream = some (head, after)) (token : Bytes)
    (inflight : ℕ) (segmentation : Segmentation) :
    (readRequest segmentation token inflight stream = .error .payloadTooLarge ∧
      maxHeaderBytes ≤ head.length + 2) ∨
    (readRequest segmentation token inflight stream = framed token inflight head after ∧
      head.length ≤ maxHeaderBytes) := by
  have hcases := @readHead_cases segmentation stream head after (stream.length + 1) 0 0 h
    (Nat.succ_pos _) (Nat.zero_le _) (by omega)
  rw [List.take_zero, List.drop_zero] at hcases
  rcases hcases with ⟨hrefused, hclose⟩ | ⟨body, j, rest, hok, hafter, hlimit⟩
  · exact Or.inl ⟨readRequest_of_refused hrefused, hclose⟩
  · exact Or.inr ⟨readRequest_of_head hok hafter, hlimit⟩

/-- Close to the limit, single bytes and whole pieces are read in the two different ways. -/
theorem readRequest_close (h : splitAtFirst blankLine stream = some (head, after))
    (hclose : maxHeaderBytes ≤ head.length + 2) (hlimit : head.length ≤ maxHeaderBytes)
    (token : Bytes) (inflight : ℕ) :
    readRequest singleBytes token inflight stream = .error .payloadTooLarge ∧
      readRequest wholeChunks token inflight stream = framed token inflight head after := by
  constructor
  · have hsingle := @readHead_singleBytes stream head after (stream.length + 1) 0 0 h
      (Nat.succ_pos _) (Nat.zero_le _) (by omega) hclose
    rw [List.take_zero, List.drop_zero] at hsingle
    exact readRequest_of_refused hsingle
  · have hcases := @readHead_cases wholeChunks stream head after (stream.length + 1) 0 0 h
      (Nat.succ_pos _) (Nat.zero_le _) (by omega)
    obtain ⟨body, j, rest, hwhole⟩ := @readHead_wholeChunks stream head after (stream.length + 1) 0 0 h
      (Nat.succ_pos _) (Nat.dvd_zero _) (by omega) hlimit
    rw [List.take_zero, List.drop_zero] at hcases hwhole
    rcases hcases with ⟨hrefused, -⟩ | ⟨body', j', rest', hok, hafter, -⟩
    · rw [hwhole] at hrefused
      cases hrefused
    · exact readRequest_of_head hok hafter

/-- Only a header that is refused as too large gives the same result as a refusal for its size. -/
theorem framed_eq_payloadTooLarge {token : Bytes} {inflight : ℕ}
    (h : framed token inflight head after = .error .payloadTooLarge) :
    parseHead token head = .error .payloadTooLarge := by
  rw [framed] at h
  cases hparse : parseHead token head with
  | error refusal =>
    rw [hparse] at h
    rw [Except.error.inj h]
  | ok parsed =>
    obtain ⟨request, contentLength⟩ := parsed
    rw [hparse] at h
    dsimp only at h
    split_ifs at h <;> cases h

theorem Settled.of_segmentationFree {token : Bytes} {inflight : ℕ}
    (h : SegmentationFree token inflight stream) : Settled token stream := by
  intro head after hcut hclose hlimit
  obtain ⟨hsingle, hwhole⟩ := readRequest_close hcut hclose hlimit token inflight
  have hframed : framed token inflight head after = .error .payloadTooLarge := by
    rw [← hwhole, h.1 wholeChunks singleBytes, hsingle]
  exact framed_eq_payloadTooLarge hframed

theorem Settled.segmentationFree {token : Bytes} (h : Settled token stream) (inflight : ℕ) :
    SegmentationFree token inflight stream := by
  cases hcut : splitAtFirst blankLine stream with
  | none =>
    have hread : ∀ segmentation, readRequest segmentation token inflight stream =
        .error (if maxHeaderBytes < stream.length then .payloadTooLarge else .badRequest) := by
      intro segmentation
      have hnone := @readHead_of_none segmentation stream (stream.length + 1) 0 0 hcut
        (Nat.zero_le _) (Nat.zero_le _) (by omega)
      rw [List.take_zero, List.drop_zero] at hnone
      exact readRequest_of_refused hnone
    refine ⟨fun segmentation segmentation' => by rw [hread, hread], fun segmentation request hok => ?_⟩
    rw [hread] at hok
    cases hok
  | some cut =>
    obtain ⟨head, after⟩ := cut
    have hread : ∀ segmentation, readRequest segmentation token inflight stream =
        if head.length ≤ maxHeaderBytes then framed token inflight head after
        else .error .payloadTooLarge := by
      intro segmentation
      rcases readRequest_cases hcut token inflight segmentation with ⟨hrefused, hclose⟩ | ⟨hok, hlimit⟩
      · rw [hrefused]
        split_ifs with hlimit
        · rw [framed, h head after hcut hclose hlimit]
        · rfl
      · rw [hok, if_pos hlimit]
    refine ⟨fun segmentation segmentation' => by rw [hread, hread], fun segmentation request hok => ?_⟩
    rw [hread] at hok
    split_ifs at hok with hlimit
    exact framed_of_ok hcut hlimit hok

/-- **Where the pieces of a stream do not matter.** The result of reading a request does not depend
on how the stream is cut into pieces, and a request that is returned is what the stream announces,
if and only if the blank line does not start within the last three bytes of the limit or the header
is refused as too large anyway. -/
theorem segmentationFree_iff (token : Bytes) (inflight : ℕ) (stream : Bytes) :
    SegmentationFree token inflight stream ↔ Settled token stream :=
  ⟨Settled.of_segmentationFree, fun h => h.segmentationFree inflight⟩

/-! ### A header of the largest size -/

/-- A header whose only field has a value of this length. -/
def longHead (n : ℕ) : Bytes :=
  bytes "GET / HTTP/1.1" ++ 13 :: 10 :: (bytes "x:" ++ List.replicate n (byte 'a'))

theorem length_longHead (n : ℕ) : (longHead n).length = n + 18 := by
  have hline : (bytes "GET / HTTP/1.1").length = 14 := rfl
  have hname : (bytes "x:").length = 2 := rfl
  rw [longHead, List.length_append, List.length_cons, List.length_cons, List.length_append,
    List.length_replicate, hline, hname]
  omega

theorem headLines_longHead (n : ℕ) :
    headLines (longHead n) =
      [bytes "GET / HTTP/1.1" ++ [13], bytes "x:" ++ List.replicate n (byte 'a')] := by
  have hplain : ∀ c ∈ bytes "x:" ++ List.replicate n (byte 'a'), (c == 10) = false := by
    intro c hc
    rcases List.mem_append.1 hc with hc | hc
    · have hname : (bytes "x:").Forall fun c => (c == 10) = false := by decide
      exact List.forall_iff_forall_mem.1 hname c hc
    · rw [List.eq_of_mem_replicate hc]
      decide
  have hfirst : ∀ c ∈ bytes "GET / HTTP/1.1" ++ [13], (c == 10) = false :=
    List.forall_iff_forall_mem.1 (by decide)
  have hsplit : (longHead n).splitOn 10 =
      [bytes "GET / HTTP/1.1" ++ [13], bytes "x:" ++ List.replicate n (byte 'a')] := by
    rw [longHead, List.splitOn_eq_splitOnP, List.append_cons,
      List.splitOnP_append_cons_of_forall_mem hfirst 10 (by decide),
      List.splitOnP_eq_singleton hplain]
  rw [headLines, hsplit]
  rfl

theorem parseField_longHead (n : ℕ) :
    ∃ value, parseField (bytes "x:" ++ List.replicate n (byte 'a')) = some (bytes "x", value) := by
  have hreturn : dropReturn (bytes "x:" ++ List.replicate n (byte 'a')) =
      byte 'x' :: byte ':' :: List.replicate n (byte 'a') := by
    refine if_neg fun hlast => ?_
    have hmem := List.mem_of_getLast? hlast
    rcases List.mem_append.1 hmem with hmem | hmem
    · revert hmem
      decide
    · have := List.eq_of_mem_replicate hmem
      revert this
      decide
  rw [parseField, hreturn]
  exact ⟨_, rfl⟩

theorem parseHead_longHead (n : ℕ) :
    ∃ request, parseHead [] (longHead n) = .ok (request, 0) := by
  obtain ⟨value, hvalue⟩ := parseField_longHead n
  have hfields : parseFields {} [bytes "x:" ++ List.replicate n (byte 'a')] = some {} := by
    rw [parseFields, hvalue]
    rfl
  have hline : parseRequestLine (bytes "GET / HTTP/1.1" ++ [13]) =
      some (bytes "GET", bytes "/", []) := by decide
  rw [parseHead, headLines_longHead]
  dsimp only [List.headD_cons, List.tail_cons]
  rw [hline, hfields]
  exact ⟨_, rfl⟩

/-- The only carriage return of a long header does not start a blank line. -/
theorem splitAtFirst_longHead (n : ℕ) :
    splitAtFirst blankLine (longHead n ++ blankLine) = some (longHead n, []) := by
  rw [← List.append_nil (longHead n ++ blankLine)]
  refine splitAtFirst_append fun i hi hprefix => ?_
  rw [List.append_nil] at hprefix
  obtain ⟨rest, hrest⟩ := hprefix
  have hget : ∀ k, (blankLine ++ rest)[k]? = (longHead n ++ blankLine)[i + k]? := by
    intro k
    rw [hrest, List.getElem?_drop]
  have hstart : (longHead n)[i]? = some 13 := by
    rw [← List.getElem?_append_left hi]
    exact (hget 0).symm
  have hfront : longHead n = (bytes "GET / HTTP/1.1" ++ [13, 10]) ++
      (bytes "x:" ++ List.replicate n (byte 'a')) := rfl
  have hlength : (bytes "GET / HTTP/1.1" ++ [13, 10]).length = 16 := rfl
  by_cases hsmall : i < 16
  · rw [hfront, List.getElem?_append_left (by omega)] at hstart
    have honly : ∀ j < 16, (bytes "GET / HTTP/1.1" ++ [13, 10])[j]? = some 13 → j = 14 := by decide
    obtain rfl := honly i hsmall hstart
    have hx := hget 2
    cases hx
  · rw [hfront, List.getElem?_append_right (by omega)] at hstart
    rcases List.mem_append.1 (List.mem_of_getElem? hstart) with hmem | hmem
    · revert hmem
      decide
    · have := List.eq_of_mem_replicate hmem
      revert this
      decide

/-- A request whose header is as long as the limit is accepted or refused, depending on the
pieces. -/
theorem not_segmentationFree_longHead :
    ¬SegmentationFree [] 0 (longHead 65518 ++ blankLine) := by
  intro h
  have hlength : (longHead 65518).length = maxHeaderBytes := length_longHead 65518
  have hclose : maxHeaderBytes ≤ (longHead 65518).length + 2 := by
    rw [hlength]
    exact Nat.le_add_right _ _
  have hrefused := Settled.of_segmentationFree h _ _ (splitAtFirst_longHead 65518) hclose hlength.le
  obtain ⟨request, hok⟩ := parseHead_longHead 65518
  rw [hok] at hrefused
  cases hrefused

end Resonantia.Web
