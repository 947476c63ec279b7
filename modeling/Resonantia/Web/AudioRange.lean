import Resonantia.Library.Json
import Resonantia.Library.Slice

/-!
# Serving a range of an audio file

`send_audio_file` answers a request for a retained audio file. A `Range` header selects one range of
bytes; the answer has status 206 with these bytes, or 416. The bytes are read and sent in parts that
may be shorter than asked for.

## Main definitions

* `Web.parseRange`: the range that a header text selects.
* `Web.sendAudioFile`: the answer.
* `Web.SingleRange`: the syntax of a single byte range and its meaning.

## Main results

* `Web.parseRange_eq_some_iff`: which texts select a range, and which one.
* `Web.range_serving`: what is sent.
-/

namespace Resonantia.Web

open ByteString Json Slices

/-! ### The header -/

/-- The lambda `number`. -/
def rangeNumber (text : Bytes) : Option ℕ :=
  if text = [] ∨ 20 < text.length ∨ text.all isDigit = false then none
  else if 2 ^ 64 ≤ decimal 0 text then none
  else some (decimal 0 text)

def kBytesUnit : Bytes := bytes "bytes="

def dash : UInt8 := 45

/-- The interpretation of a range that is not empty: its first and its last byte. -/
def parseRange (range : Bytes) (size : ℕ) : Option (ℕ × ℕ) :=
  if 96 < range.length ∨ range.take 6 ≠ kBytesUnit then none
  else
    let text := range.drop 6
    match text.findIdx? (· == dash) with
    | none => none
    | some 0 =>
      match rangeNumber (text.drop 1) with
      | none => none
      | some count => if 0 < count then some (size - min size count, size - 1) else none
    | some position => do
      let first ← rangeNumber (text.take position)
      let last ← (if position + 1 < text.length then rangeNumber (text.drop (position + 1))
        else some (size - 1) : Option ℕ)
      if first < size ∧ first ≤ last then some (first, min last (size - 1)) else none

/-! ### Sending -/

/-- The results of `send` and `pread` by the number of the call: how many bytes they may move, or an
error. A call that `EINTR` interrupts is repeated, so that the first result that is none is told. -/
structure Connection where
  send : ℕ → Option ℕ
  pread : ℕ → Option ℕ

/-- What was sent so far. -/
structure Sender where
  sent : Bytes
  ticks : ℕ

def Sender.next (s : Sender) : Sender := { s with ticks := s.ticks + 1 }

/-- The loop of `send_all`; every turn but the last sends at least one byte. -/
def sendLoop (connection : Connection) : ℕ → Bytes → Sender → Bool × Sender
  | 0, _, s => (true, s)
  | turns + 1, data, s =>
    if data = [] then (true, s)
    else
      match connection.send s.ticks with
      | none => (false, s.next)
      | some moved =>
        let count := min moved data.length
        if count = 0 then (false, s.next)
        else sendLoop connection turns (data.drop count)
          ⟨s.sent ++ data.take count, s.ticks + 1⟩

/-- `send_all`. -/
def sendAll (connection : Connection) (data : Bytes) (s : Sender) : Bool × Sender :=
  sendLoop connection data.length data s

def crlf : Bytes := [13, 10]

/-- `send_response`. -/
def sendResponse (connection : Connection) (status : Bytes) (contentType body extraHeaders : Bytes)
    (s : Sender) : Sender :=
  let headers := bytes "HTTP/1.1 " ++ status ++ crlf ++ bytes "Content-Type: " ++ contentType ++
    crlf ++ bytes "Content-Length: " ++ decimalText body.length ++ crlf ++
    bytes "X-Content-Type-Options: nosniff" ++ crlf ++ bytes "Cache-Control: no-store" ++ crlf ++
    extraHeaders ++ bytes "Connection: close" ++ crlf ++ crlf
  let (sent, s) := sendAll connection headers s
  if sent = true ∧ body ≠ [] then (sendAll connection body s).2 else s

def kBufferBytes : ℕ := 65536

/-- The loop that reads and sends the bytes from `offset` to `last`. -/
def sendSlice (connection : Connection) (content : Bytes) (last : ℕ) : ℕ → ℕ → Sender → Bool × Sender
  | 0, _, s => (true, s)
  | turns + 1, offset, s =>
    if last < offset then (true, s)
    else
      match connection.pread s.ticks with
      | none => (false, s.next)
      | some moved =>
        let count := min moved (min (min kBufferBytes (last - offset + 1)) (content.length - offset))
        if count = 0 then (false, s.next)
        else
          let (sent, s) := sendAll connection (slice content offset (offset + count)) s.next
          if sent = false then (false, s)
          else sendSlice connection content last turns (offset + count) s

/-- The header of an answer with the bytes from `first` to `last`. -/
def audioHeader (range : Bytes) (first last size : ℕ) : Bytes :=
  (if range = [] then bytes "HTTP/1.1 200 OK" else bytes "HTTP/1.1 206 Partial Content") ++ crlf ++
    bytes "Content-Type: audio/wav" ++ crlf ++ bytes "Content-Length: " ++
    decimalText (last - first + 1) ++ crlf ++ bytes "Accept-Ranges: bytes" ++ crlf ++
    bytes "Cache-Control: no-store" ++ crlf ++ bytes "X-Content-Type-Options: nosniff" ++ crlf ++
    (if range = [] then []
      else bytes "Content-Range: bytes " ++ decimalText first ++ [dash] ++ decimalText last ++
        bytes "/" ++ decimalText size ++ crlf) ++
    bytes "Connection: close" ++ crlf ++ crlf

/-- What answers 416. -/
def kRangeError : Bytes := bytes "\x7b\"error\":\"invalid audio byte range\"\x7d"

/-- The first and the last byte that an answer has. -/
def selectRange (range : Bytes) (size : ℕ) : Option (ℕ × ℕ) :=
  if range = [] then some (0, size - 1) else parseRange range size

/-- `send_audio_file` for a file that could be opened, is not empty and has at most `2 ^ 30` bytes. -/
def sendOpenFile (connection : Connection) (content range : Bytes) (s : Sender) : Bool × Sender :=
  match selectRange range content.length with
  | none =>
    (true, sendResponse connection (bytes "416 Range Not Satisfiable") (bytes "application/json")
      kRangeError (bytes "Content-Range: bytes */" ++ decimalText content.length ++ crlf) s)
  | some (first, last) =>
    let (sent, s) := sendAll connection (audioHeader range first last content.length) s
    if sent = false then (false, s)
    else sendSlice connection content last (last - first + 1) first s

/-- `send_audio_file`; the file is `none` where it cannot be opened as a regular file. -/
def sendAudioFile (connection : Connection) (file : Option Bytes) (range : Bytes) (s : Sender) :
    Bool × Sender :=
  match file with
  | none | some [] =>
    (true, sendResponse connection (bytes "410 Gone") (bytes "application/json")
      (bytes "\x7b\"error\":\"retained audio result is unavailable\"\x7d") [] s)
  | some content =>
    if 2 ^ 30 < content.length then
      (true, sendResponse connection (bytes "413 Payload Too Large") (bytes "application/json")
        (bytes "\x7b\"error\":\"audio artifact exceeds 1 GiB\"\x7d") [] s)
    else sendOpenFile connection content range s

/-! ### Single byte ranges -/

/-- The syntax of a single byte range: a unit, which is not case-sensitive, and the numbers of the
first and the last byte, one of which may be missing. Without a first byte the other number is the
length of a suffix. -/
structure SingleRange where
  unit : Bytes
  first : Bytes
  last : Bytes
  unit_eq : unit.map (fun c => if 65 ≤ c ∧ c ≤ 90 then c + 32 else c) = bytes "bytes"
  first_digits : first.all isDigit = true
  last_digits : last.all isDigit = true
  some_digits : first ≠ [] ∨ last ≠ []
  ordered : first ≠ [] → last ≠ [] → decimal 0 first ≤ decimal 0 last

namespace SingleRange

def text (r : SingleRange) : Bytes := r.unit ++ bytes "=" ++ (r.first ++ dash :: r.last)

/-- The numbers fit in 64 bits. -/
def Fits (r : SingleRange) : Prop := decimal 0 r.first < 2 ^ 64 ∧ decimal 0 r.last < 2 ^ 64

/-- The unit is in lower case, and no number has more than 20 digits. -/
def Plain (r : SingleRange) : Prop :=
  r.unit = bytes "bytes" ∧ r.first.length ≤ 20 ∧ r.last.length ≤ 20

/-- Some byte of a file is in the range. -/
def Satisfiable (r : SingleRange) (size : ℕ) : Prop :=
  if r.first = [] then 0 < decimal 0 r.last else decimal 0 r.first < size

/-- The first and the last byte that a range selects. -/
def select (r : SingleRange) (size : ℕ) : ℕ × ℕ :=
  if r.first = [] then (size - min size (decimal 0 r.last), size - 1)
  else
    (decimal 0 r.first, if r.last = [] then size - 1 else min (decimal 0 r.last) (size - 1))

end SingleRange

/-! ### What a header selects -/

theorem findIdx?_dash {a : Bytes} (ha : dash ∉ a) (b : Bytes) :
    (a ++ dash :: b).findIdx? (· == dash) = some a.length := by
  induction a with
  | nil => rfl
  | cons c a ih =>
    rw [List.mem_cons, not_or] at ha
    have hc : (c == dash) = false := by simpa using Ne.symm ha.1
    rw [List.cons_append, List.findIdx?_cons, hc, ih ha.2]
    rfl

/-- The text around the first dash. -/
theorem exists_of_findIdx?_dash {text : Bytes} {p : ℕ}
    (h : text.findIdx? (· == dash) = some p) :
    ∃ a b, text = a ++ dash :: b ∧ dash ∉ a ∧ a.length = p := by
  induction text generalizing p with
  | nil => cases h
  | cons c text ih =>
    rw [List.findIdx?_cons] at h
    by_cases hc : c = dash
    · rw [if_pos (by simpa using hc)] at h
      exact ⟨[], text, by rw [hc]; rfl, by simp, Option.some.inj h⟩
    · rw [if_neg (by simpa using hc)] at h
      obtain ⟨q, hq, hqp⟩ := Option.map_eq_some_iff.1 h
      obtain ⟨a, b, hab, ha, hlength⟩ := ih hq
      refine ⟨c :: a, b, by rw [hab]; rfl, ?_, by rw [List.length_cons, hlength, hqp]⟩
      rw [List.mem_cons, not_or]
      exact ⟨fun heq => hc heq.symm, ha⟩

theorem rangeNumber_eq_some_iff {text : Bytes} {n : ℕ} :
    rangeNumber text = some n ↔
      (text ≠ [] ∧ text.length ≤ 20 ∧ text.all isDigit = true) ∧
        decimal 0 text < 2 ^ 64 ∧ decimal 0 text = n := by
  rw [rangeNumber]
  by_cases hgrammar : text = [] ∨ 20 < text.length ∨ text.all isDigit = false
  · rw [if_pos hgrammar]
    refine iff_of_false (by simp) fun h => ?_
    rcases hgrammar with hnil | hlong | hdigits
    · exact h.1.1 hnil
    · exact absurd h.1.2.1 (by omega)
    · exact Bool.false_ne_true (hdigits.symm.trans h.1.2.2)
  · rw [if_neg hgrammar]
    simp only [not_or, not_lt, Bool.not_eq_false] at hgrammar
    by_cases hlarge : 2 ^ 64 ≤ decimal 0 text
    · rw [if_pos hlarge]
      exact iff_of_false (by simp) fun h => absurd h.2.1 (by omega)
    · rw [if_neg hlarge, Option.some.injEq]
      exact ⟨fun h => ⟨hgrammar, by omega, h⟩, fun h => h.2.2⟩

/-- The range of a text that has a dash, from the texts around it. -/
def parseParts (a b : Bytes) (size : ℕ) : Option (ℕ × ℕ) :=
  if a = [] then
    match rangeNumber b with
    | none => none
    | some count => if 0 < count then some (size - min size count, size - 1) else none
  else do
    let first ← rangeNumber a
    let last ← (if b ≠ [] then rangeNumber b else some (size - 1) : Option ℕ)
    if first < size ∧ first ≤ last then some (first, min last (size - 1)) else none

theorem parseRange_text {a b : Bytes} (ha : dash ∉ a)
    (hlength : (kBytesUnit ++ (a ++ dash :: b)).length ≤ 96) (size : ℕ) :
    parseRange (kBytesUnit ++ (a ++ dash :: b)) size = parseParts a b size := by
  have htake : (kBytesUnit ++ (a ++ dash :: b)).take 6 = kBytesUnit := List.take_left' rfl
  have hdrop : (kBytesUnit ++ (a ++ dash :: b)).drop 6 = a ++ dash :: b := List.drop_left' rfl
  rw [parseRange, if_neg (by rw [htake]; simpa using hlength), hdrop]
  dsimp only
  rw [findIdx?_dash ha, parseParts]
  cases a with
  | nil => rfl
  | cons c a =>
    have hfirst : (c :: a ++ dash :: b).take (c :: a).length = c :: a := List.take_left' rfl
    have hlast : (c :: a ++ dash :: b).drop ((c :: a).length + 1) = b := by
      rw [List.drop_append, List.drop_eq_nil_of_le (Nat.le_succ _), List.nil_append,
        Nat.add_sub_cancel_left, List.drop_one, List.tail_cons]
    have hmore : ((c :: a).length + 1 < (c :: a ++ dash :: b).length) ↔ b ≠ [] := by
      rw [← List.length_pos_iff]
      simp only [List.length_append, List.length_cons]
      omega
    rw [if_neg (List.cons_ne_nil c a)]
    simp only [List.length_cons] at hfirst hlast hmore ⊢
    simp only [hfirst, hlast, hmore]

/-- A selection that the code makes is that of a single range. -/
theorem exists_singleRange {a b : Bytes} {size : ℕ} {x : ℕ × ℕ}
    (h : parseParts a b size = some x) :
    ∃ r : SingleRange, (r.first = a ∧ r.last = b ∧ r.Plain) ∧ r.Fits ∧ r.Satisfiable size ∧
      r.select size = x := by
  rw [parseParts] at h
  by_cases ha : a = []
  · rw [if_pos ha] at h
    cases hb : rangeNumber b with
    | none =>
      rw [hb] at h
      cases h
    | some count =>
      obtain ⟨⟨hne, hlength, hdigits⟩, hlt, hcount⟩ := rangeNumber_eq_some_iff.1 hb
      rw [hb] at h
      dsimp only at h
      split_ifs at h with hpos
      refine ⟨⟨bytes "bytes", [], b, by decide, rfl, hdigits, Or.inr hne, fun h => absurd rfl h⟩,
        ⟨ha.symm, rfl, rfl, Nat.zero_le 20, hlength⟩, ⟨Nat.two_pow_pos 64, hlt⟩, ?_, ?_⟩
      · rw [SingleRange.Satisfiable, if_pos rfl, hcount]
        exact hpos
      · rw [SingleRange.select, if_pos rfl, hcount]
        exact Option.some.inj h
  · rw [if_neg ha] at h
    obtain ⟨first, hfirst, h⟩ := Option.bind_eq_some_iff.1 h
    obtain ⟨last, hlast, h⟩ := Option.bind_eq_some_iff.1 h
    obtain ⟨⟨-, hlength, hdigits⟩, hlt, rfl⟩ := rangeNumber_eq_some_iff.1 hfirst
    split_ifs at h with hin
    by_cases hb : b = []
    · rw [if_neg (not_not.2 hb)] at hlast
      obtain rfl := Option.some.inj hlast
      refine ⟨⟨bytes "bytes", a, b, by decide, hdigits, by rw [hb]; rfl, Or.inl ha,
        fun _ h => absurd hb h⟩, ⟨rfl, rfl, rfl, hlength, (show b.length ≤ 20 by rw [hb]; decide)⟩,
        ⟨hlt, (show decimal 0 b < 2 ^ 64 by rw [hb]; decide)⟩, ?_, ?_⟩
      · rw [SingleRange.Satisfiable, if_neg ha]
        exact hin.1
      · rw [SingleRange.select, if_neg ha, if_pos hb, ← Option.some.inj h, Nat.min_self]
    · rw [if_pos hb] at hlast
      obtain ⟨⟨-, hlength', hdigits'⟩, hlt', rfl⟩ := rangeNumber_eq_some_iff.1 hlast
      refine ⟨⟨bytes "bytes", a, b, by decide, hdigits, hdigits', Or.inl ha, fun _ _ => hin.2⟩,
        ⟨rfl, rfl, rfl, hlength, hlength'⟩, ⟨hlt, hlt'⟩, ?_, ?_⟩
      · rw [SingleRange.Satisfiable, if_neg ha]
        exact hin.1
      · rw [SingleRange.select, if_neg ha, if_neg hb]
        exact Option.some.inj h

/-- The code selects what a single range means. -/
theorem parseParts_eq_select {r : SingleRange} {size : ℕ} (hplain : r.Plain) (hfits : r.Fits)
    (hsat : r.Satisfiable size) : parseParts r.first r.last size = some (r.select size) := by
  obtain ⟨-, hfirst, hlast⟩ := hplain
  rw [SingleRange.Satisfiable] at hsat
  rw [parseParts, SingleRange.select]
  by_cases ha : r.first = []
  · have hb : r.last ≠ [] := r.some_digits.resolve_left (not_not.2 ha)
    rw [if_pos ha] at hsat
    rw [if_pos ha, if_pos ha,
      rangeNumber_eq_some_iff.2 ⟨⟨hb, hlast, r.last_digits⟩, hfits.2, rfl⟩]
    exact if_pos hsat
  · rw [if_neg ha] at hsat
    rw [if_neg ha, if_neg ha,
      rangeNumber_eq_some_iff.2 ⟨⟨ha, hfirst, r.first_digits⟩, hfits.1, rfl⟩,
      Option.bind_eq_bind, Option.bind_some]
    by_cases hb : r.last = []
    · rw [if_neg (not_not.2 hb), if_pos hb, Option.bind_some, if_pos ⟨hsat, by omega⟩, Nat.min_self]
    · rw [if_pos hb, if_neg hb,
        rangeNumber_eq_some_iff.2 ⟨⟨hb, hlast, r.last_digits⟩, hfits.2, rfl⟩, Option.bind_some,
        if_pos ⟨hsat, r.ordered ha hb⟩]

theorem dash_notMem {a : Bytes} (h : a.all isDigit = true) : dash ∉ a := by
  intro hmem
  have hdigit := List.all_eq_true.1 h dash hmem
  revert hdigit
  decide

/-- **Which header texts select a range, and which range.** -/
theorem parseRange_eq_some_iff {range : Bytes} {size : ℕ} {x : ℕ × ℕ} :
    parseRange range size = some x ↔ ∃ r : SingleRange, r.text = range ∧ r.Plain ∧ r.Fits ∧
      r.Satisfiable size ∧ r.select size = x := by
  constructor
  · intro h
    have hparse := h
    rw [parseRange] at h
    split_ifs at h with hrefused
    simp only [not_or, not_lt, not_not] at hrefused
    dsimp only at h
    cases hfind : (range.drop 6).findIdx? (· == dash) with
    | none =>
      rw [hfind] at h
      cases h
    | some p =>
      obtain ⟨a, b, hab, ha, -⟩ := exists_of_findIdx?_dash hfind
      have hrange : range = kBytesUnit ++ (a ++ dash :: b) := by
        rw [← hrefused.2, ← hab, List.take_append_drop]
      rw [hrange] at hparse hrefused
      rw [parseRange_text ha hrefused.1] at hparse
      obtain ⟨r, ⟨hfirst, hlast, hplain⟩, hfits, hsat, hselect⟩ := exists_singleRange hparse
      refine ⟨r, ?_, hplain, hfits, hsat, hselect⟩
      rw [SingleRange.text, hplain.1, hfirst, hlast, hrange]
      rfl
  · rintro ⟨r, rfl, hplain, hfits, hsat, rfl⟩
    have htext : r.text = kBytesUnit ++ (r.first ++ dash :: r.last) := by
      rw [SingleRange.text, hplain.1]
      rfl
    have hlength : (kBytesUnit ++ (r.first ++ dash :: r.last)).length ≤ 96 := by
      have hunit : kBytesUnit.length = 6 := rfl
      have := hplain.2.1
      have := hplain.2.2
      simp only [List.length_append, List.length_cons, hunit]
      omega
    rw [htext, parseRange_text (dash_notMem r.first_digits) hlength,
      parseParts_eq_select hplain hfits hsat]

/-- A range that is selected lies in the file. -/
theorem select_le {r : SingleRange} {size : ℕ} (hsize : 0 < size) (hsat : r.Satisfiable size) :
    (r.select size).1 ≤ (r.select size).2 ∧ (r.select size).2 < size := by
  rw [SingleRange.Satisfiable] at hsat
  rw [SingleRange.select]
  by_cases ha : r.first = []
  · rw [if_pos ha] at hsat
    rw [if_pos ha]
    dsimp only
    omega
  · rw [if_neg ha] at hsat
    rw [if_neg ha]
    by_cases hb : r.last = []
    · rw [if_pos hb]
      dsimp only
      omega
    · have hordered := r.ordered ha hb
      rw [if_neg hb]
      dsimp only
      omega

/-! ### What is sent -/

/-- No call fails, and every call moves something. -/
structure Connection.Steady (connection : Connection) : Prop where
  send : ∀ i, ∃ moved, connection.send i = some (moved + 1)
  pread : ∀ i, ∃ moved, connection.pread i = some (moved + 1)

/-- The turns of a send add up: what was sent is a prefix of the data, the whole data if the call
succeeds. -/
theorem sendLoop_spec {connection : Connection} {turns : ℕ} {data : Bytes} {s : Sender}
    (hturns : data.length ≤ turns) :
    ∃ part, (sendLoop connection turns data s).2.sent = s.sent ++ part ∧ part <+: data ∧
      ((sendLoop connection turns data s).1 = true → part = data) ∧
      (connection.Steady → (sendLoop connection turns data s).1 = true) := by
  induction turns generalizing data s with
  | zero =>
    obtain rfl := List.length_eq_zero_iff.1 (Nat.le_zero.1 hturns)
    exact ⟨[], (List.append_nil _).symm, List.prefix_refl _, fun _ => rfl, fun _ => rfl⟩
  | succ turns ih =>
    rw [sendLoop]
    by_cases hnil : data = []
    · rw [if_pos hnil, hnil]
      exact ⟨[], (List.append_nil _).symm, List.prefix_refl _, fun _ => rfl, fun _ => rfl⟩
    rw [if_neg hnil]
    have hpos := List.length_pos_iff.2 hnil
    cases hsend : connection.send s.ticks with
    | none =>
      refine ⟨[], (List.append_nil _).symm, List.nil_prefix, fun h => (by cases h), fun hsteady => ?_⟩
      obtain ⟨moved, hmoved⟩ := hsteady.send s.ticks
      rw [hmoved] at hsend
      cases hsend
    | some moved =>
      dsimp only
      by_cases hzero : min moved data.length = 0
      · rw [if_pos hzero]
        refine ⟨[], (List.append_nil _).symm, List.nil_prefix, fun h => (by cases h),
          fun hsteady => ?_⟩
        obtain ⟨moved', hmoved⟩ := hsteady.send s.ticks
        rw [hmoved] at hsend
        have := Option.some.inj hsend
        omega
      · rw [if_neg hzero]
        generalize min moved data.length = count at hzero
        obtain ⟨part, hsent, hprefix, hwhole, hsteady⟩ := @ih (data.drop count)
          ⟨s.sent ++ data.take count, s.ticks + 1⟩ (by rw [List.length_drop]; omega)
        refine ⟨data.take count ++ part, ?_, ?_, fun h => ?_, hsteady⟩
        · rw [hsent, List.append_assoc]
        · conv_rhs => rw [← List.take_append_drop count data]
          exact (List.prefix_append_right_inj _).2 hprefix
        · rw [hwhole h, List.take_append_drop]

theorem sendAll_spec (connection : Connection) (data : Bytes) (s : Sender) :
    ∃ part, (sendAll connection data s).2.sent = s.sent ++ part ∧ part <+: data ∧
      ((sendAll connection data s).1 = true → part = data) ∧
      (connection.Steady → (sendAll connection data s).1 = true) :=
  sendLoop_spec le_rfl

/-- **The turns of the reading loop add up**, wherever the parts are cut. -/
theorem sendSlice_spec {connection : Connection} {content : Bytes} {last turns offset : ℕ}
    {s : Sender} (hlast : last < content.length) (hoffset : offset ≤ last + 1)
    (hturns : last + 1 - offset ≤ turns) :
    ∃ part, (sendSlice connection content last turns offset s).2.sent = s.sent ++ part ∧
      part <+: slice content offset (last + 1) ∧
      ((sendSlice connection content last turns offset s).1 = true →
        part = slice content offset (last + 1)) ∧
      (connection.Steady → (sendSlice connection content last turns offset s).1 = true) := by
  induction turns generalizing offset s with
  | zero =>
    obtain rfl : offset = last + 1 := by omega
    rw [slice_self]
    exact ⟨[], (List.append_nil _).symm, List.prefix_refl _, fun _ => rfl, fun _ => rfl⟩
  | succ turns ih =>
    rw [sendSlice]
    by_cases hdone : last < offset
    · obtain rfl : offset = last + 1 := by omega
      rw [if_pos hdone, slice_self]
      exact ⟨[], (List.append_nil _).symm, List.prefix_refl _, fun _ => rfl, fun _ => rfl⟩
    rw [if_neg hdone]
    cases hpread : connection.pread s.ticks with
    | none =>
      refine ⟨[], (List.append_nil _).symm, List.nil_prefix, fun h => (by cases h), fun hsteady => ?_⟩
      obtain ⟨moved, hmoved⟩ := hsteady.pread s.ticks
      rw [hmoved] at hpread
      cases hpread
    | some moved =>
      dsimp only
      by_cases hzero :
          min moved (min (min kBufferBytes (last - offset + 1)) (content.length - offset)) = 0
      · rw [if_pos hzero]
        refine ⟨[], (List.append_nil _).symm, List.nil_prefix, fun h => (by cases h),
          fun hsteady => ?_⟩
        obtain ⟨moved', hmoved⟩ := hsteady.pread s.ticks
        rw [hmoved] at hpread
        have := Option.some.inj hpread
        rw [kBufferBytes] at hzero
        omega
      · rw [if_neg hzero]
        have hle : min moved (min (min kBufferBytes (last - offset + 1)) (content.length - offset)) ≤
            last - offset + 1 := by omega
        generalize min moved
          (min (min kBufferBytes (last - offset + 1)) (content.length - offset)) = count at hzero hle
        have hsplit : slice content offset (last + 1) =
            slice content offset (offset + count) ++ slice content (offset + count) (last + 1) :=
          (slice_append_slice _ (Nat.le_add_right _ _) (by omega)).symm
        obtain ⟨part, hsent, hprefix, hwhole, hsteady⟩ :=
          sendAll_spec connection (slice content offset (offset + count)) s.next
        generalize sendAll connection (slice content offset (offset + count)) s.next = result at *
        obtain ⟨done, t⟩ := result
        cases done with
        | false =>
          refine ⟨part, hsent, ?_, fun h => (by cases h), hsteady⟩
          rw [hsplit]
          exact hprefix.trans (List.prefix_append _ _)
        | true =>
          obtain ⟨rest, hrest, hprefix', hwhole', hsteady'⟩ :=
            @ih (offset + count) t (by omega) (by omega)
          have hpart := hwhole rfl
          refine ⟨part ++ rest, ?_, ?_, fun h => ?_, hsteady'⟩
          · rw [← List.append_assoc, ← show t.sent = s.sent ++ part from hsent]
            exact hrest
          · rw [hsplit, hpart]
            exact (List.prefix_append_right_inj _).2 hprefix'
          · rw [hsplit, hpart, hwhole' h]

/-- What the server sends for a range that it accepts: an answer with status 206, whose header states
the slice, and a part of the answer for every run of the calls; the whole answer if they succeed. -/
structure PartialAnswer (connection : Connection) (content range : Bytes) (s : Sender) (first last : ℕ) :
    Prop where
  first_le : first ≤ last
  last_lt : last < content.length
  length_slice : (slice content first (last + 1)).length = last - first + 1
  answers : sendAudioFile connection (some content) range s =
    sendOpenFile connection content range s
  status : bytes "HTTP/1.1 206 Partial Content" ++ crlf <+: audioHeader range first last content.length
  contentLength : crlf ++ bytes "Content-Length: " ++ decimalText (last - first + 1) ++ crlf <:+:
    audioHeader range first last content.length
  contentRange : crlf ++ bytes "Content-Range: bytes " ++ decimalText first ++ [dash] ++
    decimalText last ++ bytes "/" ++ decimalText content.length ++ crlf <:+:
      audioHeader range first last content.length
  sent : ∃ part, (sendAudioFile connection (some content) range s).2.sent = s.sent ++ part ∧
    part <+: audioHeader range first last content.length ++ slice content first (last + 1) ∧
    ((sendAudioFile connection (some content) range s).1 = true →
      part = audioHeader range first last content.length ++ slice content first (last + 1)) ∧
    (connection.Steady → (sendAudioFile connection (some content) range s).1 = true)

/-- The three lines of a header that tell the status and the slice. -/
theorem audioHeader_lines {range : Bytes} (hrange : range ≠ []) (first last size : ℕ) :
    bytes "HTTP/1.1 206 Partial Content" ++ crlf <+: audioHeader range first last size ∧
      crlf ++ bytes "Content-Length: " ++ decimalText (last - first + 1) ++ crlf <:+:
        audioHeader range first last size ∧
      crlf ++ bytes "Content-Range: bytes " ++ decimalText first ++ [dash] ++ decimalText last ++
        bytes "/" ++ decimalText size ++ crlf <:+: audioHeader range first last size := by
  rw [audioHeader, if_neg hrange, if_neg hrange]
  refine ⟨?_, ?_, ?_⟩
  · simp only [List.append_assoc]
    exact (List.prefix_append_right_inj _).2 (List.prefix_append _ _)
  · refine ⟨bytes "HTTP/1.1 206 Partial Content" ++ crlf ++ bytes "Content-Type: audio/wav",
      bytes "Accept-Ranges: bytes" ++ crlf ++ bytes "Cache-Control: no-store" ++ crlf ++
        bytes "X-Content-Type-Options: nosniff" ++ crlf ++
        (bytes "Content-Range: bytes " ++ decimalText first ++ [dash] ++ decimalText last ++
          bytes "/" ++ decimalText size ++ crlf) ++ bytes "Connection: close" ++ crlf ++ crlf, ?_⟩
    simp only [List.append_assoc]
  · refine ⟨bytes "HTTP/1.1 206 Partial Content" ++ crlf ++ bytes "Content-Type: audio/wav" ++ crlf ++
      bytes "Content-Length: " ++ decimalText (last - first + 1) ++ crlf ++
      bytes "Accept-Ranges: bytes" ++ crlf ++ bytes "Cache-Control: no-store" ++ crlf ++
      bytes "X-Content-Type-Options: nosniff", bytes "Connection: close" ++ crlf ++ crlf, ?_⟩
    simp only [List.append_assoc]

/-- A file that is neither empty nor too long is sent as an open file. -/
theorem sendAudioFile_some {content : Bytes} (hpos : 0 < content.length)
    (hle : content.length ≤ 2 ^ 30) (connection : Connection) (range : Bytes) (s : Sender) :
    sendAudioFile connection (some content) range s = sendOpenFile connection content range s := by
  cases content with
  | nil => cases hpos
  | cons c content => exact if_neg (Nat.not_lt.2 hle)

/-- The header and the slice are sent one after the other. -/
theorem sendOpenFile_spec {connection : Connection} {content range : Bytes} {s : Sender}
    {first last : ℕ} (hselect : selectRange range content.length = some (first, last))
    (hfirst : first ≤ last) (hlast : last < content.length) :
    ∃ part, (sendOpenFile connection content range s).2.sent = s.sent ++ part ∧
      part <+: audioHeader range first last content.length ++ slice content first (last + 1) ∧
      ((sendOpenFile connection content range s).1 = true →
        part = audioHeader range first last content.length ++ slice content first (last + 1)) ∧
      (connection.Steady → (sendOpenFile connection content range s).1 = true) := by
  rw [sendOpenFile, hselect]
  dsimp only
  generalize audioHeader range first last content.length = header
  obtain ⟨part, hsent, hprefix, hwhole, hsteady⟩ := sendAll_spec connection header s
  generalize sendAll connection header s = result at *
  obtain ⟨done, t⟩ := result
  cases done with
  | false => exact ⟨part, hsent, hprefix.trans (List.prefix_append _ _), fun h => (by cases h), hsteady⟩
  | true =>
    obtain ⟨rest, hrest, hprefix', hwhole', hsteady'⟩ :=
      @sendSlice_spec connection content last (last - first + 1) first t hlast (by omega) (by omega)
    have hpart := hwhole rfl
    refine ⟨part ++ rest, ?_, ?_, fun h => ?_, hsteady'⟩
    · rw [← List.append_assoc, ← show t.sent = s.sent ++ part from hsent]
      exact hrest
    · rw [hpart]
      exact (List.prefix_append_right_inj _).2 hprefix'
    · rw [hpart, hwhole' h]

/-- **Serving a range.** For a file of at most `2 ^ 30` bytes, a plain range that fits and is
satisfiable is answered with its slice; every other range text is answered with 416. -/
theorem range_serving (connection : Connection) {content range : Bytes} (hpos : 0 < content.length)
    (hle : content.length ≤ 2 ^ 30) (hrange : range ≠ []) (s : Sender) :
    (∀ r : SingleRange, r.text = range → r.Plain → r.Fits → r.Satisfiable content.length →
      PartialAnswer connection content range s (r.select content.length).1
        (r.select content.length).2) ∧
      ((¬∃ r : SingleRange, r.text = range ∧ r.Plain ∧ r.Fits ∧ r.Satisfiable content.length) →
        (sendAudioFile connection (some content) range s).2 =
          sendResponse connection (bytes "416 Range Not Satisfiable") (bytes "application/json")
            kRangeError (bytes "Content-Range: bytes */" ++ decimalText content.length ++ crlf) s) := by
  rw [sendAudioFile_some hpos hle]
  constructor
  · intro r htext hplain hfits hsat
    have hparse : parseRange range content.length = some (r.select content.length) :=
      parseRange_eq_some_iff.2 ⟨r, htext, hplain, hfits, hsat, rfl⟩
    obtain ⟨hfirst, hlast⟩ := select_le hpos hsat
    generalize r.select content.length = selected at hparse hfirst hlast
    obtain ⟨first, last⟩ := selected
    obtain ⟨hstatus, hlength, hcontentRange⟩ :=
      audioHeader_lines hrange first last content.length
    have hselect : selectRange range content.length = some (first, last) := by
      rw [selectRange, if_neg hrange, hparse]
    refine ⟨hfirst, hlast, ?_, sendAudioFile_some hpos hle _ _ _, hstatus, hlength, hcontentRange, ?_⟩
    · dsimp only at hfirst
      rw [length_slice (by exact hlast)]
      dsimp only
      omega
    · rw [sendAudioFile_some hpos hle]
      exact sendOpenFile_spec hselect hfirst hlast
  · intro hnone
    have hparse : parseRange range content.length = none := by
      cases hparse : parseRange range content.length with
      | none => rfl
      | some x =>
        obtain ⟨r, htext, hplain, hfits, hsat, -⟩ := parseRange_eq_some_iff.1 hparse
        exact absurd ⟨r, htext, hplain, hfits, hsat⟩ hnone
    rw [sendOpenFile, selectRange, if_neg hrange, hparse]

/-- The second byte of a file of two bytes. -/
def secondByte : SingleRange :=
  ⟨bytes "bytes", bytes "1", bytes "9", by decide, by decide, by decide, Or.inl (by decide),
    fun _ _ => by decide⟩

theorem range_serving_second :
    PartialAnswer ⟨fun _ => some 1, fun _ => some 1⟩ [7, 8] (bytes "bytes=1-9") ⟨[], 0⟩ 1 1 :=
  (range_serving ⟨fun _ => some 1, fun _ => some 1⟩ (by decide) (by decide) (by decide)
    ⟨[], 0⟩).1 secondByte (by decide) ⟨by decide, by decide, by decide⟩ ⟨by decide, by decide⟩
    (show decimal 0 (bytes "1") < 2 by decide)

/-- The first byte of a file, with a number of 21 digits. -/
def longZero : SingleRange :=
  ⟨bytes "bytes", List.replicate 21 48, bytes "0", by decide, by decide, by decide,
    Or.inl (by decide), fun _ _ => by decide⟩

/-- The first byte of a file, with a capital letter in the unit. -/
def capitalUnit : SingleRange :=
  ⟨bytes "Bytes", bytes "0", bytes "0", by decide, by decide, by decide, Or.inl (by decide),
    fun _ _ => by decide⟩

/-- A satisfiable range of a file of one byte, with numbers that fit in 64 bits, is answered with
416. -/
def WronglyRefused (r : SingleRange) : Prop :=
  r.Fits ∧ r.Satisfiable 1 ∧ r.select 1 = (0, 0) ∧
    (sendAudioFile ⟨fun _ => some 1000, fun _ => some 1000⟩ (some [7]) r.text ⟨[], 0⟩).2 =
      sendResponse ⟨fun _ => some 1000, fun _ => some 1000⟩ (bytes "416 Range Not Satisfiable")
        (bytes "application/json") kRangeError
        (bytes "Content-Range: bytes */" ++ decimalText 1 ++ crlf) ⟨[], 0⟩

theorem wronglyRefused_of_parse {r : SingleRange} (hfits : r.Fits) (hsat : r.Satisfiable 1)
    (hselect : r.select 1 = (0, 0)) (hparse : selectRange r.text 1 = none) : WronglyRefused r := by
  refine ⟨hfits, hsat, hselect, ?_⟩
  rw [sendAudioFile_some (by decide) (by decide), sendOpenFile,
    show ([7] : Bytes).length = 1 from rfl, hparse]

/-- Many digits and a capital letter are each refused. -/
theorem range_serving_longZero : WronglyRefused longZero ∧ WronglyRefused capitalUnit :=
  ⟨wronglyRefused_of_parse ⟨by decide, by decide⟩
      (show decimal 0 (List.replicate 21 48) < 1 by decide) (by decide) (by decide),
    wronglyRefused_of_parse ⟨by decide, by decide⟩ (show decimal 0 (bytes "0") < 1 by decide)
      (by decide) (by decide)⟩

end Resonantia.Web
