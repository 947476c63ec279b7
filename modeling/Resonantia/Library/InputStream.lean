import Mathlib.Data.List.Infix
import Mathlib.Data.List.TakeWhile
import Mathlib.Tactic.SplitIfs
import Resonantia.Library.Json

/-!
# Formatted input

Readers of formatted input streams: they skip white space of the classic locale, take a value and
leave the rest of the bytes, and they fail where there is no value. A list of values that is written
with white space between them is read back value by value. When the text was cut off, some reader
fails, or the last one came to the end of the text.

## Main definitions

* `InputStream.readToken`, `InputStream.readInt`, `InputStream.readQuoted`: readers.
* `InputStream.quoted`: a text between quotation marks, with escapes.
* `InputStream.Reads`: a reader takes a value from a text.
* `InputStream.readList`: readers one after the other.

## Main results

* `InputStream.reads_token`, `InputStream.needs_quoted`, `InputStream.readsBack_int`: what is written
  is read.
* `InputStream.Reads.list`, `InputStream.Reads.list_cut`: lists of values, whole and cut off.
-/

namespace InputStream

open ByteString

/-! ### White space -/

/-- `std::isspace` in the classic locale. -/
def isSpace (c : UInt8) : Bool := c = 32 || (9 ≤ c && c ≤ 13)

def skipWs (s : Bytes) : Bytes := s.dropWhile isSpace

/-- The end of the input, or white space in front. -/
def Follow (s : Bytes) : Prop := ∀ c, s.head? = some c → isSpace c = true

theorem follow_nil : Follow [] := fun _ h => nomatch h

theorem follow_cons {c : UInt8} (hc : isSpace c = true) (s : Bytes) : Follow (c :: s) := by
  intro x hx
  obtain rfl := Option.some.inj hx
  exact hc

theorem Follow.of_append {s t : Bytes} (h : Follow (s ++ t)) : Follow s := by
  intro c hc
  exact h c (by rw [List.head?_append, hc]; rfl)

theorem Follow.append {s t : Bytes} (h : Follow s) (hne : s ≠ []) : Follow (s ++ t) := by
  obtain ⟨c, s, rfl⟩ := List.exists_cons_of_ne_nil hne
  exact follow_cons (h c rfl) (s ++ t)

theorem Follow.mono {s p : Bytes} (h : Follow s) (hp : p <+: s) : Follow p := by
  obtain ⟨t, rfl⟩ := hp
  exact h.of_append

theorem space_blank : ∀ c ∈ ([32] : Bytes), isSpace c = true :=
  List.forall_mem_singleton.2 (by decide)

theorem space_feed : ∀ c ∈ ([10] : Bytes), isSpace c = true :=
  List.forall_mem_singleton.2 (by decide)

theorem follow_blank (s : Bytes) : Follow ([32] ++ s) := follow_cons (by decide) s

theorem follow_feed (s : Bytes) : Follow ([10] ++ s) := follow_cons (by decide) s

@[simp]
theorem skipWs_nil : skipWs [] = [] := rfl

theorem skipWs_cons_of_space {c : UInt8} (hc : isSpace c = true) (s : Bytes) :
    skipWs (c :: s) = skipWs s := List.dropWhile_cons_of_pos hc

theorem skipWs_cons_of_not_space {c : UInt8} (hc : isSpace c = false) (s : Bytes) :
    skipWs (c :: s) = c :: s := List.dropWhile_cons_of_neg (by simp [hc])

theorem skipWs_eq_nil_iff {s : Bytes} : skipWs s = [] ↔ ∀ c ∈ s, isSpace c = true :=
  List.dropWhile_eq_nil_iff

/-! ### Tokens -/

/-- `>>` into a string. -/
def readToken (s : Bytes) : Option (Bytes × Bytes) :=
  match skipWs s with
  | [] => none
  | c :: l => some ((c :: l).span fun c => !isSpace c)

/-- An optional sign; the flag says that it is negative. -/
def readSign : Bytes → Bool × Bytes
  | [] => (false, [])
  | c :: l => if c = 45 then (true, l) else if c = 43 then (false, l) else (false, c :: l)

/-- A sign and decimal digits. -/
def readNumeral (s : Bytes) : Option ((Bool × ℕ) × Bytes) :=
  let signed := readSign (skipWs s)
  let digits := signed.2.span Json.isDigit
  if digits.1 = [] then none else some ((signed.1, Json.decimal 0 digits.1), digits.2)

/-- `>>` into an integer of the given range. -/
def readInt (low high : ℤ) (s : Bytes) : Option (ℤ × Bytes) :=
  (readNumeral s).bind fun v =>
    let value : ℤ := if v.1.1 then -v.1.2 else v.1.2
    if value < low ∨ high < value then none else some (value, v.2)

/-- `>>` into an unsigned integer below a limit; a negative one is taken modulo the limit. -/
def readNat (limit : ℕ) (s : Bytes) : Option (ℕ × Bytes) :=
  (readNumeral s).bind fun v =>
    if v.1.2 ≥ limit then none
    else some (if v.1.1 then (limit - v.1.2) % limit else v.1.2, v.2)

/-- `<<` of an integer. -/
def intText (z : ℤ) : Bytes :=
  if z < 0 then 45 :: Json.decimalText z.natAbs else Json.decimalText z.natAbs

/-! ### Quoted texts -/

/-- A mark or a backslash stands behind a backslash. -/
def escape (c : UInt8) : Bytes := if c = 34 ∨ c = 92 then [92, c] else [c]

/-- `std::quoted`: an escaped text between quotation marks. -/
def quoted (text : Bytes) : Bytes := 34 :: (text.flatMap escape ++ [34])

/-- The text up to the closing quotation mark; the flag says that a backslash came before. -/
def readBody : Bool → Bytes → Option (Bytes × Bytes)
  | _, [] => none
  | true, c :: l => (readBody false l).map fun r => (c :: r.1, r.2)
  | false, c :: l =>
    if c = 34 then some ([], l)
    else if c = 92 then readBody true l
    else (readBody false l).map fun r => (c :: r.1, r.2)

/-- `>> std::quoted`: a text without an opening quotation mark is read as a token. -/
def readQuoted (s : Bytes) : Option (Bytes × Bytes) :=
  match skipWs s with
  | [] => none
  | c :: l => if c = 34 then readBody false l else readToken (c :: l)

/-! ### What is written is read -/

/-- The reader takes the value from the text. What follows has to be white space, and a part of the
text does not end in front of something else. -/
structure Reads {α : Type*} (read : Bytes → Option (α × Bytes)) (text : Bytes) (value : α) :
    Prop where
  whole : ∀ rest, Follow rest → read (text ++ rest) = some (value, rest)
  cut : ∀ p, p <+: text → p ≠ text → read p = none ∨ ∃ value', read p = some (value', [])

/-- The reader takes the value from the whole text only. -/
structure Needs {α : Type*} (read : Bytes → Option (α × Bytes)) (text : Bytes) (value : α) :
    Prop where
  whole : ∀ rest, read (text ++ rest) = some (value, rest)
  cut : ∀ p, p <+: text → p ≠ text → read p = none

theorem Needs.reads {α : Type*} {read : Bytes → Option (α × Bytes)} {text : Bytes} {value : α}
    (h : Needs read text value) : Reads read text value where
  whole rest _ := h.whole rest
  cut p hp hne := Or.inl (h.cut p hp hne)

theorem readToken_nil : readToken [] = none := rfl

theorem readQuoted_nil : readQuoted [] = none := rfl

theorem span_append_follow {p : UInt8 → Bool} {t rest : Bytes} (ht : ∀ c ∈ t, p c = true)
    (hrest : ∀ c, rest.head? = some c → p c = false) : (t ++ rest).span p = (t, rest) := by
  rw [List.span_eq_takeWhile_dropWhile, List.takeWhile_append_of_pos ht,
    List.dropWhile_append_of_pos ht]
  cases rest with
  | nil => simp
  | cons c rest =>
    have hc := hrest c rfl
    rw [List.takeWhile_cons_of_neg (by simp [hc]), List.dropWhile_cons_of_neg (by simp [hc]),
      List.append_nil]

/-- A token is read up to white space. -/
theorem readToken_append {t rest : Bytes} (hne : t ≠ []) (ht : ∀ c ∈ t, isSpace c = false)
    (hrest : Follow rest) : readToken (t ++ rest) = some (t, rest) := by
  obtain ⟨c, t, rfl⟩ := List.exists_cons_of_ne_nil hne
  have hspan : (c :: t ++ rest).span (fun c => !isSpace c) = (c :: t, rest) :=
    span_append_follow (fun c hc => by simp [ht c hc]) (fun c hc => by simp [hrest c hc])
  rw [List.cons_append] at hspan ⊢
  rw [readToken, skipWs_cons_of_not_space (ht c List.mem_cons_self)]
  dsimp only
  rw [hspan]

/-- White space in front makes no difference. -/
theorem skipWs_append {w : Bytes} (hw : ∀ c ∈ w, isSpace c = true) (s : Bytes) :
    skipWs (w ++ s) = skipWs s := List.dropWhile_append_of_pos hw

theorem readToken_ws {w : Bytes} (hw : ∀ c ∈ w, isSpace c = true) (s : Bytes) :
    readToken (w ++ s) = readToken s := by
  rw [readToken, skipWs_append hw, readToken]

theorem readQuoted_ws {w : Bytes} (hw : ∀ c ∈ w, isSpace c = true) (s : Bytes) :
    readQuoted (w ++ s) = readQuoted s := by
  rw [readQuoted, skipWs_append hw, readQuoted]

theorem prefix_append_cases {a b p : Bytes} (h : p <+: a ++ b) :
    p <+: a ∨ ∃ p', p = a ++ p' ∧ p' <+: b := by
  rcases List.prefix_or_prefix_of_prefix h (List.prefix_append a b) with hp | ⟨p', rfl⟩
  · exact Or.inl hp
  · exact Or.inr ⟨p', rfl, (List.prefix_append_right_inj a).1 h⟩

/-- A part of a text that consists of two is a part of the first, or the first with a part of the
second. -/
theorem part_cases {a b p : Bytes} (h : p <+: a ++ b) :
    p <+: a ∧ p ≠ a ∨ ∃ p', p = a ++ p' ∧ p' <+: b := by
  rcases prefix_append_cases h with hp | hp
  · by_cases hwhole : p = a
    · exact Or.inr ⟨[], by rw [hwhole, List.append_nil], List.nil_prefix⟩
    · exact Or.inl ⟨hp, hwhole⟩
  · exact Or.inr hp

/-- A part of a text behind white space is a part of the white space, or the white space with a part
of the text. -/
theorem cut_cases {w t p : Bytes} (hp : p <+: w ++ t) (hne : p ≠ w ++ t) :
    p <+: w ∨ ∃ p', p' <+: t ∧ p' ≠ t ∧ p = w ++ p' := by
  rcases prefix_append_cases hp with h | ⟨p', rfl, hp'⟩
  · exact Or.inl h
  · exact Or.inr ⟨p', hp', fun h => hne (by rw [h]), rfl⟩

theorem reads_token {w t : Bytes} (hw : ∀ c ∈ w, isSpace c = true) (hne : t ≠ [])
    (ht : ∀ c ∈ t, isSpace c = false) : Reads readToken (w ++ t) t where
  whole rest hrest := by
    rw [List.append_assoc, readToken_ws hw, readToken_append hne ht hrest]
  cut p hp hpne := by
    rcases cut_cases hp hpne with hp | ⟨p', hp', -, rfl⟩
    · refine Or.inl ?_
      have hspace := skipWs_eq_nil_iff.2 fun c hc => hw c (hp.subset hc)
      rw [readToken, hspace]
    · rw [readToken_ws hw]
      by_cases hnil : p' = []
      · exact Or.inl (by rw [hnil, readToken_nil])
      · have hread := readToken_append hnil (fun c hc => ht c (hp'.subset hc)) follow_nil
        rw [List.append_nil] at hread
        exact Or.inr ⟨p', hread⟩

/-! ### Numbers -/

/-- No white space is above the blank. -/
theorem isSpace_of_lt {c : UInt8} (hc : 32 < c.toNat) : isSpace c = false := by
  rw [isSpace, Bool.or_eq_false_iff, decide_eq_false_iff_not, Bool.and_eq_false_iff,
    decide_eq_false_iff_not, decide_eq_false_iff_not]
  refine ⟨?_, Or.inr ?_⟩
  · rintro rfl
    exact absurd hc (by decide)
  · rw [UInt8.le_iff_toNat_le]
    have hreturn : (13 : UInt8).toNat = 13 := rfl
    omega

theorem isSpace_of_isDigit {c : UInt8} (hc : Json.isDigit c = true) : isSpace c = false := by
  simp only [Json.isDigit, Bool.and_eq_true, decide_eq_true_eq, UInt8.le_iff_toNat_le] at hc
  have hlow : 48 ≤ c.toNat := hc.1
  exact isSpace_of_lt (by omega)

/-- The value is read from the text behind white space, when white space follows. -/
def ReadsBack {α : Type*} (read : Bytes → Option (α × Bytes)) (text : Bytes) (value : α) : Prop :=
  ∀ w rest, (∀ c ∈ w, isSpace c = true) → Follow rest →
    read (w ++ (text ++ rest)) = some (value, rest)

theorem readsBack_token {t : Bytes} (hne : t ≠ []) (ht : ∀ c ∈ t, isSpace c = false) :
    ReadsBack readToken t t := by
  intro w rest hw hrest
  rw [readToken_ws hw, readToken_append hne ht hrest]

theorem span_decimalText (n : ℕ) {rest : Bytes} (hrest : Follow rest) :
    (Json.decimalText n ++ rest).span Json.isDigit = (Json.decimalText n, rest) := by
  refine span_append_follow (fun c hc => Json.isDigit_decimalText hc) fun c hc => ?_
  refine Bool.eq_false_iff.2 fun hdigit => ?_
  have hspace := hrest c hc
  rw [isSpace_of_isDigit hdigit] at hspace
  cases hspace

theorem readsBack_decimalText (n : ℕ) :
    ReadsBack readNumeral (Json.decimalText n) (false, n) := by
  intro w rest hw hrest
  have hspan := span_decimalText n hrest
  have hvalue := Json.decimal_decimalText n
  obtain ⟨c, l, hl⟩ := List.exists_cons_of_ne_nil (Json.decimalText_ne_nil n)
  have hdigit : Json.isDigit c = true := Json.isDigit_decimalText (n := n) (by simp [hl])
  rw [readNumeral, skipWs_append hw]
  rw [hl, List.cons_append] at hspan ⊢
  have hsign : readSign (c :: (l ++ rest)) = (false, c :: (l ++ rest)) := by
    rw [readSign, if_neg, if_neg]
    · rintro rfl
      exact absurd hdigit (by decide)
    · rintro rfl
      exact absurd hdigit (by decide)
  rw [skipWs_cons_of_not_space (isSpace_of_isDigit hdigit), hsign, hspan]
  dsimp only
  rw [if_neg (List.cons_ne_nil c l), ← hl, hvalue]

theorem readsBack_negative (n : ℕ) :
    ReadsBack readNumeral (45 :: Json.decimalText n) (true, n) := by
  intro w rest hw hrest
  rw [readNumeral, skipWs_append hw, List.cons_append, skipWs_cons_of_not_space (by decide),
    readSign, if_pos rfl, span_decimalText n hrest]
  dsimp only
  rw [if_neg (Json.decimalText_ne_nil n), Json.decimal_decimalText]

/-- An integer in range is read back. -/
theorem readsBack_int {low high z : ℤ} (hlow : low ≤ z) (hhigh : z ≤ high) :
    ReadsBack (readInt low high) (intText z) z := by
  intro w rest hw hrest
  rw [intText, readInt]
  split_ifs with hz
  · rw [readsBack_negative z.natAbs w rest hw hrest, Option.bind_some]
    have hvalue : -(z.natAbs : ℤ) = z := by omega
    dsimp only
    rw [if_pos rfl, hvalue, if_neg (by omega)]
  · rw [readsBack_decimalText z.natAbs w rest hw hrest, Option.bind_some]
    have hvalue : (z.natAbs : ℤ) = z := by omega
    dsimp only
    rw [if_neg Bool.false_ne_true, hvalue, if_neg (by omega)]

/-- An unsigned integer below the limit is read back. -/
theorem readsBack_nat {limit n : ℕ} (h : n < limit) :
    ReadsBack (readNat limit) (Json.decimalText n) n := by
  intro w rest hw hrest
  rw [readNat, readsBack_decimalText n w rest hw hrest, Option.bind_some]
  dsimp only
  rw [if_neg (by omega), if_neg Bool.false_ne_true]

/-! ### Quoted texts -/

theorem readBody_escape (c : UInt8) (s : Bytes) :
    readBody false (escape c ++ s) = (readBody false s).map fun r => (c :: r.1, r.2) := by
  by_cases hc : c = 34 ∨ c = 92
  · rw [escape, if_pos hc, List.cons_append, List.singleton_append, readBody, if_neg (by decide),
      if_pos rfl, readBody]
  · rw [escape, if_neg hc, List.singleton_append, readBody]
    rw [not_or] at hc
    rw [if_neg hc.1, if_neg hc.2]

/-- A part of the escaped form of a byte is no text. -/
theorem readBody_escape_cut (c : UInt8) {p : Bytes} (hp : p <+: escape c) :
    readBody false p = none := by
  by_cases hc : c = 34 ∨ c = 92
  · rw [escape, if_pos hc] at hp
    rcases List.prefix_cons_iff.1 hp with rfl | ⟨q, rfl, hq⟩
    · rfl
    rcases List.prefix_cons_iff.1 hq with rfl | ⟨q', rfl, hq'⟩
    · rfl
    obtain rfl := List.prefix_nil.1 hq'
    rfl
  · rw [escape, if_neg hc] at hp
    rw [not_or] at hc
    rcases List.prefix_cons_iff.1 hp with rfl | ⟨q, rfl, hq⟩
    · rfl
    obtain rfl := List.prefix_nil.1 hq
    rw [readBody, if_neg hc.1, if_neg hc.2]
    rfl

theorem readBody_escaped (text rest : Bytes) :
    readBody false (text.flatMap escape ++ 34 :: rest) = some (text, rest) := by
  induction text with
  | nil => rfl
  | cons c text ih =>
    rw [List.flatMap_cons, List.append_assoc, readBody_escape, ih, Option.map_some]

/-- Without the closing quotation mark, the text is not read. -/
theorem readBody_cut (text : Bytes) {p : Bytes} (hp : p <+: text.flatMap escape) :
    readBody false p = none := by
  induction text generalizing p with
  | nil =>
    obtain rfl := List.prefix_nil.1 hp
    rfl
  | cons c text ih =>
    rw [List.flatMap_cons] at hp
    rcases prefix_append_cases hp with h | ⟨p', rfl, hp'⟩
    · exact readBody_escape_cut c h
    · rw [readBody_escape, ih hp', Option.map_none]

/-- **A quoted text is read back**, whatever its bytes are. -/
theorem needs_quoted {w : Bytes} (hw : ∀ c ∈ w, isSpace c = true) (text : Bytes) :
    Needs readQuoted (w ++ quoted text) text where
  whole rest := by
    rw [List.append_assoc, readQuoted_ws hw, quoted, List.cons_append, List.append_assoc,
      List.singleton_append, readQuoted, skipWs_cons_of_not_space (by decide)]
    exact readBody_escaped text rest
  cut p hp hpne := by
    rcases cut_cases hp hpne with hp | ⟨p', hp', hne, rfl⟩
    · have hspace := skipWs_eq_nil_iff.2 fun c hc => hw c (hp.subset hc)
      rw [readQuoted, hspace]
    · rw [readQuoted_ws hw]
      rw [quoted] at hp' hne
      rcases List.prefix_cons_iff.1 hp' with rfl | ⟨q, rfl, hq⟩
      · rfl
      rw [readQuoted, skipWs_cons_of_not_space (by decide)]
      refine readBody_cut text ?_
      rcases prefix_append_cases hq with h | ⟨r, rfl, hr⟩
      · exact h
      rcases List.prefix_cons_iff.1 hr with rfl | ⟨r', rfl, hr'⟩
      · rw [List.append_nil]
      · obtain rfl := List.prefix_nil.1 hr'
        exact absurd rfl hne

/-! ### Pairs -/

/-- Two values, one after the other. -/
def readPair {α β : Type*} (first : Bytes → Option (α × Bytes)) (second : Bytes → Option (β × Bytes))
    (s : Bytes) : Option ((α × β) × Bytes) :=
  (first s).bind fun a => (second a.2).map fun b => ((a.1, b.1), b.2)

theorem Needs.pair {α β : Type*} {first : Bytes → Option (α × Bytes)}
    {second : Bytes → Option (β × Bytes)} (hnil : second [] = none) {s t : Bytes} {a : α} {b : β}
    (ha : Needs first s a) (hb : Needs second t b) : Needs (readPair first second) (s ++ t) (a, b) where
  whole rest := by
    rw [List.append_assoc, readPair, ha.whole, Option.bind_some, hb.whole, Option.map_some]
  cut p hp hne := by
    rcases prefix_append_cases hp with hp | ⟨p', rfl, hp'⟩
    · by_cases hwhole : p = s
      · have hread := ha.whole []
        rw [List.append_nil, ← hwhole] at hread
        rw [readPair, hread, Option.bind_some, hnil, Option.map_none]
      · rw [readPair, ha.cut p hp hwhole, Option.bind_none]
    · rw [readPair, ha.whole, Option.bind_some, hb.cut p' hp' fun h => hne (by rw [h]),
        Option.map_none]

/-! ### Lists -/

/-- A number of values, one after the other. -/
def readList {α : Type*} (read : Bytes → Option (α × Bytes)) : ℕ → Bytes → Option (List α × Bytes)
  | 0, s => some ([], s)
  | n + 1, s => (read s).bind fun v => (readList read n v.2).map fun vs => (v.1 :: vs.1, vs.2)

variable {α : Type*} {read : Bytes → Option (α × Bytes)}

/-- The text of a list of values that are written behind white space. -/
def joined (items : List (Bytes × α)) : Bytes := items.flatMap Prod.fst

theorem joined_cons (item : Bytes × α) (items : List (Bytes × α)) :
    joined (item :: items) = item.1 ++ joined items := List.flatMap_cons

theorem follow_joined {items : List (Bytes × α)} (h : ∀ item ∈ items, Follow item.1)
    {rest : Bytes} (hrest : Follow rest) : Follow (joined items ++ rest) := by
  induction items with
  | nil => exact hrest
  | cons item items ih =>
    rw [joined_cons, List.append_assoc]
    by_cases hnil : item.1 = []
    · rw [hnil]
      exact ih fun item hitem => h item (List.mem_cons_of_mem _ hitem)
    · exact (h item List.mem_cons_self).append hnil

/-- A list of values is read back. -/
theorem Reads.list {items : List (Bytes × α)} (h : ∀ item ∈ items, Reads read item.1 item.2)
    (hfollow : ∀ item ∈ items.tail, Follow item.1) {rest : Bytes} (hrest : Follow rest) :
    readList read items.length (joined items ++ rest) = some (items.map Prod.snd, rest) := by
  induction items with
  | nil => rfl
  | cons item items ih =>
    have hread := (h item List.mem_cons_self).whole (joined items ++ rest)
      (follow_joined hfollow hrest)
    have hrest' := ih (fun item hitem => h item (List.mem_cons_of_mem _ hitem))
      fun item hitem => hfollow item (List.mem_of_mem_tail hitem)
    rw [joined_cons, List.append_assoc, List.length_cons, readList, hread, Option.bind_some,
      hrest', Option.map_some, List.map_cons]

/-- Of a list that was cut off, some value is not read, or the last one came to the end. -/
theorem Reads.list_cut (hnil : read [] = none) {items : List (Bytes × α)}
    (h : ∀ item ∈ items, Reads read item.1 item.2)
    (hfollow : ∀ item ∈ items.tail, Follow item.1) {p : Bytes} (hp : p <+: joined items)
    (hne : p ≠ joined items) :
    readList read items.length p = none ∨ ∃ vs, readList read items.length p = some (vs, []) := by
  induction items generalizing p with
  | nil => exact absurd (List.prefix_nil.1 hp) hne
  | cons item items ih =>
    rw [joined_cons] at hp hne
    rw [List.length_cons, readList]
    rcases prefix_append_cases hp with hp | ⟨p', rfl, hp'⟩
    · have hitem : read p = none ∨ ∃ value', read p = some (value', []) := by
        by_cases hwhole : p = item.1
        · have hread := (h item List.mem_cons_self).whole [] follow_nil
          rw [List.append_nil, ← hwhole] at hread
          exact Or.inr ⟨_, hread⟩
        · exact (h item List.mem_cons_self).cut p hp hwhole
      rcases hitem with hnone | ⟨value', hsome⟩
      · exact Or.inl (by rw [hnone, Option.bind_none])
      · rw [hsome, Option.bind_some]
        cases items with
        | nil => exact Or.inr ⟨_, rfl⟩
        | cons item' items =>
          rw [List.length_cons, readList, hnil]
          exact Or.inl rfl
    · have hp'ne : p' ≠ joined items := fun h => hne (by rw [h])
      have hread := (h item List.mem_cons_self).whole p'
        ((follow_joined hfollow follow_nil).mono (by rw [List.append_nil]; exact hp'))
      rw [hread, Option.bind_some]
      rcases ih (fun item hitem => h item (List.mem_cons_of_mem _ hitem))
        (fun item hitem => hfollow item (List.mem_of_mem_tail hitem)) hp' hp'ne with hnone | ⟨vs, hsome⟩
      · exact Or.inl (by rw [hnone, Option.map_none])
      · exact Or.inr ⟨_, by rw [hsome, Option.map_some]⟩

/-- A list of values that have to be complete is read back. -/
theorem Needs.list {items : List (Bytes × α)} (h : ∀ item ∈ items, Needs read item.1 item.2)
    (rest : Bytes) :
    readList read items.length (joined items ++ rest) = some (items.map Prod.snd, rest) := by
  induction items with
  | nil => rfl
  | cons item items ih =>
    have hrest := ih fun item hitem => h item (List.mem_cons_of_mem _ hitem)
    rw [joined_cons, List.append_assoc, List.length_cons, readList,
      (h item List.mem_cons_self).whole, Option.bind_some, hrest, Option.map_some, List.map_cons]

/-- It is not read when it was cut off. -/
theorem Needs.list_cut (hnil : read [] = none) {items : List (Bytes × α)}
    (h : ∀ item ∈ items, Needs read item.1 item.2) {p : Bytes} (hp : p <+: joined items)
    (hne : p ≠ joined items) : readList read items.length p = none := by
  induction items generalizing p with
  | nil => exact absurd (List.prefix_nil.1 hp) hne
  | cons item items ih =>
    have htail := fun item hitem => h item (List.mem_cons_of_mem _ hitem)
    rw [joined_cons] at hp hne
    rw [List.length_cons, readList]
    rcases prefix_append_cases hp with hp | ⟨p', rfl, hp'⟩
    · by_cases hwhole : p = item.1
      · have hread := (h item List.mem_cons_self).whole []
        rw [List.append_nil, ← hwhole] at hread
        rw [hread, Option.bind_some]
        cases items with
        | nil => exact absurd (by rw [hwhole]; exact (List.append_nil _).symm) hne
        | cons item' items =>
          rw [List.length_cons, readList, hnil]
          rfl
      · rw [(h item List.mem_cons_self).cut p hp hwhole, Option.bind_none]
    · rw [(h item List.mem_cons_self).whole, Option.bind_some,
        ih htail hp' fun h => hne (by rw [h]), Option.map_none]

/-- Values that are written with a blank behind each of them are read back. -/
theorem ReadsBack.list {write : α → Bytes} {l : List α}
    (h : ∀ a ∈ l, ReadsBack read (write a) a) (w rest : Bytes)
    (hw : ∀ c ∈ w, isSpace c = true) :
    readList read l.length (w ++ ((l.flatMap fun a => write a ++ [32]) ++ rest)) =
      some (l, (if l = [] then w else [32]) ++ rest) := by
  induction l generalizing w with
  | nil => simp [readList]
  | cons a l ih =>
    rw [List.forall_mem_cons] at h
    have hread := h.1 w ([32] ++ ((l.flatMap fun a => write a ++ [32]) ++ rest)) hw
      (follow_cons (by decide) _)
    rw [List.flatMap_cons, List.length_cons, readList, List.append_assoc, List.append_assoc, hread,
      Option.bind_some, ih h.2 [32] space_blank, Option.map_some, if_neg (List.cons_ne_nil a l),
      ite_self]

end InputStream
