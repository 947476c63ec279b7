import Resonantia.Library.InputStream

/-!
# Progress lines

A worker reports its progress on standard output, one line for each completed boundary. The service
ignores other lines, and rejects a line that starts like a report and is none.

## Main definitions

* `AppSupport.ProgressMessage`, `AppSupport.ProgressMessage.Valid`: a report.
* `AppSupport.writeProgressMessage`, `AppSupport.parseProgressMessage`.

## Main results

* `AppSupport.parse_text`: a written line is read back.
* `AppSupport.valid_of_parse`: what is read is valid.
-/

namespace Resonantia.AppSupport

open ByteString

/-! ### Messages -/

structure ProgressMessage where
  phase : Bytes
  unit : Bytes
  completed : UInt64 := 0
  total : UInt64 := 0
deriving DecidableEq

def isPhaseChar (c : UInt8) : Bool :=
  (97 ≤ c && c ≤ 122) || (48 ≤ c && c ≤ 57) || c = 45 || c = 95

/-- `valid_progress_phase`. -/
def validProgressPhase (phase : Bytes) : Bool :=
  phase.length ≤ 48 && phase.head?.any (fun c => 97 ≤ c && c ≤ 122) && phase.all isPhaseChar

def progressUnits : List Bytes :=
  [bytes "unknown", bytes "files", bytes "chunks", bytes "steps", bytes "samples16k",
    bytes "frames100hz"]

/-- `valid_progress_unit`. -/
def validProgressUnit (unit : Bytes) : Bool := progressUnits.contains unit

structure ProgressMessage.Valid (p : ProgressMessage) : Prop where
  phase : validProgressPhase p.phase = true
  unit : validProgressUnit p.unit = true
  bounded : p.completed ≤ p.total

instance (p : ProgressMessage) : Decidable p.Valid :=
  decidable_of_iff (validProgressPhase p.phase = true ∧ validProgressUnit p.unit = true ∧
    p.completed ≤ p.total) ⟨fun h => ⟨h.1, h.2.1, h.2.2⟩, fun h => ⟨h.phase, h.unit, h.bounded⟩⟩

/-! ### Writing -/

def progressMark : Bytes := bytes "RESONANTIA_PROGRESS"

/-- The words of a line. -/
def ProgressMessage.words (p : ProgressMessage) : List Bytes :=
  [progressMark, bytes "1", p.phase, Json.decimalText p.completed.toNat,
    Json.decimalText p.total.toNat, p.unit]

/-- A line, without its end. -/
def ProgressMessage.text (p : ProgressMessage) : Bytes := List.intercalate [32] p.words

/-- `write_progress_message`: the line that is put out. -/
def writeProgressMessage (p : ProgressMessage) : Except String Bytes :=
  if p.Valid then .ok p.text else .error "invalid operation progress"

/-! ### Reading -/

/-- The line up to each of the given number of spaces, and the rest, which has none. -/
def splitWords : ℕ → Bytes → Option (List Bytes)
  | 0, line => if line.contains 32 then none else some [line]
  | n + 1, line =>
    match line.span fun c => c ≠ 32 with
    | (_, []) => none
    | (word, _ :: rest) => (splitWords n rest).map fun words => word :: words

def progressNumber (word : Bytes) : Option UInt64 :=
  if word = [] ∨ word.length > 20 ∨ word.all Json.isDigit = false ∨ Json.decimal 0 word ≥ 2 ^ 64 then
    none
  else some (UInt64.ofNat (Json.decimal 0 word))

/-- The checks of the six words. -/
def ofWords : List Bytes → Option ProgressMessage
  | [mark, version, phase, completed, total, unit] =>
    if mark ≠ progressMark ∨ version ≠ bytes "1" ∨ validProgressPhase phase = false ∨
        validProgressUnit unit = false then none
    else
      match progressNumber completed, progressNumber total with
      | some completed, some total =>
        if completed > total then none else some { phase, unit, completed, total }
      | _, _ => none
  | _ => none

/-- `parse_progress_message`: an ordinary line is ignored. -/
def parseProgressMessage (line : Bytes) : Except String (Option ProgressMessage) :=
  if progressMark.isPrefixOf line = false then .ok none
  else if line.length > 192 ∨ (line.any fun c => c = 13 || c = 10 || c = 9) = true then
    .error "invalid structured operation progress"
  else
    match (splitWords 5 line).bind ofWords with
    | none => .error "invalid structured operation progress"
    | some p => .ok (some p)

/-! ### What is read -/

theorem ofWords_eq_some {words : List Bytes} {p : ProgressMessage} (h : ofWords words = some p) :
    p.Valid := by
  rw [ofWords.eq_def] at h
  split at h
  · split at h
    · cases h
    rename_i hchecks
    simp only [not_or, Bool.not_eq_false] at hchecks
    split at h
    · split at h
      · cases h
      · rename_i hle
        obtain rfl := Option.some.inj h
        exact ⟨hchecks.2.2.1, hchecks.2.2.2, UInt64.not_lt.1 hle⟩
    · cases h
  · cases h

/-- **What is read is valid.** -/
theorem valid_of_parse {line : Bytes} {p : ProgressMessage}
    (h : parseProgressMessage line = .ok (some p)) : p.Valid := by
  rw [parseProgressMessage] at h
  split at h
  · cases h
  split at h
  · cases h
  split at h
  · cases h
  · rename_i q hq
    obtain ⟨words, -, hwords⟩ := Option.bind_eq_some_iff.1 hq
    obtain rfl := Option.some.inj (Except.ok.inj h)
    exact ofWords_eq_some hwords

theorem ne_nil_of_valid {phase : Bytes} (h : validProgressPhase phase = true) : phase ≠ [] := by
  rintro rfl
  cases h

/-! ### Reading a written line -/

theorem splitWords_intercalate {word : Bytes} {words : List Bytes}
    (h : ∀ w ∈ word :: words, (32 : UInt8) ∉ w) :
    splitWords words.length (List.intercalate [32] (word :: words)) = some (word :: words) := by
  induction words generalizing word with
  | nil =>
    have hword : (32 : UInt8) ∉ word := h word List.mem_cons_self
    simp [splitWords, hword]
  | cons next words ih =>
    rw [List.forall_mem_cons] at h
    have hspan : (word ++ 32 :: List.intercalate [32] (next :: words)).span (fun c => c ≠ 32) =
        (word, 32 :: List.intercalate [32] (next :: words)) :=
      InputStream.span_append_follow (fun c hc => decide_eq_true fun heq => h.1 (heq ▸ hc))
        (by simp)
    rw [List.length_cons, splitWords, List.intercalate_cons_cons, List.append_assoc,
      List.singleton_append, hspan]
    dsimp only
    rw [ih h.2]
    rfl

theorem not_mem_of_isPhaseChar {phase : Bytes} (h : phase.all isPhaseChar = true) {c : UInt8}
    (hc : isPhaseChar c = false) : c ∉ phase := by
  intro hmem
  rw [List.all_eq_true] at h
  rw [h c hmem] at hc
  cases hc

theorem not_mem_decimalText {n : ℕ} {c : UInt8} (hc : Json.isDigit c = false) :
    c ∉ Json.decimalText n := by
  intro hmem
  rw [Json.isDigit_decimalText hmem] at hc
  cases hc

theorem progressNumber_decimalText (n : UInt64) :
    progressNumber (Json.decimalText n.toNat) = some n := by
  have hlt : n.toNat < 2 ^ 64 := n.toNat_lt
  have hlength : (Json.decimalText n.toNat).length ≤ 20 :=
    Json.length_decimalText_le (by decide) (Nat.lt_trans hlt (by decide))
  have hdigits : (Json.decimalText n.toNat).all Json.isDigit = true :=
    List.all_eq_true.2 fun c hc => Json.isDigit_decimalText hc
  rw [progressNumber, if_neg, Json.decimal_decimalText, UInt64.ofNat_toNat]
  rw [Json.decimal_decimalText]
  simp only [Json.decimalText_ne_nil, hdigits, not_or, false_or]
  refine ⟨Nat.not_lt.2 hlength, by decide, Nat.not_le.2 hlt⟩

variable {p : ProgressMessage}

/-- No word holds a space or the end of a line. -/
theorem not_mem_words (h : p.Valid) {c : UInt8}
    (hc : c = 32 ∨ c = 13 ∨ c = 10 ∨ c = 9) : ∀ word ∈ p.words, c ∉ word := by
  have hphase := (Bool.and_eq_true_iff.1 h.phase).2
  have hunit : ∀ unit ∈ progressUnits, c ∉ unit := by
    rcases hc with rfl | rfl | rfl | rfl <;> decide
  have hmark : c ∉ progressMark ∧ c ∉ bytes "1" := by
    rcases hc with rfl | rfl | rfl | rfl <;> decide
  have hchar : isPhaseChar c = false ∧ Json.isDigit c = false := by
    rcases hc with rfl | rfl | rfl | rfl <;> decide
  simp only [ProgressMessage.words, List.forall_mem_cons]
  exact ⟨hmark.1, hmark.2, not_mem_of_isPhaseChar hphase hchar.1, not_mem_decimalText hchar.2,
    not_mem_decimalText hchar.2, hunit _ (List.contains_iff_mem.1 h.unit), by simp⟩

theorem length_text_le (h : p.Valid) : p.text.length ≤ 192 := by
  have hphase : p.phase.length ≤ 48 := by
    have hvalid := h.phase
    rw [validProgressPhase, Bool.and_eq_true, Bool.and_eq_true, decide_eq_true_eq] at hvalid
    exact hvalid.1.1
  have hunit : p.unit.length ≤ 11 := by
    have hunits : ∀ unit ∈ progressUnits, unit.length ≤ 11 := by decide
    exact hunits _ (List.contains_iff_mem.1 h.unit)
  have hcounter : ∀ n : UInt64, (Json.decimalText n.toNat).length ≤ 20 := fun n =>
    Json.length_decimalText_le (by decide) (Nat.lt_trans n.toNat_lt (by decide))
  have hcompleted := hcounter p.completed
  have htotal := hcounter p.total
  have hmark : progressMark.length = 19 ∧ (bytes "1").length = 1 := by decide
  simp only [ProgressMessage.text, ProgressMessage.words, List.intercalate_cons_cons,
    List.intercalate_singleton, List.length_append, List.length_singleton]
  omega

theorem ofWords_words (h : p.Valid) : ofWords p.words = some p := by
  have hchecks : ¬(progressMark ≠ progressMark ∨ bytes "1" ≠ bytes "1" ∨
      validProgressPhase p.phase = false ∨ validProgressUnit p.unit = false) := by
    simp [h.phase, h.unit]
  rw [ProgressMessage.words, ofWords, if_neg hchecks, progressNumber_decimalText,
    progressNumber_decimalText]
  dsimp only
  rw [if_neg (UInt64.not_lt.2 h.bounded)]

/-- **A written line is read back.** -/
theorem parse_text (h : p.Valid) : parseProgressMessage p.text = .ok (some p) := by
  have hmark : progressMark.isPrefixOf p.text = true := by
    rw [List.isPrefixOf_iff_prefix, ProgressMessage.text, ProgressMessage.words,
      List.intercalate_cons_cons, List.append_assoc]
    exact List.prefix_append _ _
  have hfeed : ¬(p.text.any fun c => c = 13 || c = 10 || c = 9) = true := by
    rw [List.any_eq_true]
    rintro ⟨c, hc, hfeed⟩
    simp only [Bool.or_eq_true, decide_eq_true_eq, or_assoc] at hfeed
    have hwords := not_mem_words h (c := c) (Or.inr hfeed)
    have hspace : c ≠ 32 := by
      rcases hfeed with rfl | rfl | rfl <;> decide
    simp only [ProgressMessage.text, ProgressMessage.words, List.intercalate_cons_cons,
      List.intercalate_singleton, List.mem_append, List.mem_singleton] at hc
    simp only [ProgressMessage.words, List.forall_mem_cons] at hwords
    simp [hwords, hspace] at hc
  have hsplit : splitWords 5 p.text = some p.words :=
    splitWords_intercalate (not_mem_words h (Or.inl rfl))
  rw [parseProgressMessage, hmark, if_neg (by decide),
    if_neg (not_or.2 ⟨Nat.not_lt.2 (length_text_le h), hfeed⟩), hsplit, Option.bind_some,
    ofWords_words h]

end Resonantia.AppSupport
