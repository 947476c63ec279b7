import Mathlib.Tactic.SplitIfs
import Resonantia.Library.InputStream
import Resonantia.Web.TaskRecord

/-!
# The bytes of a stored record

The record file holds quoted texts, decimal counters and a counted list of parameters, with white
space in between. Here texts are any bytes, counters are 64-bit words, and `decode` reads what a
file may hold; `Web.TaskRecord` is the record behind it, once its texts are known to be valid.

## Main definitions

* `Web.StoredRecord`: a record as it is read from a file.
* `Web.StoredRecord.validate`, `Web.StoredRecord.encode`, `Web.StoredRecord.decode`.

## Main results

* `Web.StoredRecord.decode_encode`: a record is read back, and neither a part of its file nor a
  longer file is read as another one.
-/

namespace Resonantia.Web

open Std ByteString InputStream

/-- A record whose texts are any bytes. -/
structure StoredRecord where
  id : Bytes
  kind : Bytes
  name : Bytes
  state : Bytes := bytes "queued"
  stage : Bytes := bytes "queued"
  error : Bytes := []
  unit : Bytes := []
  result : Bytes := []
  phase : Bytes := []
  revision : UInt64 := 0
  attempt : UInt64 := 1
  createdMs : UInt64 := 0
  updatedMs : UInt64 := 0
  startedMs : UInt64 := 0
  finishedMs : UInt64 := 0
  progressAtMs : UInt64 := 0
  completed : UInt64 := 0
  total : UInt64 := 0
  parameters : ExtTreeMap Bytes Bytes := ∅

namespace StoredRecord

/-! ### Validation -/

/-- `TaskStore::valid_id`. -/
def validId (id : Bytes) : Bool :=
  8 ≤ id.length && id.length ≤ 96 && id.all fun c =>
    (97 ≤ c && c ≤ 122) || (65 ≤ c && c ≤ 90) || (48 ≤ c && c ≤ 57) || c = 95 || c = 45

def kinds : List Bytes := [bytes "convert", bytes "preprocess", bytes "training", bytes "step"]

def states : List Bytes :=
  [bytes "preparing", bytes "queued", bytes "running", bytes "pause_requested", bytes "paused",
    bytes "interrupted", bytes "succeeded", bytes "failed", bytes "cancelled"]

/-- The kinds of tasks with an audio result. -/
def audioKinds : List Bytes := [bytes "convert", bytes "preprocess"]

/-- A text of at most `limit` bytes without a NUL. -/
def boundedText (limit : ℕ) (text : Bytes) : Bool := text.length ≤ limit && !text.contains 0

/-- The shape of a digest text. -/
def digestText (text : Bytes) : Bool :=
  text.length = 64 && text.all fun c => (48 ≤ c && c ≤ 57) || (97 ≤ c && c ≤ 102)

/-- The check of one optional parameter. -/
def requireParameter (r : StoredRecord) (key : Bytes) (ok : Bytes → Bool) (message : String) :
    Except String Unit :=
  match r.parameters[key]? with
  | none => .ok ()
  | some value => require (ok value = true) message

/-- `validate`. -/
def validate (r : StoredRecord) : Except String Unit := do
  require (validId r.id = true) "invalid task ID"
  require (r.attempt > 0 ∧ r.attempt ≤ 2147483647) "invalid execution attempt"
  require (r.kind ∈ kinds) "invalid task kind"
  require (r.state ∈ states) "invalid task state"
  requireAll (fun value => boundedText 4096 value = true) "invalid task text"
    [r.name, r.stage, r.error, r.unit, r.result, r.phase]
  require (r.result = [] ∨ r.result = bytes "work/result.wav") "invalid task result path"
  require (r.total = 0 ∨ r.completed ≤ r.total) "invalid task progress"
  require (r.parameters.size ≤ 64) "too many task parameters"
  requireParameter r (bytes "retention")
    (fun value => value = bytes "pruned-v1" && r.state = bytes "succeeded")
    "invalid task retention state"
  requireParameter r (bytes "result_sha256")
    (fun value => audioKinds.contains r.kind && r.state = bytes "succeeded" && digestText value)
    "invalid completed audio digest"
  requireParameter r (bytes "source_task")
    (fun value => validId value && value ≠ r.id && audioKinds.contains r.kind) "invalid source task"
  requireAll
    (fun entry : Bytes × Bytes =>
      entry.1 ≠ [] ∧ boundedText 64 entry.1 = true ∧ boundedText 4096 entry.2 = true)
    "invalid task parameter" r.parameters.toList

theorem requireParameter_eq_ok {r : StoredRecord} {key : Bytes} {ok : Bytes → Bool}
    {message : String} :
    requireParameter r key ok message = .ok () ↔
      ∀ value, r.parameters[key]? = some value → ok value = true := by
  rw [requireParameter]
  cases h : r.parameters[key]? with
  | none => simp
  | some value => simp [require_eq_ok]

/-! ### Writing -/

/-- The quoted texts of a record, in stored order. -/
def texts (r : StoredRecord) : List Bytes :=
  [r.id, r.kind, r.name, r.state, r.stage, r.error, r.unit, r.result, r.phase]

/-- The counters of a record, in stored order. -/
def counters (r : StoredRecord) : List UInt64 :=
  [r.revision, r.createdMs, r.updatedMs, r.startedMs, r.finishedMs, r.progressAtMs, r.completed,
    r.total, r.attempt]

/-- A counter in decimal. -/
def counterText (n : UInt64) : Bytes := Json.decimalText n.toNat

/-- The bytes of a record. -/
def text (r : StoredRecord) : Bytes :=
  bytes "RESONANTIA_TASK 2\n" ++ (r.texts.flatMap fun value => InputStream.quoted value ++ [10]) ++
    List.intercalate [32] (r.counters.map counterText) ++ [10] ++
    Json.decimalText r.parameters.size ++ [10] ++
    r.parameters.toList.flatMap fun entry =>
      InputStream.quoted entry.1 ++ [32] ++ InputStream.quoted entry.2 ++ [10]

/-- `encode`. -/
def encode (r : StoredRecord) : Except String Bytes := do
  validate r
  require (r.text.length ≤ maxRecordBytes) "task record exceeds limit"
  return r.text

/-! ### Reading -/

/-- `number`: where nothing can be read, the token stays empty. -/
def readCounter (s : Bytes) : Except String (UInt64 × Bytes) :=
  let (token, rest) := (readToken s).getD ([], [])
  if token = [] ∨ token.length > 20 ∨ token.all Json.isDigit = false then
    .error "invalid task counter"
  else if Json.decimal 0 token ≥ 2 ^ 64 then .error "task counter overflow"
  else .ok (UInt64.ofNat (Json.decimal 0 token), rest)

def readCounters : ℕ → Bytes → Except String (List UInt64 × Bytes)
  | 0, s => .ok ([], s)
  | n + 1, s => do
    let (value, s) ← readCounter s
    let (values, s) ← readCounters n s
    return (value :: values, s)

/-- The loop over the parameters. -/
def readParameters : ℕ → Bytes → ExtTreeMap Bytes Bytes →
    Except String (ExtTreeMap Bytes Bytes × Bytes)
  | 0, s, parameters => .ok (parameters, s)
  | n + 1, s, parameters =>
    match readPair readQuoted readQuoted s with
    | none => .error "malformed task parameters"
    | some ((key, value), s) =>
      if parameters.contains key then .error "malformed task parameters"
      else readParameters n s (parameters.insert key value)

/-- `std::getline`. -/
def getLine (s : Bytes) : Bytes × Bytes :=
  let (line, rest) := s.span fun c => c ≠ 10
  (line, rest.drop 1)

/-- The fields of a record as they were read; version 1 has no attempts. -/
def ofFields (values : List Bytes) (numbers : List UInt64) (parameters : ExtTreeMap Bytes Bytes) :
    Option StoredRecord :=
  match values, numbers with
  | [id, kind, name, state, stage, error, unit, result, phase],
      revision :: createdMs :: updatedMs :: startedMs :: finishedMs :: progressAtMs :: completed ::
        total :: attempt =>
    some
      { id, kind, name, state, stage, error, unit, result, phase, revision, createdMs, updatedMs
        startedMs, finishedMs, progressAtMs, completed, total, parameters
        attempt := attempt.headD 1 }
  | _, _ => none

/-- The lines behind the header. A text that cannot be read leaves the stream unusable, so that the
first counter fails. -/
def readFields (attempts : Bool) (s : Bytes) : Except String StoredRecord := do
  let (values, s) ← (readList readQuoted 9 s).elim (.error "invalid task counter") .ok
  let (numbers, s) ← readCounters (if attempts then 9 else 8) s
  let (count, s) ← readCounter s
  require (numbers.headD 0 ≠ 0 ∧ count ≤ 64) "malformed task record"
  let (parameters, s) ← readParameters count.toNat s ∅
  require (skipWs s = []) "trailing task record bytes"
  match ofFields values numbers parameters with
  | none => .error "malformed task record"
  | some r => do
    validate r
    return r

/-- `decode`. -/
def decode (s : Bytes) : Except String StoredRecord := do
  let (header, s) := getLine s
  require (header = bytes "RESONANTIA_TASK 1" ∨ header = bytes "RESONANTIA_TASK 2")
    "unsupported task record version"
  readFields (header = bytes "RESONANTIA_TASK 2") s

/-! ### The stored text in pieces -/

/-- The texts with the white space in front of them; the first one follows the header line. -/
def textItems (r : StoredRecord) : List (Bytes × Bytes) :=
  (InputStream.quoted r.id, r.id) :: r.texts.tail.map fun value =>
    ([10] ++ InputStream.quoted value, value)

/-- The counters with the white space in front of them. -/
def counterItems (r : StoredRecord) : List (Bytes × UInt64) :=
  ([10] ++ counterText r.revision, r.revision) :: r.counters.tail.map fun value =>
    ([32] ++ counterText value, value)

/-- The number of parameters behind the line of counters. -/
def countText (r : StoredRecord) : Bytes := [10] ++ Json.decimalText r.parameters.size

/-- The parameters with the white space in front of them. -/
def parameterItems (r : StoredRecord) : List (Bytes × (Bytes × Bytes)) :=
  r.parameters.toList.map fun entry =>
    (([10] ++ InputStream.quoted entry.1) ++ ([32] ++ InputStream.quoted entry.2), entry)

/-- A line feed behind every piece, or in front of every piece and one at the end. -/
theorem flatMap_lines {α : Type} (f : α → Bytes) (l : List α) (rest : Bytes) :
    [10] ++ ((l.flatMap fun a => f a ++ [10]) ++ rest) =
      (l.flatMap fun a => [10] ++ f a) ++ ([10] ++ rest) := by
  induction l generalizing rest with
  | nil => rfl
  | cons a l ih =>
    rw [List.flatMap_cons, List.flatMap_cons]
    simp only [List.append_assoc]
    rw [ih]

theorem intercalate_eq (c : UInt64) (l : List UInt64) :
    List.intercalate [32] ((c :: l).map counterText) =
      counterText c ++ l.flatMap fun c => [32] ++ counterText c := by
  induction l generalizing c with
  | nil => simp [List.intercalate]
  | cons d l ih =>
    have hcons : List.intercalate [32] ((c :: d :: l).map counterText) =
        counterText c ++ ([32] ++ List.intercalate [32] ((d :: l).map counterText)) := by
      simp [List.intercalate]
    rw [hcons, ih, List.flatMap_cons, List.append_assoc]

theorem joined_map {α β : Type} (f : α → Bytes) (g : α → β) (l : List α) :
    joined (l.map fun a => (f a, g a)) = l.flatMap f := by
  rw [joined, List.flatMap_map]

/-- The pieces of a stored text. -/
theorem text_eq (r : StoredRecord) :
    r.text = bytes "RESONANTIA_TASK 2\n" ++ (joined r.textItems ++ (joined r.counterItems ++
      (r.countText ++ (joined r.parameterItems ++ [10])))) := by
  have hlines : ∀ rest, (r.texts.flatMap fun value => InputStream.quoted value ++ [10]) ++ rest =
      joined r.textItems ++ ([10] ++ rest) := by
    intro rest
    rw [textItems, joined_cons, joined_map, List.append_assoc,
      ← flatMap_lines InputStream.quoted r.texts.tail rest]
    simp only [texts, List.tail_cons, List.flatMap_cons, List.append_assoc]
  have hparameters := flatMap_lines
    (fun entry : Bytes × Bytes =>
      InputStream.quoted entry.1 ++ [32] ++ InputStream.quoted entry.2) r.parameters.toList []
  have hcounters : [10] ++ List.intercalate [32] (r.counters.map counterText) =
      joined r.counterItems := by
    rw [counterItems, joined_cons, joined_map, List.append_assoc, counters, intercalate_eq]
    rfl
  have hentries : joined r.parameterItems = r.parameters.toList.flatMap fun entry =>
      [10] ++ (InputStream.quoted entry.1 ++ [32] ++ InputStream.quoted entry.2) := by
    rw [parameterItems, joined_map]
    simp only [List.append_assoc]
  rw [hentries, countText, text]
  rw [List.append_nil, List.append_nil] at hparameters
  calc _ = bytes "RESONANTIA_TASK 2\n" ++
        ((r.texts.flatMap fun value => InputStream.quoted value ++ [10]) ++
          (List.intercalate [32] (r.counters.map counterText) ++ ([10] ++
            (Json.decimalText r.parameters.size ++ ([10] ++
              r.parameters.toList.flatMap fun entry =>
                InputStream.quoted entry.1 ++ [32] ++ InputStream.quoted entry.2 ++ [10]))))) := by
        simp only [List.append_assoc]
    _ = _ := by
        rw [hlines, hparameters, ← hcounters]
        simp only [List.append_assoc]

/-! ### Reading the pieces -/

/-- What a record is read from. -/
theorem readFields_eq_ok {attempts : Bool} {s : Bytes} {r : StoredRecord} :
    readFields attempts s = .ok r ↔
      ∃ values s₁ numbers s₂ count s₃ parameters s₄,
        readList readQuoted 9 s = some (values, s₁) ∧
        readCounters (if attempts then 9 else 8) s₁ = .ok (numbers, s₂) ∧
        readCounter s₂ = .ok (count, s₃) ∧ (numbers.headD 0 ≠ 0 ∧ count ≤ 64) ∧
        readParameters count.toNat s₃ ∅ = .ok (parameters, s₄) ∧ skipWs s₄ = [] ∧
        ofFields values numbers parameters = some r ∧ validate r = .ok () := by
  have helim : ∀ {o : Option (List Bytes × Bytes)} {v : List Bytes × Bytes},
      o.elim (Except.error "invalid task counter") Except.ok = .ok v ↔ o = some v := by
    intro o v
    cases o <;> simp
  have hfields : ∀ {o : Option StoredRecord},
      (match o with
        | none => Except.error "malformed task record"
        | some r => do
          validate r
          return r) = .ok r ↔ o = some r ∧ validate r = .ok () := by
    intro o
    cases o with
    | none => simp
    | some r' =>
      simp only [bind_eq_ok_iff_exists, pure, Except.pure, Except.ok.injEq, Option.some.injEq]
      constructor
      · rintro ⟨_, h, rfl⟩
        exact ⟨rfl, h⟩
      · rintro ⟨rfl, h⟩
        exact ⟨(), h, rfl⟩
  simp only [readFields, bind_eq_ok_iff_exists, Prod.exists, helim, hfields, require_eq_ok]
  constructor
  · rintro ⟨values, s₁, h₁, numbers, s₂, h₂, count, s₃, h₃, -, h₄, parameters, s₄, h₅, -, h₆, h₇⟩
    exact ⟨values, s₁, numbers, s₂, count, s₃, parameters, s₄, h₁, h₂, h₃, h₄, h₅, h₆, h₇⟩
  · rintro ⟨values, s₁, numbers, s₂, count, s₃, parameters, s₄, h₁, h₂, h₃, h₄, h₅, h₆, h₇⟩
    exact ⟨values, s₁, h₁, numbers, s₂, h₂, count, s₃, h₃, (), h₄, parameters, s₄, h₅, (), h₆, h₇⟩

/-- The length of a stored text. -/
theorem length_text (r : StoredRecord) :
    r.text.length =
      18 + (r.texts.map fun value => (InputStream.quoted value).length + 1).sum +
        (r.counters.map fun n => (counterText n).length + 1).sum +
        ((Json.decimalText r.parameters.size).length + 1) +
        (r.parameters.toList.map fun entry =>
          (InputStream.quoted entry.1).length + (InputStream.quoted entry.2).length + 2).sum := by
  have hheader : (bytes "RESONANTIA_TASK 2\n").length = 18 := by decide
  have hcounters : (List.intercalate [32] (r.counters.map counterText)).length + 1 =
      (r.counters.map fun n => (counterText n).length + 1).sum := by
    rw [counters, intercalate_eq, List.length_append, List.length_flatMap]
    simp only [List.length_append, List.length_singleton, List.map_cons, List.sum_cons,
      List.map_nil, List.sum_nil]
    omega
  have hentry : ∀ entry : Bytes × Bytes,
      (InputStream.quoted entry.1).length + 1 + (InputStream.quoted entry.2).length + 1 =
        (InputStream.quoted entry.1).length + (InputStream.quoted entry.2).length + 2 := by
    intro entry
    omega
  rw [← hcounters, text]
  simp only [List.length_append, List.length_flatMap, hheader, List.length_singleton, hentry]
  omega

/-! ### Counters -/

/-- The first digits of a number are not zero. -/
theorem decimal_cut_ne_zero {n : ℕ} {p : Bytes} (hp : p <+: Json.decimalText n)
    (hne : p ≠ Json.decimalText n) (hnil : p ≠ []) : Json.decimal 0 p ≠ 0 := by
  obtain ⟨c, q, rfl⟩ := List.exists_cons_of_ne_nil hnil
  intro hzero
  have hle := Json.le_decimal (0 * 10 + (c.toNat - 48)) q
  rw [← Json.decimal_cons, hzero] at hle
  have hdigit := Json.isDigit_decimalText (hp.subset List.mem_cons_self)
  simp only [Json.isDigit, Bool.and_eq_true, decide_eq_true_eq, UInt8.le_iff_toNat_le] at hdigit
  have hlow : 48 ≤ c.toNat := hdigit.1
  have hc : c = 48 := UInt8.toNat_inj.1 (show c.toNat = 48 by omega)
  obtain ⟨rest, hrest⟩ := hp
  have hn : n = 0 := Json.head_decimalText (by rw [← hrest, hc]; rfl)
  rw [hn] at hrest hne
  have hlength := congrArg List.length hrest
  rw [show (Json.decimalText 0).length = 1 from rfl, List.length_append, List.length_cons] at hlength
  rw [List.length_eq_zero_iff.1 (show rest.length = 0 by omega), List.append_nil] at hrest
  exact hne hrest

/-- A counter that was read is a token before it. -/
theorem readCounter_eq_ok {s rest : Bytes} {n : UInt64} (h : readCounter s = .ok (n, rest)) :
    ∃ token, readToken s = some (token, rest) ∧ token ≠ [] ∧ n.toNat = Json.decimal 0 token := by
  rw [readCounter] at h
  cases htoken : readToken s with
  | none =>
    rw [htoken] at h
    cases h
  | some v =>
    obtain ⟨token, rest'⟩ := v
    rw [htoken, Option.getD_some] at h
    dsimp only at h
    split_ifs at h with hshape hover
    obtain ⟨rfl, rfl⟩ := Prod.mk.inj (Except.ok.inj h)
    refine ⟨token, rfl, fun hnil => hshape (Or.inl hnil), ?_⟩
    rw [UInt64.toNat_ofNat_of_lt' (by rw [UInt64.size]; omega)]

theorem readCounter_token {s rest : Bytes} {n : UInt64}
    (h : readToken s = some (counterText n, rest)) : readCounter s = .ok (n, rest) := by
  have hdecimal : Json.decimal 0 (counterText n) = n.toNat := Json.decimal_decimalText n.toNat
  have hlt : n.toNat < 2 ^ 64 := n.toNat_lt
  rw [readCounter, h, Option.getD_some]
  dsimp only
  rw [if_neg, if_neg, hdecimal, UInt64.ofNat_toNat]
  · rw [hdecimal]
    omega
  · rintro (hnil | hlength | hdigits)
    · exact Json.decimalText_ne_nil _ hnil
    · have hle := Json.length_decimalText_le (n := n.toNat) (k := 20) (by decide) (by omega)
      rw [counterText] at hlength
      omega
    · have hall : (counterText n).all Json.isDigit = true :=
        List.all_eq_true.2 fun c hc => Json.isDigit_decimalText hc
      rw [hall] at hdigits
      cases hdigits

/-- A counter, or nothing. -/
def counter? (s : Bytes) : Option (UInt64 × Bytes) := (readCounter s).toOption

theorem counter?_eq_some {s : Bytes} {v : UInt64 × Bytes} :
    counter? s = some v ↔ readCounter s = .ok v := by
  rw [counter?]
  cases readCounter s with
  | error e => simp [Except.toOption]
  | ok v' => simp [Except.toOption]

theorem reads_counterText {w : Bytes} (hw : ∀ c ∈ w, isSpace c = true) (n : UInt64) :
    InputStream.Reads counter? (w ++ counterText n) n := by
  have htoken : InputStream.Reads readToken (w ++ counterText n) (counterText n) :=
    reads_token hw (Json.decimalText_ne_nil n.toNat)
      fun c hc => isSpace_of_isDigit (Json.isDigit_decimalText hc)
  refine ⟨fun rest hrest => ?_, fun p hp hne => ?_⟩
  · exact counter?_eq_some.2 (readCounter_token (htoken.whole rest hrest))
  · cases hread : counter? p with
    | none => exact Or.inl rfl
    | some v =>
      obtain ⟨n', rest⟩ := v
      obtain ⟨token, hp', -⟩ := readCounter_eq_ok (counter?_eq_some.1 hread)
      rcases htoken.cut p hp hne with hnone | ⟨token', hsome⟩
      · rw [hp'] at hnone
        cases hnone
      · rw [hp'] at hsome
        obtain ⟨-, rfl⟩ := Prod.mk.inj (Option.some.inj hsome)
        exact Or.inr ⟨n', rfl⟩

theorem readCounters_eq_ok_iff {n : ℕ} {s : Bytes} {v : List UInt64 × Bytes} :
    readCounters n s = .ok v ↔ readList counter? n s = some v := by
  induction n generalizing s v with
  | zero => simp [readCounters, readList]
  | succ n ih =>
    simp only [readCounters, readList, bind_eq_ok_iff_exists, Option.bind_eq_some_iff,
      Option.map_eq_some_iff, counter?_eq_some, ih, pure, Except.pure, Except.ok.injEq]

/-! ### Parameters -/

/-- Parameters with new keys are added one by one. -/
theorem readParameters_of_list {n : ℕ} {s rest : Bytes} {entries : List (Bytes × Bytes)}
    {m : ExtTreeMap Bytes Bytes} (hread : readList (readPair readQuoted readQuoted) n s =
      some (entries, rest)) (hdistinct : entries.Pairwise fun a b => a.1 ≠ b.1)
    (hnew : ∀ entry ∈ entries, entry.1 ∉ m) :
    readParameters n s m = .ok (m.insertMany entries, rest) := by
  induction n generalizing s entries m with
  | zero =>
    obtain ⟨rfl, rfl⟩ := Prod.mk.inj (Option.some.inj hread)
    rw [readParameters, ExtTreeMap.insertMany_nil]
  | succ n ih =>
    rw [readList, Option.bind_eq_some_iff] at hread
    obtain ⟨⟨⟨key, value⟩, s'⟩, hfirst, hread⟩ := hread
    rw [Option.map_eq_some_iff] at hread
    obtain ⟨⟨entries', rest'⟩, hrest, hread⟩ := hread
    obtain ⟨rfl, rfl⟩ := Prod.mk.inj hread
    rw [List.pairwise_cons] at hdistinct
    have hcontains : m.contains key = false := by
      rw [Bool.eq_false_iff, Ne, ExtTreeMap.contains_iff_mem]
      exact hnew (key, value) List.mem_cons_self
    rw [readParameters, hfirst]
    dsimp only
    rw [hcontains, if_neg Bool.false_ne_true, ExtTreeMap.insertMany_cons]
    refine ih hrest hdistinct.2 fun entry hentry => ?_
    rw [ExtTreeMap.mem_insert, Std.compare_eq_iff_eq]
    rintro (heq | hmem)
    · exact hdistinct.1 entry hentry heq
    · exact hnew entry (List.mem_cons_of_mem _ hentry) hmem

theorem readList_of_readParameters {n : ℕ} {s rest : Bytes} {m m' : ExtTreeMap Bytes Bytes}
    (h : readParameters n s m = .ok (m', rest)) :
    ∃ entries, readList (readPair readQuoted readQuoted) n s = some (entries, rest) := by
  induction n generalizing s m with
  | zero =>
    obtain ⟨-, rfl⟩ := Prod.mk.inj (Except.ok.inj h)
    exact ⟨[], rfl⟩
  | succ n ih =>
    rw [readParameters] at h
    split at h
    · cases h
    · rename_i key value s' hfirst
      split_ifs at h
      obtain ⟨entries, hrest⟩ := ih h
      exact ⟨(key, value) :: entries, by rw [readList, hfirst, Option.bind_some, hrest]; rfl⟩

/-- A map is the list of its entries. -/
theorem insertMany_toList (m : ExtTreeMap Bytes Bytes) :
    (∅ : ExtTreeMap Bytes Bytes).insertMany m.toList = m := by
  have hdistinct : m.toList.Pairwise fun a b => ¬compare a.1 b.1 = .eq :=
    ExtTreeMap.distinct_keys_toList
  refine ExtTreeMap.ext_getElem? fun key => ?_
  cases hget : m[key]? with
  | some value =>
    exact ExtTreeMap.getElem?_insertMany_list_of_mem Std.ReflCmp.compare_self hdistinct
      (ExtTreeMap.mem_toList_iff_getElem?_eq_some.2 hget)
  | none =>
    rw [ExtTreeMap.getElem?_insertMany_list_of_contains_eq_false]
    · rfl
    · rw [List.contains_eq_mem, decide_eq_false_iff_not, List.mem_map]
      rintro ⟨entry, hentry, rfl⟩
      rw [ExtTreeMap.mem_toList_iff_getElem?_eq_some.1 hentry] at hget
      cases hget

/-! ### A stored record is read back -/

theorem decode_header (s : Bytes) :
    decode (bytes "RESONANTIA_TASK 2\n" ++ s) = readFields true s := by
  have hline : getLine (bytes "RESONANTIA_TASK 2\n" ++ s) = (bytes "RESONANTIA_TASK 2", s) := rfl
  rw [decode, hline]
  rfl

/-- A part of the header is not a record. -/
theorem decode_header_cut {p : Bytes} (hp : p <+: bytes "RESONANTIA_TASK 2\n") (r : StoredRecord) :
    decode p ≠ .ok r := by
  have hline : ∀ p ∈ (bytes "RESONANTIA_TASK 2\n").inits, (getLine p).2 = [] := by decide
  intro h
  simp only [decode, hline p ((List.mem_inits _ _).2 hp), bind_eq_ok_iff_exists] at h
  obtain ⟨-, -, h⟩ := h
  obtain ⟨values, s₁, numbers, s₂, count, s₃, parameters, s₄, hread, -⟩ := readFields_eq_ok.1 h
  cases hread

theorem needs_textItems (r : StoredRecord) :
    ∀ item ∈ r.textItems, Needs readQuoted item.1 item.2 := by
  intro item hitem
  rw [textItems, List.mem_cons, List.mem_map] at hitem
  rcases hitem with rfl | ⟨value, -, rfl⟩
  · exact needs_quoted (w := []) (by simp) r.id
  · exact needs_quoted space_feed value

theorem reads_counterItems (r : StoredRecord) :
    ∀ item ∈ r.counterItems, InputStream.Reads counter? item.1 item.2 := by
  intro item hitem
  rw [counterItems, List.mem_cons, List.mem_map] at hitem
  rcases hitem with rfl | ⟨value, -, rfl⟩
  · exact reads_counterText space_feed r.revision
  · exact reads_counterText space_blank value

theorem follow_counterItems (r : StoredRecord) : ∀ item ∈ r.counterItems, Follow item.1 := by
  intro item hitem
  rw [counterItems, List.mem_cons, List.mem_map] at hitem
  rcases hitem with rfl | ⟨value, -, rfl⟩
  · exact follow_feed _
  · exact follow_cons (by decide) _

theorem needs_parameterItems (r : StoredRecord) :
    ∀ item ∈ r.parameterItems, Needs (readPair readQuoted readQuoted) item.1 item.2 := by
  intro item hitem
  rw [parameterItems, List.mem_map] at hitem
  obtain ⟨entry, -, rfl⟩ := hitem
  exact (needs_quoted space_feed entry.1).pair rfl (needs_quoted space_blank entry.2)

theorem follow_parameterItems (r : StoredRecord) : ∀ item ∈ r.parameterItems, Follow item.1 := by
  intro item hitem
  rw [parameterItems, List.mem_map] at hitem
  obtain ⟨entry, -, rfl⟩ := hitem
  exact follow_feed _

theorem map_textItems (r : StoredRecord) : r.textItems.map Prod.snd = r.texts := by
  simp [textItems, texts]

theorem map_counterItems (r : StoredRecord) : r.counterItems.map Prod.snd = r.counters := by
  simp [counterItems, counters]

theorem map_parameterItems (r : StoredRecord) :
    r.parameterItems.map Prod.snd = r.parameters.toList := by
  rw [parameterItems, List.map_map]
  exact List.map_id _

/-- Behind the counters stand the number of parameters, the parameters and what follows. -/
theorem readFields_counters {r : StoredRecord} {s : Bytes} (hs : Follow s) {r' : StoredRecord}
    (h : readFields true (joined r.textItems ++ (joined r.counterItems ++ s)) = .ok r') :
    ∃ count s₃ parameters s₄, readCounter s = .ok (count, s₃) ∧ count ≤ 64 ∧
      readParameters count.toNat s₃ ∅ = .ok (parameters, s₄) ∧ skipWs s₄ = [] ∧
      r' = { r with parameters } := by
  obtain ⟨values, s₁, numbers, s₂, count, s₃, parameters, s₄, h₁, h₂, h₃, h₄, h₅, h₆, h₇, -⟩ :=
    readFields_eq_ok.1 h
  have htexts := Needs.list (needs_textItems r) (joined r.counterItems ++ s)
  have hcounters := Reads.list (reads_counterItems r)
    (fun item hitem => follow_counterItems r item (List.mem_of_mem_tail hitem)) hs
  rw [map_textItems, show r.textItems.length = 9 from rfl, h₁] at htexts
  obtain ⟨rfl, rfl⟩ := Prod.mk.inj (Option.some.inj htexts)
  rw [map_counterItems, show r.counterItems.length = 9 from rfl] at hcounters
  rw [if_pos rfl, readCounters_eq_ok_iff, hcounters] at h₂
  obtain ⟨rfl, rfl⟩ := Prod.mk.inj (Option.some.inj h₂)
  exact ⟨count, s₃, parameters, s₄, h₃, h₄.2, h₅, h₆, (Option.some.inj h₇).symm⟩

/-- The number of parameters as it is read. -/
def count (r : StoredRecord) : UInt64 := UInt64.ofNat r.parameters.size

section Complete

variable {r : StoredRecord} (hvalid : validate r = .ok ())
include hvalid

theorem size_le : r.parameters.size ≤ 64 := by
  simp only [validate, bind_eq_ok_iff, require_eq_ok] at hvalid
  obtain ⟨-, -, -, -, -, -, -, hsize, -⟩ := hvalid
  exact hsize

theorem toNat_count : r.count.toNat = r.parameters.size := by
  have hsize := size_le hvalid
  exact UInt64.toNat_ofNat_of_lt' (by rw [UInt64.size]; omega)

theorem length_parameterItems : r.parameterItems.length = r.count.toNat := by
  rw [toNat_count hvalid, parameterItems, List.length_map, ExtTreeMap.length_toList]

theorem countText_eq : r.countText = [10] ++ counterText r.count := by
  rw [countText, counterText, toNat_count hvalid]

/-- The parameters are read back. -/
theorem readParameters_items (rest : Bytes) :
    readParameters r.count.toNat (joined r.parameterItems ++ rest) ∅ =
      .ok (r.parameters, rest) := by
  have hread := Needs.list (needs_parameterItems r) rest
  rw [map_parameterItems, length_parameterItems hvalid] at hread
  rw [readParameters_of_list hread, insertMany_toList]
  · exact ExtTreeMap.distinct_keys_toList.imp fun h heq => h (Std.compare_eq_iff_eq.2 heq)
  · intro entry _
    exact ExtTreeMap.not_mem_empty

/-- **A record is read back** when it is complete and nothing but white space follows. -/
theorem readFields_items (hrevision : r.revision ≠ 0) {rest : Bytes} (hrest : Follow rest)
    (hspace : skipWs rest = []) :
    readFields true (joined r.textItems ++ (joined r.counterItems ++
      (r.countText ++ (joined r.parameterItems ++ rest)))) = .ok r := by
  have htexts := Needs.list (needs_textItems r)
    (joined r.counterItems ++ (r.countText ++ (joined r.parameterItems ++ rest)))
  have hfollow := follow_joined (follow_parameterItems r) hrest
  have htail : Follow (r.countText ++ (joined r.parameterItems ++ rest)) := by
    rw [countText, List.append_assoc]
    exact follow_feed _
  have hcounters := Reads.list (reads_counterItems r)
    (fun item hitem => follow_counterItems r item (List.mem_of_mem_tail hitem)) htail
  have hcount := (reads_counterText space_feed r.count).whole _ hfollow
  rw [map_textItems] at htexts
  rw [map_counterItems] at hcounters
  rw [← countText_eq hvalid] at hcount
  refine readFields_eq_ok.2 ⟨r.texts, _, r.counters, _, r.count, _, r.parameters, rest, htexts,
    readCounters_eq_ok_iff.2 hcounters, counter?_eq_some.1 hcount, ⟨hrevision, ?_⟩,
    readParameters_items hvalid rest, hspace, rfl, hvalid⟩
  rw [UInt64.le_iff_toNat_le, toNat_count hvalid]
  exact size_le hvalid

/-- A number of parameters that was cut off is not zero. -/
theorem readCounter_countText_cut {p s : Bytes} {n : UInt64} (hp : p <+: r.countText)
    (hne : p ≠ r.countText) (h : readCounter p = .ok (n, s)) : s = [] ∧ n.toNat ≠ 0 := by
  rw [countText_eq hvalid] at hp hne
  constructor
  · rcases (reads_counterText space_feed r.count).cut p hp hne with hnone | ⟨n', hsome⟩
    · rw [counter?_eq_some.2 h] at hnone
      cases hnone
    · rw [counter?_eq_some.2 h] at hsome
      exact (Prod.mk.inj (Option.some.inj hsome)).2
  · obtain ⟨token, htoken, hnil, hvalue⟩ := readCounter_eq_ok h
    rcases cut_cases hp hne with hp | ⟨p', hp', hne', rfl⟩
    · rcases List.prefix_cons_iff.1 hp with rfl | ⟨q, rfl, hq⟩
      · cases htoken
      · obtain rfl := List.prefix_nil.1 hq
        cases htoken
    · have hdigits : ∀ c ∈ p', Json.isDigit c = true := fun c hc =>
        Json.isDigit_decimalText (hp'.subset hc)
      have hp'nil : p' ≠ [] := by
        rintro rfl
        cases htoken
      have hread := readToken_append hp'nil (fun c hc => isSpace_of_isDigit (hdigits c hc)) follow_nil
      rw [readToken_ws space_feed] at htoken
      rw [List.append_nil, htoken] at hread
      obtain ⟨rfl, -⟩ := Prod.mk.inj (Option.some.inj hread)
      rw [hvalue]
      exact decimal_cut_ne_zero hp' hne' hnil

end Complete

theorem fails_of_ne_ok {α : Type} {x : Except String α} (h : ∀ a, x ≠ .ok a) :
    ∃ e, x = .error e := by
  cases x with
  | error e => exact ⟨e, rfl⟩
  | ok a => exact absurd rfl (h a)

/-- What is read from the pieces of a record is the record, and only white space follows. -/
theorem eq_of_readFields_items {r r' : StoredRecord} (hvalid : validate r = .ok ()) {rest : Bytes}
    (hrest : Follow rest)
    (h : readFields true (joined r.textItems ++ (joined r.counterItems ++
      (r.countText ++ (joined r.parameterItems ++ rest)))) = .ok r') :
    r' = r ∧ skipWs rest = [] := by
  obtain ⟨count, s₃, parameters, s₄, h₃, -, h₅, h₆, rfl⟩ :=
    readFields_counters (by rw [countText, List.append_assoc]; exact follow_feed _) h
  have hcount := (reads_counterText space_feed r.count).whole _
    (follow_joined (follow_parameterItems r) hrest)
  rw [← countText_eq hvalid, counter?_eq_some, h₃] at hcount
  obtain ⟨rfl, rfl⟩ := Prod.mk.inj (Except.ok.inj hcount)
  rw [readParameters_items hvalid] at h₅
  obtain ⟨rfl, rfl⟩ := Prod.mk.inj (Except.ok.inj h₅)
  exact ⟨rfl, h₆⟩

/-- A part of the pieces of a record is not another record. -/
theorem eq_of_readFields_cut {r r' : StoredRecord} (hvalid : validate r = .ok ()) {p : Bytes}
    (hp : p <+: joined r.textItems ++ (joined r.counterItems ++
      (r.countText ++ (joined r.parameterItems ++ [10]))))
    (h : readFields true p = .ok r') : r' = r := by
  rcases part_cases hp with ⟨hcut, hne⟩ | ⟨p₁, rfl, hp₁⟩
  · obtain ⟨values, s₁, numbers, s₂, count, s₃, parameters, s₄, h₁, -⟩ := readFields_eq_ok.1 h
    have hnone := Needs.list_cut readQuoted_nil (needs_textItems r) hcut hne
    rw [show r.textItems.length = 9 from rfl, h₁] at hnone
    cases hnone
  rcases part_cases hp₁ with ⟨hcut, hne⟩ | ⟨p₂, rfl, hp₂⟩
  · obtain ⟨values, s₁, numbers, s₂, count, s₃, parameters, s₄, h₁, h₂, h₃, -⟩ :=
      readFields_eq_ok.1 h
    have htexts := Needs.list (needs_textItems r) p₁
    rw [show r.textItems.length = 9 from rfl, h₁] at htexts
    obtain ⟨-, rfl⟩ := Prod.mk.inj (Option.some.inj htexts)
    rw [if_pos rfl, readCounters_eq_ok_iff] at h₂
    have hcases := Reads.list_cut rfl (reads_counterItems r)
      (fun item hitem => follow_counterItems r item (List.mem_of_mem_tail hitem)) hcut hne
    rw [show r.counterItems.length = 9 from rfl, h₂] at hcases
    rcases hcases with hnone | ⟨vs, hsome⟩
    · cases hnone
    · obtain ⟨-, rfl⟩ := Prod.mk.inj (Option.some.inj hsome)
      cases h₃
  have hfollow : Follow p₂ := by
    have hwhole : Follow (r.countText ++ (joined r.parameterItems ++ [10])) := by
      rw [countText, List.append_assoc]
      exact follow_feed _
    exact hwhole.mono hp₂
  obtain ⟨count, s₃, parameters, s₄, h₃, -, h₅, -, hr'⟩ := readFields_counters hfollow h
  obtain ⟨entries, hread⟩ := readList_of_readParameters h₅
  rcases part_cases hp₂ with ⟨hcut, hne⟩ | ⟨p₃, rfl, hp₃⟩
  · obtain ⟨rfl, hcount⟩ := readCounter_countText_cut hvalid hcut hne h₃
    obtain ⟨k, hk⟩ := Nat.exists_eq_succ_of_ne_zero hcount
    rw [hk] at hread
    cases hread
  have hfollow₃ : Follow p₃ :=
    (follow_joined (follow_parameterItems r) (follow_feed [])).mono hp₃
  have hcount := (reads_counterText space_feed r.count).whole p₃ hfollow₃
  rw [← countText_eq hvalid, counter?_eq_some, h₃] at hcount
  obtain ⟨rfl, rfl⟩ := Prod.mk.inj (Except.ok.inj hcount)
  rcases part_cases hp₃ with ⟨hcut, hne⟩ | ⟨p₄, rfl, -⟩
  · have hnone := Needs.list_cut rfl (needs_parameterItems r) hcut hne
    rw [length_parameterItems hvalid, hread] at hnone
    cases hnone
  · rw [readParameters_items hvalid] at h₅
    obtain ⟨rfl, -⟩ := Prod.mk.inj (Except.ok.inj h₅)
    exact hr'

theorem encode_eq_ok {r : StoredRecord} {text : Bytes} :
    encode r = .ok text ↔ validate r = .ok () ∧ r.text.length ≤ maxRecordBytes ∧ r.text = text := by
  simp only [encode, bind_eq_ok_iff, require_eq_ok, pure, Except.pure, Except.ok.injEq]

/-- A stored text is read as its record. -/
theorem decode_text {r : StoredRecord} (hvalid : validate r = .ok ()) (hrevision : r.revision ≠ 0) :
    decode r.text = .ok r := by
  rw [text_eq, decode_header]
  exact readFields_items hvalid hrevision (follow_feed []) rfl

/-- **The record file.** A valid record that fits is read back in every field. A part of its file is
not read, or read as the same record. A longer file is not read unless only white space was added. -/
theorem decode_encode {r : StoredRecord} {text : Bytes} (h : encode r = .ok text)
    (hrevision : r.revision ≠ 0) :
    decode text = .ok r ∧
      (∀ p, p <+: text → p ≠ text → (∃ e, decode p = .error e) ∨ decode p = .ok r) ∧
      ∀ t, (∃ c ∈ t, isSpace c = false) → ∃ e, decode (text ++ t) = .error e := by
  obtain ⟨hvalid, -, rfl⟩ := encode_eq_ok.1 h
  refine ⟨decode_text hvalid hrevision, ?_⟩
  rw [text_eq]
  refine ⟨fun p hp _ => ?_, fun t ⟨c, hc, hspace⟩ => fails_of_ne_ok fun r' hr' => ?_⟩
  · cases hdecode : decode p with
    | error e => exact Or.inl ⟨e, rfl⟩
    | ok r' =>
      refine Or.inr ?_
      rcases prefix_append_cases hp with hcut | ⟨q, rfl, hq⟩
      · exact absurd hdecode (decode_header_cut hcut r')
      · rw [decode_header] at hdecode
        rw [eq_of_readFields_cut hvalid hq hdecode]
  · simp only [List.append_assoc] at hr'
    rw [decode_header] at hr'
    have hskip := (eq_of_readFields_items hvalid (follow_feed t) hr').2
    rw [skipWs_append space_feed, skipWs_eq_nil_iff] at hskip
    rw [hskip c hc] at hspace
    cases hspace

/-- A record with a quotation mark, a backslash and a line feed in its texts. -/
def sample : StoredRecord where
  id := bytes "task-0001"
  kind := bytes "convert"
  name := bytes "a \"b\" \\ c\n"
  revision := 12
  parameters := (∅ : ExtTreeMap Bytes Bytes).insert (bytes "voice") (bytes "low \"alto\"")

theorem decode_encode_sample :
    decode sample.text = .ok sample ∧
      (∀ p, p <+: sample.text → p ≠ sample.text →
        (∃ e, decode p = .error e) ∨ decode p = .ok sample) ∧
      ∀ t, (∃ c ∈ t, isSpace c = false) → ∃ e, decode (sample.text ++ t) = .error e :=
  decode_encode (encode_eq_ok.2 ⟨by decide +kernel, by decide +kernel, rfl⟩) (by decide)

end StoredRecord

end Resonantia.Web
