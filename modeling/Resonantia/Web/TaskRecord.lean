import Mathlib.Algebra.Ring.Int.Defs
import Mathlib.Algebra.Ring.Nat
import Mathlib.Data.Nat.Notation
import Std.Data.ExtTreeMap

/-!
# Task records

The durable state of one background task, the checks that every stored record has passed, and
the text that the store writes.

## Main definitions

* `Web.TaskKind`, `Web.TaskState`, `Web.TaskRecord`: a record. The four kinds and nine states of
  the source are its only strings that `validate` restricts to a list, so they are types here.
* `Web.validate`: the admission checks, in source order with their messages.
* `Web.encode`: the stored text and its size limit.

## Main results

* `Web.validate_eq_ok_iff`: the checks as one predicate, `Web.TaskRecord.Valid`.
-/

namespace Resonantia.Web

open Std

/-! ### Records -/

inductive TaskKind
  | convert
  | preprocess
  | training
  | step
deriving DecidableEq, Repr

inductive TaskState
  | preparing
  | queued
  | running
  | pauseRequested
  | paused
  | interrupted
  | succeeded
  | failed
  | cancelled
deriving DecidableEq, Repr

def TaskKind.text : TaskKind → String
  | .convert => "convert"
  | .preprocess => "preprocess"
  | .training => "training"
  | .step => "step"

def TaskState.text : TaskState → String
  | .preparing => "preparing"
  | .queued => "queued"
  | .running => "running"
  | .pauseRequested => "pause_requested"
  | .paused => "paused"
  | .interrupted => "interrupted"
  | .succeeded => "succeeded"
  | .failed => "failed"
  | .cancelled => "cancelled"

/-- The kinds whose tasks produce an audio result. -/
def TaskKind.Audio (kind : TaskKind) : Prop := kind = .convert ∨ kind = .preprocess

instance (kind : TaskKind) : Decidable kind.Audio := by
  unfold TaskKind.Audio
  infer_instance

/-- The states of an execution that a service still owns. -/
def TaskState.Active (state : TaskState) : Prop :=
  state = .preparing ∨ state = .queued ∨ state = .running ∨ state = .pauseRequested

instance (state : TaskState) : Decidable state.Active := by
  unfold TaskState.Active
  infer_instance

/-- `TaskRecord::parameters`, an ordered map from texts to texts. -/
abbrev Parameters := ExtTreeMap String String

/-- Persisted service-owned state of one task. -/
structure TaskRecord where
  id : String
  kind : TaskKind
  name : String
  state : TaskState := .queued
  stage : String := "queued"
  error : String := ""
  unit : String := ""
  result : String := ""
  phase : String := ""
  revision : ℕ := 0
  attempt : ℕ := 1
  createdMs : ℕ := 0
  updatedMs : ℕ := 0
  startedMs : ℕ := 0
  finishedMs : ℕ := 0
  progressAtMs : ℕ := 0
  completed : ℕ := 0
  total : ℕ := 0
  parameters : Parameters := ∅

/-! ### Validation -/

/-- `require` of the task store. -/
def require (ok : Prop) [Decidable ok] (message : String) : Except String Unit :=
  if ok then .ok () else .error message

/-- A check that ends in success is followed by the rest. -/
theorem bind_eq_ok_iff {check : Except String Unit} {β : Type} {b : β}
    {next : Unit → Except String β} :
    (check >>= next) = .ok b ↔ check = .ok () ∧ next () = .ok b := by
  cases check <;> simp [bind, Except.bind]

theorem bind_eq_ok_iff_exists {α β ε : Type} {x : Except ε α} {f : α → Except ε β} {b : β} :
    (x >>= f) = .ok b ↔ ∃ a, x = .ok a ∧ f a = .ok b := by
  cases x <;> simp [bind, Except.bind]

theorem require_eq_ok {ok : Prop} [Decidable ok] {message : String} {u : Unit} :
    require ok message = .ok u ↔ ok := by
  by_cases h : ok <;> simp [require, h]

/-- `require` on every element, stopping at the first failure. -/
def requireAll {α : Type} (ok : α → Prop) [DecidablePred ok] (message : String) :
    List α → Except String Unit
  | [] => .ok ()
  | a :: l => do
    require (ok a) message
    requireAll ok message l

theorem requireAll_eq_ok {α : Type} {ok : α → Prop} [DecidablePred ok] {message : String}
    {l : List α} : requireAll ok message l = .ok () ↔ ∀ a ∈ l, ok a := by
  induction l with
  | nil => simp [requireAll]
  | cons a l ih => rw [requireAll, bind_eq_ok_iff, require_eq_ok, ih, List.forall_mem_cons]

/-- A letter, digit, underscore or hyphen. -/
def isIdChar (c : Char) : Bool :=
  ('a' ≤ c && c ≤ 'z') || ('A' ≤ c && c ≤ 'Z') || ('0' ≤ c && c ≤ '9') || c == '_' || c == '-'

/-- `TaskStore::valid_id`. -/
def validId (id : String) : Bool :=
  8 ≤ id.utf8ByteSize && id.utf8ByteSize ≤ 96 && id.toList.all isIdChar

/-- A text of at most `limit` bytes without a NUL. -/
def BoundedText (limit : ℕ) (text : String) : Prop :=
  text.utf8ByteSize ≤ limit ∧ '\x00' ∉ text.toList

instance (limit : ℕ) (text : String) : Decidable (BoundedText limit text) := by
  unfold BoundedText
  infer_instance

/-- The free texts that `validate` bounds. -/
def TaskRecord.texts (r : TaskRecord) : List String :=
  [r.name, r.stage, r.error, r.unit, r.result, r.phase]

/-- A lower-case hexadecimal digit. -/
def isHexChar (c : Char) : Bool := ('0' ≤ c && c ≤ '9') || ('a' ≤ c && c ≤ 'f')

/-- The shape of a digest text. -/
def DigestText (text : String) : Prop := text.utf8ByteSize = 64 ∧ text.toList.all isHexChar = true

instance (text : String) : Decidable (DigestText text) := by
  unfold DigestText
  infer_instance

/-- The check of one optional parameter. -/
def requireParameter (r : TaskRecord) (key : String) (ok : String → Prop) [DecidablePred ok]
    (message : String) : Except String Unit :=
  match r.parameters[key]? with
  | none => .ok ()
  | some value => require (ok value) message

/-- The admission checks of the task store. -/
def validate (r : TaskRecord) : Except String Unit := do
  require (validId r.id = true) "invalid task ID"
  require (0 < r.attempt ∧ r.attempt ≤ 2147483647) "invalid execution attempt"
  requireAll (BoundedText 4096) "invalid task text" r.texts
  require (r.result = "" ∨ r.result = "work/result.wav") "invalid task result path"
  require (r.total = 0 ∨ r.completed ≤ r.total) "invalid task progress"
  require (r.parameters.size ≤ 64) "too many task parameters"
  requireParameter r "retention" (fun value => value = "pruned-v1" ∧ r.state = .succeeded)
    "invalid task retention state"
  requireParameter r "result_sha256"
    (fun value => r.kind.Audio ∧ r.state = .succeeded ∧ DigestText value)
    "invalid completed audio digest"
  requireParameter r "source_task"
    (fun value => validId value = true ∧ value ≠ r.id ∧ r.kind.Audio) "invalid source task"
  requireAll
    (fun entry : String × String =>
      entry.1 ≠ "" ∧ BoundedText 64 entry.1 ∧ BoundedText 4096 entry.2)
    "invalid task parameter" r.parameters.toList

/-- The checks of `validate` as one predicate. -/
structure TaskRecord.Valid (r : TaskRecord) : Prop where
  id : validId r.id = true
  attempt : 0 < r.attempt ∧ r.attempt ≤ 2147483647
  texts : ∀ value ∈ r.texts, BoundedText 4096 value
  result : r.result = "" ∨ r.result = "work/result.wav"
  progress : r.total = 0 ∨ r.completed ≤ r.total
  size : r.parameters.size ≤ 64
  retention : ∀ value, r.parameters["retention"]? = some value →
    value = "pruned-v1" ∧ r.state = .succeeded
  digest : ∀ value, r.parameters["result_sha256"]? = some value →
    r.kind.Audio ∧ r.state = .succeeded ∧ DigestText value
  source : ∀ value, r.parameters["source_task"]? = some value →
    validId value = true ∧ value ≠ r.id ∧ r.kind.Audio
  parameters : ∀ key value, r.parameters[key]? = some value →
    key ≠ "" ∧ BoundedText 64 key ∧ BoundedText 4096 value

theorem requireParameter_eq_ok {r : TaskRecord} {key : String} {ok : String → Prop}
    [DecidablePred ok] {message : String} :
    requireParameter r key ok message = .ok () ↔
      ∀ value, r.parameters[key]? = some value → ok value := by
  rw [requireParameter]
  cases h : r.parameters[key]? with
  | none => simp
  | some value => simp [require_eq_ok]

/-- **The checks as a predicate.** -/
theorem validate_eq_ok_iff {r : TaskRecord} : validate r = .ok () ↔ r.Valid := by
  simp only [validate, bind_eq_ok_iff, require_eq_ok, requireAll_eq_ok, requireParameter_eq_ok,
    Prod.forall, ExtTreeMap.mem_toList_iff_getElem?_eq_some]
  constructor
  · rintro ⟨h₁, h₂, h₃, h₄, h₅, h₆, h₇, h₈, h₉, h₁₀⟩
    exact ⟨h₁, h₂, h₃, h₄, h₅, h₆, h₇, h₈, h₉, h₁₀⟩
  · rintro ⟨h₁, h₂, h₃, h₄, h₅, h₆, h₇, h₈, h₉, h₁₀⟩
    exact ⟨h₁, h₂, h₃, h₄, h₅, h₆, h₇, h₈, h₉, h₁₀⟩

/-! ### The stored text -/

/-- `std::quoted`: quotation marks around the text, a backslash before each mark or backslash. -/
def quoted (text : String) : String :=
  "\"" ++ String.ofList (text.toList.flatMap fun c =>
    if c = '"' ∨ c = '\\' then ['\\', c] else [c]) ++ "\""

/-- The quoted header lines of a record, in stored order. -/
def TaskRecord.lines (r : TaskRecord) : List String :=
  [r.id, r.kind.text, r.name, r.state.text, r.stage, r.error, r.unit, r.result, r.phase]

/-- The counters of a record, in stored order. -/
def TaskRecord.counters (r : TaskRecord) : List ℕ :=
  [r.revision, r.createdMs, r.updatedMs, r.startedMs, r.finishedMs, r.progressAtMs, r.completed,
    r.total, r.attempt]

/-- The bytes of a stored record. -/
def TaskRecord.text (r : TaskRecord) : String :=
  "RESONANTIA_TASK 2\n" ++ String.join (r.lines.map fun line => quoted line ++ "\n") ++
    " ".intercalate (r.counters.map toString) ++ "\n" ++
    toString r.parameters.size ++ "\n" ++
    String.join (r.parameters.toList.map fun entry =>
      quoted entry.1 ++ " " ++ quoted entry.2 ++ "\n")

def maxRecordBytes : ℕ := 65536

/-- The stored text of a record that passes the checks and fits. -/
def encode (r : TaskRecord) : Except String String := do
  validate r
  require (r.text.utf8ByteSize ≤ maxRecordBytes) "task record exceeds limit"
  return r.text

end Resonantia.Web
