import Mathlib.Logic.Relation
import Resonantia.Web.AudioPlan
import Resonantia.Web.TaskStore

/-!
# Updates of task records

Every writer of the service reads a record, changes some of its fields and saves it at the
revision it was read with. The change of each writer is one constructor of `Update`.

## Main definitions

* `Web.Update`, `Web.Update.apply`: the writers and what they do to a record.
* `Web.Field`, `Web.Update.writes`: the fields of a record and those that a writer sets.
* `Web.Evolves`: a record is rewritten by updates of some kind, one revision after the other.

## Main results

* `Web.Update.apply_same`: a writer leaves every field alone that it does not set.
* `Web.Evolves.invariant`, `Web.Evolves.same`: induction over the updates of a record.
-/

namespace Resonantia.Web

open Std

/-! ### Writers -/

/-- The checked fields of a training request. -/
structure TrainingRecipe where
  mode : String
  steps : ℤ
  seg : ℤ
  epochs : ℤ
  separate : Bool
  dereverb : Bool
  deecho : Bool
  denoise : Bool
  deharmony : Bool
  vad : Bool
  resume : Bool
  prepared : Bool
deriving DecidableEq, Repr

/-- The parameters that `handle_train` inserts. -/
def TrainingRecipe.parameters (t : TrainingRecipe) : List (String × String) :=
  [("mode", t.mode), ("steps", toString t.steps), ("seg", toString t.seg),
    ("epochs", toString t.epochs), ("separate", boolText t.separate),
    ("dereverb", boolText t.dereverb), ("deecho", boolText t.deecho),
    ("denoise", boolText t.denoise), ("deharmony", boolText t.deharmony), ("vad", boolText t.vad),
    ("resume", boolText t.resume), ("prepared", boolText t.prepared)]

/-- The writers of a stored record, with the values that they store. -/
inductive Update
  /-- `persist_job_locked` -/
  | job (state : TaskState) (stage : String) (nowMs : ℕ) (terminal : Bool)
  /-- `observe_progress` -/
  | progress (phase unit : String) (completed total nowMs : ℕ)
  /-- `guard_task_storage` -/
  | notice (reason : String)
  /-- `handle_task_rename` -/
  | rename (name : String) (nowMs : ℕ)
  /-- `inherit_audio_stages` -/
  | ready (reused : String)
  /-- the cleanup of `handle_task_control` -/
  | prune (nowMs : ℕ)
  /-- the resumption of `handle_task_control` -/
  | resume (nowMs : ℕ)
  /-- `start_audio_task` -/
  | plan (p : ConversionPlan)
  /-- `handle_train` -/
  | recipe (t : TrainingRecipe)
  /-- `prepare_training_task` -/
  | prepare (preprocessed : Bool)
  /-- `finish_audio_task` -/
  | finishAudio (state : TaskState) (result error : String) (digest : Option String) (nowMs : ℕ)
      (paused : Bool)
  /-- `recover_interrupted` -/
  | interrupt (nowMs : ℕ)
  /-- the constructor of the service, for a control channel that could not be signalled -/
  | unsignalled
deriving DecidableEq

/-- What a writer makes of the record it has read. -/
def Update.apply : Update → TaskRecord → TaskRecord
  | .job state stage nowMs terminal, r =>
    let r := if r.stage ≠ stage then
        { r with progressAtMs := nowMs, phase := "", completed := 0, total := 0, unit := "" }
      else r
    let r := { r with stage, state, updatedMs := nowMs }
    let r := if r.startedMs = 0 ∧ state = .running then { r with startedMs := nowMs } else r
    if terminal then
      { r with
        finishedMs := if state = .paused then 0 else nowMs
        error := if state = .failed then "Stage failed: " ++ stage ++ ". See retained task log."
          else r.error }
    else r
  | .progress phase unit completed total nowMs, r =>
    { r with phase, unit, completed, total, progressAtMs := nowMs, updatedMs := nowMs }
  | .notice reason, r => { r with error := reason }
  | .rename name nowMs, r =>
    { r with parameters := r.parameters.insert "display_name" name, updatedMs := nowMs }
  | .ready reused, r =>
    { r with
      parameters := (r.parameters.insert "revision_ready" "1").insert "reused_stages" reused }
  | .prune nowMs, r =>
    { r with parameters := r.parameters.insert "retention" "pruned-v1", updatedMs := nowMs }
  | .resume nowMs, r =>
    { r with
      attempt := r.attempt + 1
      parameters := r.parameters.insert "resumed_from" (toString r.attempt)
      state := .queued, stage := "queued", phase := "", unit := "", completed := 0, total := 0
      error := "", result := "", finishedMs := 0, updatedMs := nowMs, progressAtMs := nowMs }
  | .plan p, r => withPlan p r
  | .recipe t, r => { r with parameters := insertParameters r.parameters t.parameters }
  | .prepare preprocessed, r =>
    { r with
      parameters := (r.parameters.insert "recovery" "training-full-v1").insert
        "inputs_preprocessed" (boolText preprocessed) }
  | .finishAudio state result error digest nowMs paused, r =>
    { r with
      error, state, result
      parameters := match digest with
        | some value => r.parameters.insert "result_sha256" value
        | none => r.parameters
      updatedMs := nowMs
      finishedMs := if paused then 0 else nowMs }
  | .interrupt nowMs, r =>
    { r with
      state := .interrupted, updatedMs := nowMs
      error := "Service restarted; explicit recovery is required." }
  | .unsignalled, r =>
    { r with
      error :=
        "Previous worker control channel could not be signalled; GPU ownership may still be held." }

/-! ### Fields -/

/-- The fields of a record that a writer may set; the identifier, kind, given name and creation
time are among them and have no writer. -/
inductive Field
  | id
  | kind
  | name
  | createdMs
  | state
  | stage
  | error
  | unit
  | result
  | phase
  | attempt
  | updatedMs
  | startedMs
  | finishedMs
  | progressAtMs
  | completed
  | total
  | parameter (key : String)
deriving DecidableEq

/-- Two records agree in a field. -/
def Field.Same (r r' : TaskRecord) : Field → Prop
  | .id => r'.id = r.id
  | .kind => r'.kind = r.kind
  | .name => r'.name = r.name
  | .createdMs => r'.createdMs = r.createdMs
  | .state => r'.state = r.state
  | .stage => r'.stage = r.stage
  | .error => r'.error = r.error
  | .unit => r'.unit = r.unit
  | .result => r'.result = r.result
  | .phase => r'.phase = r.phase
  | .attempt => r'.attempt = r.attempt
  | .updatedMs => r'.updatedMs = r.updatedMs
  | .startedMs => r'.startedMs = r.startedMs
  | .finishedMs => r'.finishedMs = r.finishedMs
  | .progressAtMs => r'.progressAtMs = r.progressAtMs
  | .completed => r'.completed = r.completed
  | .total => r'.total = r.total
  | .parameter key => r'.parameters[key]? = r.parameters[key]?

theorem Field.Same.refl (r : TaskRecord) (f : Field) : f.Same r r := by
  cases f <;> rfl

theorem Field.Same.trans {r₁ r₂ r₃ : TaskRecord} {f : Field} (h : f.Same r₁ r₂)
    (h' : f.Same r₂ r₃) : f.Same r₁ r₃ := by
  cases f <;> exact Eq.trans h' h

/-- The fields that a writer sets. -/
def Update.writes : Update → List Field
  | .job state _ _ terminal =>
    [.stage, .state, .updatedMs, .startedMs, .progressAtMs, .phase, .completed, .total, .unit] ++
    (if terminal then [.finishedMs] else []) ++
    (if terminal ∧ state = .failed then [.error] else [])
  | .progress .. => [.phase, .unit, .completed, .total, .progressAtMs, .updatedMs]
  | .notice _ => [.error]
  | .rename .. => [.parameter "display_name", .updatedMs]
  | .ready _ => [.parameter "revision_ready", .parameter "reused_stages"]
  | .prune _ => [.parameter "retention", .updatedMs]
  | .resume _ =>
    [.attempt, .parameter "resumed_from", .state, .stage, .phase, .unit, .completed, .total,
      .error, .result, .finishedMs, .updatedMs, .progressAtMs]
  | .plan p => (insertedParameters p ++ assignedParameters p).map fun entry => .parameter entry.1
  | .recipe t => t.parameters.map fun entry => .parameter entry.1
  | .prepare _ => [.parameter "recovery", .parameter "inputs_preprocessed"]
  | .finishAudio _ _ _ digest _ _ =>
    [.error, .state, .result, .updatedMs, .finishedMs] ++
    (if digest.isSome then [.parameter "result_sha256"] else [])
  | .interrupt _ => [.state, .updatedMs, .error]
  | .unsignalled => [.error]

theorem lookup_eq_none_of_not_mem {entries : List (String × String)} {key : String}
    (h : Field.parameter key ∉ entries.map fun entry => Field.parameter entry.1) :
    entries.lookup key = none := by
  rw [List.lookup_eq_none_iff]
  intro entry hentry
  have hne : entry.1 ≠ key := by
    rintro rfl
    exact h (List.mem_map.2 ⟨entry, hentry, rfl⟩)
  simpa using hne.symm

/-- The keys that `start_audio_task` assigns are distinct. -/
theorem assignedParameters_nodup (p : ConversionPlan) :
    ((assignedParameters p).map Prod.fst).Nodup := by
  rw [assignedParameters]
  split_ifs <;> simp

/-- A stored plan leaves the other parameters alone. -/
theorem withPlan_parameter {p : ConversionPlan} {r : TaskRecord} {key : String}
    (h : Field.parameter key ∉ (Update.plan p).writes) :
    (withPlan p r).parameters[key]? = r.parameters[key]? := by
  rw [Update.writes, List.map_append, List.mem_append, not_or] at h
  rw [withPlan, getElem?_assignParameters (assignedParameters_nodup p), getElem?_insertParameters,
    lookup_eq_none_of_not_mem h.1, lookup_eq_none_of_not_mem h.2]
  simp

theorem getElem?_insert_of_ne {parameters : Parameters} {key other value : String}
    (h : other ≠ key) : (parameters.insert other value)[key]? = parameters[key]? := by
  rw [ExtTreeMap.getElem?_insert, if_neg (by simpa using h)]

/-- A writer sets its own parameters only. -/
theorem Update.apply_parameter {u : Update} {key : String} (h : Field.parameter key ∉ u.writes)
    (r : TaskRecord) : (u.apply r).parameters[key]? = r.parameters[key]? := by
  cases u with
  | job state stage nowMs terminal =>
    simp only [apply]
    split_ifs <;> rfl
  | plan p => exact withPlan_parameter h
  | recipe t =>
    rw [writes] at h
    simp only [apply]
    rw [getElem?_insertParameters, lookup_eq_none_of_not_mem h]
    simp
  | rename name nowMs =>
    refine getElem?_insert_of_ne ?_
    rintro rfl
    exact h (by simp [writes])
  | prune nowMs =>
    refine getElem?_insert_of_ne ?_
    rintro rfl
    exact h (by simp [writes])
  | resume nowMs =>
    refine getElem?_insert_of_ne ?_
    rintro rfl
    exact h (by simp [writes])
  | ready reused =>
    simp only [writes, List.mem_cons, Field.parameter.injEq, List.not_mem_nil, or_false,
      not_or] at h
    simp only [apply]
    rw [getElem?_insert_of_ne (Ne.symm h.2), getElem?_insert_of_ne (Ne.symm h.1)]
  | prepare preprocessed =>
    simp only [writes, List.mem_cons, Field.parameter.injEq, List.not_mem_nil, or_false,
      not_or] at h
    simp only [apply]
    rw [getElem?_insert_of_ne (Ne.symm h.2), getElem?_insert_of_ne (Ne.symm h.1)]
  | finishAudio state result error digest nowMs paused =>
    cases digest with
    | none => rfl
    | some value =>
      refine getElem?_insert_of_ne ?_
      rintro rfl
      exact h (by simp [writes])
  | progress | notice | interrupt | unsignalled => rfl

/-- **A writer sets its own fields only.** -/
theorem Update.apply_same {u : Update} {f : Field} (h : f ∉ u.writes) (r : TaskRecord) :
    f.Same r (u.apply r) := by
  cases f with
  | parameter key => exact apply_parameter h r
  | _ =>
    cases u with
    | job state stage nowMs terminal =>
      simp only [Field.Same, apply, writes] at h ⊢
      split_ifs at h ⊢ <;> first | rfl | simp_all
    | _ => first | rfl | exact absurd (by simp [writes]) h

/-! ### Chains of updates -/

/-- The record after a saved update. -/
def TaskRecord.updated (r : TaskRecord) (u : Update) : TaskRecord :=
  { u.apply r with revision := r.revision + 1 }

/-- An update that is allowed on the record it was read from, and that the store admitted. -/
def Rewrite (allowed : TaskRecord → Update → Prop) (r r' : TaskRecord) : Prop :=
  ∃ u, allowed r u ∧ r' = r.updated u ∧ r'.Valid

/-- Allowed updates lead from one record to another. -/
def Evolves (allowed : TaskRecord → Update → Prop) : TaskRecord → TaskRecord → Prop :=
  Relation.ReflTransGen (Rewrite allowed)

variable {allowed allowed' : TaskRecord → Update → Prop} {r r' r'' : TaskRecord}

theorem Evolves.refl : Evolves allowed r r := Relation.ReflTransGen.refl

theorem Evolves.trans (h : Evolves allowed r r') (h' : Evolves allowed r' r'') :
    Evolves allowed r r'' :=
  Relation.ReflTransGen.trans h h'

theorem Evolves.single {u : Update} (hu : allowed r u) (hvalid : (r.updated u).Valid) :
    Evolves allowed r (r.updated u) :=
  Relation.ReflTransGen.single ⟨u, hu, rfl, hvalid⟩

/-- What every allowed update keeps, a chain of them keeps. -/
theorem Evolves.invariant {P : TaskRecord → Prop}
    (hkeep : ∀ r u, P r → allowed r u → (r.updated u).Valid → P (r.updated u))
    (h : Evolves allowed r r') (hr : P r) : P r' := by
  induction h with
  | refl => exact hr
  | tail _ hstep ih =>
    obtain ⟨u, hu, rfl, hvalid⟩ := hstep
    exact hkeep _ u ih hu hvalid

/-- A chain is a chain of other updates if those are allowed wherever it comes. -/
theorem Evolves.mono {P : TaskRecord → Prop}
    (hkeep : ∀ r u, P r → allowed r u → (r.updated u).Valid → P (r.updated u))
    (hallowed : ∀ r u, P r → allowed r u → allowed' r u)
    (h : Evolves allowed r r') (hr : P r) : Evolves allowed' r r' := by
  induction h with
  | refl => exact Evolves.refl
  | tail hchain hstep ih =>
    obtain ⟨u, hu, rfl, hvalid⟩ := hstep
    exact ih.trans (Evolves.single (hallowed _ u (Evolves.invariant hkeep hchain hr) hu) hvalid)

theorem TaskRecord.updated_same {u : Update} {f : Field} (h : f ∉ u.writes) :
    f.Same r (r.updated u) := by
  have hsame := Update.apply_same h r
  cases f <;> exact hsame

/-- A chain leaves every field alone that none of its updates sets. -/
theorem Evolves.same {f : Field} (hf : ∀ r u, allowed r u → f ∉ u.writes)
    (h : Evolves allowed r r') : f.Same r r' :=
  Evolves.invariant (P := fun r' => f.Same r r')
    (fun r' u hsame hu _ => hsame.trans (TaskRecord.updated_same (hf r' u hu))) h
    (Field.Same.refl r f)

end Resonantia.Web
