import Mathlib.Data.Int.Notation
import Resonantia.F0.PitchEdit
import Resonantia.Web.NumberText
import Resonantia.Web.TaskRecord

/-!
# Audio plans

The plan of one audio task, what its execution derives from it, and the way it is written into
and rebuilt from a task record.

## Main definitions

* `Web.Host`: the paths of the service and what it reads of the file system.
* `Web.ConversionPlan`: the plan.
* `Web.audioIdentity`, `Web.conversionArguments`, `Web.excerptArguments`: the workflow identity,
  the arguments of the conversion program, and the bounds of a preview excerpt.
* `Web.taskPlan`, `Web.withPlan`: the plan and the record as `start_audio_task` leaves them.
* `Web.restoreAudioPlan`: the plan rebuilt from a record.

## Main results

* `Web.getElem?_addedParameters`: which parameters a started task has.
-/

namespace Resonantia.Web

open BinaryFloat Std

/-- What the service throws: a refusal with its HTTP status, the signal that a worker reached a
boundary with a pause pending, or another exception. -/
inductive Failure
  | workflow (status : ℕ) (message : String)
  | operationPaused
  | exception (message : String)
deriving DecidableEq, Repr

/-- Continue with a value or fail. -/
def orRefuse {α : Type} (value : Option α) (status : ℕ) (message : String) : Except Failure α :=
  match value with
  | some a => .ok a
  | none => .error (.workflow status message)

/-- Continue if a condition holds. -/
def demand (ok : Prop) [Decidable ok] (status : ℕ) (message : String) : Except Failure Unit :=
  if ok then .ok () else .error (.workflow status message)

/-- The paths of the service and the facts about files that plans depend on. -/
structure Host where
  tasks : String
  runs : String
  build : String
  models : String
  hubert : String
  rmvpe : String
  gmodel : String
  nonemptyRegularFile : String → Bool
  regularCandidate : String → Bool
  sha256File : String → String

/-- `task_directory(id) / "work"`. -/
def Host.work (host : Host) (id : String) : String := host.tasks ++ "/" ++ id ++ "/work"

inductive Workflow
  | manual
  | dry
  | harmonies
  | song
deriving DecidableEq, Repr

inductive OutputKind
  | vocal
  | mix
deriving DecidableEq, Repr

def Workflow.text : Workflow → String
  | .manual => "manual"
  | .dry => "dry"
  | .harmonies => "harmonies"
  | .song => "song"

def OutputKind.text : OutputKind → String
  | .vocal => "vocal"
  | .mix => "mix"

def parseWorkflow (text : String) : Option Workflow :=
  if text = "manual" then some .manual
  else if text = "dry" then some .dry
  else if text = "harmonies" then some .harmonies
  else if text = "song" then some .song
  else none

def parseOutputKind (text : String) : Option OutputKind :=
  if text = "vocal" then some .vocal else if text = "mix" then some .mix else none

/-- `WebService::ConversionPlan`. The preview bounds stay at zero in other plans. -/
structure ConversionPlan where
  directory : String
  input : String
  name : String
  workflow : Workflow
  outputKind : OutputKind
  voice : String
  model : String
  index : String
  pitchEdits : String
  pitch : ℤ
  filterRadius : ℤ
  indexRate : Double
  rms : Double
  protect : Double
  separate : Bool
  deharmony : Bool
  dereverb : Bool
  deecho : Bool
  denoise : Bool
  preprocessOnly : Bool
  sourceTask : String
  pitchPreview : Bool
  previewStart : Double
  previewEnd : Double
  analysisId : String
deriving DecidableEq

/-! ### What an execution derives from its plan -/

/-- What a `WebWorkflowIdentity` has absorbed: its domain and its named fields, in order. Every
digest of the identity is a function of these. -/
structure WorkflowIdentity where
  domain : String
  fields : List (String × String)
deriving DecidableEq

/-- The files of one separation model. -/
def separationSuffixes : List String :=
  [".safetensors", ".json", "_config.i64", "_dim_inputs.i64", "_freq_indices.i64",
    "_num_bands_per_freq.i64"]

/-- The separation models, each with whether a plan uses it. -/
def separationModels (p : ConversionPlan) : List (Bool × String) :=
  [(p.workflow = .song || (p.workflow = .manual && p.separate), "vocal_roformer"),
    (p.workflow = .song || p.workflow = .harmonies || p.deharmony, "karaoke_roformer"),
    (p.dereverb, "dereverb_roformer"), (p.deecho, "deecho_roformer"),
    (p.denoise, "denoise_roformer")]

/-- The separation models that a plan uses. -/
def cleanupModels (p : ConversionPlan) : List String :=
  ((separationModels p).filter Prod.fst).map Prod.snd

/-- The recipe values of the identity. -/
def recipeValues (p : ConversionPlan) : List String :=
  [p.workflow.text, p.outputKind.text, p.voice, p.pitchEdits, toString p.pitch,
    toString p.filterRadius, toStringDouble p.indexRate, toStringDouble p.rms,
    toStringDouble p.protect, boolText p.separate, boolText p.deharmony, boolText p.dereverb,
    boolText p.deecho, boolText p.denoise, boolText p.preprocessOnly]

/-- The preview values of the identity. -/
def previewValues (p : ConversionPlan) : List String :=
  if p.pitchPreview then
    [p.analysisId, toStringDouble p.previewStart, toStringDouble p.previewEnd]
  else []

/-- The files of a conversion; the index belongs to them only when retrieval is on. -/
def conversionFiles (host : Host) (p : ConversionPlan) : List (String × String) :=
  if p.preprocessOnly then []
  else
    [("conversion-program", host.sha256File (host.build ++ "/vc_convert")),
      ("hubert", host.sha256File host.hubert), ("rmvpe", host.sha256File host.rmvpe),
      ("generator", host.sha256File p.model)] ++
    if 0 < p.indexRate.value then [("index", host.sha256File p.index)] else []

/-- The files of the separation models, then of the cleanup program if there is any. -/
def cleanupFiles (host : Host) (p : ConversionPlan) : List (String × String) :=
  (cleanupModels p).flatMap (fun model => separationSuffixes.map fun suffix =>
    (model ++ suffix, host.sha256File (host.models ++ "/separation/" ++ model ++ suffix))) ++
  if cleanupModels p = [] then []
  else [("cleanup-program", host.sha256File (host.build ++ "/vc_preprocess"))]

/-- `WebService::audio_identity`. -/
def audioIdentity (host : Host) (p : ConversionPlan) : WorkflowIdentity where
  domain := if p.pitchPreview then "web-pitch-preview-v1" else "web-audio-v1"
  fields :=
    (previewValues p).map (fun value => ("preview", value)) ++
    (recipeValues p).map (fun value => ("recipe", value)) ++
    [("input", host.sha256File p.input)] ++ conversionFiles host p ++ cleanupFiles host p

/-- The command line of the conversion program, before the progress and checkpoint options;
preparation tasks never run it. -/
def conversionArguments (host : Host) (p : ConversionPlan) (input output : String) :
    Option (List String) :=
  if p.preprocessOnly then none
  else
    some <|
      [host.build ++ "/vc_convert", "--hubert", host.hubert, "--rmvpe", host.rmvpe, "--model",
        p.model, "--input", input, "--output", output, "--version", "v2", "--speakers", "109",
        "--sr", "40000", "--pitch", toString p.pitch, "--rms-mix", toStringDouble p.rms,
        "--protect", toStringDouble p.protect, "--filter-radius", toString p.filterRadius] ++
      (if 0 < p.indexRate.value then
        ["--index", p.index, "--index-rate", toStringDouble p.indexRate]
      else []) ++
      (if p.pitchEdits = "" then [] else ["--pitch-edits", p.pitchEdits])

/-- The bounds that `write_excerpt` and `seed_preview` get, for a preview. -/
def excerptArguments (p : ConversionPlan) : Option (Double × Double) :=
  if p.pitchPreview then some (p.previewStart, p.previewEnd) else none

/-! ### Starting a task -/

/-- The plan as `start_audio_task` hands it to the worker: it refers to the task's own copies. -/
def taskPlan (host : Host) (id : String) (p : ConversionPlan) : ConversionPlan :=
  let directory := host.work id
  { p with
    directory
    input := directory ++ "/source.wav"
    model := if p.preprocessOnly then p.model else directory ++ "/model.safetensors"
    index :=
      if p.preprocessOnly = false ∧ 0 < p.indexRate.value then directory ++ "/model.index"
      else p.index }

/-- The parameters that `start_audio_task` inserts without replacing any. -/
def insertedParameters (p : ConversionPlan) : List (String × String) :=
  [("recovery", if p.pitchPreview then "audio-pitch-preview-v1" else "audio-v1"),
    ("voice", p.voice), ("workflow", p.workflow.text), ("output_kind", p.outputKind.text),
    ("f0_up_key", toString p.pitch), ("filter_radius", toString p.filterRadius),
    ("index_rate", toStringDouble p.indexRate), ("rms_mix_rate", toStringDouble p.rms),
    ("protect", toStringDouble p.protect), ("pitch_edits", p.pitchEdits),
    ("pp_separate", boolText p.separate), ("pp_deharmony", boolText p.deharmony),
    ("pp_dereverb", boolText p.dereverb), ("pp_deecho", boolText p.deecho),
    ("pp_denoise", boolText p.denoise)]

/-- The parameters that it assigns. -/
def assignedParameters (p : ConversionPlan) : List (String × String) :=
  (if p.sourceTask = "" then [] else [("source_task", p.sourceTask)]) ++
  (if p.pitchPreview then
    [("analysis_id", p.analysisId), ("preview_start", toStringDouble p.previewStart),
      ("preview_end", toStringDouble p.previewEnd)]
  else [])

/-- `map::insert` of a list of entries: present keys keep their values. -/
def insertParameters (parameters : Parameters) (entries : List (String × String)) : Parameters :=
  entries.foldl (fun p entry => p.insertIfNew entry.1 entry.2) parameters

/-- Assignment of a list of entries. -/
def assignParameters (parameters : Parameters) (entries : List (String × String)) : Parameters :=
  entries.foldl (fun p entry => p.insert entry.1 entry.2) parameters

/-- The record as `start_audio_task` saves it. -/
def withPlan (p : ConversionPlan) (r : TaskRecord) : TaskRecord :=
  { r with
    parameters :=
      assignParameters (insertParameters r.parameters (insertedParameters p))
        (assignedParameters p) }

/-! ### Restoring a plan -/

/-- `pitch_preview_task`. -/
def pitchPreviewTask (r : TaskRecord) : Bool :=
  r.parameters["recovery"]? = some "audio-pitch-preview-v1"

/-- `map::at`. -/
def parameterAt (parameters : Parameters) (key : String) : Except Failure String :=
  match parameters[key]? with
  | some value => .ok value
  | none => .error (.exception "map::at")

/-- A stored parameter through its field check. -/
def storedField {α : Type} (parameters : Parameters) (key : String)
    (parse : String → Option α) (message : String) : Except Failure α := do
  let value ← parameterAt parameters key
  orRefuse (parse value) 409 message

/-- The double zero. -/
def zero : Double :=
  ⟨false, 0, Format.representable_zero, by positivity⟩

/-- The preview part of a restored plan: the analysis and the bounds. -/
def restorePreview (r : TaskRecord) : Except Failure (String × Double × Double) :=
  if pitchPreviewTask r then do
    let message := "保存的试听范围无效"
    let analysisId ← parameterAt r.parameters "analysis_id"
    let start ← storedField r.parameters "preview_start" (parseDoubleField · 0 600) message
    let stop ← storedField r.parameters "preview_end" (parseDoubleField · 0 600) message
    demand (start.value < stop.value ∧ stop.sub start ≤ 15 ∧ DigestText analysisId) 409 message
    return (analysisId, start, stop)
  else return ("", zero, zero)

/-- `WebService::restore_audio_plan`. -/
def restoreAudioPlan (host : Host) (r : TaskRecord) : Except Failure ConversionPlan := do
  demand (r.kind.Audio ∧
      (r.parameters["recovery"]? = some "audio-v1" ∨ pitchPreviewTask r = true)) 409
    "此任务没有可验证的恢复记录"
  let (analysisId, previewStart, previewEnd) ← restorePreview r
  let v := r.parameters
  let voice ← parameterAt v "voice"
  let workflow ← parameterAt v "workflow"
  let outputKind ← parameterAt v "output_kind"
  let pitchEdits ← parameterAt v "pitch_edits"
  let message := "保存的任务参数无效"
  let pitch ← storedField v "f0_up_key" (parseIntField · (-48) 48) message
  let filterRadius ← storedField v "filter_radius" (parseIntField · 0 31) message
  let indexRate ← storedField v "index_rate" (parseDoubleField · 0 1) message
  let rms ← storedField v "rms_mix_rate" (parseDoubleField · 0 1) message
  let protect ← storedField v "protect" (parseDoubleField · 0 1) message
  let separate ← storedField v "pp_separate" parseBoolField message
  let deharmony ← storedField v "pp_deharmony" parseBoolField message
  let dereverb ← storedField v "pp_dereverb" parseBoolField message
  let deecho ← storedField v "pp_deecho" parseBoolField message
  let denoise ← storedField v "pp_denoise" parseBoolField message
  let recipe := "保存的转换配方无效"
  let workflow ← orRefuse (parseWorkflow workflow) 409 recipe
  let outputKind ← orRefuse (parseOutputKind outputKind) 409 recipe
  demand (outputKind = .mix → workflow = .song) 409 recipe
  let directory := host.work r.id
  return {
    directory, input := directory ++ "/source.wav", name := r.name, workflow, outputKind, voice,
    model := directory ++ "/model.safetensors", index := directory ++ "/model.index", pitchEdits,
    pitch, filterRadius, indexRate, rms, protect, separate, deharmony, dereverb, deecho, denoise,
    preprocessOnly := decide (r.kind = .preprocess)
    sourceTask := r.parameters["source_task"]?.getD ""
    pitchPreview := pitchPreviewTask r
    previewStart, previewEnd, analysisId }

/-! ### What a restored plan comes from -/

theorem orRefuse_eq_ok {α : Type} {value : Option α} {status : ℕ} {message : String} {a : α} :
    orRefuse value status message = .ok a ↔ value = some a := by
  cases value <;> simp [orRefuse]

theorem demand_eq_ok {ok : Prop} [Decidable ok] {status : ℕ} {message : String} {u : Unit} :
    demand ok status message = .ok u ↔ ok := by
  by_cases h : ok <;> simp [demand, h]

theorem demand_of {ok : Prop} [Decidable ok] {status : ℕ} {message : String} (h : ok) :
    demand ok status message = .ok () :=
  if_pos h

theorem parameterAt_eq_ok {parameters : Parameters} {key value : String} :
    parameterAt parameters key = .ok value ↔ parameters[key]? = some value := by
  rw [parameterAt]
  cases parameters[key]? <;> simp

/-- A stored field reads as `a`. -/
def Reads {α : Type} (parameters : Parameters) (key : String) (parse : String → Option α) (a : α) :
    Prop :=
  ∃ text, parameters[key]? = some text ∧ parse text = some a

theorem storedField_eq_ok {α : Type} {parameters : Parameters} {key : String}
    {parse : String → Option α} {message : String} {a : α} :
    storedField parameters key parse message = .ok a ↔ Reads parameters key parse a := by
  simp only [storedField, bind_eq_ok_iff_exists, parameterAt_eq_ok, orRefuse_eq_ok, Reads]

/-- What a record says about the plan that is rebuilt from it. -/
structure RestoredFrom (host : Host) (r : TaskRecord) (p : ConversionPlan) : Prop where
  kind : r.kind.Audio
  recovery : r.parameters["recovery"]? = some "audio-v1" ∨ pitchPreviewTask r = true
  preview : restorePreview r = .ok (p.analysisId, p.previewStart, p.previewEnd)
  voice : r.parameters["voice"]? = some p.voice
  workflow : Reads r.parameters "workflow" parseWorkflow p.workflow
  outputKind : Reads r.parameters "output_kind" parseOutputKind p.outputKind
  pitchEdits : r.parameters["pitch_edits"]? = some p.pitchEdits
  pitch : Reads r.parameters "f0_up_key" (parseIntField · (-48) 48) p.pitch
  filterRadius : Reads r.parameters "filter_radius" (parseIntField · 0 31) p.filterRadius
  indexRate : Reads r.parameters "index_rate" (parseDoubleField · 0 1) p.indexRate
  rms : Reads r.parameters "rms_mix_rate" (parseDoubleField · 0 1) p.rms
  protect : Reads r.parameters "protect" (parseDoubleField · 0 1) p.protect
  separate : Reads r.parameters "pp_separate" parseBoolField p.separate
  deharmony : Reads r.parameters "pp_deharmony" parseBoolField p.deharmony
  dereverb : Reads r.parameters "pp_dereverb" parseBoolField p.dereverb
  deecho : Reads r.parameters "pp_deecho" parseBoolField p.deecho
  denoise : Reads r.parameters "pp_denoise" parseBoolField p.denoise
  recipe : p.outputKind = .mix → p.workflow = .song
  directory : p.directory = host.work r.id
  input : p.input = host.work r.id ++ "/source.wav"
  model : p.model = host.work r.id ++ "/model.safetensors"
  index : p.index = host.work r.id ++ "/model.index"
  name : p.name = r.name
  preprocessOnly : p.preprocessOnly = decide (r.kind = .preprocess)
  sourceTask : p.sourceTask = r.parameters["source_task"]?.getD ""
  pitchPreview : p.pitchPreview = pitchPreviewTask r

/-- **Restoring, field by field.** -/
theorem restoreAudioPlan_eq_ok_iff {host : Host} {r : TaskRecord} {p : ConversionPlan} :
    restoreAudioPlan host r = .ok p ↔ RestoredFrom host r p := by
  simp only [restoreAudioPlan, bind_eq_ok_iff_exists, demand_eq_ok, parameterAt_eq_ok,
    orRefuse_eq_ok, storedField_eq_ok]
  constructor
  · rintro ⟨-, ⟨hkind, hrecovery⟩, ⟨analysisId, start, stop⟩, hpreview, voice, hvoice, workflowText,
      hworkflowText, kindText, hkindText, pitchEdits, hpitchEdits, pitch, hpitch, filterRadius,
      hfilter, indexRate, hindexRate, rms, hrms, protect, hprotect, separate, hseparate, deharmony,
      hdeharmony, dereverb, hdereverb, deecho, hdeecho, denoise, hdenoise, workflow, hworkflow,
      outputKind, houtputKind, -, hrecipe, hp⟩
    obtain rfl := Except.ok.inj hp
    exact ⟨hkind, hrecovery, hpreview, hvoice, ⟨_, hworkflowText, hworkflow⟩,
      ⟨_, hkindText, houtputKind⟩, hpitchEdits, hpitch, hfilter, hindexRate, hrms, hprotect,
      hseparate, hdeharmony, hdereverb, hdeecho, hdenoise, hrecipe, rfl, rfl, rfl, rfl, rfl, rfl,
      rfl, rfl⟩
  · intro h
    obtain ⟨workflowText, hworkflowText, hworkflow⟩ := h.workflow
    obtain ⟨kindText, hkindText, houtputKind⟩ := h.outputKind
    refine ⟨(), ⟨h.kind, h.recovery⟩, _, h.preview, _, h.voice, _, hworkflowText, _, hkindText, _,
      h.pitchEdits, _, h.pitch, _, h.filterRadius, _, h.indexRate, _, h.rms, _, h.protect, _,
      h.separate, _, h.deharmony, _, h.dereverb, _, h.deecho, _, h.denoise, _, hworkflow, _,
      houtputKind, (), h.recipe, ?_⟩
    have hdirectory := h.directory
    have hinput := h.input
    have hmodel := h.model
    have hindex := h.index
    have hname := h.name
    have hpreprocess := h.preprocessOnly
    have hsource := h.sourceTask
    have hpreview := h.pitchPreview
    cases p
    dsimp only at hdirectory hinput hmodel hindex hname hpreprocess hsource hpreview
    subst hdirectory hinput hmodel hindex hname hpreprocess hsource hpreview
    rfl

/-- Restoring reads no revision. -/
theorem restoreAudioPlan_withRevision (host : Host) (r : TaskRecord) (n : ℕ) :
    restoreAudioPlan host { r with revision := n } = restoreAudioPlan host r := by
  rw [restoreAudioPlan, restoreAudioPlan]
  rfl

/-! ### Lookups -/

theorem getElem?_insertParameters (parameters : Parameters) (entries : List (String × String))
    (key : String) :
    (insertParameters parameters entries)[key]? = (parameters[key]? <|> entries.lookup key) := by
  induction entries generalizing parameters with
  | nil => simp [insertParameters]
  | cons entry entries ih =>
    have hstep : insertParameters parameters (entry :: entries) =
        insertParameters (parameters.insertIfNew entry.1 entry.2) entries := rfl
    rw [hstep, ih, ExtTreeMap.getElem?_insertIfNew, List.lookup_cons]
    by_cases hkey : entry.1 = key
    · subst hkey
      by_cases hmem : entry.1 ∈ parameters
      · simp [hmem]
      · simp [hmem]
    · have hbeq : (key == entry.1) = false := by simpa using fun h => hkey h.symm
      simp [hkey, hbeq]

theorem getElem?_assignParameters {entries : List (String × String)}
    (hdistinct : (entries.map Prod.fst).Nodup) (parameters : Parameters) (key : String) :
    (assignParameters parameters entries)[key]? = (entries.lookup key <|> parameters[key]?) := by
  induction entries generalizing parameters with
  | nil => simp [assignParameters]
  | cons entry entries ih =>
    have hstep : assignParameters parameters (entry :: entries) =
        assignParameters (parameters.insert entry.1 entry.2) entries := rfl
    rw [List.map_cons, List.nodup_cons] at hdistinct
    rw [hstep, ih hdistinct.2, ExtTreeMap.getElem?_insert, List.lookup_cons]
    by_cases hkey : entry.1 = key
    · subst hkey
      have hlookup : entries.lookup entry.1 = none := by
        rw [List.lookup_eq_none_iff]
        intro other hother
        have hne : other.1 ≠ entry.1 := fun heq =>
          hdistinct.1 (heq ▸ List.mem_map_of_mem hother)
        simpa using hne.symm
      simp [hlookup]
    · have hbeq : (key == entry.1) = false := by simpa using fun h => hkey h.symm
      simp [hkey, hbeq]

/-- The keys of a record that is reserved but not started: only a rename has touched it. -/
def OnlyRenamed (r : TaskRecord) : Prop :=
  ∀ key, key ≠ "display_name" → r.parameters[key]? = none

/-- **The parameters of a started task** are those of its plan; the display name is kept. -/
theorem getElem?_withPlan {p : ConversionPlan} {r : TaskRecord} (hr : OnlyRenamed r) {key : String}
    (hkey : key ≠ "display_name") :
    (withPlan p r).parameters[key]? =
      ((assignedParameters p).lookup key <|> (insertedParameters p).lookup key) := by
  have hdistinct : ((assignedParameters p).map Prod.fst).Nodup := by
    rw [assignedParameters]
    split_ifs <;> simp
  rw [withPlan, getElem?_assignParameters hdistinct, getElem?_insertParameters, hr key hkey]
  simp

end Resonantia.Web
