import Mathlib.Data.Int.Notation
import Resonantia.Web.AudioPlan

/-!
# Requests for audio tasks

The parameter checks of the two handlers that start an audio task, from the parts of the form to
the plan that is handed to `start_audio_task`.

## Main definitions

* `Web.convertPlan`: the checks of `handle_convert` for a background task.
* `Web.pitchPreviewPlan`: the checks of `handle_pitch_preview`.
* `Web.AcceptedPlan`: the plans that one of them hands on.

## Main results

* `Web.AcceptedPlan.admissible`: the ranges that every accepted plan respects.
-/

namespace Resonantia.Web

open BinaryFloat F0

/-! ### Form fields -/

/-- One part of a multipart form. -/
structure Part where
  name : String
  filename : String
  data : String
deriving DecidableEq

/-- `field`: the first part of this name that is not a file, or the default. -/
def field (parts : List Part) (name default : String) : String :=
  match parts.find? fun part => part.name = name ∧ part.filename = "" with
  | some part => part.data
  | none => default

/-- `safe_name`. -/
def safeName (value : String) : Bool :=
  value ≠ "" && value.utf8ByteSize ≤ 64 &&
    value.toList.all fun c => c.isAlphanum || c == '_' || c == '-'

/-- `candidate_name`: the prefix, ten digits and the suffix. -/
def candidateName (name : String) : Bool :=
  name.utf8ByteSize = 38 && name.startsWith "candidate_epoch_" && name.endsWith ".safetensors" &&
    ((name.toList.drop 16).take 10).all Char.isDigit

/-! ### Conversion and preparation -/

/-- The parameters that a revision inherits from its source task. -/
def inheritedKeys : List String :=
  ["voice", "workflow", "output_kind", "pitch_edits", "f0_up_key", "index_rate", "rms_mix_rate",
    "protect", "filter_radius", "pp_separate", "pp_deharmony", "pp_dereverb", "pp_deecho",
    "pp_denoise"]

/-- The form with the inherited parameters that it does not name itself. -/
def inheritParts (parts : List Part) (parent : TaskRecord) : List Part :=
  inheritedKeys.foldl (fun parts key =>
    match parent.parameters[key]? with
    | some value =>
      if parts.any fun part => part.name = key then parts else parts ++ [⟨key, "", value⟩]
    | none => parts) parts

/-- `source_task` of a conversion request: a completed audio task that is no preview. -/
def checkRevisionParent (parent : TaskRecord) : Except Failure Unit :=
  demand (parent.state = .succeeded ∧ parent.kind.Audio ∧
    parent.parameters["recovery"]? = some "audio-v1") 409
    "only completed audio tasks can create a revision"

def baseVoice (voice : String) : Bool := voice = "base" || voice = "base (pretrained)"

/-- The published model of a voice. -/
def publishedModel (host : Host) (voice : String) : String :=
  if baseVoice voice then host.gmodel else host.runs ++ "/" ++ voice ++ "/model.safetensors"

/-- `resolve_saved_audio_model`: fall back to the published files when the copies are gone. -/
def resolveSavedAudioModel (host : Host) (p : ConversionPlan) : Except Failure ConversionPlan :=
  if p.preprocessOnly then .ok p
  else do
    demand (baseVoice p.voice = true ∨ safeName p.voice = true) 409 "保存的声线身份无效"
    return { p with
      model :=
        if host.nonemptyRegularFile p.model then p.model else publishedModel host p.voice
      index :=
        if 0 < p.indexRate.value ∧ host.nonemptyRegularFile p.index = false then
          host.runs ++ "/" ++ p.voice ++ "/model.index"
        else p.index }

/-- The index of a published voice, if it has one. -/
def publishedIndex (host : Host) (voice : String) : String :=
  let index := host.runs ++ "/" ++ voice ++ "/model.index"
  if host.nonemptyRegularFile index then index else ""

/-- The model and index that a request names, before the second look at its parent. -/
def namedModel (host : Host) (parts : List Part) (parent : Option TaskRecord) (voice : String) :
    Except Failure (String × String) := do
  let run := field parts "training_run" ""
  let candidate := field parts "candidate" ""
  if run ≠ "" ∨ candidate ≠ "" then
    demand (safeName run = true ∧ candidateName candidate = true) 400 "invalid training candidate"
    let full := host.runs ++ "/" ++ run ++ "/full_training"
    let model := full ++ "/checkpoints/" ++ candidate
    demand (host.regularCandidate model = true) 404 "candidate not found"
    let index := full ++ "/result/model.index"
    return (model, if host.regularCandidate index then index else "")
  else
    match parent.filter fun parent =>
        parent.kind = .convert ∧ parent.parameters["voice"]? = some voice with
    | some parent =>
      let saved ← restoreAudioPlan host parent
      let saved ← resolveSavedAudioModel host saved
      return (saved.model,
        if host.nonemptyRegularFile saved.index then saved.index
        else if safeName voice then publishedIndex host voice
        else "")
    | none =>
      if baseVoice voice then return (host.gmodel, "")
      else
        demand (safeName voice = true) 400 "bad voice"
        let model := publishedModel host voice
        demand (host.nonemptyRegularFile model = true) 404 "voice model not found"
        return (model, publishedIndex host voice)

/-- The model and index of a request: a revision that keeps its voice keeps the saved model, and
an index only when it is certain to belong to it. -/
def selectModel (host : Host) (parts : List Part) (parent : Option TaskRecord)
    (preprocessOnly : Bool) (voice : String) (indexRate : Double) :
    Except Failure (String × String) := do
  let (model, index) ← namedModel host parts parent voice
  match parent.filter fun parent =>
      preprocessOnly = false ∧ parent.parameters["voice"]? = some voice ∧
      field parts "training_run" "" = "" ∧ field parts "candidate" "" = "" ∧
      parent.kind = .convert with
  | none => return (model, index)
  | some parent =>
    let saved ← restoreAudioPlan host parent
    let saved ← resolveSavedAudioModel host saved
    if host.nonemptyRegularFile saved.index then return (saved.model, saved.index)
    else
      demand (¬(0 < indexRate.value ∧ parent.parameters["index_rate"]? = some "0.000000" ∧
        host.sha256File saved.model ≠ host.sha256File (publishedModel host voice))) 409
        "原版本未保存可验证的索引，请选择声线或保持检索率为0"
      return (saved.model, index)

/-- The checks of `handle_convert` for a background task, from the recipe fields on. `input` and
`inputName` stand for the located or uploaded source, which no later check reads. -/
def convertPlan (host : Host) (preprocessOnly : Bool) (form : List Part) (sourceTask : String)
    (parent : Option TaskRecord) (directory input inputName : String) :
    Except Failure ConversionPlan := do
  let parts := parent.elim form (inheritParts form)
  let workflow ← orRefuse (parseWorkflow (field parts "workflow" "manual")) 400 "invalid workflow"
  let outputKind ← orRefuse (parseOutputKind (field parts "output_kind" "vocal")) 400
    "mix output requires song workflow"
  demand (outputKind = .mix → workflow = .song) 400 "mix output requires song workflow"
  let voice := field parts "voice" "base"
  let pitchEdits := field parts "pitch_edits" ""
  let _ ← orRefuse (parsePitchEdits pitchEdits) 400
    "局部修音需按时间排序且不重叠；每段 0.02–2 秒，最多 16 段"
  let range := "conversion parameter out of range"
  let pitch ← orRefuse (parseIntField (field parts "f0_up_key" "0") (-48) 48) 400 range
  let indexRate ← orRefuse (parseDoubleField (field parts "index_rate" "0") 0 1) 400 range
  let rms ← orRefuse (parseDoubleField (field parts "rms_mix_rate" "0.5") 0 1) 400 range
  let protect ← orRefuse (parseDoubleField (field parts "protect" "0.5") 0 1) 400 range
  let filterRadius ← orRefuse (parseIntField (field parts "filter_radius" "3") 0 31) 400 range
  demand (filterRadius ≠ 0 → 3 ≤ filterRadius ∧ filterRadius % 2 ≠ 0) 400 range
  let flag := "boolean parameters must be 0 or 1"
  let separate ← orRefuse (parseBoolField (field parts "pp_separate" "0")) 400 flag
  let deharmony ← orRefuse (parseBoolField (field parts "pp_deharmony" "0")) 400 flag
  let dereverb ← orRefuse (parseBoolField (field parts "pp_dereverb" "0")) 400 flag
  let denoise ← orRefuse (parseBoolField (field parts "pp_denoise" "0")) 400 flag
  let deecho ← orRefuse (parseBoolField (field parts "pp_deecho" "0")) 400 flag
  let (model, index) ← selectModel host parts parent preprocessOnly voice indexRate
  demand (0 < indexRate.value → index ≠ "") 400
    "index_rate > 0 requires a compatible voice index"
  return {
    directory, input, name := inputName, workflow, outputKind, voice, model, index, pitchEdits,
    pitch, filterRadius, indexRate, rms, protect, separate, deharmony, dereverb, deecho, denoise,
    preprocessOnly, sourceTask, pitchPreview := false
    previewStart := zero, previewEnd := zero, analysisId := "" }

/-! ### Pitch previews -/

/-- What `read_evidence` finds of a completed conversion: its duration, and the analysis digest
that belongs to it. -/
structure Evidence where
  duration : Double
  duration_le : duration.value ≤ 600
  analysis : String
  analysis_digest : DigestText analysis

/-- The checks of `handle_pitch_preview` on the parent and the fields. Its remaining checks
compare two pitch curves: they refuse more requests and leave the plan as it is. -/
def pitchPreviewPlan (host : Host) (parts : List Part) (parent : TaskRecord)
    (evidence : Evidence) : Except Failure ConversionPlan := do
  demand (parent.kind = .convert ∧ parent.state = .succeeded ∧ pitchPreviewTask parent = false)
    409 "试听基线不是已完成的整段转换"
  let plan ← restoreAudioPlan host parent
  let plan ← resolveSavedAudioModel host plan
  let _ ← orRefuse (parsePitchEdits plan.pitchEdits) 409 "保存的局部修音无效"
  demand (field parts "analysis_id" "" = evidence.analysis) 409 "分析已变化，请重新读取音高"
  let range := "试听范围须在音频内，且不超过15秒"
  let start ← orRefuse
    (parseDoubleField (field parts "preview_start" "") 0 evidence.duration.value) 400 range
  let stop ← orRefuse
    (parseDoubleField (field parts "preview_end" "") 0 evidence.duration.value) 400 range
  demand (start.value < stop.value ∧ stop.sub start ≤ 15) 400 range
  let pitchEdits := field parts "pitch_edits" ""
  let _ ← orRefuse (parsePitchEdits pitchEdits) 409 "保存的局部修音无效"
  return { plan with
    previewStart := start
    previewEnd := stop
    pitchEdits
    pitchPreview := true
    sourceTask := parent.id
    analysisId := evidence.analysis
    outputKind := .vocal
    name := "修音试听 · " ++ parent.name }

/-! ### Accepted plans -/

/-- A plan that one of the two handlers hands to `start_audio_task`. -/
inductive AcceptedPlan (host : Host) : ConversionPlan → Prop
  | convert {preprocessOnly : Bool} {form : List Part} {sourceTask : String}
      {parent : Option TaskRecord} {directory input inputName : String} {p : ConversionPlan}
      (hplan : convertPlan host preprocessOnly form sourceTask parent directory input inputName =
        .ok p) : AcceptedPlan host p
  | preview {parts : List Part} {parent : TaskRecord} {evidence : Evidence} {p : ConversionPlan}
      (hplan : pitchPreviewPlan host parts parent evidence = .ok p) : AcceptedPlan host p

/-- The ranges of an accepted plan, as `restore_audio_plan` checks them again. -/
structure ConversionPlan.Admissible (p : ConversionPlan) : Prop where
  pitch : -48 ≤ p.pitch ∧ p.pitch ≤ 48
  filterRadius : 0 ≤ p.filterRadius ∧ p.filterRadius ≤ 31
  indexRate : 0 ≤ p.indexRate.value ∧ p.indexRate.value ≤ 1
  rms : 0 ≤ p.rms.value ∧ p.rms.value ≤ 1
  protect : 0 ≤ p.protect.value ∧ p.protect.value ≤ 1
  recipe : p.outputKind = .mix → p.workflow = .song
  preview : p.pitchPreview = true →
    p.preprocessOnly = false ∧ DigestText p.analysisId ∧ 0 ≤ p.previewStart.value ∧
      p.previewStart.value < p.previewEnd.value ∧ p.previewEnd.value ≤ 600 ∧
      p.previewEnd.sub p.previewStart ≤ 15

theorem range_of_parseIntField {text : String} {minimum maximum n : ℤ}
    (h : parseIntField text minimum maximum = some n) : minimum ≤ n ∧ n ≤ maximum := by
  rw [parseIntField] at h
  split at h
  · split_ifs at h with hrange
    obtain rfl := Option.some.inj h
    omega
  · cases h

theorem range_of_parseDoubleField {text : String} {minimum maximum : ℚ} {x : Double}
    (h : parseDoubleField text minimum maximum = some x) :
    minimum ≤ x.value ∧ x.value ≤ maximum := by
  rw [parseDoubleField] at h
  split at h
  · split_ifs at h with hrange
    obtain rfl := Option.some.inj h
    rw [not_or, not_lt, not_lt] at hrange
    exact hrange
  · cases h

theorem RestoredFrom.admissible {host : Host} {r : TaskRecord} {p : ConversionPlan}
    (h : RestoredFrom host r p) (hpreview : p.pitchPreview = false) : p.Admissible := by
  obtain ⟨_, -, hpitch⟩ := h.pitch
  obtain ⟨_, -, hfilter⟩ := h.filterRadius
  obtain ⟨_, -, hindexRate⟩ := h.indexRate
  obtain ⟨_, -, hrms⟩ := h.rms
  obtain ⟨_, -, hprotect⟩ := h.protect
  exact ⟨range_of_parseIntField hpitch, range_of_parseIntField hfilter,
    range_of_parseDoubleField hindexRate, range_of_parseDoubleField hrms,
    range_of_parseDoubleField hprotect, h.recipe, fun htrue => by simp [hpreview] at htrue⟩

theorem convertPlan_admissible {host : Host} {preprocessOnly : Bool} {form : List Part}
    {sourceTask : String} {parent : Option TaskRecord} {directory input inputName : String}
    {p : ConversionPlan}
    (h : convertPlan host preprocessOnly form sourceTask parent directory input inputName = .ok p) :
    p.Admissible := by
  simp only [convertPlan, bind_eq_ok_iff_exists, demand_eq_ok, orRefuse_eq_ok] at h
  obtain ⟨workflow, -, outputKind, -, -, hrecipe, -, -, pitch, hpitch, indexRate, hindexRate, rms,
    hrms, protect, hprotect, filterRadius, hfilter, -, -, separate, -, deharmony, -, dereverb, -,
    denoise, -, deecho, -, ⟨model, index⟩, -, -, -, hp⟩ := h
  obtain rfl := Except.ok.inj hp
  exact ⟨range_of_parseIntField hpitch, range_of_parseIntField hfilter,
    range_of_parseDoubleField hindexRate, range_of_parseDoubleField hrms,
    range_of_parseDoubleField hprotect, hrecipe, by simp⟩

theorem pitchPreviewPlan_admissible {host : Host} {parts : List Part} {parent : TaskRecord}
    {evidence : Evidence} {p : ConversionPlan}
    (h : pitchPreviewPlan host parts parent evidence = .ok p) : p.Admissible := by
  simp only [pitchPreviewPlan, bind_eq_ok_iff_exists, demand_eq_ok, orRefuse_eq_ok,
    restoreAudioPlan_eq_ok_iff] at h
  obtain ⟨-, ⟨hkind, -, hpreview⟩, restored, hrestored, plan, hplan, -, -, -, -, start, hstart, stop,
    hstop, -, ⟨hlt, hlength⟩, -, -, hp⟩ := h
  obtain rfl := Except.ok.inj hp
  have hbase := hrestored.admissible (hrestored.pitchPreview.trans hpreview)
  have hpreprocess : restored.preprocessOnly = false := by
    rw [hrestored.preprocessOnly, hkind]
    rfl
  rw [resolveSavedAudioModel, hpreprocess, if_neg Bool.false_ne_true, bind_eq_ok_iff_exists] at hplan
  obtain ⟨-, -, hplan⟩ := hplan
  obtain rfl := Except.ok.inj hplan
  have hduration := evidence.duration_le
  have hstop' := range_of_parseDoubleField hstop
  exact ⟨hbase.pitch, hbase.filterRadius, hbase.indexRate, hbase.rms, hbase.protect, by simp,
    fun _ => ⟨rfl, evidence.analysis_digest, (range_of_parseDoubleField hstart).1, hlt,
      hstop'.2.trans hduration, hlength⟩⟩

/-- **Accepted plans are in range.** -/
theorem AcceptedPlan.admissible {host : Host} {p : ConversionPlan} (h : AcceptedPlan host p) :
    p.Admissible := by
  cases h with
  | convert hplan => exact convertPlan_admissible hplan
  | preview hplan => exact pitchPreviewPlan_admissible hplan

end Resonantia.Web
