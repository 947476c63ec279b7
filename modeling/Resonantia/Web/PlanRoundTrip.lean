import Mathlib.Data.Int.Notation
import Resonantia.Web.AudioRequest
import Resonantia.Web.TaskStore

/-!
# Stored plans and their restoration

A started task keeps its plan as parameter texts; a resume rebuilds the plan from them. This
module compares the rebuilt plan with the one the first attempt ran with.

## Main definitions

* `Web.Started`: an accepted plan whose parameters the store has taken.
* `Web.RoundTrips`: restoring succeeds with the same identity and the same arguments.
* `Web.IndexRateKept`, `Web.ExcerptKept`: the retrieval rate and the preview bounds for which
  six decimals are enough.

## Main results

* `Web.restoreAudioPlan_of_started`: what a restored plan consists of.
* `Web.roundTrips_iff`: a started plan round-trips exactly when its rate and bounds are kept.
-/

namespace Resonantia.Web

open BinaryFloat Std

/-- The kind that `start_audio_task` reserves a task under. -/
def planKind (p : ConversionPlan) : TaskKind := if p.preprocessOnly then .preprocess else .convert

/-- **Started plans.** The plan was accepted, its task was reserved and at most renamed since, and
the save of its parameters went through, leaving `store`. -/
structure Started (host : Host) (id : String) (p : ConversionPlan) (before : TaskStore)
    (reserved : TaskRecord) (store : TaskStore) : Prop where
  accepted : AcceptedPlan host p
  stored : before.get id = some reserved
  kind : reserved.kind = planKind p
  renamed : OnlyRenamed reserved
  saved : before.save (withPlan p reserved) reserved.revision none = (.ok true, store)

/-- **The round trip.** The stored record restores to a plan with the identity, the conversion
arguments and the excerpt arguments of the plan that the first attempt ran with. -/
def RoundTrips (host : Host) (id : String) (p : ConversionPlan) (store : TaskStore) : Prop :=
  ∃ r restored, store.get id = some r ∧ restoreAudioPlan host r = .ok restored ∧
    audioIdentity host restored = audioIdentity host (taskPlan host id p) ∧
    (∀ input output, conversionArguments host restored input output =
      conversionArguments host (taskPlan host id p) input output) ∧
    excerptArguments restored = excerptArguments (taskPlan host id p)

/-- A conversion uses no retrieval, or at a rate above half a millionth. -/
def IndexRateKept (p : ConversionPlan) : Prop :=
  p.preprocessOnly = false → 0 < p.indexRate.value → 1 / 2 / 10 ^ 6 < p.indexRate.value

/-- The bounds of a preview are the doubles of six decimals. -/
def ExcerptKept (p : ConversionPlan) : Prop :=
  p.pitchPreview = true → SixDecimal p.previewStart ∧ SixDecimal p.previewEnd

/-! ### The restored plan -/

/-- The check of `restore_audio_plan` on the bounds that it has read back. -/
def PreviewRestorable (p : ConversionPlan) : Prop :=
  p.pitchPreview = true →
    (readBack p.previewStart).value < (readBack p.previewEnd).value ∧
      (readBack p.previewEnd).sub (readBack p.previewStart) ≤ 15

instance (p : ConversionPlan) : Decidable (PreviewRestorable p) := by
  unfold PreviewRestorable
  infer_instance

/-- The plan that a stored plan restores to. -/
def restoredPlan (host : Host) (p : ConversionPlan) (r : TaskRecord) : ConversionPlan :=
  let directory := host.work r.id
  { p with
    directory
    input := directory ++ "/source.wav"
    name := r.name
    model := directory ++ "/model.safetensors"
    index := directory ++ "/model.index"
    indexRate := readBack p.indexRate
    rms := readBack p.rms
    protect := readBack p.protect
    previewStart := if p.pitchPreview then readBack p.previewStart else zero
    previewEnd := if p.pitchPreview then readBack p.previewEnd else zero
    analysisId := if p.pitchPreview then p.analysisId else "" }

theorem parseWorkflow_text (workflow : Workflow) :
    parseWorkflow workflow.text = some workflow := by
  cases workflow <;> decide

theorem parseOutputKind_text (kind : OutputKind) : parseOutputKind kind.text = some kind := by
  cases kind <;> decide

theorem ok_bind {α β ε : Type} (a : α) (f : α → Except ε β) : (Except.ok a >>= f) = f a := rfl

section Lookups

variable {p : ConversionPlan} {r : TaskRecord} (hr : OnlyRenamed r)

theorem lookup_assigned_eq_none {key : String}
    (hkey : key ∉ ["source_task", "analysis_id", "preview_start", "preview_end"]) :
    (assignedParameters p).lookup key = none := by
  rw [List.lookup_eq_none_iff]
  intro entry hentry
  have hmem : entry.1 ∈ ["source_task", "analysis_id", "preview_start", "preview_end"] := by
    rw [assignedParameters] at hentry
    split_ifs at hentry <;> simp at hentry <;> aesop
  rw [bne_iff_ne]
  rintro rfl
  exact hkey hmem

include hr

theorem getElem?_inserted {key value : String} (hkey : key ≠ "display_name")
    (hassigned : key ∉ ["source_task", "analysis_id", "preview_start", "preview_end"])
    (hvalue : (insertedParameters p).lookup key = some value) :
    (withPlan p r).parameters[key]? = some value := by
  rw [getElem?_withPlan hr hkey, lookup_assigned_eq_none hassigned, hvalue]
  rfl

theorem parameterAt_inserted {key value : String} (hkey : key ≠ "display_name")
    (hassigned : key ∉ ["source_task", "analysis_id", "preview_start", "preview_end"])
    (hvalue : (insertedParameters p).lookup key = some value) :
    parameterAt (withPlan p r).parameters key = .ok value :=
  parameterAt_eq_ok.2 (getElem?_inserted hr hkey hassigned hvalue)

theorem storedField_inserted {α : Type} {key value : String} {parse : String → Option α} {a : α}
    {message : String} (hkey : key ≠ "display_name")
    (hassigned : key ∉ ["source_task", "analysis_id", "preview_start", "preview_end"])
    (hvalue : (insertedParameters p).lookup key = some value) (hparse : parse value = some a) :
    storedField (withPlan p r).parameters key parse message = .ok a :=
  storedField_eq_ok.2 ⟨value, getElem?_inserted hr hkey hassigned hvalue, hparse⟩

theorem pitchPreviewTask_withPlan : pitchPreviewTask (withPlan p r) = p.pitchPreview := by
  rw [pitchPreviewTask, getElem?_inserted hr (by decide) (by decide) rfl]
  cases p.pitchPreview <;> simp

theorem recovery_withPlan : (withPlan p r).parameters["recovery"]? = some "audio-v1" ∨
    pitchPreviewTask (withPlan p r) = true := by
  rw [pitchPreviewTask_withPlan hr, getElem?_inserted hr (by decide) (by decide) rfl]
  cases p.pitchPreview <;> simp

theorem sourceTask_withPlan : (withPlan p r).parameters["source_task"]?.getD "" = p.sourceTask := by
  rw [getElem?_withPlan hr (by decide), assignedParameters]
  by_cases hsource : p.sourceTask = ""
  · rw [if_pos hsource, hsource]
    split_ifs <;> rfl
  · rw [if_neg hsource]
    rfl

/-- A preview keeps its analysis and its bounds as assigned parameters. -/
theorem getElem?_preview (hpreview : p.pitchPreview = true) :
    (withPlan p r).parameters["analysis_id"]? = some p.analysisId ∧
      (withPlan p r).parameters["preview_start"]? = some (toStringDouble p.previewStart) ∧
      (withPlan p r).parameters["preview_end"]? = some (toStringDouble p.previewEnd) := by
  rw [getElem?_withPlan hr (by decide), getElem?_withPlan hr (by decide),
    getElem?_withPlan hr (by decide), assignedParameters, if_pos hpreview]
  by_cases hsource : p.sourceTask = ""
  · rw [if_pos hsource]
    exact ⟨rfl, rfl, rfl⟩
  · rw [if_neg hsource]
    exact ⟨rfl, rfl, rfl⟩

end Lookups

section Restore

variable {host : Host} {p : ConversionPlan} {r : TaskRecord} (hr : OnlyRenamed r)
  (hadmissible : p.Admissible)
include hr hadmissible

/-- The preview part is restored unless the bounds collapsed or spread in the texts. -/
theorem restorePreview_withPlan :
    restorePreview (withPlan p r) =
      if PreviewRestorable p then
        .ok ((restoredPlan host p r).analysisId, (restoredPlan host p r).previewStart,
          (restoredPlan host p r).previewEnd)
      else .error (.workflow 409 "保存的试听范围无效") := by
  rw [restorePreview, pitchPreviewTask_withPlan hr]
  rcases hpreview : p.pitchPreview with _ | _
  · rw [if_neg Bool.false_ne_true, if_pos (by simp [PreviewRestorable, hpreview])]
    simp [restoredPlan, hpreview, pure, Except.pure]
  · obtain ⟨hanalysis, hstart, hstop⟩ := getElem?_preview hr hpreview
    obtain ⟨-, hdigest, hlow, hlt, hhigh, -⟩ := hadmissible.preview hpreview
    have hstart' := parseDoubleField_readBack (n := 600) hlow (by push_cast; linarith) (by decide)
    have hstop' := parseDoubleField_readBack (n := 600) (x := p.previewEnd) (by linarith)
      (by push_cast; linarith) (by decide)
    push_cast at hstart' hstop'
    rw [if_pos rfl]
    dsimp only
    rw [parameterAt_eq_ok.2 hanalysis, ok_bind, storedField_eq_ok.2 ⟨_, hstart, hstart'⟩, ok_bind,
      storedField_eq_ok.2 ⟨_, hstop, hstop'⟩, ok_bind]
    by_cases hrestorable : PreviewRestorable p
    · obtain ⟨hless, hlength⟩ := hrestorable hpreview
      rw [if_pos hrestorable, demand_of ⟨hless, hlength, hdigest⟩, ok_bind]
      simp [restoredPlan, hpreview, pure, Except.pure]
    · rw [if_neg hrestorable, demand, if_neg]
      · rfl
      · rintro ⟨hless, hlength, -⟩
        exact hrestorable fun _ => ⟨hless, hlength⟩

/-- **What a started task restores to.** -/
theorem restoreAudioPlan_withPlan (hkind : r.kind = planKind p) :
    restoreAudioPlan host (withPlan p r) =
      if PreviewRestorable p then .ok (restoredPlan host p r)
      else .error (.workflow 409 "保存的试听范围无效") := by
  have haudio : (withPlan p r).kind.Audio := by
    change r.kind.Audio
    rw [hkind, planKind]
    split_ifs <;> decide
  have hpreprocess : decide ((withPlan p r).kind = .preprocess) = p.preprocessOnly := by
    change decide (r.kind = .preprocess) = _
    rw [hkind, planKind]
    cases p.preprocessOnly <;> decide
  have hindexRate := parseDoubleField_readBack (n := 1) hadmissible.indexRate.1
    (by simpa using hadmissible.indexRate.2) (by decide)
  have hrms := parseDoubleField_readBack (n := 1) hadmissible.rms.1
    (by simpa using hadmissible.rms.2) (by decide)
  have hprotect := parseDoubleField_readBack (n := 1) hadmissible.protect.1
    (by simpa using hadmissible.protect.2) (by decide)
  rw [Nat.cast_one] at hindexRate hrms hprotect
  rw [restoreAudioPlan, demand_of ⟨haudio, recovery_withPlan hr⟩, ok_bind,
    @restorePreview_withPlan host _ _ hr hadmissible]
  by_cases hrestorable : PreviewRestorable p
  · rw [if_pos hrestorable, if_pos hrestorable, ok_bind]
    dsimp only
    rw [parameterAt_inserted hr (by decide) (by decide) rfl, ok_bind,
      parameterAt_inserted hr (by decide) (by decide) rfl, ok_bind,
      parameterAt_inserted hr (by decide) (by decide) rfl, ok_bind,
      parameterAt_inserted hr (by decide) (by decide) rfl, ok_bind,
      storedField_inserted hr (by decide) (by decide) rfl
        (parseIntField_toString hadmissible.pitch.1 hadmissible.pitch.2 (by decide) (by decide)),
      ok_bind,
      storedField_inserted hr (by decide) (by decide) rfl
        (parseIntField_toString hadmissible.filterRadius.1 hadmissible.filterRadius.2 (by decide)
          (by decide)), ok_bind,
      storedField_inserted hr (by decide) (by decide) rfl hindexRate, ok_bind,
      storedField_inserted hr (by decide) (by decide) rfl hrms, ok_bind,
      storedField_inserted hr (by decide) (by decide) rfl hprotect, ok_bind,
      storedField_inserted hr (by decide) (by decide) rfl (parseBoolField_boolText _), ok_bind,
      storedField_inserted hr (by decide) (by decide) rfl (parseBoolField_boolText _), ok_bind,
      storedField_inserted hr (by decide) (by decide) rfl (parseBoolField_boolText _), ok_bind,
      storedField_inserted hr (by decide) (by decide) rfl (parseBoolField_boolText _), ok_bind,
      storedField_inserted hr (by decide) (by decide) rfl (parseBoolField_boolText _), ok_bind,
      parseWorkflow_text, parseOutputKind_text, orRefuse, ok_bind, orRefuse, ok_bind,
      demand_of hadmissible.recipe, ok_bind, pitchPreviewTask_withPlan hr,
      sourceTask_withPlan hr, hpreprocess]
    rfl
  · rw [if_neg hrestorable, if_neg hrestorable]
    rfl

end Restore

/-! ### The round trip -/

theorem toStringDouble_readBack_unit {x : Double} (hx : 0 ≤ x.value ∧ x.value ≤ 1) :
    toStringDouble (readBack x) = toStringDouble x :=
  toStringDouble_readBack (n := 1) hx.1 (by simpa using hx.2) (by decide)

section Compare

variable {host : Host} {p : ConversionPlan} {r : TaskRecord} (hadmissible : p.Admissible)
include hadmissible

/-- A rate is restored as positive exactly above half a millionth. -/
theorem readBack_indexRate_pos_iff :
    0 < (readBack p.indexRate).value ↔ 1 / 2 / 10 ^ 6 < p.indexRate.value :=
  readBack_pos_iff (n := 1) hadmissible.indexRate.1 (by simpa using hadmissible.indexRate.2)
    (by decide)

/-- A kept rate takes the same branch before and after. -/
theorem IndexRateKept.pos_iff (hkept : IndexRateKept p) (hconversion : p.preprocessOnly = false) :
    0 < (readBack p.indexRate).value ↔ 0 < p.indexRate.value := by
  rw [readBack_indexRate_pos_iff hadmissible]
  exact ⟨fun h => (show (0 : ℚ) < 1 / 2 / 10 ^ 6 by norm_num).trans h, hkept hconversion⟩

theorem conversionArguments_restoredPlan (hkept : IndexRateKept p) (input output : String) :
    conversionArguments host (restoredPlan host p r) input output =
      conversionArguments host (taskPlan host r.id p) input output := by
  rcases hconversion : p.preprocessOnly with _ | _
  · have hpos := hkept.pos_iff hadmissible hconversion
    have hindexRate := toStringDouble_readBack_unit hadmissible.indexRate
    have hrms := toStringDouble_readBack_unit hadmissible.rms
    have hprotect := toStringDouble_readBack_unit hadmissible.protect
    by_cases h : 0 < p.indexRate.value
    · simp [conversionArguments, restoredPlan, taskPlan, hconversion, hpos, h, hindexRate, hrms,
        hprotect]
    · simp [conversionArguments, restoredPlan, taskPlan, hconversion, hpos, h, hrms, hprotect]
  · simp [conversionArguments, restoredPlan, taskPlan, hconversion]

theorem recipeValues_restoredPlan :
    recipeValues (restoredPlan host p r) = recipeValues (taskPlan host r.id p) := by
  simp only [recipeValues, restoredPlan, taskPlan,
    toStringDouble_readBack_unit hadmissible.indexRate,
    toStringDouble_readBack_unit hadmissible.rms, toStringDouble_readBack_unit hadmissible.protect]

theorem previewValues_restoredPlan :
    previewValues (restoredPlan host p r) = previewValues (taskPlan host r.id p) := by
  rcases hpreview : p.pitchPreview with _ | _
  · simp [previewValues, restoredPlan, taskPlan, hpreview]
  · obtain ⟨-, -, hlow, hlt, hhigh, -⟩ := hadmissible.preview hpreview
    have hstart := toStringDouble_readBack (n := 600) hlow (by push_cast; linarith) (by decide)
    have hstop := toStringDouble_readBack (n := 600) (x := p.previewEnd) (by linarith)
      (by push_cast; linarith) (by decide)
    simp [previewValues, restoredPlan, taskPlan, hpreview, hstart, hstop]

theorem conversionFiles_restoredPlan (hkept : IndexRateKept p) :
    conversionFiles host (restoredPlan host p r) =
      conversionFiles host (taskPlan host r.id p) := by
  rcases hconversion : p.preprocessOnly with _ | _
  · have hpos := hkept.pos_iff hadmissible hconversion
    by_cases h : 0 < p.indexRate.value
    · simp [conversionFiles, restoredPlan, taskPlan, hconversion, hpos, h]
    · simp [conversionFiles, restoredPlan, taskPlan, hconversion, hpos, h]
  · simp [conversionFiles, restoredPlan, taskPlan, hconversion]

theorem audioIdentity_restoredPlan (hkept : IndexRateKept p) :
    audioIdentity host (restoredPlan host p r) = audioIdentity host (taskPlan host r.id p) := by
  rw [audioIdentity, audioIdentity, previewValues_restoredPlan hadmissible,
    recipeValues_restoredPlan hadmissible, conversionFiles_restoredPlan hadmissible hkept]
  rfl

/-- Kept bounds are restored as they were, and so pass the same check. -/
theorem ExcerptKept.readBack_eq (hkept : ExcerptKept p) (hpreview : p.pitchPreview = true) :
    readBack p.previewStart = p.previewStart ∧ readBack p.previewEnd = p.previewEnd := by
  obtain ⟨-, -, hlow, hlt, hhigh, -⟩ := hadmissible.preview hpreview
  exact ⟨(readBack_eq_self_iff (n := 600) hlow (by push_cast; linarith) (by decide)).2
      (hkept hpreview).1,
    (readBack_eq_self_iff (n := 600) (by linarith) (by push_cast; linarith) (by decide)).2
      (hkept hpreview).2⟩

theorem ExcerptKept.restorable (hkept : ExcerptKept p) : PreviewRestorable p := by
  intro hpreview
  obtain ⟨hstart, hstop⟩ := hkept.readBack_eq hadmissible hpreview
  obtain ⟨-, -, -, hlt, -, hlength⟩ := hadmissible.preview hpreview
  rw [hstart, hstop]
  exact ⟨hlt, hlength⟩

theorem excerptArguments_restoredPlan_iff :
    excerptArguments (restoredPlan host p r) = excerptArguments (taskPlan host r.id p) ↔
      ExcerptKept p := by
  rcases hpreview : p.pitchPreview with _ | _
  · simp [excerptArguments, restoredPlan, taskPlan, ExcerptKept, hpreview]
  · obtain ⟨-, -, hlow, hlt, hhigh, -⟩ := hadmissible.preview hpreview
    rw [ExcerptKept, ← readBack_eq_self_iff (n := 600) hlow (by push_cast; linarith) (by decide),
      ← readBack_eq_self_iff (n := 600) (x := p.previewEnd) (by linarith) (by push_cast; linarith)
        (by decide)]
    simp [excerptArguments, restoredPlan, taskPlan, hpreview]

/-- A rate that is not kept loses the four index arguments. -/
theorem indexRateKept_of_conversionArguments {input output : String}
    (h : conversionArguments host (restoredPlan host p r) input output =
      conversionArguments host (taskPlan host r.id p) input output) : IndexRateKept p := by
  intro hconversion hpos
  rw [← readBack_indexRate_pos_iff hadmissible]
  by_contra hlost
  simp only [conversionArguments, restoredPlan, taskPlan, hconversion, hlost, hpos, if_true,
    if_false, Bool.false_eq_true, Option.some.injEq] at h
  have hlength := congrArg List.length h
  simp only [List.length_append, List.length_cons, List.length_nil] at hlength
  omega

end Compare

section Started

variable {host : Host} {id : String} {p : ConversionPlan} {before : TaskStore}
  {reserved : TaskRecord} {store : TaskStore} (h : Started host id p before reserved store)
include h

theorem Started.id_eq : reserved.id = id := (before.sound id reserved h.stored).1

theorem Started.get_eq :
    store.get id = some { withPlan p reserved with revision := reserved.revision + 1 } := by
  obtain rfl := h.id_eq
  exact TaskStore.get_of_save h.saved

theorem Started.restore_eq :
    restoreAudioPlan host { withPlan p reserved with revision := reserved.revision + 1 } =
      if PreviewRestorable p then .ok (restoredPlan host p reserved)
      else .error (.workflow 409 "保存的试听范围无效") := by
  rw [restoreAudioPlan_withRevision]
  exact restoreAudioPlan_withPlan h.renamed h.accepted.admissible h.kind

theorem RoundTrips.kept (htrip : RoundTrips host id p store) : IndexRateKept p ∧ ExcerptKept p := by
  obtain ⟨r, restored, hr, hrestored, -, harguments, hexcerpt⟩ := htrip
  obtain rfl := Option.some.inj (h.get_eq.symm.trans hr)
  rw [h.restore_eq] at hrestored
  split_ifs at hrestored
  obtain rfl := Except.ok.inj hrestored
  obtain rfl := h.id_eq
  exact ⟨indexRateKept_of_conversionArguments h.accepted.admissible (harguments "" ""),
    (excerptArguments_restoredPlan_iff h.accepted.admissible).1 hexcerpt⟩

theorem roundTrips_of_kept (hindex : IndexRateKept p) (hexcerpt : ExcerptKept p) :
    RoundTrips host id p store := by
  have hadmissible := h.accepted.admissible
  have hrestore := h.restore_eq
  rw [if_pos (hexcerpt.restorable hadmissible)] at hrestore
  obtain rfl := h.id_eq
  exact ⟨_, _, h.get_eq, hrestore, audioIdentity_restoredPlan hadmissible hindex,
    conversionArguments_restoredPlan hadmissible hindex,
    (excerptArguments_restoredPlan_iff hadmissible).2 hexcerpt⟩

end Started

/-! ### Requests through the store -/

/-- The record under which a plan's task is reserved. -/
def reservedTask (id : String) (p : ConversionPlan) : TaskRecord :=
  { id, kind := planKind p, name := p.name }

/-- The store of a fresh service with that record. -/
def reservedStore (id : String) (p : ConversionPlan) : TaskStore :=
  (TaskStore.empty.save (reservedTask id p) 0 none).2

/-- Both saves of a start in a fresh store go through. -/
def StartsFresh (id : String) (p : ConversionPlan) : Prop :=
  (TaskStore.empty.save (reservedTask id p) 0 none).1.toOption = some true ∧
    ((reservedStore id p).save (withPlan p { reservedTask id p with revision := 1 }) 1
      none).1.toOption = some true

instance (id : String) (p : ConversionPlan) : Decidable (StartsFresh id p) := by
  unfold StartsFresh
  infer_instance

theorem eq_of_toOption_eq_some {α β ε : Type} {x : Except ε α × β} {a : α}
    (h : x.1.toOption = some a) : x = (.ok a, x.2) := by
  obtain ⟨result, b⟩ := x
  cases result with
  | error e => cases h
  | ok b => rw [Option.some.inj h]

theorem started_of_fresh {host : Host} {id : String} {p : ConversionPlan}
    (haccepted : AcceptedPlan host p) (hfresh : StartsFresh id p) :
    Started host id p (reservedStore id p) { reservedTask id p with revision := 1 }
      ((reservedStore id p).save (withPlan p { reservedTask id p with revision := 1 }) 1
        none).2 where
  accepted := haccepted
  stored := TaskStore.get_of_save (eq_of_toOption_eq_some hfresh.1)
  kind := rfl
  renamed := fun _ _ => ExtTreeMap.getElem?_empty
  saved := eq_of_toOption_eq_some hfresh.2

/-- A service whose voices all have a model and an index. -/
def voicedHost : Host where
  tasks := "tasks"
  runs := "runs"
  build := "build"
  models := "models"
  hubert := "hubert"
  rmvpe := "rmvpe"
  gmodel := "gmodel"
  nonemptyRegularFile := fun _ => true
  regularCandidate := fun _ => false
  sha256File := fun path => path

/-- A conversion request for a voice at a retrieval rate, other fields at their defaults. -/
def requestedPlan (rate : String) : Except Failure ConversionPlan :=
  convertPlan voicedHost false [⟨"voice", "", "alto"⟩, ⟨"index_rate", "", rate⟩] "" none "upload"
    "upload/in.wav" "in.wav"

end Resonantia.Web
