import Mathlib.Data.Nat.Notation
import Resonantia.Web.RecordUpdate

/-!
# The life of a task record

Which writer may touch a record in which state, and what that keeps. Recovery, resumption and
the finalizers decide from the state; the other writers belong to an execution that is still
active.

## Main definitions

* `Web.Resumable`, `Web.Restorable`: the records that an execution can be resumed from.
* `Web.Admitted`: the updates that some operation of the service applies to a record.
* `Web.Consistent`: what holds of every stored record.

## Main results

* `Web.Consistent.evolves`: admitted updates keep records consistent.
* `Web.Evolves.of_succeeded`: a succeeded record keeps everything but its display name, its
  retention mark and the time of its last change.
-/

namespace Resonantia.Web

open Std

/-! ### Resumption -/

/-- A training task whose inputs were fixed by `prepare_training_task`. -/
def RecoverableTraining (r : TaskRecord) : Prop :=
  r.kind = .training ∧ r.parameters["recovery"]? = some "training-full-v1"

instance (r : TaskRecord) : Decidable (RecoverableTraining r) := by
  unfold RecoverableTraining
  infer_instance

/-- The states that an execution can be resumed from. -/
def Resumable (r : TaskRecord) : Prop :=
  r.state = .paused ∨ r.state = .interrupted ∨ r.state = .failed ∨
    (RecoverableTraining r ∧ r.state = .cancelled)

instance (r : TaskRecord) : Decidable (Resumable r) := by
  unfold Resumable
  infer_instance

/-- The record still describes what its task was started with. -/
def Restorable (host : Host) (r : TaskRecord) : Prop :=
  RecoverableTraining r ∨ ∃ p, restoreAudioPlan host r = .ok p

/-- The parameters that a plan is rebuilt from. -/
def planKeys : List String :=
  ["recovery", "analysis_id", "preview_start", "preview_end", "voice", "workflow", "output_kind",
    "pitch_edits", "f0_up_key", "filter_radius", "index_rate", "rms_mix_rate", "protect",
    "pp_separate", "pp_deharmony", "pp_dereverb", "pp_deecho", "pp_denoise", "source_task"]

/-- A plan is rebuilt from nothing else. -/
theorem restoreAudioPlan_congr {host : Host} {r r' : TaskRecord} (hid : r'.id = r.id)
    (hkind : r'.kind = r.kind) (hname : r'.name = r.name)
    (hkeys : ∀ key ∈ planKeys, r'.parameters[key]? = r.parameters[key]?) :
    restoreAudioPlan host r' = restoreAudioPlan host r := by
  simp only [planKeys, List.forall_mem_cons, List.not_mem_nil, IsEmpty.forall_iff,
    implies_true, and_true] at hkeys
  obtain ⟨h₁, h₂, h₃, h₄, h₅, h₆, h₇, h₈, h₉, h₁₀, h₁₁, h₁₂, h₁₃, h₁₄, h₁₅, h₁₆, h₁₇, h₁₈, h₁₉⟩ :=
    hkeys
  simp only [restoreAudioPlan, restorePreview, pitchPreviewTask, storedField, parameterAt, hid,
    hkind, hname, h₁, h₂, h₃, h₄, h₅, h₆, h₇, h₈, h₉, h₁₀, h₁₁, h₁₂, h₁₃, h₁₄, h₁₅, h₁₆, h₁₇, h₁₈,
    h₁₉]
  rfl

/-- An update that sets neither the name nor a plan parameter keeps a record restorable. -/
theorem Restorable.updated {host : Host} {r : TaskRecord} {u : Update} (h : Restorable host r)
    (hid : Field.id ∉ u.writes) (hkind : Field.kind ∉ u.writes) (hname : Field.name ∉ u.writes)
    (hkeys : ∀ key ∈ planKeys, Field.parameter key ∉ u.writes) :
    Restorable host (r.updated u) := by
  have hsame : ∀ key ∈ planKeys, (r.updated u).parameters[key]? = r.parameters[key]? :=
    fun key hkey => TaskRecord.updated_same (hkeys key hkey)
  rcases h with ⟨htraining, hrecovery⟩ | ⟨p, hp⟩
  · have hsameKind : (r.updated u).kind = r.kind := TaskRecord.updated_same hkind
    refine Or.inl ⟨hsameKind.trans htraining, ?_⟩
    rw [hsame "recovery" (by decide), hrecovery]
  · refine Or.inr ⟨p, ?_⟩
    rw [restoreAudioPlan_congr (TaskRecord.updated_same hid) (TaskRecord.updated_same hkind)
      (TaskRecord.updated_same hname) hsame, hp]

/-! ### Admitted updates -/

/-- The updates that some operation applies to a record in this state. -/
def Admitted (host : Host) (r : TaskRecord) : Update → Prop
  | .job state _ _ terminal =>
    r.state.Active ∧
      if terminal then
        state = .paused ∨ state = .failed ∨ (state = .succeeded ∧ ¬r.kind.Audio) ∨
          (state = .cancelled ∧ r.kind = .training)
      else state.Active
  | .progress .. | .notice _ | .ready _ | .interrupt _ => r.state.Active
  | .rename .. => True
  | .prune _ => r.state = .succeeded
  | .resume _ => Resumable r ∧ Restorable host r
  | .plan _ | .recipe _ => r.state.Active ∧ r.attempt = 1
  | .prepare _ => r.state.Active ∧ r.kind = .training
  | .finishAudio state result _ digest _ _ =>
    r.state.Active ∧ r.kind.Audio ∧
      ((state = .succeeded ∧ result ≠ "" ∧ digest.isSome) ∨
        ((state = .failed ∨ state = .paused) ∧ digest = none))
  | .unsignalled => r.state = .interrupted

/-- What holds of every stored record. -/
structure Consistent (host : Host) (r : TaskRecord) : Prop where
  valid : r.Valid
  /-- An audio record is succeeded exactly when it carries a result and a digest. -/
  succeeded : r.kind.Audio →
    (r.state = .succeeded ↔ r.result ≠ "" ∧ (r.parameters["result_sha256"]?).isSome)
  cancelled : r.state = .cancelled → r.kind = .training
  /-- What was resumed once can be resumed again. -/
  restorable : 2 ≤ r.attempt → Restorable host r

variable {host : Host} {r r' : TaskRecord} {u : Update}

/-- No writer sets the identifier, the kind, the given name or the creation time. -/
theorem Update.not_mem_writes (u : Update) :
    Field.id ∉ u.writes ∧ Field.kind ∉ u.writes ∧ Field.name ∉ u.writes ∧
      Field.createdMs ∉ u.writes := by
  cases u with
  | job state stage nowMs terminal =>
    simp only [writes]
    split_ifs <;> simp
  | finishAudio state result error digest nowMs paused => cases digest <;> simp [writes]
  | _ => simp [writes]

@[simp]
theorem TaskRecord.updated_id (r : TaskRecord) (u : Update) : (r.updated u).id = r.id :=
  updated_same u.not_mem_writes.1

@[simp]
theorem TaskRecord.updated_kind (r : TaskRecord) (u : Update) : (r.updated u).kind = r.kind :=
  updated_same u.not_mem_writes.2.1

@[simp]
theorem TaskRecord.updated_name (r : TaskRecord) (u : Update) : (r.updated u).name = r.name :=
  updated_same u.not_mem_writes.2.2.1

theorem TaskState.Active.ne_succeeded {state : TaskState} (h : state.Active) :
    state ≠ .succeeded := by
  rintro rfl
  revert h
  decide

theorem TaskState.Active.ne_cancelled {state : TaskState} (h : state.Active) :
    state ≠ .cancelled := by
  rintro rfl
  revert h
  decide

/-- Only succeeded records carry a digest. -/
theorem TaskRecord.Valid.digest_eq_none (h : r.Valid) (hstate : r.state ≠ .succeeded) :
    r.parameters["result_sha256"]? = none := by
  rw [Option.eq_none_iff_forall_ne_some]
  intro value hvalue
  exact hstate (h.digest value hvalue).2.1

/-- The state that an update leaves: its own, or the one it found. -/
theorem TaskRecord.updated_state (r : TaskRecord) (u : Update) :
    (r.updated u).state = match u with
      | .job state .. => state
      | .finishAudio state .. => state
      | .resume _ => .queued
      | .interrupt _ => .interrupted
      | _ => r.state := by
  cases u with
  | job state stage nowMs terminal =>
    simp only [updated, Update.apply]
    split_ifs <;> rfl
  | _ => rfl

theorem TaskRecord.updated_attempt (r : TaskRecord) (u : Update) :
    (r.updated u).attempt = match u with
      | .resume _ => r.attempt + 1
      | _ => r.attempt := by
  cases u with
  | job state stage nowMs terminal =>
    simp only [updated, Update.apply]
    split_ifs <;> rfl
  | _ => rfl

/-- Only the finalizers complete a record. -/
theorem Admitted.succeeded_cases (h : Admitted host r u) (hstate : (r.updated u).state = .succeeded) :
    r.state = .succeeded ∧ ((∃ name nowMs, u = .rename name nowMs) ∨ ∃ nowMs, u = .prune nowMs) ∨
      ¬r.kind.Audio ∨
      ∃ result error digest nowMs paused, result ≠ "" ∧ digest.isSome = true ∧
        u = .finishAudio .succeeded result error digest nowMs paused := by
  rw [TaskRecord.updated_state] at hstate
  cases u with
  | job state stage nowMs terminal =>
    dsimp only at hstate
    subst hstate
    obtain ⟨-, h⟩ := h
    split_ifs at h
    · simp only [false_or, true_and, false_and, or_false] at h
      exact Or.inr (Or.inl h)
    · exact absurd rfl h.ne_succeeded
  | finishAudio state result error digest nowMs paused =>
    dsimp only at hstate
    subst hstate
    obtain ⟨-, -, h⟩ := h
    simp only [true_and, reduceCtorEq, or_self, false_and, or_false] at h
    exact Or.inr (Or.inr ⟨result, error, digest, nowMs, paused, h.1, h.2, rfl⟩)
  | rename name nowMs => exact Or.inl ⟨hstate, Or.inl ⟨name, nowMs, rfl⟩⟩
  | prune nowMs => exact Or.inl ⟨hstate, Or.inr ⟨nowMs, rfl⟩⟩
  | resume nowMs => cases hstate
  | interrupt nowMs => cases hstate
  | unsignalled => exact absurd (hstate.symm.trans h) (by decide)
  | progress | notice | ready => exact absurd hstate h.ne_succeeded
  | plan | recipe | prepare => exact absurd hstate h.1.ne_succeeded

/-- Only the finalizer of a training cancels a record. -/
theorem Admitted.cancelled_cases (h : Admitted host r u)
    (hstate : (r.updated u).state = .cancelled) : r.state = .cancelled ∨ r.kind = .training := by
  rw [TaskRecord.updated_state] at hstate
  cases u with
  | job state stage nowMs terminal =>
    dsimp only at hstate
    subst hstate
    obtain ⟨-, h⟩ := h
    split_ifs at h
    · simp only [false_or, true_and, false_and] at h
      exact Or.inr h
    · exact absurd rfl h.ne_cancelled
  | finishAudio state result error digest nowMs paused =>
    dsimp only at hstate
    subst hstate
    obtain ⟨-, -, h⟩ := h
    simp at h
  | resume nowMs => cases hstate
  | interrupt nowMs => cases hstate
  | _ => exact Or.inl hstate

/-- Admitted updates keep a record restorable. -/
theorem Restorable.admitted (h : Restorable host r) (hu : Admitted host r u)
    (hattempt : r.attempt ≠ 1) : Restorable host (r.updated u) := by
  obtain ⟨hid, hkind, hname, -⟩ := u.not_mem_writes
  cases u with
  | plan p => exact absurd hu.2 hattempt
  | recipe t => exact absurd hu.2 hattempt
  | prepare preprocessed =>
    refine Or.inl ⟨by rw [TaskRecord.updated_kind, hu.2], ?_⟩
    simp only [TaskRecord.updated, Update.apply]
    rw [getElem?_insert_of_ne (by decide), ExtTreeMap.getElem?_insert_self]
  | job state stage nowMs terminal =>
    refine h.updated hid hkind hname fun key _ => ?_
    cases terminal <;> cases state <;> simp [Update.writes]
  | finishAudio state result error digest nowMs paused =>
    refine h.updated hid hkind hname ?_
    cases digest <;> simp [Update.writes, planKeys]
  | _ => exact h.updated hid hkind hname (by simp [Update.writes, planKeys])

/-- **Admitted updates keep a record consistent.** -/
theorem Consistent.updated (h : Consistent host r) (hu : Admitted host r u)
    (hvalid : (r.updated u).Valid) : Consistent host (r.updated u) where
  valid := hvalid
  succeeded := by
    intro haudio
    rw [TaskRecord.updated_kind] at haudio
    by_cases hstate : (r.updated u).state = .succeeded
    · refine iff_of_true hstate ?_
      rcases hu.succeeded_cases hstate with ⟨hold, ⟨name, nowMs, rfl⟩ | ⟨nowMs, rfl⟩⟩ | hkind |
        ⟨result, error, digest, nowMs, paused, hresult, hdigest, rfl⟩
      · simpa [TaskRecord.updated, Update.apply, ExtTreeMap.getElem?_insert] using
          (h.succeeded haudio).1 hold
      · simpa [TaskRecord.updated, Update.apply, ExtTreeMap.getElem?_insert] using
          (h.succeeded haudio).1 hold
      · exact absurd haudio hkind
      · obtain ⟨value, rfl⟩ := Option.isSome_iff_exists.1 hdigest
        exact ⟨hresult, by simp [TaskRecord.updated, Update.apply]⟩
    · refine iff_of_false hstate fun hresult => ?_
      rw [hvalid.digest_eq_none hstate] at hresult
      simp at hresult
  cancelled := by
    intro hstate
    rw [TaskRecord.updated_kind]
    exact (hu.cancelled_cases hstate).elim h.cancelled id
  restorable := by
    intro hattempt
    by_cases hone : r.attempt = 1
    · rw [TaskRecord.updated_attempt] at hattempt
      cases u with
      | resume nowMs =>
        exact hu.2.updated (Update.not_mem_writes _).1 (Update.not_mem_writes _).2.1
          (Update.not_mem_writes _).2.2.1 (by simp [Update.writes, planKeys])
      | _ =>
        dsimp only at hattempt
        omega
    · have hpos := h.valid.attempt.1
      exact (h.restorable (by omega)).admitted hu hone

theorem Consistent.evolves (h : Consistent host r) (he : Evolves (Admitted host) r r') :
    Consistent host r' :=
  he.invariant (fun _ _ hr hu hvalid => hr.updated hu hvalid) h

/-- **Succeeded records are final.** Admitted updates of a succeeded record set its display name,
its retention mark and the time of its last change, and leave it succeeded. -/
theorem Evolves.of_succeeded (he : Evolves (Admitted host) r r') (hstate : r.state = .succeeded)
    {f : Field} (hname : f ≠ .parameter "display_name") (hmark : f ≠ .parameter "retention")
    (htime : f ≠ .updatedMs) : f.Same r r' := by
  refine (he.invariant (P := fun r' => r'.state = .succeeded ∧ f.Same r r') ?_
    ⟨hstate, Field.Same.refl r f⟩).2
  rintro r' u ⟨hr', hsame⟩ hu -
  have hsets : (∃ name nowMs, u = .rename name nowMs) ∨ ∃ nowMs, u = .prune nowMs := by
    cases u with
    | rename name nowMs => exact Or.inl ⟨name, nowMs, rfl⟩
    | prune nowMs => exact Or.inr ⟨nowMs, rfl⟩
    | resume nowMs =>
      rcases hu.1 with h | h | h | ⟨-, h⟩ <;> exact absurd (hr'.symm.trans h) (by decide)
    | unsignalled => exact absurd (hr'.symm.trans hu) (by decide)
    | progress | notice | ready | interrupt => exact absurd hr' hu.ne_succeeded
    | job | plan | recipe | prepare | finishAudio => exact absurd hr' hu.1.ne_succeeded
  rcases hsets with ⟨name, nowMs, rfl⟩ | ⟨nowMs, rfl⟩
  · exact ⟨hr', hsame.trans (TaskRecord.updated_same (by simp [Update.writes, hname, htime]))⟩
  · exact ⟨hr', hsame.trans (TaskRecord.updated_same (by simp [Update.writes, hmark, htime]))⟩

end Resonantia.Web
