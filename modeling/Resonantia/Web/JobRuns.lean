import Resonantia.Web.JobSteps

/-!
# Runs of the service

What holds of the stored tasks over every run of the service: any interleaving of the critical
sections, faults of the disk, and restarts over the same task directory.

## Main definitions

* `Web.JobControl.Begins`: a service after its start-up.
* `Web.JobControl.Run`: steps of the service, one after the other.

## Main results

* `Web.JobControl.consistent_of_run`, `Web.JobControl.succeeded_of_run`: stored records stay
  consistent, and succeeded ones are final.
* `Web.JobControl.active_iff_of_run`: one execution at a time.
* `Web.JobControl.not_succeeded_of_paused`, `Web.JobControl.not_succeeded_of_cancelled`: an
  accepted stop request wins.
* `Web.JobControl.attempt_lt_of_started`: no attempt is started twice.
* `Web.JobControl.displayName_of_renamed`: an accepted name stays.
* `Web.JobControl.exec_of_late`: late workers change nothing.
-/

namespace Resonantia.Web.JobControl

open Std Relation Transition

/-- A service after its start-up over consistent records. -/
structure Begins (host : Host) (w : World) : Prop where
  started : ∃ instanceId starts tasks, restart instanceId starts tasks = some w.service ∧
    ∀ id r, tasks.get id = some r → Consistent host r
  unsealed : w.sealed = false

/-- A run of the service. -/
abbrev Run (host : Host) : World → World → Prop := Reach (Step host) fun _ => True

variable {host : Host} {edits : String → Prop} {stops : Prop} {w w' w₀ w₁ w₂ w₃ w₄ : World}
  {r r' : TaskRecord} {id : String} {ok : Event → Prop} {e : Event} {m m' : Moment}

/-! ### Chains and runs -/

theorem Sound.chain (hs : Sound host w) (h : ReflTransGen (Change host edits stops) w w') :
    Sound host w' := by
  induction h with
  | refl => exact hs
  | tail _ hchange ih => exact hchange.sound ih

theorem Halted.chain {attempt : ℕ} (hhalted : Halted id attempt w) (hs : Sound host w)
    (h : ReflTransGen (Change host edits stops) w w') : Halted id attempt w' := by
  induction h with
  | refl => exact hhalted
  | tail hchain hchange ih => exact hchange.halted (hs.chain hchain) ih

theorem evolves_of_chain (h : ReflTransGen (Change host edits stops) w w')
    (hget : w.service.tasks.get id = some r) :
    ∃ r', w'.service.tasks.get id = some r' ∧ Evolves (AdmittedWith host edits) r r' := by
  induction h with
  | refl => exact ⟨r, hget, Evolves.refl⟩
  | tail _ hchange ih =>
    obtain ⟨r₁, hget₁, hevolves₁⟩ := ih
    obtain ⟨r₂, hget₂, hevolves₂⟩ := hchange.evolves hget₁
    exact ⟨r₂, hget₂, hevolves₁.trans hevolves₂⟩

/-- A start-up leaves a sound service. -/
theorem Begins.sound (h : Begins host w) : Sound host w := by
  obtain ⟨instanceId, starts, tasks, hrestart, hconsistent⟩ := h.started
  have hwaiting : Sound host (waiting instanceId tasks) :=
    ⟨hconsistent, fun hrun => Bool.noConfusion hrun, fun hok => Bool.noConfusion hok,
      fun hsealed => Bool.noConfusion hsealed, fun hrec => Bool.noConfusion hrec⟩
  have hchain : ReflTransGen (Change host (fun _ => False) False) (waiting instanceId tasks)
      { service := w.service } := restart_changes hrestart
  have hw : w = { service := w.service } := by
    obtain ⟨service, sealed⟩ := w
    obtain rfl : sealed = false := h.unsealed
    rfl
  rw [hw]
  exact hwaiting.chain hchain

theorem Step.sound (h : Step host w e w') (hs : Sound host w) : Sound host w' :=
  hs.chain (h.changes hs)

theorem Sound.reach (hs : Sound host w) (h : Reach (Step host) ok w w') : Sound host w' :=
  h.invariant (fun _ _ _ _ hs hstep => hstep.sound hs) hs

theorem Halted.reach {attempt : ℕ} (hhalted : Halted id attempt w) (hs : Sound host w)
    (h : Reach (Step host) ok w w') : Halted id attempt w' :=
  h.stable (fun _ _ _ _ hs hstep => hstep.sound hs)
    (fun _ _ _ _ hs hhalted hstep => hhalted.chain hs (hstep.changes hs)) hs hhalted

/-- **Records evolve.** No run loses a record, and every change of one is admitted. -/
theorem evolves_of_reach (hs : Sound host w) (h : Reach (Step host) ok w w')
    (hget : w.service.tasks.get id = some r) :
    ∃ r', w'.service.tasks.get id = some r' ∧ Evolves (Admitted host) r r' := by
  refine h.stable (I := Sound host) (P := fun w' => ∃ r', w'.service.tasks.get id = some r' ∧
    Evolves (Admitted host) r r') (fun _ _ _ _ hs hstep => hstep.sound hs) ?_ hs
    ⟨r, hget, Evolves.refl⟩
  rintro w₁ e w₂ - hs₁ ⟨r₁, hget₁, hevolves₁⟩ hstep
  obtain ⟨r₂, hget₂, hevolves₂⟩ := evolves_of_chain (hstep.changes hs₁) hget₁
  exact ⟨r₂, hget₂, hevolves₁.trans (hevolves₂.mono (P := fun _ => True) (fun _ _ _ _ _ => trivial)
    (fun _ _ _ hu => hu.1) trivial)⟩

/-! ### A service that is played -/

instance (w : World) (c : Call) : Decidable (Permitted w c) := by
  cases c <;> unfold Permitted <;> unfold Owns <;> infer_instance

/-- The world after a section. -/
def World.after (host : Host) (m : Moment) (w : World) (c : Call) : World where
  service := (exec host m c w.service).2
  sealed :=
    if Starts c (exec host m c w.service).1 then false
    else w.sealed || Seals (exec host m c w.service).2.job c (exec host m c w.service).1

/-- Each section may be entered after those before it. -/
def Plays (host : Host) (m : Moment) : World → List Call → Prop
  | _, [] => True
  | w, c :: calls => Permitted w c ∧ Plays host m (w.after host m c) calls

instance Plays.decidable (host : Host) (m : Moment) :
    (w : World) → (calls : List Call) → Decidable (Plays host m w calls)
  | _, [] => inferInstanceAs (Decidable True)
  | w, c :: calls =>
    have := Plays.decidable host m (w.after host m c) calls
    inferInstanceAs (Decidable (Permitted w c ∧ Plays host m (w.after host m c) calls))

theorem run_of_plays (m : Moment) (calls : List Call) (h : Plays host m w calls) :
    Run host w (calls.foldl (World.after host m) w) := by
  induction calls generalizing w with
  | nil => exact Reach.refl
  | cons c calls ih =>
    have hstep : Step host w (.call m c (exec host m c w.service).1) (w.after host m c) :=
      Step.call h.1 rfl
    exact (Reach.refl.tail trivial hstep).trans (ih h.2)

theorem step_of_reply (m : Moment) (c : Call) (reply : Reply) (hpermitted : Permitted w c)
    (hreply : (exec host m c w.service).1.toOption = some reply) :
    Step host w (.call m c (.ok reply)) (w.after host m c) := by
  have hexec : (exec host m c w.service).1 = .ok reply := by
    cases hresult : (exec host m c w.service).1 with
    | error e =>
      rw [hresult] at hreply
      cases hreply
    | ok reply' =>
      rw [hresult] at hreply
      rw [Option.some.inj hreply]
  have hstep : Step host w (.call m c (exec host m c w.service).1) (w.after host m c) :=
    Step.call hpermitted rfl
  rwa [hexec] at hstep

/-- A service over an empty directory. -/
def emptyWorld : World where
  service := { tasks := TaskStore.empty, instanceId := "web" }

def anyHost : Host where
  tasks := "tasks"
  runs := "runs"
  build := "build"
  models := "models"
  hubert := "hubert"
  rmvpe := "rmvpe"
  gmodel := "gmodel"
  nonemptyRegularFile := fun _ => true
  regularCandidate := fun _ => false
  sha256File := fun path => path

theorem begins_emptyWorld : Begins anyHost emptyWorld := by
  refine ⟨⟨"web", [⟨0, false, fun _ => none, fun _ => none, fun _ => true⟩], TaskStore.empty, ?_,
    fun id r hget => ?_⟩, rfl⟩
  · have hlist : TaskStore.empty.listLocked = [] := by
      rw [← List.length_eq_zero_iff, TaskStore.listLocked, List.length_mergeSort, List.length_map,
        ExtTreeMap.length_toList]
      rfl
    simp [restart, startUp, hlist, recoverLoop, signalLoop, emptyWorld]
  · simp [TaskStore.get, TaskStore.empty] at hget

/-- The world after some sections over the empty directory. -/
def played (calls : List Call) : World := calls.foldl (World.after anyHost {}) emptyWorld

theorem run_played {calls : List Call} (h : Plays anyHost {} emptyWorld calls) :
    Run anyHost emptyWorld (played calls) :=
  run_of_plays {} calls h

/-- The ticket of the first execution. -/
def firstTicket : JobTicket := { generation := 1, publicId := "task-0001" }

/-- The stored record satisfies a test. -/
def storedAs (w : World) (test : TaskRecord → Bool) : Bool :=
  (w.service.tasks.get "task-0001").any test

theorem exists_of_storedAs {test : TaskRecord → Bool} (h : storedAs w test = true) :
    ∃ r, w.service.tasks.get "task-0001" = some r ∧ test r = true := by
  rw [storedAs] at h
  cases hget : w.service.tasks.get "task-0001" with
  | none =>
    rw [hget] at h
    cases h
  | some r =>
    rw [hget] at h
    exact ⟨r, rfl, h⟩

/-! ### Records -/

/-- **Consistent records.** Over every run, stored records pass validation, audio records are
succeeded exactly when they have a result and its digest, only trainings are cancelled, and what
was resumed can be resumed again. -/
theorem consistent_of_run (hbegins : Begins host w₀) (hrun : Run host w₀ w) :
    ∀ id r, w.service.tasks.get id = some r → Consistent host r :=
  (hbegins.sound.reach hrun).consistent

/-- A step that has run. -/
def stepCalls : List Call :=
  [.reserve "voice" .step "task-0001", .setStage 1 "step:denoise", .finish 1 "step-done" false]

/-- A conversion that has started. -/
def conversionCalls : List Call :=
  [.reserve "Alto" .conversion "task-0001", .registerControl firstTicket "control.1",
    .boundary 1 "checking"]

/-- The result file can be read. -/
def digested : Moment := { digest := some (String.ofList (List.replicate 64 'a')) }

/-- A conversion that has come to its end. -/
def convertedWorld : World :=
  [Call.finishAudio firstTicket "work/result.wav" "" false].foldl (World.after anyHost digested)
    (played (conversionCalls ++ [.boundary 1 "saving"]))

theorem consistent_of_run_conversion :
    ∃ r, convertedWorld.service.tasks.get "task-0001" = some r ∧ r.kind.Audio ∧
      r.state = .succeeded ∧ r.result ≠ "" ∧ (r.parameters["result_sha256"]?).isSome := by
  have hstored : storedAs convertedWorld (fun r => r.kind.Audio ∧ r.state = .succeeded) = true := by
    decide +kernel
  obtain ⟨r, hget, htest⟩ := exists_of_storedAs hstored
  obtain ⟨haudio, hsucceeded⟩ := of_decide_eq_true htest
  have hrun : Run anyHost emptyWorld convertedWorld :=
    (run_played (by decide +kernel)).trans (run_of_plays digested _ (by decide +kernel))
  have hconsistent := consistent_of_run begins_emptyWorld hrun _ r hget
  exact ⟨r, hget, haudio, hsucceeded, (hconsistent.succeeded haudio).1 hsucceeded⟩

/-- **Succeeded records are final.** Once a record is succeeded, every later record of the task
differs from it in its display name, its retention mark and the time of its last change only. -/
theorem succeeded_of_run (hbegins : Begins host w₀) (hrun : Run host w₀ w)
    (hget : w.service.tasks.get id = some r) (hsucceeded : r.state = .succeeded)
    (hlater : Run host w w') :
    ∃ r', w'.service.tasks.get id = some r' ∧ ∀ f : Field, f ≠ .parameter "display_name" →
      f ≠ .parameter "retention" → f ≠ .updatedMs → f.Same r r' := by
  obtain ⟨r', hget', hevolves⟩ := evolves_of_reach (hbegins.sound.reach hrun) hlater hget
  exact ⟨r', hget', fun f hname hmark htime => hevolves.of_succeeded hsucceeded hname hmark htime⟩

theorem succeeded_of_run_renamed :
    ∃ r', (played (stepCalls ++ [.rename "task-0001" "voice" "Alto"])).service.tasks.get
      "task-0001" = some r' ∧ r'.state = .succeeded := by
  have hstored : storedAs (played stepCalls) (fun r => r.state = .succeeded) = true := by
    decide +kernel
  obtain ⟨r, hget, hstate⟩ := exists_of_storedAs hstored
  have hsucceeded : r.state = .succeeded := of_decide_eq_true hstate
  obtain ⟨r', hget', hsame⟩ := succeeded_of_run begins_emptyWorld
    (run_played (by decide +kernel)) hget hsucceeded
    (run_of_plays {} [.rename "task-0001" "voice" "Alto"] (by decide))
  have hstate' : r'.state = r.state := hsame .state (by decide) (by decide) (by decide)
  exact ⟨r', hget', hstate'.trans hsucceeded⟩

/-- **One execution at a time.** While the storage works, the active records are that of the
running execution; it has the attempt and the kind of the job. -/
theorem active_iff_of_run (hbegins : Begins host w₀) (hrun : Run host w₀ w) :
    (w.service.taskStorageFailed = false → ∀ id r, w.service.tasks.get id = some r →
      (r.state.Active ↔ w.service.job.running = true ∧ w.service.job.publicId = id)) ∧
    (w.service.job.running = true → ∃ r, w.service.tasks.get w.service.job.publicId = some r ∧
      r.state.Active ∧ r.attempt = w.service.job.attempt ∧
      r.kind = w.service.job.kind.stored) := by
  have hs := hbegins.sound.reach hrun
  refine ⟨fun hok id r hget => ⟨hs.exclusive hok id r hget, ?_⟩, hs.owned⟩
  rintro ⟨hrunning, rfl⟩
  exact (hs.own hrunning hget).1

theorem active_iff_of_run_reserved :
    ∃ r, (played conversionCalls).service.tasks.get "task-0001" = some r ∧ r.state.Active ∧
      (r.state.Active ↔ (played conversionCalls).service.job.running = true ∧
        (played conversionCalls).service.job.publicId = "task-0001") := by
  have hstored : storedAs (played conversionCalls) (fun _ => true) = true := by decide +kernel
  obtain ⟨r, hget, -⟩ := exists_of_storedAs hstored
  have hiff := (active_iff_of_run begins_emptyWorld (run_played (by decide +kernel))).1
    (by decide +kernel) _ r hget
  exact ⟨r, hget, hiff.2 (by decide +kernel), hiff⟩

/-! ### Stop requests -/

/-- A stop request of an execution that is not late halts its attempt. -/
theorem halted_of_stopping (hs : Sound host w) (hrunning : w.service.job.running = true)
    (hstopping : Stopping w.service.job) (hlate : ¬Late w.service.job) :
    Halted w.service.job.publicId w.service.job.attempt w := by
  obtain ⟨r, hget, hactive, hattempt, -⟩ := hs.owned hrunning
  refine ⟨⟨r, hget, hattempt.ge⟩, fun r' hget' _ => ?_, fun _ _ _ => ⟨hstopping, ?_⟩⟩
  · obtain rfl := Option.some.inj (hget.symm.trans hget')
    exact hactive.ne_succeeded
  · rw [← Bool.not_eq_true]
    exact fun hsealed => hlate (hs.sealed hsealed hrunning)

/-- What a halted attempt has come to. -/
theorem Halted.spec {attempt : ℕ} (h : Halted id attempt w) :
    ∃ r, w.service.tasks.get id = some r ∧ attempt ≤ r.attempt ∧
      (r.attempt = attempt → r.state ≠ .succeeded) ∧
      (w.service.job.running = true → w.service.job.publicId = id →
        w.service.job.attempt = attempt → w.sealed = false) := by
  obtain ⟨r, hget, hle⟩ := h.stored
  exact ⟨r, hget, hle, h.unfinished r hget, fun hrunning hid hattempt =>
    (h.stopping hrunning hid hattempt).2⟩

theorem not_late {job : JobState} (h : ¬(job.stage = "saving" ∨ job.stage = "publishing")) :
    ¬Late job := by
  rw [Late]
  split_ifs
  · exact fun hsaving => h (Or.inl hsaving)
  · exact fun hpublishing => h (Or.inr hpublishing)

/-- An accepted pause. -/
theorem stopping_of_pause {attempt : ℕ} {durable : Bool} {s s' : Service}
    (h : pause m id attempt s = (.ok (.answered 202 durable), s')) :
    s'.job.running = true ∧ s'.job.publicId = id ∧ s'.job.attempt = attempt ∧ Stopping s'.job ∧
      ¬Late s'.job := by
  have hjob : ∀ {result s₁}, persistJobLocked m m.fault .pauseRequested false
      { s with job := { s.job with pauseRequested := true } } = (result, s₁) →
      s₁.job = { s.job with pauseRequested := true } := fun hpersist => (persist_cases hpersist).1
  rw [pause] at h
  split at h
  · rename_i hrunning
    split at h
    · cases h
    rename_i hattempt
    rw [not_not] at hattempt
    split at h
    · cases h
    rename_i hstage
    rw [not_or, not_not] at hstage
    have hnotLate := not_late hstage.2
    split at h
    · rename_i s₁ hpersist
      obtain ⟨-, rfl⟩ := Prod.mk.inj h
      rw [hjob hpersist]
      exact ⟨hrunning.1, hrunning.2, hattempt, Or.inl ⟨rfl, hstage.1⟩, hnotLate⟩
    · rename_i e s₁ hpersist
      obtain ⟨-, rfl⟩ := Prod.mk.inj h
      rw [hjob hpersist]
      exact ⟨hrunning.1, hrunning.2, hattempt, Or.inl ⟨rfl, hstage.1⟩, hnotLate⟩
  · split at h
    · cases h
    split at h
    · cases h
    split at h
    · cases h
    split at h
    · cases h
    · cases h

/-- **An accepted pause wins.** When the service has accepted to pause an attempt, that attempt
does not pass its last boundary any more and its record never reads succeeded, in any run. -/
theorem not_succeeded_of_paused {attempt : ℕ} {durable : Bool} (hbegins : Begins host w₀)
    (hrun : Run host w₀ w)
    (hpause : Step host w (.call m (.pause id attempt) (.ok (.answered 202 durable))) w₁)
    (hlater : Run host w₁ w₂) :
    ∃ r, w₂.service.tasks.get id = some r ∧ attempt ≤ r.attempt ∧
      (r.attempt = attempt → r.state ≠ .succeeded) ∧
      (w₂.service.job.running = true → w₂.service.job.publicId = id →
        w₂.service.job.attempt = attempt → w₂.sealed = false) := by
  have hs₁ := hpause.sound (hbegins.sound.reach hrun)
  have hhalted : Halted id attempt w₁ := by
    cases hpause with
    | call hpermitted hexec =>
      obtain ⟨hrunning, rfl, rfl, hstopping, hlate⟩ := stopping_of_pause hexec
      exact halted_of_stopping hs₁ hrunning hstopping hlate
  exact (hhalted.reach hs₁ hlater).spec

theorem not_succeeded_of_paused_conversion :
    ∃ r, (played (conversionCalls ++
        [.pause "task-0001" 1, .finishAudio firstTicket "" "" true])).service.tasks.get
      "task-0001" = some r ∧ 1 ≤ r.attempt ∧ (r.attempt = 1 → r.state ≠ .succeeded) := by
  have hpause : Step anyHost (played conversionCalls) _ _ :=
    step_of_reply {} (.pause "task-0001" 1) (.answered 202 true)
      (by decide +kernel) (by decide +kernel)
  obtain ⟨r, hget, hle, hstate, -⟩ := not_succeeded_of_paused begins_emptyWorld
    (run_played (by decide +kernel)) hpause
    (run_of_plays {} [.finishAudio firstTicket "" "" true] (by decide +kernel))
  exact ⟨r, hget, hle, hstate⟩

/-- The storage guard interrupts an execution: whatever it raises, the request is set. -/
theorem stopping_of_guardPause {generation : ℕ} {reason : String} {reply : Except Failure Reply}
    {s s' : Service} (h : guardPause m generation id reason s = (reply, s'))
    (hgeneration : s.job.generation = generation) (hrunning : s.job.running = true)
    (hpausable : Pausable s.job) (hstage : ¬(s.job.stage = "saving" ∨ s.job.stage = "publishing")) :
    s'.job.running = true ∧ s'.job.publicId = s.job.publicId ∧ s'.job.attempt = s.job.attempt ∧
      Stopping s'.job ∧ ¬Late s'.job := by
  have hjob : s'.job = { s.job with pauseRequested := true, storageNotice := reason } := by
    rw [guardPause] at h
    split at h
    · rename_i hskip
      rw [not_or] at hstage
      simp [hgeneration, hrunning, hstage] at hskip
    dsimp only at h
    split at h
    · rename_i e s₁ hamended
      obtain ⟨-, rfl⟩ := Prod.mk.inj h
      exact (amended_cases hamended).1
    rename_i s₁ hamended
    have hjob₁ := (amended_cases hamended).1
    split at h
    · rename_i s₂ hpersist
      obtain ⟨-, rfl⟩ := Prod.mk.inj h
      exact (persist_cases hpersist).1.trans hjob₁
    · rename_i e s₂ hpersist
      obtain ⟨-, rfl⟩ := Prod.mk.inj h
      exact (persist_cases hpersist).1.trans hjob₁
  rw [hjob]
  exact ⟨hrunning, rfl, rfl, Or.inl ⟨rfl, hpausable⟩, not_late hstage⟩

/-- **The storage guard wins.** An execution that the guard interrupts before its last stage, for
lack of room, does not complete that attempt in any run, even if the guard itself met an error. -/
theorem not_succeeded_of_guarded {generation : ℕ} {reason : String} {reply : Except Failure Reply}
    (hbegins : Begins host w₀) (hrun : Run host w₀ w)
    (hprobe : guardProbe generation w.service.job = some id)
    (hstage : ¬(w.service.job.stage = "saving" ∨ w.service.job.stage = "publishing"))
    (hguard : Step host w (.call m (.guardPause generation id reason) reply) w₁)
    (hlater : Run host w₁ w₂) :
    ∃ r, w₂.service.tasks.get id = some r ∧ w.service.job.attempt ≤ r.attempt ∧
      (r.attempt = w.service.job.attempt → r.state ≠ .succeeded) ∧
      (w₂.service.job.running = true → w₂.service.job.publicId = id →
        w₂.service.job.attempt = w.service.job.attempt → w₂.sealed = false) := by
  have hs₁ := hguard.sound (hbegins.sound.reach hrun)
  have hhalted : Halted id w.service.job.attempt w₁ := by
    rw [guardProbe] at hprobe
    split at hprobe
    · cases hprobe
    rename_i hprobed
    rw [not_or, not_or, not_or, not_or, not_not, not_not, Bool.not_eq_false] at hprobed
    obtain rfl := Option.some.inj hprobe
    cases hguard with
    | call hpermitted hexec =>
      obtain ⟨hrunning, hid, hattempt, hstopping, hlate⟩ :=
        stopping_of_guardPause hexec hprobed.2.1 hprobed.2.2.1 hprobed.2.2.2.2 hstage
      rw [← hid, ← hattempt]
      exact halted_of_stopping hs₁ hrunning hstopping hlate
  exact (hhalted.reach hs₁ hlater).spec

theorem not_succeeded_of_guarded_conversion :
    ∃ r, (played (conversionCalls ++
        [.guardPause 1 "task-0001" "full", .finishAudio firstTicket "" "" true])).service.tasks.get
      "task-0001" = some r ∧ 1 ≤ r.attempt ∧ (r.attempt = 1 → r.state ≠ .succeeded) := by
  have hguard : Step anyHost (played conversionCalls) _ _ :=
    step_of_reply {} (.guardPause 1 "task-0001" "full") (.done)
      (by decide +kernel) (by decide +kernel)
  obtain ⟨r, hget, hle, hstate, -⟩ := not_succeeded_of_guarded begins_emptyWorld
    (run_played (by decide +kernel)) (by decide +kernel) (by decide +kernel) hguard
    (run_of_plays {} [.finishAudio firstTicket "" "" true] (by decide +kernel))
  have hattempt : (played conversionCalls).service.job.attempt = 1 := by decide +kernel
  rw [hattempt] at hle hstate
  exact ⟨r, hget, hle, hstate⟩

/-- A cancellation that is accepted for the first time. -/
theorem stopping_of_cancelTrain {s s' : Service}
    (h : cancelTrain id s = (.ok (.answered 202 true), s')) :
    s'.job.running = true ∧ s'.job.publicId = id ∧ s'.job.attempt = s.job.attempt ∧
      Stopping s'.job ∧ ¬Late s'.job := by
  rw [cancelTrain] at h
  split at h
  · cases h
  split at h
  · cases h
  rename_i hid
  split at h
  · cases h
  rename_i hkind
  split at h
  · cases h
  split at h
  · cases h
  split at h
  · cases h
  rename_i hstage
  rw [not_or, Bool.not_eq_false] at hstage
  obtain ⟨-, rfl⟩ := Prod.mk.inj h
  refine ⟨hstage.1, (not_not.1 hid).symm, rfl, Or.inr ⟨rfl, not_not.1 hkind⟩, ?_⟩
  rw [Late, if_neg]
  · exact hstage.2
  · rw [show s.job.kind = .training from not_not.1 hkind]
    decide

/-- **An accepted cancellation wins.** A training whose cancellation was accepted does not publish
and its record never reads succeeded for that attempt, in any run; this holds whether or not its
inputs were fixed for recovery in between. -/
theorem not_succeeded_of_cancelled (hbegins : Begins host w₀) (hrun : Run host w₀ w)
    (hcancel : Step host w (.call m (.cancelTrain id) (.ok (.answered 202 true))) w₁)
    (hlater : Run host w₁ w₂) :
    ∃ r, w₂.service.tasks.get id = some r ∧ w.service.job.attempt ≤ r.attempt ∧
      (r.attempt = w.service.job.attempt → r.state ≠ .succeeded) ∧
      (w₂.service.job.running = true → w₂.service.job.publicId = id →
        w₂.service.job.attempt = w.service.job.attempt → w₂.sealed = false) := by
  have hs₁ := hcancel.sound (hbegins.sound.reach hrun)
  have hhalted : Halted id w.service.job.attempt w₁ := by
    cases hcancel with
    | call hpermitted hexec =>
      obtain ⟨hrunning, rfl, hattempt, hstopping, hlate⟩ := stopping_of_cancelTrain hexec
      rw [← hattempt]
      exact halted_of_stopping hs₁ hrunning hstopping hlate
  exact (hhalted.reach hs₁ hlater).spec

/-- A training that has started. -/
def trainingCalls : List Call :=
  [.reserve "Alto" .training "task-0001", .checkpoint 1 "preparing"]

theorem not_succeeded_of_cancelled_training :
    ∃ r, (played (trainingCalls ++
        [.cancelTrain "task-0001", .finishTraining 1 .cancelled])).service.tasks.get
      "task-0001" = some r ∧ 1 ≤ r.attempt ∧ (r.attempt = 1 → r.state ≠ .succeeded) := by
  have hcancel : Step anyHost (played trainingCalls) _ _ :=
    step_of_reply {} (.cancelTrain "task-0001") (.answered 202 true)
      (by decide +kernel) (by decide +kernel)
  obtain ⟨r, hget, hle, hstate, -⟩ := not_succeeded_of_cancelled begins_emptyWorld
    (run_played (by decide +kernel)) hcancel
    (run_of_plays {} [.finishTraining 1 .cancelled] (by decide +kernel))
  have hattempt : (played trainingCalls).service.job.attempt = 1 := by decide +kernel
  rw [hattempt] at hle hstate
  exact ⟨r, hget, hle, hstate⟩

/-! ### Attempts -/

/-- The execution that an event starts. -/
def Event.started : Event → Option JobTicket
  | .call _ (.reserve ..) (.ok (.started ticket)) | .call _ (.resume ..) (.ok (.started ticket)) =>
    some ticket
  | _ => none

theorem reserveJob_started {name requestedId : String} {kind : JobKind} {ticket : JobTicket}
    {s s' : Service} (h : reserveJob m name kind requestedId s = (.ok (.started ticket), s')) :
    ∃ tasks, s.tasks.save (newRecord ticket name kind m.wallMs) 0 m.fault = (.ok true, tasks) ∧
      s' = { s with tasks, job := s.job.started ticket name kind false } ∧
      ticket.generation = s.job.generation + 1 ∧ ticket.attempt = 1 := by
  rw [reserveJob] at h
  split at h
  · cases h
  split at h
  · cases h
  split at h
  · cases h
  split at h
  · cases h
  dsimp only at h
  split at h
  · rename_i tasks hsave
    obtain ⟨hreply, rfl⟩ := Prod.mk.inj h
    obtain rfl := Reply.started.inj (Except.ok.inj hreply)
    exact ⟨tasks, hsave, rfl, rfl, rfl⟩
  · cases h
  · cases h
  · cases h

theorem resume_started {attempt : ℕ} {ticket : JobTicket} {s s' : Service}
    (h : resume host m id attempt s = (.ok (.started ticket), s')) :
    ∃ r kind tasks, s.tasks.get id = some r ∧
      s.tasks.save ((Update.resume m.wallMs).apply r) r.revision m.fault = (.ok true, tasks) ∧
      s' = { s with
        tasks, job := s.job.started ticket r.name kind (decide (RecoverableTraining r)) } ∧
      ticket = { generation := s.job.generation + 1, publicId := id, attempt := r.attempt + 1 } := by
  rw [resume] at h
  split at h
  · cases h
  split at h
  · cases h
  split at h
  · cases h
  rename_i r hget
  split at h
  · cases h
  split at h
  · cases h
  split at h
  · cases h
  split at h
  · cases h
  split at h
  · cases h
  split at h
  · cases h
  rename_i kind hkind
  split at h
  · cases h
  dsimp only at h
  split at h
  · rename_i tasks hsave
    obtain ⟨hreply, rfl⟩ := Prod.mk.inj h
    obtain rfl := Reply.started.inj (Except.ok.inj hreply)
    exact ⟨r, kind, tasks, hget, hsave, rfl, rfl⟩
  · cases h
  · cases h

/-- A started execution has its ticket in the job and in the record, and the record had a smaller
attempt before, if there was one. -/
theorem started_spec {ticket : JobTicket} (h : Step host w e w')
    (hstarted : e.started = some ticket) :
    (∃ r, w'.service.tasks.get ticket.publicId = some r ∧ r.attempt = ticket.attempt) ∧
      (∀ r, w.service.tasks.get ticket.publicId = some r → r.attempt < ticket.attempt) ∧
      w.service.job.generation < ticket.generation ∧
      w'.service.job.generation = ticket.generation := by
  cases h with
  | restart h => cases hstarted
  | @call m c reply s hpermitted hexec =>
    cases c with
    | reserve name kind requestedId =>
      rcases reply with e | reply | reply | ticket' | attempt' | ⟨code, durable⟩
      all_goals try cases hstarted
      obtain ⟨tasks, hsave, rfl, hgeneration, hattempt⟩ := reserveJob_started hexec
      refine ⟨⟨_, TaskStore.get_of_save hsave, hattempt.symm⟩, fun r hget => ?_, by omega, rfl⟩
      rcases TaskStore.save_cases hsave with ⟨-, hne⟩ | ⟨hstale, -⟩
      · exact absurd rfl hne
      · rw [show (newRecord ticket name kind m.wallMs).id = ticket.publicId from rfl, hget] at hstale
        have hpos := (w.service.tasks.sound _ _ hget).2.1
        have hzero : r.revision = 0 := by simpa [TaskStore.isStale] using hstale
        omega
    | resume id attempt =>
      rcases reply with e | reply | reply | ticket' | attempt' | ⟨code, durable⟩
      all_goals try cases hstarted
      obtain ⟨r, kind, tasks, hget, hsave, rfl, rfl⟩ := resume_started hexec
      obtain rfl : r.id = id := id_of_get hget
      refine ⟨⟨{ (Update.resume m.wallMs).apply r with revision := r.revision + 1 }, ?_, rfl⟩,
        fun r' hget' => ?_, Nat.lt_succ_self _, rfl⟩
      · exact TaskStore.get_of_save hsave
      · obtain rfl := Option.some.inj (hget.symm.trans hget')
        exact Nat.lt_succ_self _
    | _ => cases hstarted

/-- **No attempt is started twice.** Of two executions of one task, the one that starts later has
the larger attempt, whatever happens in between, and across restarts. -/
theorem attempt_lt_of_started {e' : Event} {ticket ticket' : JobTicket}
    (hbegins : Begins host w₀) (hrun : Run host w₀ w₁) (hstart : Step host w₁ e w₂)
    (hticket : e.started = some ticket) (hlater : Run host w₂ w₃) (hstart' : Step host w₃ e' w₄)
    (hticket' : e'.started = some ticket') (hsame : ticket'.publicId = ticket.publicId) :
    ticket.attempt < ticket'.attempt := by
  have hs₂ := hstart.sound (hbegins.sound.reach hrun)
  obtain ⟨⟨r, hget, hattempt⟩, -⟩ := started_spec hstart hticket
  obtain ⟨r', hget', hevolves⟩ := evolves_of_reach hs₂ hlater hget
  obtain ⟨-, hlt, -⟩ := started_spec hstart' hticket'
  have hle := Evolves.attempt_le hevolves
  have hless := hlt r' (by rw [hsame, hget'])
  omega

/-- A training that is prepared for recovery and paused. -/
def pausedCalls : List Call :=
  [.prepare firstTicket true, .pause "task-0001" 1, .finishTraining 1 .paused]

theorem attempt_lt_of_started_resumed : firstTicket.attempt < 2 := by
  have hstart : Step anyHost emptyWorld _ _ :=
    step_of_reply {} (.reserve "Alto" .training "task-0001")
      (.started firstTicket) (by decide +kernel) (by decide +kernel)
  have hresume : Step anyHost
      (played (.reserve "Alto" .training "task-0001" :: pausedCalls)) _ _ :=
    step_of_reply {} (.resume "task-0001" 1)
      (.started { generation := 2, publicId := "task-0001", attempt := 2 })
      (by decide +kernel) (by decide +kernel)
  exact attempt_lt_of_started begins_emptyWorld Reach.refl hstart rfl
    (run_of_plays {} pausedCalls (by decide +kernel)) hresume rfl rfl

/-! ### Names -/

/-- A name that was accepted is displayed. -/
theorem displayName_of_rename {expected name : String} {durable : Bool} {code : ℕ}
    {s s' : Service} (h : rename m id expected name s = (.ok (.answered code durable), s')) :
    ∃ r, s'.tasks.get id = some r ∧ displayName r = name := by
  rw [rename] at h
  split at h
  · cases h
  split at h
  · rename_i s₁ hamended
    obtain ⟨-, rfl⟩ := Prod.mk.inj h
    obtain ⟨-, -, -, hcases⟩ := amended_cases hamended
    rcases hcases with ⟨htasks, hok, -⟩ | ⟨r, u, hget, hchange, hstored⟩
    · obtain ⟨r, hget, hchange⟩ := hok rfl
      split_ifs at hchange with hname
      · exact ⟨r, by rw [htasks, hget], hname⟩
      · cases hchange
    · split_ifs at hchange
      · cases hchange
      · obtain rfl := Option.some.inj (Except.ok.inj hchange)
        have hself := hstored.get_self
        rw [id_of_get hget] at hself
        refine ⟨_, hself, ?_⟩
        rw [displayName]
        simp [TaskRecord.updated, Update.apply]
  · cases h

/-- Admitted updates without an edit keep the name of a record. -/
theorem displayName_of_evolves (h : Evolves (AdmittedWith host edits) r r')
    (hedits : ¬edits r.id) : displayName r' = displayName r := by
  refine (h.invariant (P := fun r' => r'.id = r.id ∧ displayName r' = displayName r) ?_
    ⟨rfl, rfl⟩).2
  rintro r₁ u ⟨hid, hsame⟩ hu -
  refine ⟨by rw [TaskRecord.updated_id, hid], ?_⟩
  have hwrites : Field.parameter "display_name" ∉ u.writes := fun hname =>
    hedits (hid ▸ hu.2 hname)
  have hkey : (r₁.updated u).parameters["display_name"]? = r₁.parameters["display_name"]? :=
    TaskRecord.updated_same hwrites
  rw [← hsame, displayName, displayName, hkey, TaskRecord.updated_name]

/-- **An accepted name stays.** Once the service has answered a rename, the task has that name in
every run until somebody asks to rename it again: no worker, resumption or restart loses it. -/
theorem displayName_of_renamed {expected name : String} {durable : Bool} {code : ℕ}
    (hbegins : Begins host w₀) (hrun : Run host w₀ w)
    (hrename : Step host w (.call m (.rename id expected name) (.ok (.answered code durable))) w₁)
    (hlater : Reach (Step host) (fun e => ¬e.edits id) w₁ w₂) :
    ∃ r, w₂.service.tasks.get id = some r ∧ displayName r = name := by
  have hs₁ := hrename.sound (hbegins.sound.reach hrun)
  have hnamed : ∃ r, w₁.service.tasks.get id = some r ∧ displayName r = name := by
    cases hrename with
    | call hpermitted hexec => exact displayName_of_rename hexec
  refine hlater.stable (I := Sound host)
    (P := fun w => ∃ r, w.service.tasks.get id = some r ∧ displayName r = name)
    (fun _ _ _ _ hs hstep => hstep.sound hs) ?_ hs₁ hnamed
  rintro w₃ e w₄ hedits hs₃ ⟨r, hget, hname⟩ hstep
  obtain ⟨r', hget', hevolves⟩ := evolves_of_chain (hstep.changes hs₃) hget
  refine ⟨r', hget', (displayName_of_evolves hevolves ?_).trans hname⟩
  rwa [id_of_get hget]

theorem displayName_of_renamed_finished :
    ∃ r, (played [.reserve "voice" .step "task-0001", .rename "task-0001" "voice" "Alto",
      .finish 1 "step-done" false]).service.tasks.get "task-0001" = some r ∧
      displayName r = "Alto" := by
  have hrename : Step anyHost (played [.reserve "voice" .step "task-0001"]) _ _ :=
    step_of_reply {} (.rename "task-0001" "voice" "Alto")
      (.answered 200 true) (by decide +kernel) (by decide +kernel)
  have hfinish : Step anyHost ((played [.reserve "voice" .step "task-0001"]).after anyHost {}
      (.rename "task-0001" "voice" "Alto")) _ _ :=
    step_of_reply {} (.finish 1 "step-done" false) (.done)
      (by decide +kernel) (by decide +kernel)
  exact displayName_of_renamed begins_emptyWorld
    (run_of_plays {} [.reserve "voice" .step "task-0001"] (by decide +kernel))
    hrename (Reach.refl.tail (a := .call {} (.finish 1 "step-done" false) (.ok .done))
      (fun hedit => hedit) hfinish)

/-! ### Late workers -/

/-- The generation of the execution whose worker enters a section. -/
def Call.generation? : Call → Option ℕ
  | .setStage generation _ | .checkpoint generation _ | .boundary generation _ |
    .observe generation .. | .guardPause generation .. | .guardUndelivered generation |
    .registerCancel generation | .closeLease generation _ | .finish generation .. |
    .finishTraining generation _ | .beginStep generation .. => some generation
  | .registerControl ticket _ | .plan ticket _ | .recipe ticket _ | .stages ticket _ |
    .prepare ticket _ | .finishAudio ticket .. => some ticket.generation
  | .reserve .. | .resume .. | .rename .. | .cleanup .. | .pause .. | .pauseUndelivered .. |
    .cancelTrain _ => none

/-- A section of another execution changes nothing: it checks its generation, or its worker does
not enter it once the execution is over. -/
theorem exec_of_ne {c : Call} {generation : ℕ} (hpermitted : Permitted w c)
    (hc : c.generation? = some generation) (hne : w.service.job.generation ≠ generation) :
    (exec host m c w.service).2 = w.service := by
  cases c with
  | reserve | resume | rename | cleanup | pause | pauseUndelivered | cancelTrain => cases hc
  | beginStep generation name step =>
    obtain rfl := Option.some.inj hc
    exact absurd hpermitted.1.1 hne
  | registerControl ticket token =>
    obtain rfl := Option.some.inj hc
    exact absurd hpermitted.1 hne
  | plan ticket value | recipe ticket value | stages ticket value | prepare ticket value =>
    obtain rfl := Option.some.inj hc
    exact absurd hpermitted.1.1 hne
  | setStage generation stage =>
    obtain rfl := Option.some.inj hc
    rw [exec, setStage, if_pos hne]
  | checkpoint generation stage =>
    obtain rfl := Option.some.inj hc
    rw [exec, trainingCheckpoint, if_pos (Or.inl hne)]
  | boundary generation stage =>
    obtain rfl := Option.some.inj hc
    rw [exec, audioBoundary, if_pos (c := w.service.job.generation ≠ generation ∨ _) (Or.inl hne)]
    split_ifs <;> rfl
  | observe generation phase unit completed total =>
    obtain rfl := Option.some.inj hc
    rw [exec, observeProgress, if_pos (Or.inl hne)]
  | guardPause generation id reason =>
    obtain rfl := Option.some.inj hc
    rw [exec, guardPause, if_pos (Or.inl hne)]
  | guardUndelivered generation =>
    obtain rfl := Option.some.inj hc
    rw [exec, guardUndelivered, if_neg hne]
  | registerCancel generation =>
    obtain rfl := Option.some.inj hc
    rw [exec, registerCancel, if_pos (Or.inl hne)]
  | closeLease generation clean =>
    obtain rfl := Option.some.inj hc
    rw [exec, closeLease, if_neg hne]
  | finish generation stage error =>
    obtain rfl := Option.some.inj hc
    rw [exec, finish, if_pos hne]
  | finishTraining generation outcome =>
    obtain rfl := Option.some.inj hc
    rw [exec, finishTraining, if_pos (Or.inl hne)]
  | finishAudio ticket result error paused =>
    obtain rfl := Option.some.inj hc
    rw [exec, finishAudioTask, if_pos hne]

/-- Generations grow while the service does not stop. -/
theorem Change.generation_le (h : Change host edits False w w') :
    w.service.job.generation ≤ w'.service.job.generation := by
  cases h with
  | quiet hfollows => exact hfollows.generation.ge
  | start hidle hadmits hrunning hid hattempt hkind hrecoverable hgeneration => exact hgeneration.le
  | finish hfollows => exact hfollows.generation.ge
  | crash hstops => exact absurd hstops id
  | commit | enter | interrupt | ready => exact Nat.le_refl _

theorem generation_le_of_reach (hs : Sound host w)
    (h : Reach (Step host) (fun e => ¬e.stops) w w') :
    w.service.job.generation ≤ w'.service.job.generation := by
  refine h.stable (I := Sound host)
    (P := fun w' => w.service.job.generation ≤ w'.service.job.generation)
    (fun _ _ _ _ hs hstep => hstep.sound hs) ?_ hs (Nat.le_refl _)
  intro w₁ e w₂ hstays hs₁ hle hstep
  have hchain := hstep.changes hs₁
  rw [show e.stops = False from eq_false hstays] at hchain
  clear hstep
  have hgrows : w₁.service.job.generation ≤ w₂.service.job.generation := by
    induction hchain with
    | refl => exact Nat.le_refl _
    | tail _ hchange ih => exact ih.trans hchange.generation_le
  exact hle.trans hgrows

end Resonantia.Web.JobControl
