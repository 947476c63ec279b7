import Mathlib.Tactic.ByContra
import Resonantia.Library.Transition
import Resonantia.Web.JobControl

/-!
# The protocol of executions

What the job control is for, without its messages and files: at most one execution of a task is
running; its record is rewritten by admitted updates; a stop request wins against the sealing of
the execution, or comes too late; and only sealed executions and steps succeed.

## Main definitions

* `Web.JobControl.World`: the service and whether the running execution is sealed.
* `Web.JobControl.Change`: the transitions.
* `Web.JobControl.Sound`: their invariant.
* `Web.JobControl.Halted`: an attempt that was stopped in time.

## Main results

* `Web.JobControl.Change.sound`, `Web.JobControl.Change.evolves`, `Web.JobControl.Change.halted`:
  what every transition keeps.
-/

namespace Resonantia.Web.JobControl

open Std

/-- The service, and whether the running execution has passed its last boundary. -/
structure World where
  service : Service
  sealed : Bool := false

/-- The execution has entered its last stage. -/
def Late (job : JobState) : Prop :=
  job.stage = if job.kind.Audio then "saving" else "publishing"

instance (job : JobState) : Decidable (Late job) := by
  unfold Late
  infer_instance

/-- A stop request that the job heeds. -/
def Stopping (job : JobState) : Prop :=
  (job.pauseRequested = true ∧ Pausable job) ∨
    (job.cancelRequested = true ∧ job.kind = .training)

/-! ### Records -/

/-- One stored record is rewritten by an admitted update; display names change by edits only. -/
structure Rewrites (host : Host) (edits : String → Prop) (tasks tasks' : TaskStore)
    (r : TaskRecord) (u : Update) : Prop where
  get : tasks.get r.id = some r
  admitted : Admitted host r u
  stored : Stored tasks tasks' r u
  name : Field.parameter "display_name" ∈ u.writes → edits r.id

variable {host : Host} {edits : String → Prop} {stops : Prop} {tasks tasks' : TaskStore}
  {r r' : TaskRecord} {u : Update} {id : String}

theorem Stored.get_self (h : Stored tasks tasks' r u) :
    tasks'.get r.id = some (r.updated u) := by
  obtain ⟨hvalid, rfl⟩ := h
  have hget := tasks.get_put_self (r.updated u) (Nat.succ_pos _) hvalid
  rw [TaskRecord.updated_id] at hget
  exact hget

theorem Stored.get_of_ne (h : Stored tasks tasks' r u) (hne : r.id ≠ id) :
    tasks'.get id = tasks.get id := by
  obtain ⟨hvalid, rfl⟩ := h
  exact TaskStore.get_put_of_ne (by rwa [TaskRecord.updated_id])

/-- Where a record of the new store comes from. -/
theorem Rewrites.get_cases (h : Rewrites host edits tasks tasks' r u)
    (hget : tasks'.get id = some r') :
    (id = r.id ∧ r' = r.updated u) ∨ (id ≠ r.id ∧ tasks.get id = some r') := by
  by_cases hid : r.id = id
  · subst hid
    rw [h.stored.get_self] at hget
    exact Or.inl ⟨rfl, (Option.some.inj hget).symm⟩
  · rw [h.stored.get_of_ne hid] at hget
    exact Or.inr ⟨Ne.symm hid, hget⟩

theorem Rewrites.valid (h : Rewrites host edits tasks tasks' r u) : (r.updated u).Valid := by
  obtain ⟨hvalid, -⟩ := h.stored
  exact hvalid

/-- The update leaves the attempt, and with it whether the record is active or succeeded. -/
structure Quiet (r : TaskRecord) (u : Update) : Prop where
  attempt : (r.updated u).attempt = r.attempt
  active : (r.updated u).state.Active ↔ r.state.Active
  succeeded : (r.updated u).state = .succeeded → r.state = .succeeded

/-- The record of an execution that starts: a new record, or one that is resumed. -/
inductive Admits (host : Host) (edits : String → Prop) (tasks tasks' : TaskStore) :
    TaskRecord → Prop
  | fresh (r : TaskRecord) (hrevision : 0 < r.revision) (hvalid : r.Valid)
      (hget : tasks.get r.id = none) (hattempt : r.attempt = 1) (hstate : r.state = .queued)
      (hresult : r.result = "") (htasks : tasks' = tasks.put r hrevision hvalid) :
      Admits host edits tasks tasks' r
  | resumed (r : TaskRecord) (nowMs : ℕ)
      (h : Rewrites host edits tasks tasks' r (.resume nowMs)) :
      Admits host edits tasks tasks' (r.updated (.resume nowMs))

theorem Admits.get_self (h : Admits host edits tasks tasks' r) : tasks'.get r.id = some r := by
  cases h with
  | fresh r hrevision hvalid hget hattempt hstate hresult htasks =>
    rw [htasks, TaskStore.get_put_self]
  | resumed r nowMs h => rw [TaskRecord.updated_id, h.stored.get_self]

theorem Admits.get_of_ne (h : Admits host edits tasks tasks' r) (hne : r.id ≠ id) :
    tasks'.get id = tasks.get id := by
  cases h with
  | fresh r hrevision hvalid hget hattempt hstate hresult htasks =>
    rw [htasks, TaskStore.get_put_of_ne hne]
  | resumed r nowMs h =>
    rw [TaskRecord.updated_id] at hne
    exact h.stored.get_of_ne hne

theorem Admits.queued (h : Admits host edits tasks tasks' r) : r.state = .queued := by
  cases h with
  | fresh r hrevision hvalid hget hattempt hstate hresult htasks => exact hstate
  | resumed r nowMs h => rw [TaskRecord.updated_state]

/-- An execution that starts has a larger attempt than every earlier one. -/
theorem Admits.attempt_lt (h : Admits host edits tasks tasks' r)
    (hget : tasks.get r.id = some r') : r'.attempt < r.attempt := by
  cases h with
  | fresh r hrevision hvalid hnone hattempt hstate hresult htasks =>
    rw [hnone] at hget
    cases hget
  | resumed r nowMs h =>
    rw [TaskRecord.updated_id, h.get] at hget
    obtain rfl := Option.some.inj hget
    rw [TaskRecord.updated_attempt]
    exact Nat.lt_succ_self _

theorem Admits.consistent (h : Admits host edits tasks tasks' r)
    (hall : ∀ id r, tasks.get id = some r → Consistent host r) : Consistent host r := by
  cases h with
  | fresh r hrevision hvalid hget hattempt hstate hresult htasks =>
    refine ⟨hvalid, fun _ => ?_, fun hcancelled => ?_, fun htwo => ?_⟩
    · rw [hstate, hresult]
      simp
    · rw [hstate] at hcancelled
      cases hcancelled
    · omega
  | resumed r nowMs h => exact (hall _ _ h.get).updated h.admitted h.valid

/-! ### Transitions -/

/-- The same execution; stop requests and the fixing of its inputs are only added. -/
structure JobState.Follows (job job' : JobState) : Prop where
  generation : job'.generation = job.generation
  attempt : job'.attempt = job.attempt
  publicId : job'.publicId = job.publicId
  kind : job'.kind = job.kind
  pause : job.pauseRequested = true → job'.pauseRequested = true
  cancel : job.cancelRequested = true → job'.cancelRequested = true
  recoverable : job.recoverableTraining = true → job'.recoverableTraining = true
  training : job'.recoverableTraining = true →
    job.recoverableTraining = true ∨ job.kind = .training

theorem JobState.Follows.refl (job : JobState) : job.Follows job :=
  ⟨rfl, rfl, rfl, rfl, id, id, id, Or.inl⟩

theorem JobState.Follows.stopping {job job' : JobState} (h : job.Follows job')
    (hstop : Stopping job) : Stopping job' := by
  rcases hstop with ⟨hpause, haudio | hrecoverable⟩ | ⟨hcancel, hkind⟩
  · exact Or.inl ⟨h.pause hpause, Or.inl (by rwa [h.kind])⟩
  · exact Or.inl ⟨h.pause hpause, Or.inr (h.recoverable hrecoverable)⟩
  · exact Or.inr ⟨h.cancel hcancel, h.kind.trans hkind⟩

/-- The transitions, of a service that may stop or not. It forgets the job when it stops; until the
next one is ready, the storage counts as failed. -/
inductive Change (host : Host) (edits : String → Prop) (stops : Prop) : World → World → Prop
  /-- A field of the job is set, a record is rewritten, or both. -/
  | quiet {w : World} {tasks : TaskStore} {job : JobState} {failed : Bool}
      (hfollows : w.service.job.Follows job) (hrunning : job.running = w.service.job.running)
      (hstage : w.sealed = true → job.running = true → job.stage = w.service.job.stage)
      (hfailed : w.service.taskStorageFailed = true → failed = true)
      (htasks : tasks = w.service.tasks ∨
        ∃ r u, Rewrites host edits w.service.tasks tasks r u ∧ Quiet r u) :
      Change host edits stops w
        { w with service := { w.service with tasks, job, taskStorageFailed := failed } }
  /-- The execution passes its last boundary. -/
  | commit {w : World} (hrunning : w.service.job.running = true) (hlate : Late w.service.job)
      (hstop : ¬Stopping w.service.job) : Change host edits stops w { w with sealed := true }
  /-- A record is stored, but the disk fails before the execution starts. -/
  | enter {w : World} {tasks : TaskStore} {r : TaskRecord}
      (hidle : w.service.job.running = false)
      (hadmits : Admits host edits w.service.tasks tasks r) :
      Change host edits stops w
        { w with service := { w.service with tasks, taskStorageFailed := true } }
  /-- An execution starts. -/
  | start {w : World} {tasks : TaskStore} {r : TaskRecord} {job : JobState}
      (hidle : w.service.job.running = false) (hadmits : Admits host edits w.service.tasks tasks r)
      (hrunning : job.running = true) (hid : job.publicId = r.id)
      (hattempt : job.attempt = r.attempt) (hkind : job.kind.stored = r.kind)
      (hrecoverable : job.recoverableTraining = true → job.kind = .training)
      (hgeneration : w.service.job.generation < job.generation) :
      Change host edits stops w { service := { w.service with tasks, job } }
  /-- The execution ends, with a terminal record unless the storage fails. -/
  | finish {w : World} {tasks : TaskStore} {job : JobState} {failed : Bool}
      (hfollows : w.service.job.Follows job) (hrunning : w.service.job.running = true)
      (hended : job.running = false)
      (hfailed : w.service.taskStorageFailed = true → failed = true)
      (htasks : (tasks = w.service.tasks ∧ failed = true) ∨
        ∃ r u, Rewrites host edits w.service.tasks tasks r u ∧ r.id = w.service.job.publicId ∧
          (r.updated u).attempt = r.attempt ∧ ¬(r.updated u).state.Active ∧
          ((r.updated u).state = .succeeded →
            w.sealed = true ∨ w.service.job.kind = .step)) :
      Change host edits stops w
        { w with service := { w.service with tasks, job, taskStorageFailed := failed } }
  /-- The service stops. -/
  | crash {w : World} {instanceId : String} (hstops : stops) :
      Change host edits stops w
        { service := { tasks := w.service.tasks, instanceId, taskStorageFailed := true } }
  /-- A record of an earlier service is marked interrupted. -/
  | interrupt {w : World} {tasks : TaskStore} {r : TaskRecord} {nowMs : ℕ}
      (hidle : w.service.job.running = false)
      (h : Rewrites host edits w.service.tasks tasks r (.interrupt nowMs)) :
      Change host edits stops w { w with service := { w.service with tasks } }
  /-- The service is ready. -/
  | ready {w : World} (hnone : ∀ id r, w.service.tasks.get id = some r → ¬r.state.Active) :
      Change host edits stops w { w with service := { w.service with taskStorageFailed := false } }

/-! ### Invariant -/

/-- What holds of every world. -/
structure Sound (host : Host) (w : World) : Prop where
  consistent : ∀ id r, w.service.tasks.get id = some r → Consistent host r
  /-- The running execution has an active record. -/
  owned : w.service.job.running = true → ∃ r, w.service.tasks.get w.service.job.publicId = some r ∧
    r.state.Active ∧ r.attempt = w.service.job.attempt ∧ r.kind = w.service.job.kind.stored
  /-- Unless the storage failed, no other record is active. -/
  exclusive : w.service.taskStorageFailed = false → ∀ id r, w.service.tasks.get id = some r →
    r.state.Active → w.service.job.running = true ∧ w.service.job.publicId = id
  sealed : w.sealed = true → w.service.job.running = true → Late w.service.job
  recoverable : w.service.job.recoverableTraining = true → w.service.job.kind = .training

theorem Rewrites.consistent (h : Rewrites host edits tasks tasks' r u)
    (hall : ∀ id r, tasks.get id = some r → Consistent host r) (id : String) (r' : TaskRecord)
    (hget : tasks'.get id = some r') : Consistent host r' := by
  rcases h.get_cases hget with ⟨-, rfl⟩ | ⟨-, hold⟩
  · exact (hall _ _ h.get).updated h.admitted h.valid
  · exact hall _ _ hold

/-- A quiet update keeps which records are active. -/
theorem Rewrites.active_of_quiet (h : Rewrites host edits tasks tasks' r u) (hquiet : Quiet r u)
    (hget : tasks'.get id = some r') (hactive : r'.state.Active) :
    ∃ r₀, tasks.get id = some r₀ ∧ r₀.state.Active := by
  rcases h.get_cases hget with ⟨rfl, rfl⟩ | ⟨-, hold⟩
  · exact ⟨r, h.get, hquiet.active.1 hactive⟩
  · exact ⟨r', hold, hactive⟩

variable {w w' : World}

/-- **The invariant is kept.** -/
theorem Change.sound (h : Change host edits stops w w') (hs : Sound host w) : Sound host w' := by
  cases h with
  | @quiet tasks job failed hfollows hrunning hstage hfailed htasks =>
    refine ⟨?_, fun hrun => ?_, fun hok id r hget hactive => ?_, fun hsealed hrun => ?_,
      fun hrec => ?_⟩
    · rcases htasks with rfl | ⟨r, u, h, -⟩
      · exact hs.consistent
      · exact h.consistent hs.consistent
    · dsimp only at hrun ⊢
      rw [hrunning] at hrun
      rw [hfollows.publicId, hfollows.attempt, hfollows.kind]
      obtain ⟨r₀, hget, hactive, hattempt, hkind⟩ := hs.owned hrun
      rcases htasks with rfl | ⟨r, u, h, hquiet⟩
      · exact ⟨r₀, hget, hactive, hattempt, hkind⟩
      · by_cases hid : r.id = w.service.job.publicId
        · obtain rfl : r = r₀ := Option.some.inj (h.get.symm.trans (by rw [hid, hget]))
          refine ⟨r.updated u, ?_, hquiet.active.2 hactive, hquiet.attempt.trans hattempt, ?_⟩
          · rw [← hid]
            exact h.stored.get_self
          · rw [TaskRecord.updated_kind, hkind]
        · exact ⟨r₀, by rw [h.stored.get_of_ne hid, hget], hactive, hattempt, hkind⟩
    · dsimp only at hok hget ⊢
      have hok' : w.service.taskStorageFailed = false := by
        by_contra hne
        rw [hfailed (by simpa using hne)] at hok
        cases hok
      rw [hrunning, hfollows.publicId]
      rcases htasks with rfl | ⟨r₁, u, h, hquiet⟩
      · exact hs.exclusive hok' id r hget hactive
      · obtain ⟨r₀, hget₀, hactive₀⟩ := h.active_of_quiet hquiet hget hactive
        exact hs.exclusive hok' id r₀ hget₀ hactive₀
    · dsimp only at hsealed hrun ⊢
      rw [Late, hstage hsealed hrun, hfollows.kind]
      exact hs.sealed hsealed (hrunning ▸ hrun)
    · dsimp only at hrec ⊢
      rw [hfollows.kind]
      exact (hfollows.training hrec).elim hs.recoverable id
  | commit hrunning hlate hstop =>
    exact ⟨hs.consistent, hs.owned, hs.exclusive, fun _ _ => hlate, hs.recoverable⟩
  | @enter tasks r hidle hadmits =>
    refine ⟨fun id r' hget => ?_, fun hrun => ?_, fun hok => ?_, hs.sealed, hs.recoverable⟩
    · by_cases hid : r.id = id
      · subst hid
        dsimp only at hget
        rw [hadmits.get_self] at hget
        obtain rfl := Option.some.inj hget
        exact hadmits.consistent hs.consistent
      · dsimp only at hget
        rw [hadmits.get_of_ne hid] at hget
        exact hs.consistent id r' hget
    · dsimp only at hrun
      rw [hidle] at hrun
      cases hrun
    · cases hok
  | @start tasks r job hidle hadmits hrunning hid hattempt hkind hrecoverable hgeneration =>
    have hget' : ∀ id r', tasks.get id = some r' →
        (id = r.id ∧ r' = r) ∨ (id ≠ r.id ∧ w.service.tasks.get id = some r') := by
      intro id r' hget
      by_cases hid : r.id = id
      · subst hid
        rw [hadmits.get_self] at hget
        exact Or.inl ⟨rfl, (Option.some.inj hget).symm⟩
      · rw [hadmits.get_of_ne hid] at hget
        exact Or.inr ⟨Ne.symm hid, hget⟩
    refine ⟨fun id r' hget => ?_, fun _ => ?_, fun hok id r' hget hactive => ?_, fun hsealed => ?_,
      hrecoverable⟩
    · rcases hget' id r' hget with ⟨-, rfl⟩ | ⟨-, hold⟩
      · exact hadmits.consistent hs.consistent
      · exact hs.consistent id r' hold
    · refine ⟨r, ?_, by rw [hadmits.queued]; decide, hattempt.symm, hkind.symm⟩
      dsimp only
      rw [hid]
      exact hadmits.get_self
    · rcases hget' id r' hget with ⟨rfl, rfl⟩ | ⟨-, hold⟩
      · exact ⟨hrunning, hid⟩
      · have hrun := (hs.exclusive hok id r' hold hactive).1
        rw [hidle] at hrun
        cases hrun
    · cases hsealed
  | @finish tasks job failed hfollows hrunning hended hfailed htasks =>
    refine ⟨?_, fun hrun => ?_, fun hok id r hget hactive => ?_, fun _ hrun => ?_, fun hrec => ?_⟩
    · rcases htasks with ⟨rfl, -⟩ | ⟨r, u, h, -⟩
      · exact hs.consistent
      · exact h.consistent hs.consistent
    · dsimp only at hrun
      rw [hended] at hrun
      cases hrun
    · dsimp only at hok hget
      rcases htasks with ⟨-, hbad⟩ | ⟨r₁, u, h, hown, -, hinactive, -⟩
      · rw [hbad] at hok
        cases hok
      · have hok' : w.service.taskStorageFailed = false := by
          by_contra hne
          rw [hfailed (by simpa using hne)] at hok
          cases hok
        rcases h.get_cases hget with ⟨-, rfl⟩ | ⟨hne, hold⟩
        · exact absurd hactive hinactive
        · have hid := (hs.exclusive hok' id r hold hactive).2
          exact absurd (hid.symm.trans hown.symm) hne
    · dsimp only at hrun
      rw [hended] at hrun
      cases hrun
    · dsimp only at hrec ⊢
      rw [hfollows.kind]
      exact (hfollows.training hrec).elim hs.recoverable id
  | crash hstops =>
    refine ⟨hs.consistent, fun hrun => ?_, fun hok => ?_, fun hsealed => ?_, fun hrec => ?_⟩
    · cases hrun
    · cases hok
    · cases hsealed
    · cases hrec
  | @interrupt tasks r nowMs hidle h =>
    refine ⟨h.consistent hs.consistent, fun hrun => ?_, fun hok id r' hget hactive => ?_, hs.sealed,
      hs.recoverable⟩
    · dsimp only at hrun
      rw [hidle] at hrun
      cases hrun
    · rcases h.get_cases hget with ⟨-, rfl⟩ | ⟨-, hold⟩
      · rw [TaskRecord.updated_state] at hactive
        exact absurd (show TaskState.interrupted.Active from hactive) (by decide)
      · exact hs.exclusive hok id r' hold hactive
  | ready hnone =>
    exact ⟨hs.consistent, hs.owned, fun _ id r hget hactive => absurd hactive (hnone id r hget),
      hs.sealed, hs.recoverable⟩

/-! ### The history of a record -/

/-- The admitted updates, with display names changed by edits only. -/
def AdmittedWith (host : Host) (edits : String → Prop) (r : TaskRecord) (u : Update) : Prop :=
  Admitted host r u ∧ (Field.parameter "display_name" ∈ u.writes → edits r.id)

theorem Rewrites.evolves (h : Rewrites host edits tasks tasks' r u)
    (hget : tasks.get id = some r') :
    ∃ r'', tasks'.get id = some r'' ∧ Evolves (AdmittedWith host edits) r' r'' := by
  by_cases hid : r.id = id
  · subst hid
    obtain rfl := Option.some.inj (h.get.symm.trans hget)
    exact ⟨_, h.stored.get_self, Evolves.single ⟨h.admitted, h.name⟩ h.valid⟩
  · exact ⟨r', by rw [h.stored.get_of_ne hid, hget], Evolves.refl⟩

theorem Admits.evolves (h : Admits host edits tasks tasks' r) (hget : tasks.get id = some r') :
    ∃ r'', tasks'.get id = some r'' ∧ Evolves (AdmittedWith host edits) r' r'' := by
  cases h with
  | fresh r hrevision hvalid hnone hattempt hstate hresult htasks =>
    have hid : r.id ≠ id := by
      rintro rfl
      rw [hnone] at hget
      cases hget
    exact ⟨r', by rw [htasks, TaskStore.get_put_of_ne hid, hget], Evolves.refl⟩
  | resumed r nowMs h => exact h.evolves hget

/-- **Records evolve by admitted updates, and none is lost.** -/
theorem Change.evolves (h : Change host edits stops w w') (hget : w.service.tasks.get id = some r) :
    ∃ r', w'.service.tasks.get id = some r' ∧ Evolves (AdmittedWith host edits) r r' := by
  cases h with
  | quiet hfollows hrunning hstage hfailed htasks =>
    rcases htasks with rfl | ⟨r₁, u, h, -⟩
    · exact ⟨r, hget, Evolves.refl⟩
    · exact h.evolves hget
  | enter hidle hadmits => exact hadmits.evolves hget
  | start hidle hadmits => exact hadmits.evolves hget
  | finish hfollows hrunning hended hfailed htasks =>
    rcases htasks with ⟨rfl, -⟩ | ⟨r₁, u, h, -⟩
    · exact ⟨r, hget, Evolves.refl⟩
    · exact h.evolves hget
  | interrupt hidle h => exact h.evolves hget
  | commit | crash | ready => exact ⟨r, hget, Evolves.refl⟩

/-! ### Stopped attempts -/

/-- The attempt was stopped in time: it has not succeeded and will not. -/
structure Halted (id : String) (attempt : ℕ) (w : World) : Prop where
  stored : ∃ r, w.service.tasks.get id = some r ∧ attempt ≤ r.attempt
  unfinished : ∀ r, w.service.tasks.get id = some r → r.attempt = attempt → r.state ≠ .succeeded
  stopping : w.service.job.running = true → w.service.job.publicId = id →
    w.service.job.attempt = attempt → Stopping w.service.job ∧ w.sealed = false

theorem Evolves.attempt_le {allowed : TaskRecord → Update → Prop} (h : Evolves allowed r r') :
    r.attempt ≤ r'.attempt := by
  refine h.invariant (P := fun r' => r.attempt ≤ r'.attempt) (fun r' u hle _ _ => ?_)
    (Nat.le_refl _)
  rw [TaskRecord.updated_attempt]
  split
  · exact Nat.le_succ_of_le hle
  · exact hle

theorem Stopping.not_step {job : JobState} (h : Stopping job)
    (hrecoverable : job.recoverableTraining = true → job.kind = .training) : job.kind ≠ .step := by
  intro hstep
  rcases h with ⟨-, haudio | hrec⟩ | ⟨-, hkind⟩
  · rw [hstep] at haudio
    exact absurd haudio (by decide)
  · rw [hrecoverable hrec] at hstep
    cases hstep
  · rw [hkind] at hstep
    cases hstep

/-- **A stopped attempt stays stopped.** -/
theorem Change.halted {attempt : ℕ} (h : Change host edits stops w w') (hs : Sound host w)
    (hhalted : Halted id attempt w) : Halted id attempt w' := by
  obtain ⟨r₀, hget₀, hle₀⟩ := hhalted.stored
  have hstored : ∃ r, w'.service.tasks.get id = some r ∧ attempt ≤ r.attempt := by
    obtain ⟨r', hget', hevolves⟩ := h.evolves hget₀
    exact ⟨r', hget', hle₀.trans (Evolves.attempt_le hevolves)⟩
  have hadmitted : ∀ {tasks r r'}, Admits host edits w.service.tasks tasks r →
      tasks.get id = some r' → r'.attempt = attempt → r'.state ≠ .succeeded := by
    intro tasks r r' hadmits hget hattempt
    by_cases hid : r.id = id
    · subst hid
      have hlt := hadmits.attempt_lt hget₀
      rw [hadmits.get_self] at hget
      obtain rfl := Option.some.inj hget
      omega
    · rw [hadmits.get_of_ne hid] at hget
      exact hhalted.unfinished r' hget hattempt
  refine ⟨hstored, ?_, ?_⟩
  · intro r' hget' hattempt
    cases h with
    | quiet hfollows hrunning hstage hfailed htasks =>
      rcases htasks with rfl | ⟨r, u, h, hquiet⟩
      · exact hhalted.unfinished r' hget' hattempt
      · rcases h.get_cases hget' with ⟨rfl, rfl⟩ | ⟨-, hold⟩
        · exact fun hsucceeded => hhalted.unfinished r h.get (hquiet.attempt ▸ hattempt)
            (hquiet.succeeded hsucceeded)
        · exact hhalted.unfinished r' hold hattempt
    | enter hidle hadmits => exact hadmitted hadmits hget' hattempt
    | start hidle hadmits => exact hadmitted hadmits hget' hattempt
    | finish hfollows hrunning hended hfailed htasks =>
      rcases htasks with ⟨rfl, -⟩ | ⟨r, u, h, hown, hkeeps, -, hseal⟩
      · exact hhalted.unfinished r' hget' hattempt
      · rcases h.get_cases hget' with ⟨rfl, rfl⟩ | ⟨-, hold⟩
        · intro hsucceeded
          obtain ⟨r₁, hget₁, -, hattempt₁, -⟩ := hs.owned hrunning
          rw [← hown, h.get] at hget₁
          obtain rfl := Option.some.inj hget₁
          have hjob : w.service.job.attempt = attempt :=
            hattempt₁.symm.trans (hkeeps.symm.trans hattempt)
          obtain ⟨hstopping, hunsealed⟩ := hhalted.stopping hrunning hown.symm hjob
          rcases hseal hsucceeded with hsealed | hstep
          · rw [hunsealed] at hsealed
            cases hsealed
          · exact hstopping.not_step hs.recoverable hstep
        · exact hhalted.unfinished r' hold hattempt
    | interrupt hidle h =>
      rcases h.get_cases hget' with ⟨rfl, rfl⟩ | ⟨-, hold⟩
      · rw [TaskRecord.updated_state]
        simp
      · exact hhalted.unfinished r' hold hattempt
    | commit | crash | ready => exact hhalted.unfinished r' hget' hattempt
  · intro hrun hid hattempt
    cases h with
    | quiet hfollows hrunning hstage hfailed htasks =>
      dsimp only at hrun hid hattempt ⊢
      rw [hrunning] at hrun
      rw [hfollows.publicId] at hid
      rw [hfollows.attempt] at hattempt
      obtain ⟨hstopping, hunsealed⟩ := hhalted.stopping hrun hid hattempt
      exact ⟨hfollows.stopping hstopping, hunsealed⟩
    | commit hrunning hlate hstop =>
      exact absurd (hhalted.stopping hrun hid hattempt).1 hstop
    | enter hidle hadmits => exact hhalted.stopping hrun hid hattempt
    | start hidle hadmits hrunning hid' hattempt' =>
      dsimp only at hid hattempt
      rw [hid'] at hid
      subst hid
      have hlt := hadmits.attempt_lt hget₀
      omega
    | finish hfollows hrunning hended hfailed htasks =>
      dsimp only at hrun
      rw [hended] at hrun
      cases hrun
    | crash hstops => cases hrun
    | interrupt hidle h => exact hhalted.stopping hrun hid hattempt
    | ready hnone => exact hhalted.stopping hrun hid hattempt

end Resonantia.Web.JobControl
