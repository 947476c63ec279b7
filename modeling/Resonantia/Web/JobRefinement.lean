import Mathlib.Tactic.ByContra
import Resonantia.Web.JobProtocol

/-!
# The critical sections follow the protocol

A worker runs its program: it enters sections while its execution runs, passes its last boundary
once, and reports success only after that. A worker of an earlier execution may be late with
anything that checks the generation. Clients may call at any time.

## Main definitions

* `Web.JobControl.Permitted`: when a section may be entered.
* `Web.JobControl.Step`: one section, or a restart of the service.

## Main results

* `Web.JobControl.Step.changes`: every step is a chain of transitions of the protocol.
-/

namespace Resonantia.Web.JobControl

open Std Relation

/-! ### Steps -/

/-- The execution of the generation is running. -/
def Owns (w : World) (generation : ℕ) : Prop :=
  w.service.job.generation = generation ∧ w.service.job.running = true

/-- When a section may be entered. Those of workers have their place in the program of the
execution, unless the generation is late; `plan`, `recipe`, `stages`, `prepare`, `beginStep` and
`registerControl` do not look at the generation. -/
def Permitted (w : World) : Call → Prop
  | .reserve .. | .resume .. | .observe .. | .guardUndelivered _ | .rename .. | .cleanup .. |
    .pause .. | .pauseUndelivered .. | .cancelTrain _ | .registerCancel _ | .closeLease .. => True
  | .setStage generation _ =>
    w.service.job.generation = generation → w.service.job.running = true ∧ w.sealed = false
  | .beginStep generation _ _ =>
    Owns w generation ∧ w.service.job.kind = .step ∧ w.sealed = false
  | .checkpoint generation stage =>
    w.service.job.generation = generation →
      w.service.job.running = true ∧ w.service.job.kind = .training ∧ w.sealed = false ∧
        (stage = "publishing" → w.service.job.recoverableTraining = false)
  | .boundary generation _ =>
    w.service.job.generation = generation → generation ≠ 0 →
      w.service.job.running = true ∧ Pausable w.service.job ∧ w.sealed = false
  | .guardPause generation id _ =>
    w.service.job.generation = generation → w.service.job.running = true →
      id = w.service.job.publicId ∧ Pausable w.service.job
  | .registerControl ticket _ => Owns w ticket.generation
  | .plan ticket _ | .recipe ticket _ =>
    Owns w ticket.generation ∧ ticket.publicId = w.service.job.publicId ∧
      w.service.job.attempt = 1
  | .stages ticket _ => Owns w ticket.generation ∧ ticket.publicId = w.service.job.publicId
  | .prepare ticket _ =>
    Owns w ticket.generation ∧ ticket.publicId = w.service.job.publicId ∧
      w.service.job.kind = .training
  | .finish generation _ _ =>
    w.service.job.generation = generation →
      w.service.job.running = true ∧ w.service.job.kind = .step
  | .finishTraining generation outcome =>
    w.service.job.generation = generation → w.service.job.kind = .training →
      w.service.job.running = true ∧ (outcome = .done → w.sealed = true)
  | .finishAudio ticket result error paused =>
    w.service.job.generation = ticket.generation →
      w.service.job.running = true ∧ w.service.job.kind.Audio ∧
        ticket.publicId = w.service.job.publicId ∧
        (error = "" → paused = false → w.sealed = true ∧ result ≠ "")

/-- The section was the last boundary of an execution: it entered the last stage. -/
def Seals (job : JobState) : Call → Except Failure Reply → Bool
  | .boundary generation stage, .ok .done => generation ≠ 0 && stage ≠ "" && decide (Late job)
  | .checkpoint _ _, .ok .done => decide (Late job)
  | _, _ => false

/-- An execution was started. -/
def Starts : Call → Except Failure Reply → Bool
  | .reserve .., .ok (.started _) | .resume .., .ok (.started _) => true
  | _, _ => false

inductive Event
  | call (m : Moment) (c : Call) (reply : Except Failure Reply)
  | restart (instanceId : String) (starts : List StartUp)

inductive Step (host : Host) : World → Event → World → Prop
  | call {w : World} {m : Moment} {c : Call} {reply : Except Failure Reply} {s : Service}
      (hpermitted : Permitted w c) (hexec : exec host m c w.service = (reply, s)) :
      Step host w (.call m c reply)
        { service := s, sealed := if Starts c reply then false else w.sealed || Seals s.job c reply }
  | restart {w : World} {instanceId : String} {starts : List StartUp} {s : Service}
      (h : restart instanceId starts w.service.tasks = some s) :
      Step host w (.restart instanceId starts) { service := s }

/-- The tasks that an event may rename. -/
def Event.edits : Event → String → Prop
  | .call _ (.rename id _ _) _, other => other = id
  | _, _ => False

/-- The events of a service that stopped. -/
def Event.stops : Event → Prop
  | .restart .. => True
  | .call .. => False

variable {host : Host} {edits : String → Prop} {stops : Prop} {w : World} {m : Moment}
  {s s' : Service} {r : TaskRecord} {u : Update}

/-! ### Changes of a service -/

theorem id_of_get {tasks : TaskStore} {id : String} (h : tasks.get id = some r) : r.id = id :=
  (tasks.sound id r h).1

/-- A quiet transition, from what it does to each part of the service. -/
theorem quiet_of (hinstance : s.instanceId = w.service.instanceId)
    (hfollows : w.service.job.Follows s.job) (hrunning : s.job.running = w.service.job.running)
    (hstage : w.sealed = true → s.job.running = true → s.job.stage = w.service.job.stage)
    (hfailed : w.service.taskStorageFailed = true → s.taskStorageFailed = true)
    (htasks : s.tasks = w.service.tasks ∨
      ∃ r u, Rewrites host edits w.service.tasks s.tasks r u ∧ Quiet r u) :
    Change host edits stops w { w with service := s } := by
  obtain ⟨tasks, instanceId, failed, job⟩ := s
  obtain rfl : instanceId = w.service.instanceId := hinstance
  exact Change.quiet hfollows hrunning hstage hfailed htasks

/-- Only fields of the job were set. -/
theorem quiet_job {job : JobState} (hfollows : w.service.job.Follows job)
    (hrunning : job.running = w.service.job.running)
    (hstage : w.sealed = true → job.stage = w.service.job.stage) :
    Change host edits stops w { w with service := { w.service with job } } :=
  quiet_of rfl hfollows hrunning (fun hsealed _ => hstage hsealed) id (Or.inl rfl)

theorem quiet_of_active (hattempt : (r.updated u).attempt = r.attempt) (hr : r.state.Active)
    (hu : (r.updated u).state.Active) : Quiet r u :=
  ⟨hattempt, iff_of_true hu hr, fun h => absurd h hu.ne_succeeded⟩

theorem quiet_of_state (hattempt : (r.updated u).attempt = r.attempt)
    (hstate : (r.updated u).state = r.state) : Quiet r u :=
  ⟨hattempt, by rw [hstate], fun h => hstate ▸ h⟩

/-- What the amendment of a service does. -/
theorem amended_cases {poison : Bool} {fault : Option DiskFault} {id : String}
    {missing stale : Failure} {change : TaskRecord → Except Failure (Option Update)}
    {result : Except Failure Unit}
    (h : s.amended poison (amend m fault id missing stale change s.tasks) = (result, s')) :
    s'.job = s.job ∧ s'.instanceId = s.instanceId ∧
      (s.taskStorageFailed = true → s'.taskStorageFailed = true) ∧
      ((s'.tasks = s.tasks ∧ (result = .ok () → ∃ r, s.tasks.get id = some r ∧
          change r = .ok none) ∧
          (result ≠ .ok () → poison = true → s'.taskStorageFailed = true)) ∨
        ∃ r u, s.tasks.get id = some r ∧ change r = .ok (some u) ∧
          Stored s.tasks s'.tasks r u) := by
  obtain ⟨outcome, tasks, hamend⟩ :
      ∃ outcome tasks, amend m fault id missing stale change s.tasks = (outcome, tasks) :=
    ⟨_, _, rfl⟩
  rw [hamend] at h
  have hcases := amend_cases hamend
  cases outcome with
  | error e =>
    obtain ⟨rfl, rfl⟩ := Prod.mk.inj h
    refine ⟨rfl, rfl, fun hfailed => by simp [hfailed], ?_⟩
    exact hcases.imp_left fun hsame => ⟨hsame.1, hsame.2, fun _ hpoison => by simp [hpoison]⟩
  | ok =>
    obtain ⟨rfl, rfl⟩ := Prod.mk.inj h
    refine ⟨rfl, rfl, fun hfailed => hfailed, ?_⟩
    exact hcases.imp_left fun hsame => ⟨hsame.1, hsame.2, fun hne => absurd rfl hne⟩

/-- What `persist_job_locked` does. -/
theorem persist_cases {fault : Option DiskFault} {state : TaskState} {terminal : Bool}
    {result : Except Failure Unit}
    (h : persistJobLocked m fault state terminal s = (result, s')) :
    s'.job = s.job ∧ s'.instanceId = s.instanceId ∧
      (s.taskStorageFailed = true → s'.taskStorageFailed = true) ∧
      ((s'.tasks = s.tasks ∧ s'.taskStorageFailed = true) ∨
        ∃ r, s.tasks.get s.job.publicId = some r ∧
          Stored s.tasks s'.tasks r (.job state s.job.stage m.wallMs terminal)) := by
  rw [persistJobLocked] at h
  split at h
  · rename_i hfailed
    obtain ⟨-, rfl⟩ := Prod.mk.inj h
    exact ⟨rfl, rfl, id, Or.inl ⟨rfl, hfailed⟩⟩
  obtain ⟨hjob, hinstance, hmono, hcases⟩ := amended_cases h
  refine ⟨hjob, hinstance, hmono, ?_⟩
  rcases hcases with ⟨htasks, hok, herror⟩ | ⟨r, u, hget, hchange, hstored⟩
  · refine Or.inl ⟨htasks, ?_⟩
    by_cases hresult : result = .ok ()
    · obtain ⟨r, -, hchange⟩ := hok hresult
      split at hchange <;> cases hchange
    · exact herror hresult rfl
  · split at hchange
    · cases hchange
    · obtain rfl := Option.some.inj (Except.ok.inj hchange)
      exact Or.inr ⟨r, hget, hstored⟩

theorem not_mem_writes_job (state : TaskState) (stage : String) (nowMs : ℕ) (terminal : Bool) :
    Field.parameter "display_name" ∉ (Update.job state stage nowMs terminal).writes := by
  rw [Update.writes]
  split_ifs <;> simp

/-- The record of the running execution. -/
theorem Sound.own (hs : Sound host w) (hrunning : w.service.job.running = true)
    (hget : w.service.tasks.get w.service.job.publicId = some r) :
    r.state.Active ∧ r.attempt = w.service.job.attempt ∧
      r.kind = w.service.job.kind.stored := by
  obtain ⟨r', hget', hown⟩ := hs.owned hrunning
  obtain rfl := Option.some.inj (hget.symm.trans hget')
  exact hown

/-- The running execution persists a state in which it stays active. -/
theorem persist_quiet {job : JobState} {fault : Option DiskFault} {state : TaskState}
    {result : Except Failure Unit} (hs : Sound host w)
    (hrunning : w.service.job.running = true) (hfollows : w.service.job.Follows job)
    (hrun : job.running = w.service.job.running)
    (hstage : w.sealed = true → job.stage = w.service.job.stage) (hstate : state.Active)
    (h : persistJobLocked m fault state false { w.service with job } = (result, s')) :
    Change host edits stops w { w with service := s' } ∧ s'.job = job := by
  obtain ⟨hjob, hinstance, hmono, hcases⟩ := persist_cases h
  refine ⟨quiet_of hinstance (hjob ▸ hfollows) (hjob ▸ hrun) (fun hsealed _ => hjob ▸ hstage hsealed)
    hmono ?_, hjob⟩
  rcases hcases with ⟨htasks, -⟩ | ⟨r, hget, hstored⟩
  · exact Or.inl htasks
  · dsimp only at hget hstored
    rw [hfollows.publicId] at hget
    obtain ⟨hactive, -, -⟩ := hs.own hrunning hget
    refine Or.inr ⟨r, _, ⟨by rw [id_of_get hget, hget], ?_, hstored,
      fun hname => absurd hname (not_mem_writes_job _ _ _ _)⟩, ?_⟩
    · exact ⟨hactive, by simpa using hstate⟩
    · refine quiet_of_active ?_ hactive ?_
      · rw [TaskRecord.updated_attempt]
      · rw [TaskRecord.updated_state]
        exact hstate

/-! ### Start -/

variable (host edits) in
/-- A new record is admitted, or nothing changes. -/
theorem newRecord_admits {ticket : JobTicket} {name : String} {kind : JobKind} {nowMs : ℕ}
    {fault : Option DiskFault} {tasks tasks' : TaskStore} {result : Except StoreError Bool}
    (h : tasks.save (newRecord ticket name kind nowMs) 0 fault = (result, tasks')) :
    (tasks' = tasks ∧ result ≠ .ok true) ∨
      Admits host edits tasks tasks'
        { newRecord ticket name kind nowMs with revision := 0 + 1 } ∧
        (result = .ok true ∨ result = .error .disk) := by
  rcases TaskStore.save_cases h with hsame | ⟨hstale, -, hvalid, hput, hresult⟩
  · exact Or.inl hsame
  · refine Or.inr ⟨.fresh _ (Nat.succ_pos _) hvalid ?_ rfl rfl rfl hput,
      hresult.imp_right fun herror => herror.1⟩
    cases hget : tasks.get (newRecord ticket name kind nowMs).id with
    | none => rfl
    | some old =>
      rw [hget] at hstale
      have hpos := (tasks.sound _ _ hget).2.1
      have hzero : old.revision = 0 := by simpa [TaskStore.isStale] using hstale
      omega

variable (edits) in
/-- `reserve_job` starts an execution, or spoils the storage, or changes nothing. -/
theorem reserveJob_changes {name requestedId : String} {kind : JobKind}
    {reply : Except Failure Reply}
    (h : reserveJob m name kind requestedId w.service = (reply, s')) :
    (Starts (.reserve name kind requestedId) reply = true ∧
        Change host edits stops w { service := s' }) ∨
      Starts (.reserve name kind requestedId) reply = false ∧
        ReflTransGen (Change host edits stops) w { w with service := s' } := by
  rw [reserveJob] at h
  split at h
  · obtain ⟨rfl, rfl⟩ := Prod.mk.inj h
    exact Or.inr ⟨rfl, .refl⟩
  rename_i hidle
  rw [Bool.not_eq_true] at hidle
  split at h
  · obtain ⟨rfl, rfl⟩ := Prod.mk.inj h
    exact Or.inr ⟨rfl, .refl⟩
  split at h
  · obtain ⟨rfl, rfl⟩ := Prod.mk.inj h
    exact Or.inr ⟨rfl, .refl⟩
  split at h
  · obtain ⟨rfl, rfl⟩ := Prod.mk.inj h
    exact Or.inr ⟨rfl, .refl⟩
  dsimp only at h
  split at h
  · rename_i tasks hsave
    obtain ⟨rfl, rfl⟩ := Prod.mk.inj h
    rcases newRecord_admits host edits hsave with ⟨-, hne⟩ | ⟨hadmits, -⟩
    · exact absurd rfl hne
    · exact Or.inl ⟨rfl, Change.start hidle hadmits rfl rfl rfl rfl (fun hrec => by cases hrec)
        (Nat.lt_succ_self _)⟩
  · rename_i tasks hsave
    obtain ⟨rfl, rfl⟩ := Prod.mk.inj h
    rcases newRecord_admits host edits hsave with ⟨rfl, -⟩ | ⟨-, hok | herror⟩
    · exact Or.inr ⟨rfl, .refl⟩
    · cases hok
    · cases herror
  · rename_i tasks hsave
    obtain ⟨rfl, rfl⟩ := Prod.mk.inj h
    rcases newRecord_admits host edits hsave with ⟨rfl, -⟩ | ⟨-, hok | herror⟩
    · exact Or.inr ⟨rfl, .refl⟩
    · cases hok
    · cases herror
  · rename_i tasks hsave
    obtain ⟨rfl, rfl⟩ := Prod.mk.inj h
    rcases newRecord_admits host edits hsave with ⟨rfl, -⟩ | ⟨hadmits, -⟩
    · exact Or.inr ⟨rfl, .single (quiet_of rfl (JobState.Follows.refl _) rfl (fun _ _ => rfl)
        (fun _ => rfl) (Or.inl rfl))⟩
    · exact Or.inr ⟨rfl, .single (Change.enter hidle hadmits)⟩

/-- A record that can be resumed is restorable, and has the kind of the new job. -/
theorem resumedKind_spec {kind : JobKind} (h : resumedKind host r = .ok kind) :
    Restorable host r ∧ kind.stored = r.kind ∧
      (decide (RecoverableTraining r) = true → kind = .training) := by
  rw [resumedKind] at h
  split at h
  · rename_i htraining
    obtain rfl := Except.ok.inj h
    exact ⟨Or.inl htraining, htraining.1.symm, fun _ => rfl⟩
  rename_i htraining
  split at h
  · cases h
  rename_i plan hplan
  obtain rfl := Except.ok.inj h
  refine ⟨Or.inr ⟨plan, hplan⟩, ?_, fun hrec => absurd (of_decide_eq_true hrec) htraining⟩
  have hrestored := restoreAudioPlan_eq_ok_iff.1 hplan
  rw [hrestored.preprocessOnly]
  rcases hrestored.kind with hkind | hkind
  · simp [hkind, JobKind.stored]
  · simp [hkind, JobKind.stored]

variable (edits) in
/-- The resumption starts an execution, or spoils the storage, or changes nothing. -/
theorem resume_changes {id : String} {attempt : ℕ} {reply : Except Failure Reply}
    (h : resume host m id attempt w.service = (reply, s')) :
    (Starts (.resume id attempt) reply = true ∧ Change host edits stops w { service := s' }) ∨
      Starts (.resume id attempt) reply = false ∧
        ReflTransGen (Change host edits stops) w { w with service := s' } := by
  rw [resume] at h
  split at h
  · obtain ⟨rfl, rfl⟩ := Prod.mk.inj h
    exact Or.inr ⟨rfl, .refl⟩
  split at h
  · obtain ⟨rfl, rfl⟩ := Prod.mk.inj h
    exact Or.inr ⟨rfl, .refl⟩
  split at h
  · obtain ⟨rfl, rfl⟩ := Prod.mk.inj h
    exact Or.inr ⟨rfl, .refl⟩
  rename_i r hget
  split at h
  · obtain ⟨rfl, rfl⟩ := Prod.mk.inj h
    exact Or.inr ⟨rfl, .refl⟩
  split at h
  · obtain ⟨rfl, rfl⟩ := Prod.mk.inj h
    exact Or.inr ⟨rfl, .refl⟩
  split at h
  · obtain ⟨rfl, rfl⟩ := Prod.mk.inj h
    exact Or.inr ⟨rfl, .refl⟩
  rename_i hidle
  rw [Bool.not_eq_true] at hidle
  split at h
  · obtain ⟨rfl, rfl⟩ := Prod.mk.inj h
    exact Or.inr ⟨rfl, .refl⟩
  split at h
  · obtain ⟨rfl, rfl⟩ := Prod.mk.inj h
    exact Or.inr ⟨rfl, .refl⟩
  rename_i hresumable
  rw [not_not] at hresumable
  split at h
  · obtain ⟨rfl, rfl⟩ := Prod.mk.inj h
    exact Or.inr ⟨rfl, .refl⟩
  rename_i kind hkind
  obtain ⟨hrestorable, hstored, htraining⟩ := resumedKind_spec hkind
  split at h
  · obtain ⟨rfl, rfl⟩ := Prod.mk.inj h
    exact Or.inr ⟨rfl, .refl⟩
  have hid : r.id = id := id_of_get hget
  have hadmits : ∀ {tasks}, Stored w.service.tasks tasks r (.resume m.wallMs) →
      Admits host edits w.service.tasks tasks (r.updated (.resume m.wallMs)) := fun hstored =>
    .resumed r m.wallMs ⟨by rw [hid, hget], ⟨hresumable, hrestorable⟩, hstored,
      fun hname => by simp [Update.writes] at hname⟩
  dsimp only at h
  split at h
  · rename_i tasks hsave
    obtain ⟨rfl, rfl⟩ := Prod.mk.inj h
    rcases save_apply_cases hsave with ⟨-, hne⟩ | ⟨hput, -⟩
    · exact absurd rfl hne
    · refine Or.inl ⟨rfl, Change.start hidle (hadmits hput) rfl ?_ ?_ ?_ htraining
        (Nat.lt_succ_self _)⟩
      · rw [TaskRecord.updated_id, hid]
        rfl
      · rw [TaskRecord.updated_attempt]
        rfl
      · rw [TaskRecord.updated_kind]
        exact hstored
  · rename_i tasks hsave
    obtain ⟨rfl, rfl⟩ := Prod.mk.inj h
    rcases save_apply_cases hsave with ⟨rfl, -⟩ | ⟨-, hok | herror⟩
    · exact Or.inr ⟨rfl, .single (quiet_of rfl (JobState.Follows.refl _) rfl (fun _ _ => rfl)
        (fun _ => rfl) (Or.inl rfl))⟩
    · cases hok
    · cases herror
  · rename_i e tasks hsave
    obtain ⟨rfl, rfl⟩ := Prod.mk.inj h
    rcases save_apply_cases hsave with ⟨rfl, -⟩ | ⟨hput, -⟩
    · exact Or.inr ⟨rfl, .single (quiet_of rfl (JobState.Follows.refl _) rfl (fun _ _ => rfl)
        (fun _ => rfl) (Or.inl rfl))⟩
    · exact Or.inr ⟨rfl, .single (Change.enter hidle (hadmits hput))⟩

/-! ### Stages -/

/-- The running execution enters a stage and stays active. -/
theorem enterStage_changes {stage : String} {state : TaskState} {result : Except Failure Unit}
    (hs : Sound host w) (hrunning : w.service.job.running = true) (hunsealed : w.sealed = false)
    (hstate : state.Active)
    (h : persistJobLocked m m.fault state false
      { w.service with job := { w.service.job with stage } } = (result, s')) :
    Change host edits stops w { w with service := s' } ∧
      s'.job = { w.service.job with stage } := by
  have hfollows : w.service.job.Follows { w.service.job with stage } :=
    ⟨rfl, rfl, rfl, rfl, id, id, id, Or.inl⟩
  refine persist_quiet hs hrunning hfollows rfl (fun hsealed => ?_) hstate h
  rw [hunsealed] at hsealed
  cases hsealed

theorem setStage_changes {generation : ℕ} {stage : String} {reply : Except Failure Reply}
    (hs : Sound host w) (hpermitted : Permitted w (.setStage generation stage))
    (h : setStage m generation stage w.service = (reply, s')) :
    ReflTransGen (Change host edits stops) w { w with service := s' } := by
  rw [setStage] at h
  split at h
  · obtain ⟨-, rfl⟩ := Prod.mk.inj h
    exact .refl
  rename_i hgeneration
  obtain ⟨hrunning, hunsealed⟩ := hpermitted (not_not.1 hgeneration)
  have hstate : (if w.service.job.pauseRequested then TaskState.pauseRequested
      else if stage = "queued" then .queued else .running).Active := by
    split_ifs <;> decide
  dsimp only at h
  split at h
  · rename_i s₁ hpersist
    obtain ⟨-, rfl⟩ := Prod.mk.inj h
    exact .single (enterStage_changes hs hrunning hunsealed hstate hpersist).1
  · rename_i e s₁ hpersist
    obtain ⟨-, rfl⟩ := Prod.mk.inj h
    exact .single (enterStage_changes hs hrunning hunsealed hstate hpersist).1

theorem trainingCheckpoint_changes {generation : ℕ} {stage : String}
    {reply : Except Failure Reply} (hs : Sound host w)
    (hpermitted : Permitted w (.checkpoint generation stage))
    (h : trainingCheckpoint m generation stage w.service = (reply, s')) :
    ReflTransGen (Change host edits stops) w
      { service := s', sealed := w.sealed || Seals s'.job (.checkpoint generation stage) reply } := by
  rw [trainingCheckpoint] at h
  split at h
  · obtain ⟨rfl, rfl⟩ := Prod.mk.inj h
    rw [show Seals w.service.job (.checkpoint generation stage) (.ok .refused) = false from rfl,
      Bool.or_false]
  rename_i hpasses
  rw [not_or, not_or, not_not, Bool.not_eq_true] at hpasses
  obtain ⟨hgeneration, hcancel, -⟩ := hpasses
  obtain ⟨hrunning, hkind, hunsealed, hpublishing⟩ := hpermitted hgeneration
  split at h
  · rename_i s₁ hpersist
    obtain ⟨rfl, rfl⟩ := Prod.mk.inj h
    obtain ⟨hchange, hjob⟩ : Change host edits stops w { w with service := s₁ } ∧ _ :=
      enterStage_changes hs hrunning hunsealed (by decide) hpersist
    by_cases hlate : Late s₁.job
    · rw [show Seals s₁.job (.checkpoint generation stage) (.ok .done) = true from
        decide_eq_true hlate, Bool.or_true]
      have hstage : stage = "publishing" := by
        rw [hjob, Late, hkind, if_neg (by decide)] at hlate
        exact hlate
      refine (ReflTransGen.single hchange).tail (Change.commit ?_ hlate ?_)
      · rw [hjob]
        exact hrunning
      · rw [hjob]
        rintro (⟨-, haudio | hrec⟩ | ⟨hrequested, -⟩)
        · rw [hkind] at haudio
          exact absurd haudio (by decide)
        · exact absurd hrec (by simp [hpublishing hstage])
        · exact absurd hrequested (by simp [hcancel])
    · rw [show Seals s₁.job (.checkpoint generation stage) (.ok .done) = false from
        decide_eq_false hlate, Bool.or_false]
      exact .single hchange
  · rename_i e s₁ hpersist
    obtain ⟨rfl, rfl⟩ := Prod.mk.inj h
    rw [show Seals s₁.job (.checkpoint generation stage) (.error e) = false from rfl,
      Bool.or_false]
    exact .single (enterStage_changes hs hrunning hunsealed (by decide) hpersist).1

theorem audioBoundary_changes {generation : ℕ} {stage : String} {reply : Except Failure Reply}
    (hs : Sound host w) (hpermitted : Permitted w (.boundary generation stage))
    (h : audioBoundary m generation stage w.service = (reply, s')) :
    ReflTransGen (Change host edits stops) w
      { service := s', sealed := w.sealed || Seals s'.job (.boundary generation stage) reply } := by
  have hkeeps : ∀ {job reply}, Seals job (.boundary generation stage) reply = false →
      (w.sealed || Seals job (.boundary generation stage) reply) = w.sealed := by
    intro job reply hseals
    rw [hseals, Bool.or_false]
  rw [audioBoundary] at h
  split at h
  · rename_i hzero
    obtain ⟨rfl, rfl⟩ := Prod.mk.inj h
    rw [hkeeps (by simp [Seals, hzero])]
  rename_i hzero
  split at h
  · obtain ⟨rfl, rfl⟩ := Prod.mk.inj h
    rw [hkeeps rfl]
  rename_i hpasses
  rw [not_or, not_not] at hpasses
  split at h
  · obtain ⟨rfl, rfl⟩ := Prod.mk.inj h
    rw [hkeeps rfl]
  rename_i hstop
  obtain ⟨hrunning, hpausable, hunsealed⟩ := hpermitted hpasses.1 hzero
  split at h
  · rename_i hempty
    obtain ⟨rfl, rfl⟩ := Prod.mk.inj h
    rw [hkeeps (by simp [Seals, hempty])]
  rename_i hempty
  split at h
  · rename_i s₁ hpersist
    obtain ⟨rfl, rfl⟩ := Prod.mk.inj h
    obtain ⟨hchange, hjob⟩ : Change host edits stops w { w with service := s₁ } ∧ _ :=
      enterStage_changes hs hrunning hunsealed (by decide) hpersist
    by_cases hlate : Late s₁.job
    · rw [show Seals s₁.job (.boundary generation stage) (.ok .done) = true by
        simpa [Seals, hzero, hempty] using hlate, Bool.or_true]
      refine (ReflTransGen.single hchange).tail (Change.commit ?_ hlate ?_)
      · rw [hjob]
        exact hrunning
      · rw [hjob]
        rintro (⟨hpause, -⟩ | ⟨hcancel, hkind⟩)
        · exact hstop (Or.inl hpause)
        · rcases hpausable with haudio | hrec
          · rw [show w.service.job.kind = .training from hkind] at haudio
            exact absurd haudio (by decide)
          · exact hstop (Or.inr ⟨hrec, hcancel⟩)
    · rw [hkeeps (by simp [Seals, hlate])]
      exact .single hchange
  · rename_i e s₁ hpersist
    obtain ⟨rfl, rfl⟩ := Prod.mk.inj h
    rw [hkeeps rfl]
    exact .single (enterStage_changes hs hrunning hunsealed (by decide) hpersist).1

/-! ### Progress and the storage guard -/

theorem observeProgress_changes {generation completed total : ℕ} {phase unit : String}
    {reply : Except Failure Reply} (hs : Sound host w)
    (h : observeProgress m generation phase unit completed total w.service = (reply, s')) :
    ReflTransGen (Change host edits stops) w { w with service := s' } := by
  have hpoison : Change host edits stops w
      { w with service := { w.service with taskStorageFailed := true } } :=
    quiet_of rfl (JobState.Follows.refl _) rfl (fun _ _ => rfl) (fun _ => rfl) (Or.inl rfl)
  rw [observeProgress] at h
  split at h
  · obtain ⟨-, rfl⟩ := Prod.mk.inj h
    exact .refl
  rename_i hcurrent
  rw [not_or, Bool.not_eq_false] at hcurrent
  split at h
  · obtain ⟨-, rfl⟩ := Prod.mk.inj h
    exact .refl
  split at h
  · obtain ⟨-, rfl⟩ := Prod.mk.inj h
    exact .single hpoison
  split at h
  · obtain ⟨-, rfl⟩ := Prod.mk.inj h
    exact .single hpoison
  rename_i r hget
  dsimp only at h
  split at h
  · obtain ⟨-, rfl⟩ := Prod.mk.inj h
    exact .single hpoison
  split at h
  · obtain ⟨-, rfl⟩ := Prod.mk.inj h
    exact .refl
  split at h
  · obtain ⟨-, rfl⟩ := Prod.mk.inj h
    exact .refl
  obtain ⟨hactive, -, -⟩ := hs.own hcurrent.2 hget
  have hwrites : ∀ {tasks},
      Stored w.service.tasks tasks r (.progress phase unit completed total m.wallMs) →
      ∃ r u, Rewrites host edits w.service.tasks tasks r u ∧ Quiet r u := fun hstored =>
    ⟨r, .progress phase unit completed total m.wallMs, ⟨by rw [id_of_get hget, hget], hactive,
      hstored, fun hname => by simp [Update.writes] at hname⟩, quiet_of_state rfl rfl⟩
  split at h
  · rename_i tasks hsave
    obtain ⟨-, rfl⟩ := Prod.mk.inj h
    refine .single (quiet_of rfl ⟨rfl, rfl, rfl, rfl, id, id, id, Or.inl⟩ rfl (fun _ _ => rfl) id ?_)
    exact (save_apply_cases hsave).imp And.left fun hstored => hwrites hstored.1
  · rename_i tasks hsave
    obtain ⟨-, rfl⟩ := Prod.mk.inj h
    refine .single (quiet_of rfl (JobState.Follows.refl _) rfl (fun _ _ => rfl) (fun _ => rfl) ?_)
    exact (save_apply_cases hsave).imp And.left fun hstored => hwrites hstored.1
  · rename_i e tasks hsave
    obtain ⟨-, rfl⟩ := Prod.mk.inj h
    refine .single (quiet_of rfl (JobState.Follows.refl _) rfl (fun _ _ => rfl) (fun _ => rfl) ?_)
    exact (save_apply_cases hsave).imp And.left fun hstored => hwrites hstored.1

/-- The storage guard notes the reason, and then the request to pause. -/
theorem guardPause_changes {generation : ℕ} {id reason : String} {reply : Except Failure Reply}
    (hs : Sound host w) (hpermitted : Permitted w (.guardPause generation id reason))
    (h : guardPause m generation id reason w.service = (reply, s')) :
    ReflTransGen (Change host edits stops) w { w with service := s' } := by
  rw [guardPause] at h
  split at h
  · obtain ⟨-, rfl⟩ := Prod.mk.inj h
    exact .refl
  rename_i hcurrent
  rw [not_or, not_or, not_not, Bool.not_eq_false] at hcurrent
  obtain ⟨hgeneration, hrunning, -⟩ := hcurrent
  obtain ⟨rfl, -⟩ := hpermitted hgeneration hrunning
  dsimp only at h
  have hnotice : ∀ {result s₁}, Service.amended
      { w.service with
        job := { w.service.job with pauseRequested := true, storageNotice := reason } } true
      (amend m m.fault w.service.job.publicId (.exception "storage guard task missing")
        (.exception "storage guard revision changed") (fun _ => .ok (some (.notice reason)))
        w.service.tasks) = (result, s₁) →
      Change host edits stops w { w with service := s₁ } ∧
        s₁.job = { w.service.job with pauseRequested := true, storageNotice := reason } := by
    intro result s₁ hamended
    obtain ⟨hjob, hinstance, hfailed, hcases⟩ := amended_cases hamended
    refine ⟨quiet_of hinstance ?_ (by rw [hjob]) (fun _ _ => by rw [hjob]) hfailed ?_, hjob⟩
    · rw [hjob]
      exact ⟨rfl, rfl, rfl, rfl, fun _ => rfl, fun hcancel => hcancel, fun hrec => hrec, Or.inl⟩
    · rcases hcases with ⟨htasks, -⟩ | ⟨r, u, hget, hchange, hstored⟩
      · exact Or.inl htasks
      · obtain rfl := Option.some.inj (Except.ok.inj hchange)
        have hactive : r.state.Active := (hs.own hrunning hget).1
        exact Or.inr ⟨r, .notice reason, ⟨by rw [id_of_get hget]; exact hget, hactive, hstored,
          fun hname => by simp [Update.writes] at hname⟩, quiet_of_state rfl rfl⟩
  split at h
  · rename_i e s₁ hamended
    obtain ⟨-, rfl⟩ := Prod.mk.inj h
    exact .single (hnotice hamended).1
  rename_i s₁ hamended
  obtain ⟨hchange, hjob⟩ := hnotice hamended
  have hrunning₁ : s₁.job.running = true := by
    rw [hjob]
    exact hrunning
  have hpersisted : ∀ {result s₂}, persistJobLocked m m.secondFault .pauseRequested false s₁ =
      (result, s₂) → Change host edits stops { w with service := s₁ } { w with service := s₂ } :=
    fun hpersist => (persist_quiet (hchange.sound hs) hrunning₁ (JobState.Follows.refl _) rfl
      (fun _ => rfl) (by decide) hpersist).1
  split at h
  · rename_i s₂ hpersist
    obtain ⟨-, rfl⟩ := Prod.mk.inj h
    exact (ReflTransGen.single hchange).tail (hpersisted hpersist)
  · rename_i e s₂ hpersist
    obtain ⟨-, rfl⟩ := Prod.mk.inj h
    refine ((ReflTransGen.single hchange).tail (hpersisted hpersist)).tail ?_
    exact quiet_of (w := { w with service := s₂ }) rfl (JobState.Follows.refl _) rfl
      (fun _ _ => rfl) (fun _ => rfl) (Or.inl rfl)

/-! ### Requests -/

/-- A section that amends a record quietly, or leaves it. -/
theorem amended_changes {poison : Bool} {fault : Option DiskFault} {id : String}
    {missing stale : Failure} {change : TaskRecord → Except Failure (Option Update)}
    {result : Except Failure Unit}
    (h : w.service.amended poison (amend m fault id missing stale change w.service.tasks) =
      (result, s'))
    (hquiet : ∀ r u, w.service.tasks.get id = some r → change r = .ok (some u) →
      Admitted host r u ∧ (Field.parameter "display_name" ∈ u.writes → edits r.id) ∧ Quiet r u) :
    Change host edits stops w { w with service := s' } ∧ s'.job = w.service.job := by
  obtain ⟨hjob, hinstance, hfailed, hcases⟩ := amended_cases h
  refine ⟨quiet_of hinstance (hjob ▸ JobState.Follows.refl _) (by rw [hjob])
    (fun _ _ => by rw [hjob]) hfailed ?_, hjob⟩
  rcases hcases with ⟨htasks, -⟩ | ⟨r, u, hget, hchange, hstored⟩
  · exact Or.inl htasks
  · obtain ⟨hadmitted, hname, hq⟩ := hquiet r u hget hchange
    exact Or.inr ⟨r, u, ⟨by rw [id_of_get hget, hget], hadmitted, hstored, hname⟩, hq⟩

theorem rename_changes {id expected name : String} {reply : Except Failure Reply}
    (hedits : edits id) (h : rename m id expected name w.service = (reply, s')) :
    ReflTransGen (Change host edits stops) w { w with service := s' } := by
  have hquiet : ∀ r u, w.service.tasks.get id = some r →
      (if displayName r = name then .ok none
        else if displayName r ≠ expected then
          .error (Failure.workflow 409 "任务已被重命名，请刷新后再修改")
        else .ok (some (.rename name m.wallMs))) = Except.ok (some u) →
      Admitted host r u ∧ (Field.parameter "display_name" ∈ u.writes → edits r.id) ∧
        Quiet r u := by
    intro r u hget hchange
    split_ifs at hchange
    · cases hchange
    · obtain rfl := Option.some.inj (Except.ok.inj hchange)
      exact ⟨trivial, fun _ => by rwa [id_of_get hget], quiet_of_state rfl rfl⟩
  rw [rename] at h
  split at h
  · obtain ⟨-, rfl⟩ := Prod.mk.inj h
    exact .refl
  split at h
  · rename_i s₁ hamended
    obtain ⟨-, rfl⟩ := Prod.mk.inj h
    exact .single (amended_changes hamended hquiet).1
  · rename_i e s₁ hamended
    obtain ⟨-, rfl⟩ := Prod.mk.inj h
    exact .single (amended_changes hamended hquiet).1

theorem cleanup_changes {id : String} {attempt : ℕ} {reply : Except Failure Reply}
    (h : cleanup m id attempt w.service = (reply, s')) :
    ReflTransGen (Change host edits stops) w { w with service := s' } := by
  rw [cleanup] at h
  split at h
  · obtain ⟨-, rfl⟩ := Prod.mk.inj h
    exact .refl
  split at h
  · obtain ⟨-, rfl⟩ := Prod.mk.inj h
    exact .refl
  split at h
  · obtain ⟨-, rfl⟩ := Prod.mk.inj h
    exact .refl
  rename_i r hget
  split at h
  · obtain ⟨-, rfl⟩ := Prod.mk.inj h
    exact .refl
  rename_i hcurrent
  rw [not_or, not_not, not_not] at hcurrent
  split at h
  · obtain ⟨-, rfl⟩ := Prod.mk.inj h
    exact .refl
  split at h
  · obtain ⟨-, rfl⟩ := Prod.mk.inj h
    exact .refl
  have hquiet : ∀ r₁ u, w.service.tasks.get id = some r₁ →
      Except.ok (some (Update.prune m.wallMs)) = (Except.ok (some u) : Except Failure _) →
      Admitted host r₁ u ∧ (Field.parameter "display_name" ∈ u.writes → edits r₁.id) ∧
        Quiet r₁ u := by
    intro r₁ u hget₁ hchange
    obtain rfl := Option.some.inj (hget.symm.trans hget₁)
    obtain rfl := Option.some.inj (Except.ok.inj hchange)
    exact ⟨hcurrent.2, fun hname => by simp [Update.writes] at hname, quiet_of_state rfl rfl⟩
  split at h
  · rename_i s₁ hamended
    obtain ⟨-, rfl⟩ := Prod.mk.inj h
    exact .single (amended_changes hamended hquiet).1
  · rename_i e s₁ hamended
    obtain ⟨-, rfl⟩ := Prod.mk.inj h
    exact .single (amended_changes hamended hquiet).1

/-- An accepted pause is a request of the running execution. -/
theorem pause_changes {id : String} {attempt : ℕ} {reply : Except Failure Reply}
    (hs : Sound host w) (h : pause m id attempt w.service = (reply, s')) :
    ReflTransGen (Change host edits stops) w { w with service := s' } := by
  rw [pause] at h
  split at h
  · rename_i hrunning
    split at h
    · obtain ⟨-, rfl⟩ := Prod.mk.inj h
      exact .refl
    split at h
    · obtain ⟨-, rfl⟩ := Prod.mk.inj h
      exact .refl
    have hfollows : w.service.job.Follows { w.service.job with pauseRequested := true } :=
      ⟨rfl, rfl, rfl, rfl, fun _ => rfl, fun hcancel => hcancel, fun hrec => hrec, Or.inl⟩
    split at h
    · rename_i s₁ hpersist
      obtain ⟨-, rfl⟩ := Prod.mk.inj h
      exact .single (persist_quiet hs hrunning.1 hfollows rfl (fun _ => rfl) (by decide) hpersist).1
    · rename_i e s₁ hpersist
      obtain ⟨-, rfl⟩ := Prod.mk.inj h
      exact .single (persist_quiet hs hrunning.1 hfollows rfl (fun _ => rfl) (by decide) hpersist).1
  split at h
  · obtain ⟨-, rfl⟩ := Prod.mk.inj h
    exact .refl
  split at h
  · obtain ⟨-, rfl⟩ := Prod.mk.inj h
    exact .refl
  split at h
  · obtain ⟨-, rfl⟩ := Prod.mk.inj h
    exact .refl
  split at h
  · obtain ⟨-, rfl⟩ := Prod.mk.inj h
    exact .refl
  · obtain ⟨-, rfl⟩ := Prod.mk.inj h
    exact .refl

theorem cancelTrain_changes {id : String} {reply : Except Failure Reply}
    (h : cancelTrain id w.service = (reply, s')) :
    ReflTransGen (Change host edits stops) w { w with service := s' } := by
  have hrequest : Change host edits stops w { w with
      service := { w.service with job := { w.service.job with cancelRequested := true } } } :=
    quiet_job ⟨rfl, rfl, rfl, rfl, fun hpause => hpause, fun _ => rfl, fun hrec => hrec, Or.inl⟩
      rfl fun _ => rfl
  rw [cancelTrain] at h
  split_ifs at h
  all_goals
    obtain ⟨-, rfl⟩ := Prod.mk.inj h
    first
    | exact .refl
    | exact .single hrequest

/-! ### What a task was started with -/

theorem retain_changes {id : String} {stale : String} {reply : Except Failure Reply}
    (h : retain m id u stale w.service = (reply, s'))
    (hquiet : ∀ r, w.service.tasks.get id = some r → Admitted host r u ∧
      (Field.parameter "display_name" ∈ u.writes → edits r.id) ∧ Quiet r u) :
    Change host edits stops w { w with service := s' } ∧ s'.job = w.service.job := by
  have hquiet' : ∀ r u', w.service.tasks.get id = some r →
      Except.ok (some u) = (Except.ok (some u') : Except Failure _) → Admitted host r u' ∧
        (Field.parameter "display_name" ∈ u'.writes → edits r.id) ∧ Quiet r u' := by
    intro r u' hget hchange
    obtain rfl := Option.some.inj (Except.ok.inj hchange)
    exact hquiet r hget
  rw [retain] at h
  split at h
  · rename_i s₁ hamended
    obtain ⟨-, rfl⟩ := Prod.mk.inj h
    exact amended_changes hamended hquiet'
  · rename_i e s₁ hamended
    obtain ⟨-, rfl⟩ := Prod.mk.inj h
    exact amended_changes hamended hquiet'

/-- No plan and no recipe has a display name among its parameters. -/
theorem not_mem_writes_plan (p : ConversionPlan) :
    Field.parameter "display_name" ∉ (Update.plan p).writes := by
  simp only [Update.writes, insertedParameters, assignedParameters, List.map_append]
  split_ifs <;> simp

theorem not_mem_writes_recipe (t : TrainingRecipe) :
    Field.parameter "display_name" ∉ (Update.recipe t).writes := by
  simp [Update.writes, TrainingRecipe.parameters]

theorem prepareTraining_changes {id : String} {preprocessed : Bool}
    {reply : Except Failure Reply} (hs : Sound host w)
    (hrunning : w.service.job.running = true) (hid : id = w.service.job.publicId)
    (hkind : w.service.job.kind = .training)
    (h : prepareTraining m id preprocessed w.service = (reply, s')) :
    ReflTransGen (Change host edits stops) w { w with service := s' } := by
  have hquiet : ∀ r, w.service.tasks.get id = some r → Admitted host r (.prepare preprocessed) ∧
      (Field.parameter "display_name" ∈ (Update.prepare preprocessed).writes → edits r.id) ∧
        Quiet r (.prepare preprocessed) := by
    intro r hget
    rw [hid] at hget
    obtain ⟨hactive, -, hstored⟩ := hs.own hrunning hget
    refine ⟨⟨hactive, ?_⟩, fun hname => by simp [Update.writes] at hname, quiet_of_state rfl rfl⟩
    rw [hstored, hkind]
    rfl
  rw [prepareTraining] at h
  split at h
  · rename_i result s₁ hretain
    obtain ⟨-, rfl⟩ := Prod.mk.inj h
    obtain ⟨hchange, hjob⟩ : Change host edits stops w { w with service := s₁ } ∧ _ :=
      retain_changes hretain hquiet
    refine (ReflTransGen.single hchange).tail (quiet_job (w := { w with service := s₁ }) ?_ rfl
      fun _ => rfl)
    refine ⟨rfl, rfl, rfl, rfl, fun hpause => hpause, fun hcancel => hcancel, fun _ => rfl,
      fun _ => Or.inr ?_⟩
    rw [hjob]
    exact hkind
  · rename_i e s₁ hretain
    obtain ⟨-, rfl⟩ := Prod.mk.inj h
    exact .single (retain_changes hretain hquiet).1

end Resonantia.Web.JobControl
