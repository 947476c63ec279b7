import Resonantia.Web.JobRefinement

/-!
# The end of an execution, and restarts

The finalizers store a terminal record or mark the storage as failed; either way the execution has
ended. A restart first interrupts whatever an earlier service left active.

## Main results

* `Web.JobControl.Step.changes`: every step is a chain of transitions of the protocol.
-/

namespace Resonantia.Web.JobControl

open Std Relation

variable {host : Host} {edits : String → Prop} {stops : Prop} {w w' : World} {m : Moment}
  {s s' : Service} {r : TaskRecord} {u : Update}

/-! ### Finalizers -/

/-- The end of the execution, from what it does to each part of the service. -/
theorem finish_of (hinstance : s.instanceId = w.service.instanceId)
    (hfollows : w.service.job.Follows s.job) (hrunning : w.service.job.running = true)
    (hended : s.job.running = false)
    (hfailed : w.service.taskStorageFailed = true → s.taskStorageFailed = true)
    (htasks : (s.tasks = w.service.tasks ∧ s.taskStorageFailed = true) ∨
      ∃ r u, Rewrites host edits w.service.tasks s.tasks r u ∧ r.id = w.service.job.publicId ∧
        (r.updated u).attempt = r.attempt ∧ ¬(r.updated u).state.Active ∧
        ((r.updated u).state = .succeeded → w.sealed = true ∨ w.service.job.kind = .step)) :
    Change host edits stops w { w with service := s } := by
  obtain ⟨tasks, instanceId, failed, job⟩ := s
  obtain rfl : instanceId = w.service.instanceId := hinstance
  exact Change.finish hfollows hrunning hended hfailed htasks

/-- The states that `persist_terminal_locked` may store for a kind of job. -/
def Terminal (kind : JobKind) (state : TaskState) : Prop :=
  state = .paused ∨ state = .failed ∨ (state = .succeeded ∧ ¬kind.stored.Audio) ∨
    (state = .cancelled ∧ kind.stored = .training)

theorem Terminal.not_active {kind : JobKind} {state : TaskState} (h : Terminal kind state) :
    ¬state.Active := by
  rcases h with rfl | rfl | ⟨rfl, -⟩ | ⟨rfl, -⟩ <;> decide

/-- The terminal record, and the job that has ended. -/
theorem persist_finish {state : TaskState} {result : Except Failure Unit} {job : JobState}
    (hs : Sound host w) (hrunning : w.service.job.running = true)
    (hfollows : w.service.job.Follows job) (hended : job.running = false)
    (hterminal : Terminal w.service.job.kind state)
    (hseal : state = .succeeded → w.sealed = true ∨ w.service.job.kind = .step)
    (h : persistJobLocked m m.fault state true w.service = (result, s)) :
    Change host edits stops w { w with service := { s with job } } := by
  obtain ⟨hjob, hinstance, hfailed, hcases⟩ := persist_cases h
  refine finish_of hinstance hfollows hrunning hended hfailed ?_
  rcases hcases with hsame | ⟨r, hget, hstored⟩
  · exact Or.inl hsame
  · obtain ⟨hactive, -, hkind⟩ := hs.own hrunning hget
    have hadmitted : Admitted host r (.job state w.service.job.stage m.wallMs true) := by
      refine ⟨hactive, ?_⟩
      rw [if_pos rfl, hkind]
      exact hterminal
    refine Or.inr ⟨r, _, ⟨by rw [id_of_get hget, hget], hadmitted, hstored,
      fun hname => absurd hname (not_mem_writes_job _ _ _ _)⟩, id_of_get hget, ?_, ?_, ?_⟩
    · rw [TaskRecord.updated_attempt]
    · rw [TaskRecord.updated_state]
      exact hterminal.not_active
    · rw [TaskRecord.updated_state]
      exact hseal

theorem finish_changes {generation : ℕ} {stage : String} {error : Bool}
    {reply : Except Failure Reply} (hs : Sound host w)
    (hpermitted : Permitted w (.finish generation stage error))
    (h : finish m generation stage error w.service = (reply, s')) :
    ReflTransGen (Change host edits stops) w { w with service := s' } := by
  rw [finish] at h
  split at h
  · obtain ⟨-, rfl⟩ := Prod.mk.inj h
    exact .refl
  rename_i hgeneration
  obtain ⟨hrunning, hkind⟩ := hpermitted (not_not.1 hgeneration)
  obtain ⟨result, s₁, hpersist⟩ : ∃ result s₁, persistJobLocked m m.fault
      (if error then .failed else .succeeded) true w.service = (result, s₁) := ⟨_, _, rfl⟩
  have hjob := (persist_cases hpersist).1
  dsimp only at h
  rw [hpersist] at h
  obtain ⟨-, rfl⟩ := Prod.mk.inj h
  refine .single (persist_finish hs hrunning ?_ rfl ?_ (fun _ => Or.inr hkind) hpersist)
  · rw [hjob]
    exact ⟨rfl, rfl, rfl, rfl, id, id, id, Or.inl⟩
  · rw [Terminal, hkind]
    cases error
    · exact Or.inr (Or.inr (Or.inl ⟨rfl, by decide⟩))
    · exact Or.inr (Or.inl rfl)

theorem finishTraining_changes {generation : ℕ} {outcome : TrainingOutcome}
    {reply : Except Failure Reply} (hs : Sound host w)
    (hpermitted : Permitted w (.finishTraining generation outcome))
    (h : finishTraining m generation outcome w.service = (reply, s')) :
    ReflTransGen (Change host edits stops) w { w with service := s' } := by
  rw [finishTraining] at h
  split at h
  · obtain ⟨-, rfl⟩ := Prod.mk.inj h
    exact .refl
  rename_i hcurrent
  rw [not_or, not_not, not_not] at hcurrent
  obtain ⟨hgeneration, hkind⟩ := hcurrent
  obtain ⟨hrunning, hdone⟩ := hpermitted hgeneration hkind
  dsimp only at h
  have hseal : (if w.service.job.cancelError then TrainingOutcome.error else outcome).state =
      .succeeded → w.sealed = true := by
    split_ifs
    · intro hstate
      cases hstate
    · cases outcome with
      | done => exact fun _ => hdone rfl
      | cancelled | paused | error =>
        intro hstate
        cases hstate
  generalize (if w.service.job.cancelError then TrainingOutcome.error else outcome) = final
    at h hseal
  obtain ⟨result, s₁, hpersist⟩ : ∃ result s₁, persistJobLocked m m.fault final.state true
      w.service = (result, s₁) := ⟨_, _, rfl⟩
  have hjob := (persist_cases hpersist).1
  rw [hpersist] at h
  obtain ⟨-, rfl⟩ := Prod.mk.inj h
  refine .single (persist_finish hs hrunning ?_ rfl ?_ (fun hstate => Or.inl (hseal hstate))
    hpersist)
  · rw [hjob]
    exact ⟨rfl, rfl, rfl, rfl, id, id, id, Or.inl⟩
  · rw [Terminal, hkind]
    cases final
    · exact Or.inr (Or.inr (Or.inl ⟨rfl, by decide⟩))
    · exact Or.inr (Or.inr (Or.inr ⟨rfl, rfl⟩))
    · exact Or.inl rfl
    · exact Or.inr (Or.inl rfl)

/-- The final update succeeds only without an error, a failed channel or a pause, and then it has
the digest of the result. -/
theorem finalUpdate_cases {job : JobState} {result error : String} {paused : Bool}
    (h : finalUpdate m job result error paused = .ok u) :
    ∃ state text digest late, u = .finishAudio state result text digest m.wallMs late ∧
      ((state = .succeeded ∧ error = "" ∧ paused = false ∧ digest.isSome = true) ∨
        ((state = .failed ∨ state = .paused) ∧ digest = none)) := by
  rw [finalUpdate] at h
  split at h
  · cases h
  cases hfailed : job.cancelError || decide (error ≠ "") with
  | true =>
    simp only [hfailed, ↓reduceIte, reduceCtorEq] at h
    obtain rfl := Except.ok.inj h
    exact ⟨_, _, _, _, rfl, Or.inr ⟨Or.inl rfl, rfl⟩⟩
  | false =>
    cases hpaused : paused && !job.cancelError with
    | true =>
      simp only [hfailed, hpaused, ↓reduceIte, reduceCtorEq, Bool.false_eq_true] at h
      obtain rfl := Except.ok.inj h
      exact ⟨_, _, _, _, rfl, Or.inr ⟨Or.inr rfl, rfl⟩⟩
    | false =>
      simp only [hfailed, hpaused, ↓reduceIte, Bool.false_eq_true] at h
      split at h
      · obtain rfl := Except.ok.inj h
        rw [Bool.or_eq_false_iff, decide_eq_false_iff_not, not_not] at hfailed
        rw [hfailed.1, Bool.not_false, Bool.and_true] at hpaused
        exact ⟨_, _, _, _, rfl, Or.inl ⟨rfl, hfailed.2, hpaused, rfl⟩⟩
      · cases h

theorem finishAudioTask_changes {ticket : JobTicket} {result error : String} {paused : Bool}
    {reply : Except Failure Reply} (hs : Sound host w)
    (hpermitted : Permitted w (.finishAudio ticket result error paused))
    (h : finishAudioTask m ticket result error paused w.service = (reply, s')) :
    ReflTransGen (Change host edits stops) w { w with service := s' } := by
  rw [finishAudioTask] at h
  split at h
  · obtain ⟨-, rfl⟩ := Prod.mk.inj h
    exact .refl
  rename_i hgeneration
  obtain ⟨hrunning, haudio, hid, hsuccess⟩ := hpermitted (not_not.1 hgeneration)
  obtain ⟨outcome, s₁, hamended⟩ : ∃ outcome s₁, w.service.amended true (amend m m.fault
      ticket.publicId (.exception "missing audio task record")
      (.exception "cannot retain audio task result")
      (fun _ => (finalUpdate m w.service.job result error paused).map some) w.service.tasks) =
        (outcome, s₁) := ⟨_, _, rfl⟩
  dsimp only at h
  rw [hamended] at h
  obtain ⟨hjob, hinstance, hfailed, hcases⟩ := amended_cases hamended
  obtain ⟨-, rfl⟩ := Prod.mk.inj h
  refine .single (finish_of hinstance ?_ hrunning rfl hfailed ?_)
  · dsimp only
    rw [hjob]
    exact ⟨rfl, rfl, rfl, rfl, id, id, id, Or.inl⟩
  rcases hcases with ⟨htasks, hok, herror⟩ | ⟨r, u, hget, hchange, hstored⟩
  · refine Or.inl ⟨htasks, herror (fun hout => ?_) rfl⟩
    obtain ⟨r, -, hchange⟩ := hok hout
    cases hfinal : finalUpdate m w.service.job result error paused with
    | error e =>
      rw [hfinal] at hchange
      cases hchange
    | ok u =>
      rw [hfinal] at hchange
      cases hchange
  · have hfinal : finalUpdate m w.service.job result error paused = .ok u := by
      cases hfinal : finalUpdate m w.service.job result error paused with
      | error e =>
        rw [hfinal] at hchange
        cases hchange
      | ok u' =>
        rw [hfinal] at hchange
        obtain rfl := Option.some.inj (Except.ok.inj hchange)
        rfl
    obtain ⟨state, text, digest, late, rfl, hstate⟩ := finalUpdate_cases hfinal
    rw [hid] at hget
    obtain ⟨hactive, -, hkind⟩ := hs.own hrunning hget
    have hrecord : r.kind.Audio := by
      rw [hkind]
      rcases haudio with haudio | haudio <;> rw [haudio] <;> decide
    have hadmitted : Admitted host r (.finishAudio state result text digest m.wallMs late) :=
      ⟨hactive, hrecord, hstate.imp_left fun ⟨hsucceeded, herror, hpaused, hdigest⟩ =>
        ⟨hsucceeded, (hsuccess herror hpaused).2, hdigest⟩⟩
    refine Or.inr ⟨r, _, ⟨by rw [id_of_get hget, hget], hadmitted, hstored, ?_⟩, id_of_get hget,
      ?_, ?_, ?_⟩
    · intro hname
      cases digest <;> simp [Update.writes] at hname
    · rw [TaskRecord.updated_attempt]
    · rw [TaskRecord.updated_state]
      rcases hstate with ⟨rfl, -⟩ | ⟨rfl | rfl, -⟩ <;> exact of_decide_eq_false rfl
    · rw [TaskRecord.updated_state]
      intro hsucceeded
      rcases hstate with ⟨-, herror, hpaused, -⟩ | ⟨hstate, -⟩
      · exact Or.inl (hsuccess herror hpaused).1
      · rcases hstate with hstate | hstate <;> cases hstate.symm.trans hsucceeded

/-! ### Restarts -/

/-- A service that is starting up. -/
def waiting (instanceId : String) (tasks : TaskStore) : World where
  service := { tasks, instanceId, taskStorageFailed := true }

/-- No record is added or made active. -/
def Settles (tasks tasks' : TaskStore) : Prop :=
  ∀ id r', tasks'.get id = some r' →
    ∃ r, tasks.get id = some r ∧ (r'.state.Active → r.state.Active)

theorem Settles.refl (tasks : TaskStore) : Settles tasks tasks :=
  fun _ r hget => ⟨r, hget, id⟩

theorem Settles.trans {tasks tasks' tasks'' : TaskStore} (h : Settles tasks tasks')
    (h' : Settles tasks' tasks'') : Settles tasks tasks'' := by
  intro id r'' hget
  obtain ⟨r', hget', hactive'⟩ := h' id r'' hget
  obtain ⟨r, hget, hactive⟩ := h id r' hget'
  exact ⟨r, hget, hactive ∘ hactive'⟩

theorem Rewrites.settles {tasks tasks' : TaskStore} (h : Rewrites host edits tasks tasks' r u)
    (hstate : (r.updated u).state.Active → r.state.Active) : Settles tasks tasks' := by
  intro id r' hget
  rcases h.get_cases hget with ⟨rfl, rfl⟩ | ⟨-, hold⟩
  · exact ⟨r, h.get, hstate⟩
  · exact ⟨r', hold, fun hactive => hactive⟩

theorem recovered_eq_updated (r : TaskRecord) (nowMs : ℕ) :
    TaskStore.recovered r nowMs = r.updated (.interrupt nowMs) := rfl

variable (host edits stops) in
/-- One record of the recovery. -/
theorem recoverRecord_changes (instanceId : String) {tasks tasks' : TaskStore} {id : String}
    {nowMs : ℕ} {fault : Option DiskFault} {result : Except StoreError Unit}
    (h : tasks.recoverRecord id nowMs fault = (result, tasks')) :
    ReflTransGen (Change host edits stops) (waiting instanceId tasks) (waiting instanceId tasks') ∧
      Settles tasks tasks' ∧
      (result = .ok () → ∀ r, tasks'.get id = some r → ¬r.state.Active) := by
  rcases TaskStore.recoverRecord_cases h with ⟨rfl, hok⟩ | ⟨r, hvalid, hget, hactive, hput⟩
  · exact ⟨.refl, Settles.refl _, hok⟩
  · rw [recovered_eq_updated] at hvalid
    have hrewrites : Rewrites host edits tasks tasks' r (.interrupt nowMs) :=
      ⟨by rw [id_of_get hget, hget], hactive, ⟨hvalid, hput⟩,
        fun hname => by simp [Update.writes] at hname⟩
    refine ⟨.single (Change.interrupt (w := waiting instanceId tasks) rfl hrewrites),
      hrewrites.settles fun _ => hactive, fun _ r' hget' => ?_⟩
    have hself := hrewrites.stored.get_self
    rw [id_of_get hget, hget'] at hself
    obtain rfl := Option.some.inj hself
    rw [TaskRecord.updated_state]
    exact of_decide_eq_false rfl

variable (host edits stops) in
/-- After the recovery none of its records is active. -/
theorem recoverLoop_changes (instanceId : String) {start : StartUp} {ids : List String}
    {tasks tasks' : TaskStore} {result : Except StoreError Unit}
    (h : recoverLoop start ids tasks = (result, tasks')) :
    ReflTransGen (Change host edits stops) (waiting instanceId tasks) (waiting instanceId tasks') ∧
      Settles tasks tasks' ∧
      (result = .ok () → ∀ id ∈ ids, ∀ r, tasks'.get id = some r → ¬r.state.Active) := by
  induction ids generalizing tasks with
  | nil =>
    obtain ⟨-, rfl⟩ := Prod.mk.inj h
    exact ⟨.refl, Settles.refl _, fun _ id hid => absurd hid List.not_mem_nil⟩
  | cons id ids ih =>
    rw [recoverLoop] at h
    split at h
    · rename_i e tasks₁ hrecord
      obtain ⟨rfl, rfl⟩ := Prod.mk.inj h
      obtain ⟨hchanges, hsettles, -⟩ :=
        recoverRecord_changes host edits stops instanceId hrecord
      exact ⟨hchanges, hsettles, fun hok => by cases hok⟩
    · rename_i tasks₁ hrecord
      obtain ⟨hchanges, hsettles, hinactive⟩ :=
        recoverRecord_changes host edits stops instanceId hrecord
      obtain ⟨hchanges', hsettles', hinactive'⟩ := ih h
      refine ⟨hchanges.trans hchanges', hsettles.trans hsettles', fun hok id' hid' r hget => ?_⟩
      rcases List.mem_cons.1 hid' with rfl | hmem
      · intro hactive
        obtain ⟨r₁, hget₁, hactive₁⟩ := hsettles' id' r hget
        exact hinactive rfl r₁ hget₁ (hactive₁ hactive)
      · exact hinactive' hok id' hmem r hget

variable (host edits stops) in
theorem signalLoop_changes (instanceId : String) {start : StartUp} {ids : List String}
    {tasks tasks' : TaskStore} {result : Except Failure Unit}
    (h : signalLoop start ids tasks = (result, tasks')) :
    ReflTransGen (Change host edits stops) (waiting instanceId tasks) (waiting instanceId tasks') ∧
      Settles tasks tasks' := by
  induction ids generalizing tasks with
  | nil =>
    obtain ⟨-, rfl⟩ := Prod.mk.inj h
    exact ⟨.refl, Settles.refl _⟩
  | cons id ids ih =>
    have hamend : ∀ {result tasks₁}, amend {} (start.noticeFault id) id
        (.exception "task record missing") (.exception "cannot retain interrupted control failure")
        (fun r =>
          if LeavesWorker r ∧ start.stopInterrupted r = false then .ok (some .unsignalled)
          else .ok none) tasks = (result, tasks₁) →
        ReflTransGen (Change host edits stops) (waiting instanceId tasks)
            (waiting instanceId tasks₁) ∧
          Settles tasks tasks₁ := by
      intro result tasks₁ hamend
      rcases amend_cases hamend with ⟨rfl, -⟩ | ⟨r, u, hget, hchange, hstored⟩
      · exact ⟨.refl, Settles.refl _⟩
      · split_ifs at hchange with hleaves
        · obtain rfl := Option.some.inj (Except.ok.inj hchange)
          have hrewrites : Rewrites host edits tasks tasks₁ r .unsignalled :=
            ⟨by rw [id_of_get hget, hget], hleaves.1.1, hstored,
              fun hname => by simp [Update.writes] at hname⟩
          exact ⟨.single (quiet_of (w := waiting instanceId tasks) rfl (JobState.Follows.refl _) rfl
            (fun _ _ => rfl) (fun hfailed => hfailed)
            (Or.inr ⟨r, _, hrewrites, quiet_of_state rfl rfl⟩)),
            hrewrites.settles fun hactive => hactive⟩
        · cases hchange
    rw [signalLoop] at h
    split at h
    · rename_i e tasks₁ hrecord
      obtain ⟨-, rfl⟩ := Prod.mk.inj h
      exact hamend hrecord
    · rename_i tasks₁ hrecord
      obtain ⟨hchanges, hsettles⟩ := hamend hrecord
      obtain ⟨hchanges', hsettles'⟩ := ih h
      exact ⟨hchanges.trans hchanges', hsettles.trans hsettles'⟩

/-- Every record is in the listing. -/
theorem mem_listLocked {tasks : TaskStore} {id : String} (h : tasks.get id = some r) :
    id ∈ tasks.listLocked.map TaskRecord.id := by
  refine List.mem_map.2 ⟨r, ?_, id_of_get h⟩
  rw [TaskStore.listLocked, List.mem_mergeSort]
  exact List.mem_map.2 ⟨(id, r), ExtTreeMap.mem_toList_iff_getElem?_eq_some.2 h, rfl⟩

variable (host edits stops) in
/-- A start-up that succeeds leaves no record active. -/
theorem startUp_changes (instanceId : String) {start : StartUp} {tasks tasks' : TaskStore}
    {result : Except Failure Unit} (h : startUp start tasks = (result, tasks')) :
    ReflTransGen (Change host edits stops) (waiting instanceId tasks) (waiting instanceId tasks') ∧
      (result = .ok () → ∀ id r, tasks'.get id = some r → ¬r.state.Active) := by
  rw [startUp] at h
  split at h
  · obtain ⟨rfl, rfl⟩ := Prod.mk.inj h
    exact ⟨.refl, fun hok => by cases hok⟩
  split at h
  · rename_i e tasks₁ hrecover
    obtain ⟨rfl, rfl⟩ := Prod.mk.inj h
    exact ⟨(recoverLoop_changes host edits stops instanceId hrecover).1, fun hok => by cases hok⟩
  rename_i tasks₁ hrecover
  obtain ⟨hchanges, hsettles, hinactive⟩ :=
    recoverLoop_changes host edits stops instanceId hrecover
  obtain ⟨hchanges', hsettles'⟩ :=
    signalLoop_changes host edits stops instanceId h
  refine ⟨hchanges.trans hchanges', fun _ id r hget hactive => ?_⟩
  obtain ⟨r₁, hget₁, hactive₁⟩ := hsettles' id r hget
  obtain ⟨r₀, hget₀, -⟩ := hsettles id r₁ hget₁
  exact hinactive rfl id (mem_listLocked hget₀) r₁ hget₁ (hactive₁ hactive)

theorem restart_changes {instanceId : String} {starts : List StartUp} {tasks : TaskStore}
    (h : restart instanceId starts tasks = some s) :
    ReflTransGen (Change host edits stops) (waiting instanceId tasks) { service := s } := by
  induction starts generalizing tasks with
  | nil => cases h
  | cons start starts ih =>
    rw [restart] at h
    split at h
    · rename_i tasks₁ hstart
      obtain rfl := Option.some.inj h
      obtain ⟨hchanges, hinactive⟩ :=
        startUp_changes host edits stops instanceId hstart
      exact hchanges.tail (Change.ready (w := waiting instanceId tasks₁) (hinactive rfl))
    · rename_i e tasks₁ hstart
      exact (startUp_changes host edits stops instanceId hstart).1.trans (ih h)

/-! ### Steps -/

/-- A section that neither starts nor seals an execution. -/
theorem sealedAfter_eq {job : JobState} {c : Call} {reply : Except Failure Reply}
    (hstarts : Starts c reply = false) (hseals : Seals job c reply = false) :
    (if Starts c reply then false else w.sealed || Seals job c reply) = w.sealed := by
  rw [hstarts, hseals, Bool.or_false, if_neg Bool.false_ne_true]

/-- The parameters of a task are written once it is admitted, while its execution runs. -/
theorem retainWrites_changes {ticket : JobTicket} {stale : String} {reply : Except Failure Reply}
    (hs : Sound host w) (howns : Owns w ticket.generation)
    (hid : ticket.publicId = w.service.job.publicId)
    (hadmitted : ∀ r, r.state.Active → r.attempt = w.service.job.attempt → Admitted host r u)
    (hname : Field.parameter "display_name" ∉ u.writes)
    (hstate : ∀ r : TaskRecord, (r.updated u).state = r.state)
    (hattempt : ∀ r : TaskRecord, (r.updated u).attempt = r.attempt)
    (h : retain m ticket.publicId u stale w.service = (reply, s')) :
    ReflTransGen (Change host edits stops) w { w with service := s' } := by
  refine .single (retain_changes h fun r hget => ?_).1
  rw [hid] at hget
  obtain ⟨hactive, hattempt', -⟩ := hs.own howns.2 hget
  exact ⟨hadmitted r hactive hattempt', fun hmem => absurd hmem hname,
    quiet_of_state (hattempt r) (hstate r)⟩

/-- **Every section follows the protocol.** -/
theorem exec_changes {c : Call} {reply : Except Failure Reply} (hs : Sound host w)
    (hpermitted : Permitted w c) (h : exec host m c w.service = (reply, s'))
    (hedits : ∀ id expected name, c = .rename id expected name → edits id) :
    ReflTransGen (Change host edits stops) w
      { service := s'
        sealed := if Starts c reply then false else w.sealed || Seals s'.job c reply } := by
  cases c with
  | reserve name kind requestedId =>
    rcases reserveJob_changes edits h with ⟨hstarts, hchange⟩ | ⟨hstarts, hchanges⟩
    · rw [if_pos hstarts]
      exact .single hchange
    · rw [sealedAfter_eq hstarts rfl]
      exact hchanges
  | resume id attempt =>
    rcases resume_changes edits h with ⟨hstarts, hchange⟩ | ⟨hstarts, hchanges⟩
    · rw [if_pos hstarts]
      exact .single hchange
    · rw [sealedAfter_eq hstarts rfl]
      exact hchanges
  | checkpoint generation stage => exact trainingCheckpoint_changes hs hpermitted h
  | boundary generation stage => exact audioBoundary_changes hs hpermitted h
  | setStage generation stage =>
    rw [sealedAfter_eq rfl rfl]
    exact setStage_changes hs hpermitted h
  | beginStep generation name step =>
    rw [sealedAfter_eq rfl rfl]
    obtain ⟨-, rfl⟩ := Prod.mk.inj h
    refine .single (quiet_job ⟨rfl, rfl, rfl, rfl, id, id, id, Or.inl⟩ rfl fun hsealed => ?_)
    rw [hpermitted.2.2] at hsealed
    cases hsealed
  | observe generation phase unit completed total =>
    rw [sealedAfter_eq rfl rfl]
    exact observeProgress_changes hs h
  | guardPause generation id reason =>
    rw [sealedAfter_eq rfl rfl]
    exact guardPause_changes hs hpermitted h
  | guardUndelivered generation =>
    rw [sealedAfter_eq rfl rfl]
    obtain ⟨-, rfl⟩ := Prod.mk.inj h
    split_ifs
    · exact .single (quiet_job ⟨rfl, rfl, rfl, rfl, id, id, id, Or.inl⟩ rfl fun _ => rfl)
    · exact .refl
  | rename id expected name =>
    rw [sealedAfter_eq rfl rfl]
    exact rename_changes (hedits id expected name rfl) h
  | cleanup id attempt =>
    rw [sealedAfter_eq rfl rfl]
    exact cleanup_changes h
  | pause id attempt =>
    rw [sealedAfter_eq rfl rfl]
    exact pause_changes hs h
  | pauseUndelivered id attempt =>
    rw [sealedAfter_eq rfl rfl]
    obtain ⟨-, rfl⟩ := Prod.mk.inj h
    split_ifs
    · exact .single (quiet_job ⟨rfl, rfl, rfl, rfl, fun h => h, fun h => h, fun h => h, Or.inl⟩ rfl
        fun _ => rfl)
    · exact .refl
  | cancelTrain id =>
    rw [sealedAfter_eq rfl rfl]
    exact cancelTrain_changes h
  | registerControl ticket token =>
    rw [sealedAfter_eq rfl rfl]
    obtain ⟨-, rfl⟩ := Prod.mk.inj h
    exact .single (quiet_job ⟨rfl, rfl, rfl, rfl, id, id, id, Or.inl⟩ rfl fun _ => rfl)
  | registerCancel generation =>
    rw [sealedAfter_eq rfl rfl]
    simp only [exec, registerCancel] at h
    split at h
    · obtain ⟨-, rfl⟩ := Prod.mk.inj h
      exact .refl
    · obtain ⟨-, rfl⟩ := Prod.mk.inj h
      exact .single (quiet_job ⟨rfl, rfl, rfl, rfl, id, id, id, Or.inl⟩ rfl fun _ => rfl)
  | closeLease generation clean =>
    rw [sealedAfter_eq rfl rfl]
    obtain ⟨-, rfl⟩ := Prod.mk.inj h
    split_ifs
    · exact .single (quiet_job ⟨rfl, rfl, rfl, rfl, id, id, id, Or.inl⟩ rfl fun _ => rfl)
    · exact .refl
  | plan ticket plan =>
    rw [sealedAfter_eq rfl rfl]
    obtain ⟨howns, hid, hone⟩ := hpermitted
    exact retainWrites_changes (u := .plan plan) hs howns hid (fun r hactive hattempt =>
      ⟨hactive, hattempt.trans hone⟩) (not_mem_writes_plan plan) (fun _ => rfl) (fun _ => rfl) h
  | recipe ticket recipe =>
    rw [sealedAfter_eq rfl rfl]
    obtain ⟨howns, hid, hone⟩ := hpermitted
    exact retainWrites_changes (u := .recipe recipe) hs howns hid (fun r hactive hattempt =>
      ⟨hactive, hattempt.trans hone⟩) (not_mem_writes_recipe recipe) (fun _ => rfl)
      (fun _ => rfl) h
  | stages ticket reused =>
    rw [sealedAfter_eq rfl rfl]
    exact retainWrites_changes (u := .ready reused) hs hpermitted.1 hpermitted.2
      (fun r hactive _ => hactive) (by simp [Update.writes]) (fun _ => rfl) (fun _ => rfl) h
  | prepare ticket preprocessed =>
    rw [sealedAfter_eq rfl rfl]
    exact prepareTraining_changes hs hpermitted.1.2 hpermitted.2.1 hpermitted.2.2 h
  | finish generation stage error =>
    rw [sealedAfter_eq rfl rfl]
    exact finish_changes hs hpermitted h
  | finishTraining generation outcome =>
    rw [sealedAfter_eq rfl rfl]
    exact finishTraining_changes hs hpermitted h
  | finishAudio ticket result error paused =>
    rw [sealedAfter_eq rfl rfl]
    exact finishAudioTask_changes hs hpermitted h

/-- **Every step follows the protocol.** -/
theorem Step.changes {e : Event} (h : Step host w e w') (hs : Sound host w) :
    ReflTransGen (Change host e.edits e.stops) w w' := by
  cases h with
  | call hpermitted hexec =>
    refine exec_changes hs hpermitted hexec fun id expected name hc => ?_
    subst hc
    rfl
  | restart h => exact (ReflTransGen.single (Change.crash trivial)).trans (restart_changes h)

end Resonantia.Web.JobControl
