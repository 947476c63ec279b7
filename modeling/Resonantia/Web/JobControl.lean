import Mathlib.Data.Nat.Notation
import Mathlib.Tactic.SplitIfs
import Resonantia.Web.RecordLife

/-!
# Control of the running job

One job runs at a time. Its state lies behind one mutex, and so does every change of a stored
record: each function below is one critical section. Several threads enter them: the request
handlers, the worker of the job, the workers of earlier jobs that have not noticed that they are
late, and the readers of worker output. The service has a task directory, so `tasks_` is set.

## Main definitions

* `Web.JobControl.JobState`, `Web.JobControl.Service`: what the mutex protects.
* `Web.JobControl.amend`: read a record, decide, and save it at the revision it was read with.
* `Web.JobControl.Call`, `Web.JobControl.exec`: the critical sections.
* `Web.JobControl.restart`: start-ups of the service over the same task directory.

## Main results

* `Web.JobControl.amend_cases`: a record is rewritten by its update, or nothing changes.
-/

namespace Resonantia.Web.JobControl

open Std

/-! ### State -/

inductive JobKind
  | none
  | step
  | training
  | conversion
  | preprocess
deriving DecidableEq, Repr

/-- The kind of record that `reserve_job` stores. -/
def JobKind.stored : JobKind → TaskKind
  | .training => .training
  | .conversion => .convert
  | .preprocess => .preprocess
  | .none | .step => .step

/-- The kinds with an audio result. -/
def JobKind.Audio (kind : JobKind) : Prop := kind = .conversion ∨ kind = .preprocess

instance (kind : JobKind) : Decidable kind.Audio := by
  unfold JobKind.Audio
  infer_instance

inductive TrainingOutcome
  | done
  | cancelled
  | paused
  | error
deriving DecidableEq, Repr

structure JobTicket where
  generation : ℕ
  publicId : String
  attempt : ℕ := 1
deriving DecidableEq, Repr

/-- The state of the job. The control channel is present or not. -/
structure JobState where
  generation : ℕ := 0
  attempt : ℕ := 1
  publicId : String := ""
  kind : JobKind := .none
  cancelRequested : Bool := false
  pauseRequested : Bool := false
  recoverableTraining : Bool := false
  storageNotice : String := ""
  controlPath : String := ""
  cancelError : Bool := false
  cancelSource : Bool := false
  cancelled : Bool := false
  name : String := ""
  stage : String := "idle"
  progressSaved : ℕ := 0
  running : Bool := false
  done : Bool := false
  error : Bool := false
deriving DecidableEq, Repr

structure Service where
  tasks : TaskStore
  instanceId : String
  taskStorageFailed : Bool := false
  job : JobState := {}

/-- What a critical section meets: the clocks, the storage limits, the files that it reads and
the disk. -/
structure Moment where
  wallMs : ℕ := 0
  steadyMs : ℕ := 0
  /-- what `require_storage_room` throws -/
  room : Option Failure := none
  readFails : Bool := false
  logFails : Bool := false
  /-- the digest of a result file that can be read -/
  digest : Option String := none
  fault : Option DiskFault := none
  /-- what the second save of a section meets -/
  secondFault : Option DiskFault := none

/-- What a section returns. -/
inductive Reply
  | done
  | refused
  | started (ticket : JobTicket)
  | duplicate (attempt : ℕ)
  | answered (code : ℕ) (durable : Bool)
deriving DecidableEq, Repr

def failureOf : StoreError → Failure
  | .invalid message => .exception message
  | .capacity => .exception "task store capacity reached"
  | .disk => .exception "task record write failed"

/-! ### Records -/

/-- `get`, decide, and `save` at the revision that was read. `change` returns nothing for a
record that stays as it is. -/
def amend (m : Moment) (fault : Option DiskFault) (id : String) (missing stale : Failure)
    (change : TaskRecord → Except Failure (Option Update)) (tasks : TaskStore) :
    Except Failure Unit × TaskStore :=
  if m.readFails then (.error (.exception "cannot read task record"), tasks)
  else
    match tasks.get id with
    | none => (.error missing, tasks)
    | some r =>
      match change r with
      | .error e => (.error e, tasks)
      | .ok none => (.ok (), tasks)
      | .ok (some u) =>
        match tasks.save (u.apply r) r.revision fault with
        | (.error e, tasks) => (.error (failureOf e), tasks)
        | (.ok false, tasks) => (.error stale, tasks)
        | (.ok true, tasks) => (.ok (), tasks)

/-- `task_storage_failed_` is set by what is thrown. -/
def Service.amended (s : Service) (poison : Bool) (result : Except Failure Unit × TaskStore) :
    Except Failure Unit × Service :=
  match result with
  | (.ok (), tasks) => (.ok (), { s with tasks })
  | (.error e, tasks) =>
    (.error e, { s with tasks, taskStorageFailed := s.taskStorageFailed || poison })

/-- `persist_job_locked`. -/
def persistJobLocked (m : Moment) (fault : Option DiskFault) (state : TaskState)
    (terminal : Bool) (s : Service) : Except Failure Unit × Service :=
  if s.taskStorageFailed then (.error (.exception "task storage unavailable"), s)
  else
    s.amended true (amend m fault s.job.publicId (.exception "task record missing")
      (.exception "task revision changed")
      (fun _ =>
        if terminal && m.logFails then .error (.exception "cannot retain task log")
        else .ok (some (.job state s.job.stage m.wallMs terminal))) s.tasks)

/-! ### Start of a job -/

/-- The new job, in `reserve_job` and in the resumption. -/
def JobState.started (job : JobState) (ticket : JobTicket) (name : String) (kind : JobKind)
    (recoverable : Bool) : JobState :=
  { job with
    generation := ticket.generation, attempt := ticket.attempt, publicId := ticket.publicId
    name, stage := "queued", kind, done := false, error := false, cancelRequested := false
    cancelled := false, pauseRequested := false, controlPath := ""
    recoverableTraining := recoverable, storageNotice := "", cancelError := false
    cancelSource := false, running := true }

/-- The record of a new task. -/
def newRecord (ticket : JobTicket) (name : String) (kind : JobKind) (nowMs : ℕ) : TaskRecord where
  id := ticket.publicId
  kind := kind.stored
  name
  createdMs := nowMs
  updatedMs := nowMs

/-- `reserve_job`. -/
def reserveJob (m : Moment) (name : String) (kind : JobKind) (requestedId : String)
    (s : Service) : Except Failure Reply × Service :=
  if s.job.running then (.ok .refused, s)
  else
    match m.room with
    | some e => (.error e, s)
    | none =>
      if s.job.generation = 2 ^ 64 - 1 then (.error (.exception "job generation exhausted"), s)
      else if s.taskStorageFailed then (.error (.exception "task storage unavailable"), s)
      else
        let generation := s.job.generation + 1
        let ticket : JobTicket :=
          { generation
            publicId :=
              if requestedId = "" then s.instanceId ++ "-" ++ toString generation
              else requestedId }
        match s.tasks.save (newRecord ticket name kind m.wallMs) 0 m.fault with
        | (.ok true, tasks) =>
          (.ok (.started ticket), { s with tasks, job := s.job.started ticket name kind false })
        | (.ok false, tasks) => (.ok .refused, { s with tasks })
        | (.error .capacity, tasks) =>
          (.error (.workflow 409 "任务记录已达到容量上限；已有任务和结果仍可查看"), { s with tasks })
        | (.error e, tasks) => (.error (failureOf e), { s with tasks, taskStorageFailed := true })

/-- The record is the answer to an earlier request to resume `attempt`. -/
def ResumedFrom (attempt : ℕ) (r : TaskRecord) : Prop :=
  r.attempt = attempt + 1 ∧ r.parameters["resumed_from"]? = some (toString attempt)

instance (attempt : ℕ) (r : TaskRecord) : Decidable (ResumedFrom attempt r) := by
  unfold ResumedFrom
  infer_instance

/-- The plan that the resumption of a record needs; a recoverable training needs none. -/
def resumedKind (host : Host) (r : TaskRecord) : Except Failure JobKind :=
  if RecoverableTraining r then .ok .training
  else
    match restoreAudioPlan host r with
    | .error e => .error e
    | .ok plan => .ok (if plan.preprocessOnly then .preprocess else .conversion)

/-- The resumption of `handle_task_control`. -/
def resume (host : Host) (m : Moment) (id : String) (attempt : ℕ) (s : Service) :
    Except Failure Reply × Service :=
  if s.taskStorageFailed then (.error (.workflow 503 "任务存储不可用，未启动新的执行"), s)
  else if m.readFails then (.error (.exception "cannot read task record"), s)
  else
    match s.tasks.get id with
    | none => (.error (.workflow 404 "任务不存在"), s)
    | some r =>
      if ResumedFrom attempt r then (.ok (.duplicate r.attempt), s)
      else if r.attempt ≠ attempt then (.error (.workflow 409 "执行已变化，请刷新任务状态"), s)
      else if s.job.running then (.error (.workflow 409 "已有任务运行，请先等待或暂停"), s)
      else
        match m.room with
        | some e => (.error e, s)
        | none =>
          if ¬Resumable r then (.error (.workflow 409 "此任务无需恢复"), s)
          else
            match resumedKind host r with
            | .error e => (.error e, s)
            | .ok kind =>
              if 2147483647 ≤ r.attempt ∨ s.job.generation = 2 ^ 64 - 1 then
                (.error (.workflow 409 "执行次数已达到上限"), s)
              else
                let ticket : JobTicket :=
                  { generation := s.job.generation + 1, publicId := id, attempt := r.attempt + 1 }
                match s.tasks.save ((Update.resume m.wallMs).apply r) r.revision m.fault with
                | (.ok true, tasks) =>
                  (.ok (.started ticket),
                    { s with
                      tasks
                      job := s.job.started ticket r.name kind (decide (RecoverableTraining r)) })
                | (.ok false, tasks) =>
                  (.error (.exception "resume revision changed"),
                    { s with tasks, taskStorageFailed := true })
                | (.error e, tasks) =>
                  (.error (failureOf e), { s with tasks, taskStorageFailed := true })

/-! ### Stages -/

/-- `set_stage`. -/
def setStage (m : Moment) (generation : ℕ) (stage : String) (s : Service) :
    Except Failure Reply × Service :=
  if s.job.generation ≠ generation then (.ok .done, s)
  else
    let state : TaskState :=
      if s.job.pauseRequested then .pauseRequested
      else if stage = "queued" then .queued else .running
    match persistJobLocked m m.fault state false { s with job := { s.job with stage } } with
    | (.ok (), s) => (.ok .done, s)
    | (.error e, s) => (.error e, s)

/-- The start of a step worker. -/
def beginStep (name step : String) (s : Service) : Except Failure Reply × Service :=
  (.ok .done,
    { s with
      job := { s.job with name, stage := "step:" ++ step, done := false, error := false } })

/-- `training_checkpoint`. -/
def trainingCheckpoint (m : Moment) (generation : ℕ) (stage : String) (s : Service) :
    Except Failure Reply × Service :=
  if s.job.generation ≠ generation ∨ s.job.cancelRequested ∨ s.job.cancelError then
    (.ok .refused, s)
  else
    match persistJobLocked m m.fault .running false { s with job := { s.job with stage } } with
    | (.ok (), s) => (.ok .done, s)
    | (.error e, s) => (.error e, s)

/-- `audio_boundary` after the storage guard. -/
def audioBoundary (m : Moment) (generation : ℕ) (stage : String) (s : Service) :
    Except Failure Reply × Service :=
  if generation = 0 then (.ok .done, s)
  else if s.job.generation ≠ generation ∨ s.job.cancelError then
    (.error (.exception "task control ownership or I/O failed"), s)
  else if s.job.pauseRequested ∨ (s.job.recoverableTraining ∧ s.job.cancelRequested) then
    (.error .operationPaused, s)
  else if stage = "" then (.ok .done, s)
  else
    match persistJobLocked m m.fault .running false { s with job := { s.job with stage } } with
    | (.ok (), s) => (.ok .done, s)
    | (.error e, s) => (.error e, s)

/-! ### Progress and the storage guard -/

/-- `observe_progress`, for a line that was read. -/
def observeProgress (m : Moment) (generation : ℕ) (phase unit : String) (completed total : ℕ)
    (s : Service) : Except Failure Reply × Service :=
  if s.job.generation ≠ generation ∨ s.job.running = false then (.ok .done, s)
  else if s.taskStorageFailed then
    (.error (.exception "task progress storage unavailable"), s)
  else if m.readFails then
    (.error (.exception "cannot read task record"), { s with taskStorageFailed := true })
  else
    match s.tasks.get s.job.publicId with
    | none =>
      (.error (.exception "task progress record missing"), { s with taskStorageFailed := true })
    | some r =>
      let changed := r.phase ≠ phase ∨ r.unit ≠ unit ∨ r.total ≠ total
      if ¬changed ∧ completed < r.completed then
        (.error (.exception "task progress moved backwards"), { s with taskStorageFailed := true })
      else if ¬changed ∧ completed = r.completed then (.ok .done, s)
      else if ¬changed ∧ completed ≠ total ∧ m.steadyMs < s.job.progressSaved + 1000 then
        (.ok .done, s)
      else
        match s.tasks.save ((Update.progress phase unit completed total m.wallMs).apply r)
            r.revision m.fault with
        | (.ok true, tasks) =>
          (.ok .done, { s with tasks, job := { s.job with progressSaved := m.steadyMs } })
        | (.ok false, tasks) =>
          (.error (.exception "task progress revision changed"),
            { s with tasks, taskStorageFailed := true })
        | (.error e, tasks) => (.error (failureOf e), { s with tasks, taskStorageFailed := true })

/-- The job can be paused: its work leaves checkpoints. -/
def Pausable (job : JobState) : Prop := job.kind.Audio ∨ job.recoverableTraining = true

instance (job : JobState) : Decidable (Pausable job) := by
  unfold Pausable
  infer_instance

/-- The first section of `guard_task_storage`: the task to measure. -/
def guardProbe (generation : ℕ) (job : JobState) : Option String :=
  if generation = 0 ∨ job.generation ≠ generation ∨ job.running = false ∨ job.pauseRequested ∨
      ¬Pausable job then
    none
  else some job.publicId

/-- The second section of `guard_task_storage`, for a task that has no room for `reason`. -/
def guardPause (m : Moment) (generation : ℕ) (id reason : String) (s : Service) :
    Except Failure Reply × Service :=
  if s.job.generation ≠ generation ∨ s.job.running = false ∨ s.job.stage = "publishing" ∨
      s.job.stage = "saving" then
    (.ok .done, s)
  else
    let s := { s with job := { s.job with pauseRequested := true, storageNotice := reason } }
    match s.amended true (amend m m.fault id (.exception "storage guard task missing")
        (.exception "storage guard revision changed") (fun _ => .ok (some (.notice reason)))
        s.tasks) with
    | (.error e, s) => (.error e, s)
    | (.ok (), s) =>
      match persistJobLocked m m.secondFault .pauseRequested false s with
      | (.ok (), s) => (.ok .done, s)
      | (.error e, s) => (.error e, { s with taskStorageFailed := true })

/-- The control channel of a storage pause could not be written. -/
def guardUndelivered (generation : ℕ) (s : Service) : Except Failure Reply × Service :=
  (.error (.exception "storage protection pause delivery failed"),
    if s.job.generation = generation then { s with job := { s.job with cancelError := true } }
    else s)

/-! ### Requests -/

/-- `display_name` -/
def displayName (r : TaskRecord) : String :=
  match r.parameters["display_name"]? with
  | some name => name
  | none => r.name

/-- `handle_task_rename`, for fields that it has checked. -/
def rename (m : Moment) (id expected name : String) (s : Service) :
    Except Failure Reply × Service :=
  if s.taskStorageFailed then (.error (.workflow 503 "任务存储暂不可用"), s)
  else
    match s.amended false (amend m m.fault id (.workflow 404 "任务不存在")
        (.workflow 409 "任务记录已变化，请重试")
        (fun r =>
          if displayName r = name then .ok none
          else if displayName r ≠ expected then
            .error (.workflow 409 "任务已被重命名，请刷新后再修改")
          else .ok (some (.rename name m.wallMs))) s.tasks) with
    | (.ok (), s) => (.ok (.answered 200 true), s)
    | (.error e, s) => (.error e, s)

/-- The cleanup of `handle_task_control`; `logFails` stands for copies that cannot be removed. -/
def cleanup (m : Moment) (id : String) (attempt : ℕ) (s : Service) :
    Except Failure Reply × Service :=
  if s.job.running then
    (.error (.workflow 409 "任务运行期间暂不清理，请先等待或安全暂停"), s)
  else if m.readFails then (.error (.exception "cannot read task record"), s)
  else
    match s.tasks.get id with
    | none => (.error (.workflow 404 "任务不存在"), s)
    | some r =>
      if r.attempt ≠ attempt ∨ r.state ≠ .succeeded then
        (.error (.workflow 409 "只有当前已成功的任务可以清理副本"), s)
      else if (r.parameters["retention"]?).isSome then (.ok (.answered 200 true), s)
      else if m.logFails then (.error (.exception "cannot remove task copies"), s)
      else
        match s.amended true (amend m m.fault id (.workflow 404 "任务不存在")
            (.exception "cleanup revision changed") (fun _ => .ok (some (.prune m.wallMs)))
            s.tasks) with
        | (.ok (), s) => (.ok (.answered 200 true), s)
        | (.error e, s) => (.error e, s)

/-- The locked part of the pause of `handle_task_control`. -/
def pause (m : Moment) (id : String) (attempt : ℕ) (s : Service) :
    Except Failure Reply × Service :=
  if s.job.running ∧ s.job.publicId = id then
    if s.job.attempt ≠ attempt then (.error (.workflow 409 "执行已变化，请刷新任务状态"), s)
    else if ¬Pausable s.job ∨ s.job.stage = "saving" ∨ s.job.stage = "publishing" then
      (.error (.workflow 409 "当前阶段不支持暂停，任务仍在后台运行"), s)
    else
      match persistJobLocked m m.fault .pauseRequested false
          { s with job := { s.job with pauseRequested := true } } with
      | (.ok (), s) => (.ok (.answered 202 true), s)
      | (.error _, s) => (.ok (.answered 202 false), s)
  else if s.taskStorageFailed then (.error (.workflow 503 "任务状态暂不可确认"), s)
  else if m.readFails then (.error (.exception "cannot read task record"), s)
  else
    match s.tasks.get id with
    | none => (.error (.workflow 404 "任务不存在"), s)
    | some r =>
      if r.attempt ≠ attempt ∨ r.state ≠ .paused then
        (.error (.workflow 409 "此执行已结束或状态已变化"), s)
      else (.ok (.answered 200 true), s)

/-- The control channel of a pause could not be written. -/
def pauseUndelivered (id : String) (attempt : ℕ) (s : Service) :
    Except Failure Reply × Service :=
  (.error (.workflow 503 "暂停通道写入失败，任务状态暂不可确认"),
    if s.job.publicId = id ∧ s.job.attempt = attempt then
      { s with job := { s.job with cancelError := true } }
    else s)

/-- The locked part of `handle_cancel_train`, for an identifier that it has checked. -/
def cancelTrain (id : String) (s : Service) : Except Failure Reply × Service :=
  if s.job.publicId = "" then (.error (.workflow 404 "no job"), s)
  else if id ≠ s.job.publicId then
    (.error (.workflow 409 "job id does not match current job"), s)
  else if s.job.kind ≠ .training then
    (.error (.workflow 409 "only training jobs can be cancelled"), s)
  else if s.job.recoverableTraining ∧ 1 < s.job.attempt then
    (.error (.workflow 409 "resumed training requires task controls with an execution attempt"), s)
  else if s.job.cancelled ∧ s.job.running = false then (.ok (.answered 200 true), s)
  else if s.job.running = false ∨ s.job.stage = "publishing" then
    (.error (.workflow 409 "too late: publication started or job already ended"), s)
  else
    (.ok (.answered (if s.job.cancelRequested then 200 else 202) true),
      { s with job := { s.job with cancelRequested := true } })

/-! ### Control channels -/

/-- A worker of an audio or recoverable training task registers the channel of its attempt; the
section does not look at the generation. -/
def registerControl (token : String) (s : Service) : Except Failure Reply × Service :=
  (.ok .done, { s with job := { s.job with controlPath := token, cancelSource := true } })

/-- `run_training` registers its channel. -/
def registerCancel (generation : ℕ) (s : Service) : Except Failure Reply × Service :=
  if s.job.generation ≠ generation ∨ s.job.cancelRequested then (.ok .refused, s)
  else (.ok .done, { s with job := { s.job with cancelSource := true } })

/-- `TrainingCancelLease::~TrainingCancelLease`, after the channel was closed. -/
def closeLease (generation : ℕ) (clean : Bool) (s : Service) : Except Failure Reply × Service :=
  (.ok .done,
    if s.job.generation = generation then
      { s with
        job := { s.job with cancelError := s.job.cancelError || !clean, cancelSource := false } }
    else s)

/-! ### What a task was started with -/

/-- The parameters of a task: `start_audio_task`, `handle_train`, `inherit_audio_stages`. -/
def retain (m : Moment) (id : String) (u : Update) (stale : String) (s : Service) :
    Except Failure Reply × Service :=
  match s.amended false (amend m m.fault id (.exception "task record missing") (.exception stale)
      (fun _ => .ok (some u)) s.tasks) with
  | (.ok (), s) => (.ok .done, s)
  | (.error e, s) => (.error e, s)

/-- `start_audio_task` -/
def retainPlan (m : Moment) (id : String) (plan : ConversionPlan) :
    Service → Except Failure Reply × Service :=
  retain m id (.plan plan) "cannot retain conversion parameters"

/-- `handle_train` -/
def retainRecipe (m : Moment) (id : String) (recipe : TrainingRecipe) :
    Service → Except Failure Reply × Service :=
  retain m id (.recipe recipe) "cannot retain training parameters"

/-- `inherit_audio_stages` -/
def retainStages (m : Moment) (id reused : String) : Service → Except Failure Reply × Service :=
  retain m id (.ready reused) "cannot retain revision preparation"

/-- The locked part of `prepare_training_task`. -/
def prepareTraining (m : Moment) (id : String) (preprocessed : Bool) (s : Service) :
    Except Failure Reply × Service :=
  match retain m id (.prepare preprocessed) "cannot retain fixed training recipe" s with
  | (.ok reply, s) => (.ok reply, { s with job := { s.job with recoverableTraining := true } })
  | (.error e, s) => (.error e, s)

/-! ### End of a job -/

/-- `finish`. -/
def finish (m : Moment) (generation : ℕ) (stage : String) (error : Bool) (s : Service) :
    Except Failure Reply × Service :=
  if s.job.generation ≠ generation then (.ok .done, s)
  else
    -- `persist_terminal_locked` does not throw.
    let s := (persistJobLocked m m.fault (if error then .failed else .succeeded) true s).2
    (.ok .done,
      { s with
        job :=
          { s.job with
            stage, error := error || s.taskStorageFailed, done := true, running := false } })

/-- The terminal state of a training. -/
def TrainingOutcome.state : TrainingOutcome → TaskState
  | .paused => .paused
  | .cancelled => .cancelled
  | .error => .failed
  | .done => .succeeded

/-- The last stage of a training. -/
def TrainingOutcome.stage : TrainingOutcome → String
  | .paused => "paused"
  | .cancelled => "cancelled"
  | .error => "error"
  | .done => "done"

/-- `finish_training`. -/
def finishTraining (m : Moment) (generation : ℕ) (outcome : TrainingOutcome) (s : Service) :
    Except Failure Reply × Service :=
  if s.job.generation ≠ generation ∨ s.job.kind ≠ .training then (.ok .done, s)
  else
    let outcome := if s.job.cancelError then .error else outcome
    let s := (persistJobLocked m m.fault outcome.state true s).2
    let outcome := if s.taskStorageFailed then .error else outcome
    (.ok .done,
      { s with
        job :=
          { s.job with
            cancelled := outcome = .cancelled, error := outcome = .error
            stage := outcome.stage, done := outcome ≠ .paused, running := false } })

/-- The final update of an audio task. -/
def finalUpdate (m : Moment) (job : JobState) (result error : String) (paused : Bool) :
    Except Failure Update :=
  let failed := job.cancelError || error ≠ ""
  let paused := paused && !job.cancelError
  let text :=
    if job.cancelError then "pause control I/O failed"
    else if paused ∧ failed = false then job.storageNotice
    else error
  let state : TaskState := if failed then .failed else if paused then .paused else .succeeded
  if m.logFails then .error (.exception "cannot retain task log")
  else if state = .succeeded then
    match m.digest with
    | some digest => .ok (.finishAudio state result text (some digest) m.wallMs paused)
    | none => .error (.exception "cannot read task result")
  else .ok (.finishAudio state result text none m.wallMs paused)

/-- `finish_audio_task`. The error text is within its bound. -/
def finishAudioTask (m : Moment) (ticket : JobTicket) (result error : String) (paused : Bool)
    (s : Service) : Except Failure Reply × Service :=
  if s.job.generation ≠ ticket.generation then (.ok .done, s)
  else
    let s := (s.amended true (amend m m.fault ticket.publicId
      (.exception "missing audio task record") (.exception "cannot retain audio task result")
      (fun _ => (finalUpdate m s.job result error paused).map some) s.tasks)).2
    (.ok .done,
      { s with
        job :=
          { s.job with
            done := true
            error := error ≠ "" || s.job.cancelError || s.taskStorageFailed
            running := false } })

/-! ### All sections -/

/-- The critical sections, with what their callers pass. -/
inductive Call
  | reserve (name : String) (kind : JobKind) (requestedId : String)
  | resume (id : String) (attempt : ℕ)
  | setStage (generation : ℕ) (stage : String)
  | beginStep (generation : ℕ) (name step : String)
  | checkpoint (generation : ℕ) (stage : String)
  | boundary (generation : ℕ) (stage : String)
  | observe (generation : ℕ) (phase unit : String) (completed total : ℕ)
  | guardPause (generation : ℕ) (id reason : String)
  | guardUndelivered (generation : ℕ)
  | rename (id expected name : String)
  | cleanup (id : String) (attempt : ℕ)
  | pause (id : String) (attempt : ℕ)
  | pauseUndelivered (id : String) (attempt : ℕ)
  | cancelTrain (id : String)
  | registerControl (ticket : JobTicket) (token : String)
  | registerCancel (generation : ℕ)
  | closeLease (generation : ℕ) (clean : Bool)
  | plan (ticket : JobTicket) (plan : ConversionPlan)
  | recipe (ticket : JobTicket) (recipe : TrainingRecipe)
  | stages (ticket : JobTicket) (reused : String)
  | prepare (ticket : JobTicket) (preprocessed : Bool)
  | finish (generation : ℕ) (stage : String) (error : Bool)
  | finishTraining (generation : ℕ) (outcome : TrainingOutcome)
  | finishAudio (ticket : JobTicket) (result error : String) (paused : Bool)

def exec (host : Host) (m : Moment) : Call → Service → Except Failure Reply × Service
  | .reserve name kind requestedId => reserveJob m name kind requestedId
  | .resume id attempt => resume host m id attempt
  | .setStage generation stage => setStage m generation stage
  | .beginStep _ name step => beginStep name step
  | .checkpoint generation stage => trainingCheckpoint m generation stage
  | .boundary generation stage => audioBoundary m generation stage
  | .observe generation phase unit completed total =>
    observeProgress m generation phase unit completed total
  | .guardPause generation id reason => guardPause m generation id reason
  | .guardUndelivered generation => guardUndelivered generation
  | .rename id expected name => rename m id expected name
  | .cleanup id attempt => cleanup m id attempt
  | .pause id attempt => pause m id attempt
  | .pauseUndelivered id attempt => pauseUndelivered id attempt
  | .cancelTrain id => cancelTrain id
  | .registerControl _ token => registerControl token
  | .registerCancel generation => registerCancel generation
  | .closeLease generation clean => closeLease generation clean
  | .plan ticket plan => retainPlan m ticket.publicId plan
  | .recipe ticket recipe => retainRecipe m ticket.publicId recipe
  | .stages ticket reused => retainStages m ticket.publicId reused
  | .prepare ticket preprocessed => prepareTraining m ticket.publicId preprocessed
  | .finish generation stage error => finish m generation stage error
  | .finishTraining generation outcome => finishTraining m generation outcome
  | .finishAudio ticket result error paused => finishAudioTask m ticket result error paused

/-! ### Start-up -/

/-- What a start-up meets: the clock, the disk at each record, and which control channels could
be signalled. -/
structure StartUp where
  wallMs : ℕ
  listFails : Bool
  fault : String → Option DiskFault
  noticeFault : String → Option DiskFault
  stopInterrupted : TaskRecord → Bool

/-- `recover_interrupted`, over the identifiers of the listing. -/
def recoverLoop (start : StartUp) : List String → TaskStore → Except StoreError Unit × TaskStore
  | [], tasks => (.ok (), tasks)
  | id :: ids, tasks =>
    match tasks.recoverRecord id start.wallMs (start.fault id) with
    | (.error e, tasks) => (.error e, tasks)
    | (.ok (), tasks) => recoverLoop start ids tasks

/-- An interrupted execution may have left a worker behind. -/
def LeavesWorker (r : TaskRecord) : Prop :=
  r.state = .interrupted ∧
    (r.parameters["recovery"]? = some "audio-v1" ∨
      r.parameters["recovery"]? = some "training-full-v1")

instance (r : TaskRecord) : Decidable (LeavesWorker r) := by
  unfold LeavesWorker
  infer_instance

/-- The loop of the constructor of the service. -/
def signalLoop (start : StartUp) : List String → TaskStore → Except Failure Unit × TaskStore
  | [], tasks => (.ok (), tasks)
  | id :: ids, tasks =>
    match amend {} (start.noticeFault id) id (.exception "task record missing")
        (.exception "cannot retain interrupted control failure")
        (fun r =>
          if LeavesWorker r ∧ start.stopInterrupted r = false then .ok (some .unsignalled)
          else .ok none) tasks with
    | (.error e, tasks) => (.error e, tasks)
    | (.ok (), tasks) => signalLoop start ids tasks

/-- The constructor of the service. -/
def startUp (start : StartUp) (tasks : TaskStore) : Except Failure Unit × TaskStore :=
  if start.listFails then (.error (.exception "cannot list tasks"), tasks)
  else
    match recoverLoop start (tasks.listLocked.map TaskRecord.id) tasks with
    | (.error e, tasks) => (.error (failureOf e), tasks)
    | (.ok (), tasks) => signalLoop start (tasks.listLocked.map TaskRecord.id) tasks

/-- Start-ups until one succeeds. -/
def restart (instanceId : String) : List StartUp → TaskStore → Option Service
  | [], _ => none
  | start :: starts, tasks =>
    match startUp start tasks with
    | (.ok (), tasks) => some { tasks, instanceId }
    | (.error _, tasks) => restart instanceId starts tasks

/-! ### Rewriting one record -/

theorem updated_revision_pos (r : TaskRecord) (u : Update) : 0 < (r.updated u).revision :=
  Nat.succ_pos _

/-- The store after a saved update. -/
def Stored (tasks tasks' : TaskStore) (r : TaskRecord) (u : Update) : Prop :=
  ∃ hvalid : (r.updated u).Valid,
    tasks' = tasks.put (r.updated u) (updated_revision_pos r u) hvalid

/-- A save at the revision that was read: it rewrites the record, or it changes nothing. -/
theorem save_apply_cases {tasks tasks' : TaskStore} {r : TaskRecord} {u : Update}
    {fault : Option DiskFault} {result : Except StoreError Bool}
    (h : tasks.save (u.apply r) r.revision fault = (result, tasks')) :
    (tasks' = tasks ∧ result ≠ .ok true) ∨
      (Stored tasks tasks' r u ∧ (result = .ok true ∨ result = .error .disk)) := by
  rcases TaskStore.save_cases h with ⟨rfl, hne⟩ | ⟨-, -, hvalid, hput, hresult⟩
  · exact Or.inl ⟨rfl, hne⟩
  · refine Or.inr ⟨⟨hvalid, hput⟩, ?_⟩
    exact hresult.imp_right fun herror => herror.1

/-- **What an amendment does.** -/
theorem amend_cases {m : Moment} {fault : Option DiskFault} {id : String} {missing stale : Failure}
    {change : TaskRecord → Except Failure (Option Update)} {tasks tasks' : TaskStore}
    {result : Except Failure Unit}
    (h : amend m fault id missing stale change tasks = (result, tasks')) :
    (tasks' = tasks ∧ (result = .ok () → ∃ r, tasks.get id = some r ∧ change r = .ok none)) ∨
      ∃ r u, tasks.get id = some r ∧ change r = .ok (some u) ∧ Stored tasks tasks' r u := by
  rw [amend] at h
  split at h
  · obtain ⟨rfl, rfl⟩ := Prod.mk.inj h
    exact Or.inl ⟨rfl, by simp⟩
  split at h
  · obtain ⟨rfl, rfl⟩ := Prod.mk.inj h
    exact Or.inl ⟨rfl, by simp⟩
  rename_i r hget
  split at h
  · obtain ⟨rfl, rfl⟩ := Prod.mk.inj h
    exact Or.inl ⟨rfl, by simp⟩
  · rename_i hchange
    obtain ⟨rfl, rfl⟩ := Prod.mk.inj h
    exact Or.inl ⟨rfl, fun _ => ⟨r, hget, hchange⟩⟩
  rename_i u hchange
  split at h
  · rename_i hsave
    obtain ⟨rfl, rfl⟩ := Prod.mk.inj h
    rcases save_apply_cases hsave with ⟨rfl, -⟩ | ⟨hstored, -⟩
    · exact Or.inl ⟨rfl, by simp⟩
    · exact Or.inr ⟨r, u, hget, hchange, hstored⟩
  · rename_i hsave
    obtain ⟨rfl, rfl⟩ := Prod.mk.inj h
    rcases save_apply_cases hsave with ⟨rfl, -⟩ | ⟨hstored, -⟩
    · exact Or.inl ⟨rfl, by simp⟩
    · exact Or.inr ⟨r, u, hget, hchange, hstored⟩
  · rename_i hsave
    obtain ⟨rfl, rfl⟩ := Prod.mk.inj h
    rcases save_apply_cases hsave with ⟨-, hne⟩ | ⟨hstored, -⟩
    · exact absurd rfl hne
    · exact Or.inr ⟨r, u, hget, hchange, hstored⟩

end Resonantia.Web.JobControl
