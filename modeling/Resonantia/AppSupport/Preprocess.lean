import Mathlib.Data.List.Chain
import Mathlib.Data.List.Nodup
import Resonantia.AppSupport.ProgressProtocol
import Resonantia.Library.Triple

/-!
# The progress of audio preprocessing

The preprocessing program walks through its files; every file runs through the enabled cleanup
stages, each of which works on one chunk after the other. It reports the files as they are
identified, the files as they are handled, and in between the chunks of every stage. Any call that
it makes may stop it.

## Main definitions

* `AppSupport.Roformer.chunkSize`, `AppSupport.forwardChunked`: the chunks of one stage.
* `AppSupport.processFile`, `AppSupport.runVcPreprocess`: one file, and the program.
* `AppSupport.Follows`: a report does not take back a counter of the report before it.

## Main results

* `AppSupport.sound_runVcPreprocess`: the written lines are texts of valid reports, of which each
  follows the one before it.
-/

namespace Resonantia.AppSupport

open ByteString Effect

/-! ### The program and its surroundings -/

/-- The cleanup stages. -/
inductive CleanupStage
  | separate
  | deharmony
  | dereverb
  | deecho
  | denoise
deriving DecidableEq

def CleanupStage.phase : CleanupStage → Bytes
  | .separate => bytes "separate"
  | .deharmony => bytes "deharmony"
  | .dereverb => bytes "dereverb"
  | .deecho => bytes "deecho"
  | .denoise => bytes "denoise"

/-- The options that decide what is reported. -/
structure VcPreprocessOptions where
  progress : Bool := false
  checkpoint : Bool := false
  preserveStereo : Bool := false
  noSlice : Bool := false
  trim : Bool := false
  vad : Bool := false
  sampleRate : ℕ := 40000
  enabled : CleanupStage → Bool := fun _ => false

def VcPreprocessOptions.stages (o : VcPreprocessOptions) : List CleanupStage :=
  [.separate, .deharmony, .dereverb, .deecho, .denoise].filter o.enabled

/-- A model as far as it decides the chunks; the loader refuses shorter transforms. -/
structure Roformer where
  nfft : ℕ
  sampleRate : ℕ
  configured : ℕ
  nfft_ge : 16 ≤ nfft

/-- `chunk_size` as the loader bounds it. -/
def Roformer.chunkSize (model : Roformer) : ℕ :=
  if model.configured < model.nfft ∨ model.configured > max model.nfft (model.sampleRate * 4) then
    max model.nfft (model.sampleRate * 4)
  else model.configured

theorem Roformer.le_chunkSize (model : Roformer) : 16 ≤ model.chunkSize := by
  have hnfft := model.nfft_ge
  rw [Roformer.chunkSize]
  split <;> omega

/-- What the program finds: its files, the frames of the readable ones, the samples that a stage
gets of them, and whether there is speech. Sizes have 64 bits, lengths are `int`s. -/
structure PreprocessInput where
  files : List Bytes
  frames : ℕ → Option ℕ
  samples : ℕ → CleanupStage → ℕ
  speech : ℕ → Bool
  model : CleanupStage → Roformer
  files_lt : files.length < 2 ^ 64
  frames_lt : ∀ i n, frames i = some n → n < 2 ^ 31
  samples_lt : ∀ i stage, samples i stage < 2 ^ 31

/-- What ends the program early. -/
inductive Stop
  | status (code : ℕ)
  | error (message : String)
  | paused

/-- The process: which of its calls stop it, and the reports it has written with their lines. -/
structure Process where
  fault : ℕ → Option Stop
  ticks : ℕ := 0
  written : List (ProgressMessage × Bytes) := []

abbrev Program := ExceptT Stop (StateM Process)

/-- A call that reports nothing. -/
def call : Program Unit := fun s =>
  match s.fault s.ticks with
  | none => (.ok (), { s with ticks := s.ticks + 1 })
  | some stop => (.error stop, { s with ticks := s.ticks + 1 })

def put (p : ProgressMessage) (line : Bytes) : Program Unit := fun s =>
  (.ok (), { s with written := s.written ++ [(p, line)] })

/-! ### Reports -/

def message (phase : Bytes) (done total : ℕ) (unit : Bytes) : ProgressMessage where
  phase := phase
  unit := unit
  completed := UInt64.ofNat done
  total := UInt64.ofNat total

/-- `progress`; the stream may fail. -/
def progress (o : VcPreprocessOptions) (phase : Bytes) (done total : ℕ) (unit : Bytes) :
    Program Unit :=
  if o.progress then
    match writeProgressMessage (message phase done total unit) with
    | .error text => throw (.error text)
    | .ok line => do
      call
      put (message phase done total unit) line
  else pure ()

/-! ### One stage -/

/-- The loop of `forward_chunked`. -/
def chunkLoop (o : VcPreprocessOptions) (stage : CleanupStage) (model : Roformer)
    (length chunks start completed : ℕ) : Program Unit :=
  if _h : start < length then do
    call
    progress o stage.phase (completed + 1) chunks (bytes "chunks")
    call
    if length - start ≤ model.chunkSize then pure ()
    else chunkLoop o stage model length chunks (start + model.chunkSize / 2) (completed + 1)
  else pure ()
termination_by length - start
decreasing_by
  have hsize := model.le_chunkSize
  omega

/-- `forward_chunked` with the observer of a stage. -/
def forwardChunked (o : VcPreprocessOptions) (stage : CleanupStage) (model : Roformer)
    (length : ℕ) : Program Unit :=
  if model.chunkSize ≤ 0 ∨ length ≤ model.chunkSize then do
    progress o stage.phase 0 1 (bytes "chunks")
    call
    progress o stage.phase 1 1 (bytes "chunks")
    call
  else do
    let hop := model.chunkSize / 2
    let chunks := 1 + (length - model.chunkSize + hop - 1) / hop
    progress o stage.phase 0 chunks (bytes "chunks")
    chunkLoop o stage model length chunks 0 0

/-- `separate_mono` and `separate_stereo`. -/
def separate (o : VcPreprocessOptions) (stage : CleanupStage) (model : Roformer) (length : ℕ) :
    Program Unit := do
  call
  if length = 0 then throw (.error "Roformer input requires L > 0")
  else forwardChunked o stage model length

def runStages (o : VcPreprocessOptions) (input : PreprocessInput) (length : CleanupStage → ℕ) :
    List CleanupStage → Program Unit
  | [] => pure ()
  | stage :: stages => do
    separate o stage (input.model stage) (length stage)
    runStages o input length stages

/-! ### All files -/

/-- `file_done`. -/
def fileDone (o : VcPreprocessOptions) (total handled : ℕ) : Program Unit := do
  progress o (bytes "files") (handled + 1) total (bytes "files")
  call

/-- The body of the loop over the files, for the file after `handled` others. -/
def processFile (o : VcPreprocessOptions) (input : PreprocessInput) (handled : ℕ) :
    Program Unit := do
  call
  if o.preserveStereo then
    match input.frames handled with
    | none => throw (.status 1)
    | some 0 => throw (.status 1)
    | some (n + 1) => do
      runStages o input (fun _ => n + 1) o.stages
      call
      fileDone o input.files.length handled
  else
    match input.frames handled with
    | none => fileDone o input.files.length handled
    | some _ => do
      runStages o input (input.samples handled) o.stages
      if o.noSlice then do
        call
        fileDone o input.files.length handled
      else if o.vad && !input.speech handled then fileDone o input.files.length handled
      else do
        call
        fileDone o input.files.length handled

def fileLoop (o : VcPreprocessOptions) (input : PreprocessInput) : ℕ → ℕ → Program Unit
  | 0, _ => pure ()
  | n + 1, handled => do
    processFile o input handled
    fileLoop o input n (handled + 1)

def identityLoop (o : VcPreprocessOptions) (total : ℕ) : ℕ → ℕ → Program Unit
  | 0, _ => pure ()
  | n + 1, i => do
    call
    progress o (bytes "identity") (i + 1) total (bytes "files")
    identityLoop o total n (i + 1)

/-- What a run with checkpoints is identified by. -/
def identify (o : VcPreprocessOptions) (total : ℕ) : Program Unit :=
  if o.checkpoint then
    if total > 4096 then throw (.error "checkpoint preprocessing accepts at most 4096 files")
    else do
      progress o (bytes "identity") 0 total (bytes "files")
      identityLoop o total total 0
      call
  else pure ()

/-- The last check: some file could be read. -/
def checkReadable (input : PreprocessInput) : Program Unit :=
  if (List.range input.files.length).any fun i => (input.frames i).isSome then pure ()
  else throw (.status 1)

/-- The body of `run_vc_preprocess`. -/
def preprocess (o : VcPreprocessOptions) (input : PreprocessInput) : Program Unit :=
  if o.preserveStereo ∧
      (o.noSlice = false ∨ o.trim ∨ o.vad ∨ o.sampleRate ≠ 44100) then throw (.status 1)
  else do
    call
    if input.files = [] then throw (.status 1)
    else do
      identify o input.files.length
      progress o (bytes "loading-models") 0 0 (bytes "unknown")
      call
      progress o (bytes "files") 0 input.files.length (bytes "files")
      fileLoop o input input.files.length 0
      checkReadable input

/-- `run_vc_preprocess`: its exit status, and the process after it. -/
def runVcPreprocess (o : VcPreprocessOptions) (input : PreprocessInput) (s : Process) :
    ℕ × Process :=
  match exec (preprocess o input) s with
  | (.ok (), s) => (0, s)
  | (.error (.status code), s) => (code, s)
  | (.error (.error _), s) => (1, s)
  | (.error .paused, s) => (2, s)

/-! ### Reports that follow each other -/

/-- A report does not take back a counter of the report before it. -/
def Follows (p q : ProgressMessage) : Prop :=
  p.phase = q.phase → p.unit = q.unit → p.total = q.total → p.completed ≤ q.completed

/-- The lines are texts of valid reports, of which each follows the one before it. -/
structure Sound (s : Process) : Prop where
  lines : ∀ entry ∈ s.written, entry.1.Valid ∧ entry.2 = entry.1.text
  steps : (s.written.map Prod.fst).IsChain Follows

/-- The last report, if there is one, has the property. -/
structure Reached (o : VcPreprocessOptions) (P : ProgressMessage → Prop) (s : Process) : Prop where
  sound : Sound s
  silent : o.progress = false → s.written = []
  last : ∀ entry ∈ s.written.getLast?, P entry.1

variable {o : VcPreprocessOptions} {P Q : ProgressMessage → Prop}

theorem Reached.mono {s : Process} (h : Reached o P s) (hPQ : ∀ p, P p → Q p) : Reached o Q s :=
  ⟨h.sound, h.silent, fun entry hentry => hPQ entry.1 (h.last entry hentry)⟩

theorem triple_call : Triple (Reached o P) call (fun _ => Reached o P) fun _ => Sound := by
  intro s hs
  rw [exec, call]
  split
  · rename_i heq
    split at heq
    · obtain ⟨-, rfl⟩ := Prod.mk.inj heq
      exact ⟨⟨hs.sound.lines, hs.sound.steps⟩, hs.silent, hs.last⟩
    · cases (Prod.mk.inj heq).1
  · rename_i heq
    split at heq
    · cases (Prod.mk.inj heq).1
    · obtain ⟨-, rfl⟩ := Prod.mk.inj heq
      exact ⟨hs.sound.lines, hs.sound.steps⟩

theorem triple_stop {stop : Stop} {R : Unit → Process → Prop} :
    Triple (Reached o P) (throw stop : Program Unit) R fun _ => Sound :=
  triple_throw fun _ hs => hs.sound

theorem triple_skip : Triple (Reached o P) (pure () : Program Unit) (fun _ => Reached o P)
    fun _ => Sound :=
  triple_pure fun _ hs => hs

theorem triple_put {p : ProgressMessage} (hprogress : o.progress = true) (hvalid : p.Valid)
    (hfollows : ∀ q, P q → Follows q p) :
    Triple (Reached o P) (put p p.text) (fun _ => Reached o fun q => q = p) fun _ => Sound := by
  intro s hs
  refine ⟨⟨fun entry hentry => ?_, ?_⟩, fun hsilent => ?_, fun entry hentry => ?_⟩
  · rcases List.mem_append.1 hentry with hold | hnew
    · exact hs.sound.lines entry hold
    · obtain rfl := List.mem_singleton.1 hnew
      exact ⟨hvalid, rfl⟩
  · rw [List.map_append, List.isChain_append]
    refine ⟨hs.sound.steps, List.isChain_singleton _, fun q hq q' hq' => ?_⟩
    obtain rfl : p = q' := Option.some.inj hq'
    rw [List.getLast?_map] at hq
    obtain ⟨entry, hentry, rfl⟩ := Option.map_eq_some_iff.1 hq
    exact hfollows entry.1 (hs.last entry hentry)
  · rw [hprogress] at hsilent
    cases hsilent
  · rw [List.getLast?_append] at hentry
    obtain rfl := Option.some.inj hentry
    rfl

variable {phase unit : Bytes} {done total : ℕ}

theorem toNat_ofNat {n : ℕ} (hn : n < 2 ^ 64) : (UInt64.ofNat n).toNat = n := by
  rw [UInt64.toNat_ofNat', Nat.mod_eq_of_lt hn]

theorem ofNat_le {m n : ℕ} (h : m ≤ n) (hn : n < 2 ^ 64) : UInt64.ofNat m ≤ UInt64.ofNat n := by
  rw [UInt64.le_iff_toNat_le, toNat_ofNat hn, toNat_ofNat (Nat.lt_of_le_of_lt h hn)]
  exact h

theorem valid_message (hphase : validProgressPhase phase = true)
    (hunit : validProgressUnit unit = true) (hle : done ≤ total) (hlt : total < 2 ^ 64) :
    (message phase done total unit).Valid := ⟨hphase, hunit, ofNat_le hle hlt⟩

/-- A counter that is raised. -/
theorem follows_message {done' : ℕ} (h : done ≤ done') (hlt : done' < 2 ^ 64) :
    Follows (message phase done total unit) (message phase done' total unit) :=
  fun _ _ _ => ofNat_le h hlt

theorem follows_of_phase_ne {p q : ProgressMessage} (h : p.phase ≠ q.phase) : Follows p q :=
  fun heq => absurd heq h

/-- A report is written unless a call stops the program. -/
theorem triple_progress (hphase : validProgressPhase phase = true)
    (hunit : validProgressUnit unit = true) (hle : done ≤ total) (hlt : total < 2 ^ 64)
    (hfollows : ∀ q, P q → Follows q (message phase done total unit)) :
    Triple (Reached o P) (progress o phase done total unit)
      (fun _ => Reached o fun q => q = message phase done total unit) fun _ => Sound := by
  have hvalid := valid_message hphase hunit hle hlt
  rw [progress]
  split
  · rename_i hprogress
    rw [writeProgressMessage, if_pos hvalid]
    exact triple_bind triple_call fun _ => triple_put hprogress hvalid hfollows
  · rename_i hprogress
    rw [Bool.not_eq_true] at hprogress
    refine triple_pure fun s hs => ⟨hs.sound, hs.silent, fun entry hentry => ?_⟩
    rw [hs.silent hprogress] at hentry
    cases hentry

/-! ### The chunks of one stage -/

variable {stage : CleanupStage} {model : Roformer}

theorem validProgressPhase_phase (stage : CleanupStage) :
    validProgressPhase stage.phase = true := by
  cases stage <;> decide

theorem phase_injective {stage stage' : CleanupStage} (h : stage.phase = stage'.phase) :
    stage = stage' := by
  revert h
  cases stage <;> cases stage' <;> decide

/-- The chunks are counted up to their number. -/
theorem triple_chunkLoop {length chunks start completed : ℕ}
    (hchunks : chunks = 1 + (length - model.chunkSize + model.chunkSize / 2 - 1) /
      (model.chunkSize / 2))
    (hstart : start = completed * (model.chunkSize / 2)) (hcompleted : completed < chunks)
    (hlt : chunks < 2 ^ 64) :
    Triple (Reached o fun q => q = message stage.phase completed chunks (bytes "chunks"))
      (chunkLoop o stage model length chunks start completed)
      (fun _ => Reached o fun q => q.phase = stage.phase) fun _ => Sound := by
  have hsize := model.le_chunkSize
  induction start, completed using chunkLoop.induct model length with
  | case1 start completed hlength ih =>
    rw [chunkLoop, dif_pos hlength]
    refine triple_bind triple_call fun _ => triple_bind
      (triple_progress (validProgressPhase_phase stage) (by decide) hcompleted hlt ?_) fun _ =>
        triple_bind triple_call fun _ => ?_
    · rintro q rfl
      exact follows_message (Nat.le_succ completed) (by omega)
    · split
      · exact triple_pure fun s hs => hs.mono fun q hq => by rw [hq, message]
      · rename_i hmore
        refine ih hmore ?_ ?_
        · rw [hstart, Nat.succ_mul]
        · have hhop : 0 < model.chunkSize / 2 := by omega
          have hdiv : completed + 1 ≤ (length - model.chunkSize + model.chunkSize / 2 - 1) /
              (model.chunkSize / 2) := by
            rw [Nat.le_div_iff_mul_le hhop, Nat.succ_mul, ← hstart]
            omega
          omega
  | case2 start completed hlength =>
    rw [chunkLoop, dif_neg hlength]
    exact triple_pure fun s hs => hs.mono fun q hq => by rw [hq, message]

theorem triple_forwardChunked {length : ℕ} (hlength : length < 2 ^ 31)
    (hP : ∀ q, P q → q.phase ≠ stage.phase) :
    Triple (Reached o P) (forwardChunked o stage model length)
      (fun _ => Reached o fun q => q.phase = stage.phase) fun _ => Sound := by
  have hsize := model.le_chunkSize
  have hphase := validProgressPhase_phase stage
  rw [forwardChunked]
  split
  · refine triple_bind (triple_progress hphase (by decide) (Nat.zero_le 1) (by decide) fun q hq =>
      follows_of_phase_ne (hP q hq)) fun _ => triple_bind triple_call fun _ =>
        triple_bind (triple_progress hphase (by decide) (Nat.le_refl 1) (by decide) ?_) fun _ => ?_
    · rintro q rfl
      exact follows_message (Nat.zero_le 1) (by decide)
    · refine triple_conseq triple_call (fun _ hs => hs) (fun _ s hs => hs.mono fun q hq => ?_)
        fun _ _ hs => hs
      rw [hq, message]
  · have hdiv := Nat.div_le_self (length - model.chunkSize + model.chunkSize / 2 - 1)
      (model.chunkSize / 2)
    rename_i hlong
    have hlt : 1 + (length - model.chunkSize + model.chunkSize / 2 - 1) /
        (model.chunkSize / 2) < 2 ^ 64 := by omega
    exact triple_bind (triple_progress hphase (by decide) (Nat.zero_le _) hlt fun q hq =>
      follows_of_phase_ne (hP q hq)) fun _ =>
        triple_chunkLoop rfl (Nat.zero_mul _).symm (Nat.lt_add_right _ Nat.zero_lt_one) hlt

theorem triple_separate {length : ℕ} (hlength : length < 2 ^ 31)
    (hP : ∀ q, P q → q.phase ≠ stage.phase) :
    Triple (Reached o P) (separate o stage model length)
      (fun _ => Reached o fun q => q.phase = stage.phase) fun _ => Sound := by
  refine triple_bind triple_call fun _ => ?_
  split
  · exact triple_stop
  · exact triple_forwardChunked hlength hP

/-- The stages report under their own names. -/
theorem triple_runStages {input : PreprocessInput} {length : CleanupStage → ℕ}
    (hlength : ∀ stage, length stage < 2 ^ 31) {stages : List CleanupStage}
    (hstages : stages.Nodup) (hP : ∀ stage ∈ stages, ∀ q, P q → q.phase ≠ stage.phase) :
    Triple (Reached o P) (runStages o input length stages)
      (fun _ => Reached o fun q => P q ∨ ∃ stage ∈ stages, q.phase = stage.phase)
      fun _ => Sound := by
  induction stages generalizing P with
  | nil => exact triple_pure fun s hs => hs.mono fun q hq => Or.inl hq
  | cons stage stages ih =>
    rw [List.nodup_cons] at hstages
    rw [List.forall_mem_cons] at hP
    refine triple_bind (triple_separate (hlength stage) hP.1) fun _ => ?_
    refine triple_conseq (ih hstages.2 fun stage' hstage' q hq heq => ?_) (fun _ hs => hs)
      (fun _ s hs => hs.mono fun q hq => ?_) fun _ _ hs => hs
    · exact hstages.1 (phase_injective (hq.symm.trans heq) ▸ hstage')
    · rcases hq with hq | ⟨stage', hstage', hq⟩
      · exact Or.inr ⟨stage, List.mem_cons_self, hq⟩
      · exact Or.inr ⟨stage', List.mem_cons_of_mem _ hstage', hq⟩

/-! ### All files -/

/-- The report that so many files are handled. -/
def filesDone (total handled : ℕ) : ProgressMessage :=
  message (bytes "files") handled total (bytes "files")

/-- The last report is about the files, or about a stage of the next one. -/
def Handling (o : VcPreprocessOptions) (total handled : ℕ) (p : ProgressMessage) : Prop :=
  p = filesDone total handled ∨ ∃ stage ∈ o.stages, p.phase = stage.phase

theorem phase_ne_files (stage : CleanupStage) : stage.phase ≠ bytes "files" := by
  cases stage <;> decide

variable {input : PreprocessInput} {handled : ℕ}

theorem triple_fileDone (hhandled : handled < total) (htotal : total < 2 ^ 64) :
    Triple (Reached o (Handling o total handled)) (fileDone o total handled)
      (fun _ => Reached o fun q => q = filesDone total (handled + 1)) fun _ => Sound := by
  refine triple_bind (triple_progress (by decide) (by decide) hhandled htotal ?_)
    fun _ => triple_call
  rintro q (rfl | ⟨stage, -, hphase⟩)
  · exact follows_message (Nat.le_succ handled) (by omega)
  · exact follows_of_phase_ne fun heq => phase_ne_files stage (hphase.symm.trans heq)

theorem triple_stages {length : CleanupStage → ℕ} (hlength : ∀ stage, length stage < 2 ^ 31) :
    Triple (Reached o fun q => q = filesDone total handled) (runStages o input length o.stages)
      (fun _ => Reached o (Handling o total handled)) fun _ => Sound := by
  refine triple_runStages hlength (List.Nodup.filter _ (by decide)) ?_
  rintro stage - q rfl heq
  exact phase_ne_files stage heq.symm

/-- Every file that is handled is reported, after its stages. -/
theorem triple_processFile (hhandled : handled < input.files.length) :
    Triple (Reached o fun q => q = filesDone input.files.length handled)
      (processFile o input handled)
      (fun _ => Reached o fun q => q = filesDone input.files.length (handled + 1))
      fun _ => Sound := by
  have hdone := triple_fileDone (o := o) hhandled input.files_lt
  refine triple_bind triple_call fun _ => ?_
  split
  · split
    · exact triple_stop
    · exact triple_stop
    · rename_i n hframes
      have hlt := input.frames_lt handled (n + 1) hframes
      exact triple_bind (triple_stages fun _ => hlt) fun _ => triple_bind triple_call fun _ => hdone
  · split
    · exact triple_pre hdone fun s hs => hs.mono fun q hq => Or.inl hq
    · refine triple_bind (triple_stages (input.samples_lt handled)) fun _ => ?_
      split
      · exact triple_bind triple_call fun _ => hdone
      split
      · exact hdone
      · exact triple_bind triple_call fun _ => hdone

theorem triple_fileLoop {n : ℕ} (h : handled + n ≤ input.files.length) :
    Triple (Reached o fun q => q = filesDone input.files.length handled)
      (fileLoop o input n handled)
      (fun _ => Reached o fun q => q = filesDone input.files.length (handled + n))
      fun _ => Sound := by
  induction n generalizing handled with
  | zero => exact triple_skip
  | succ n ih =>
    refine triple_bind (triple_processFile (by omega)) fun _ => ?_
    have hrest := @ih (handled + 1) (by omega)
    rw [show handled + 1 + n = handled + (n + 1) by omega] at hrest
    exact hrest

/-- The identification has the same counter as the files, under its own name. -/
def identified (total done : ℕ) : ProgressMessage :=
  message (bytes "identity") done total (bytes "files")

theorem triple_identityLoop {n i : ℕ} (h : i + n ≤ total) (htotal : total < 2 ^ 64) :
    Triple (Reached o fun q => q = identified total i) (identityLoop o total n i)
      (fun _ => Reached o fun q => q = identified total (i + n)) fun _ => Sound := by
  induction n generalizing i with
  | zero => exact triple_skip
  | succ n ih =>
    refine triple_bind triple_call fun _ => triple_bind
      (triple_progress (by decide) (by decide) (by omega) htotal ?_) fun _ => ?_
    · rintro q rfl
      exact follows_message (Nat.le_succ i) (by omega)
    · have hrest := ih (i := i + 1) (by omega)
      rw [show i + 1 + n = i + (n + 1) by omega] at hrest
      exact hrest

theorem triple_identify (htotal : total < 2 ^ 64) :
    Triple (Reached o fun _ => False) (identify o total)
      (fun _ => Reached o fun q => q.phase = bytes "identity") fun _ => Sound := by
  rw [identify]
  split
  · split
    · exact triple_stop
    · refine triple_bind (triple_progress (by decide) (by decide) (Nat.zero_le total) htotal
        fun q hq => hq.elim) fun _ => triple_bind (triple_identityLoop (by omega) htotal)
          fun _ => ?_
      refine triple_conseq triple_call (fun _ hs => hs) (fun _ s hs => hs.mono fun q hq => ?_)
        fun _ _ hs => hs
      rw [hq, identified, message]
  · exact triple_pure fun s hs => hs.mono fun q hq => hq.elim

theorem triple_preprocess (o : VcPreprocessOptions) (input : PreprocessInput) :
    Triple (Reached o fun _ => False) (preprocess o input) (fun _ => Sound) fun _ => Sound := by
  have hlt := input.files_lt
  rw [preprocess]
  split
  · exact triple_stop
  refine triple_bind triple_call fun _ => ?_
  split
  · exact triple_stop
  refine triple_bind (triple_identify hlt) fun _ => triple_bind
    (triple_progress (by decide) (by decide) (Nat.le_refl 0) (by decide) ?_) fun _ =>
      triple_bind triple_call fun _ => triple_bind
        (triple_progress (by decide) (by decide) (Nat.zero_le _) hlt ?_) fun _ =>
          triple_bind (triple_fileLoop (Nat.le_of_eq (Nat.zero_add _))) fun _ => ?_
  · intro q hq
    exact follows_of_phase_ne (by rw [hq]; decide)
  · rintro q rfl
    exact follows_of_phase_ne (show bytes "loading-models" ≠ bytes "files" by decide)
  · rw [checkReadable]
    split
    · exact triple_pure fun s hs => hs.sound
    · exact triple_stop

/-- **The reports of a run.** -/
theorem sound_runVcPreprocess (o : VcPreprocessOptions) (input : PreprocessInput)
    (fault : ℕ → Option Stop) : Sound (runVcPreprocess o input { fault }).2 := by
  have hstart : Reached o (fun _ => False) { fault } :=
    ⟨⟨by simp, List.IsChain.nil⟩, fun _ => rfl, by simp⟩
  have hpost := triple_preprocess o input _ hstart
  rw [runVcPreprocess]
  split at hpost
  · rename_i hexec
    rw [hexec]
    exact hpost
  · rename_i e s hexec
    rw [hexec]
    cases e <;> exact hpost

end Resonantia.AppSupport
