import Mathlib.Tactic.SplitIfs
import Mathlib.Tactic.Tauto
import Resonantia.Web.RecordLife
import Resonantia.Web.TaskArtifacts

/-!
# The cleanup of a task

A task that has succeeded keeps copies of its model, which the cleanup removes after it has checked
that the result and the source are still there. It may fail or be killed between any two removals,
and be asked for again.

## Main definitions

* `Web.TaskCleanup.pruneTaskCopies`: the cleanup.
* `Web.TaskCleanup.Attempt`: a cleanup that may stop at any point.

## Main results

* `Web.TaskCleanup.prune_of_run`: a cleanup that is possible stays possible and ends the same.
* `Web.TaskCleanup.kept_of_run`: nothing but the copies is removed.
* `Web.TaskCleanup.completedStage_of_cleanup`: completed stages stay completed.
-/

namespace Resonantia.Web.TaskCleanup

open ByteString Transition TaskArtifacts

/-! ### The cleanup -/

/-- The files of the tasks and of the trainings, by the components of their paths. -/
structure Storage where
  tasks : Directory
  runs : Directory

/-- Where a cleanup stops, by an error or a crash. -/
inductive PruneFault
  | inspect
  | unlink (count : ℕ)
  | sync
deriving DecidableEq

/-- `child_directory`. -/
def childDirectory (d : Directory) (path : List Bytes) : Except String Unit :=
  if d path = some .directory then .ok () else .error "cannot open managed child directory"

def taskPath (r : TaskRecord) : List Bytes := [bytes r.id]

def workPath (r : TaskRecord) : List Bytes := [bytes r.id, bytes "work"]

def isNameByte (c : UInt8) : Bool :=
  (bytes "ABCDEFGHIJKLMNOPQRSTUVWXYZabcdefghijklmnopqrstuvwxyz0123456789_-").contains c

def fullPath (r : TaskRecord) : List Bytes := [bytes r.name, bytes "full_training"]

/-- `owned_training`. -/
def ownedTraining (runs : Directory) (r : TaskRecord) : Except String Unit :=
  if bytes r.name = [] ∨ 64 < (bytes r.name).length ∨ (bytes r.name).all isNameByte = false then
    .error "invalid managed training name"
  else
    match childDirectory runs [bytes r.name], childDirectory runs (fullPath r) with
    | .ok (), .ok () =>
      match runs (fullPath r ++ [bytes "web-task"]) with
      | some (.regular content links) =>
        if links ≠ 1 ∨ content.length ≠ (bytes r.id).length then
          .error "invalid training ownership marker"
        else if content ≠ bytes r.id then .error "training directory belongs to another task"
        else .ok ()
      | _ => .error "invalid training ownership marker"
    | _, _ => .error "cannot open managed child directory"

/-- `protected_file`. -/
def protectedFile (d : Directory) (path : List Bytes) : Except String Unit :=
  match d path with
  | some (.regular content links) =>
    if links = 1 ∧ content ≠ [] then .ok ()
    else .error "protected result or source is unavailable; cleanup refused"
  | _ => .error "protected result or source is unavailable; cleanup refused"

/-- `remove_copy` for the copies in their order, with the number of removals before a failure. -/
def removeCopies (d : Directory) : List (List Bytes) → Option ℕ → ℕ → Except String ℕ × Directory
  | [], _, freed => (.ok freed, d)
  | path :: paths, count, freed =>
    match d path with
    | none => removeCopies d paths count freed
    | some (.regular content links) =>
      if links ≠ 1 then (.error "redundant copy is not a private regular file", d)
      else if count = some 0 then (.error "cannot remove redundant copy", d)
      else
        removeCopies (Function.update d path none) paths (count.map (· - 1)) (freed + content.length)
    | some _ => (.error "redundant copy is not a private regular file", d)

/-- The names of the copies: the result of a mix does not replace its vocal. -/
def copyNames (r : TaskRecord) : List Bytes :=
  if RecoverableTraining r then [bytes "generator.safetensors", bytes "discriminator.safetensors"]
  else if r.kind.Audio then
    [bytes "model.safetensors", bytes "model.index", bytes "cover.wav"] ++
      if r.parameters["output_kind"]? = some "mix" then [] else [bytes "output.wav"]
  else []

def copies (r : TaskRecord) : List (List Bytes) := (copyNames r).map fun name => workPath r ++ [name]

/-- The checks before anything of a training is removed. -/
def checkTraining (s : Storage) (r : TaskRecord) : Except String Unit := do
  ownedTraining s.runs r
  childDirectory s.runs (fullPath r ++ [bytes "result"])
  protectedFile s.runs (fullPath r ++ [bytes "result", bytes "model.safetensors"])
  protectedFile s.runs (fullPath r ++ [bytes "result", bytes "model.index"])

/-- The checks before anything of an audio task is removed. -/
def checkAudio (s : Storage) (r : TaskRecord) : Except String Unit := do
  require (r.result = "work/result.wav") "completed audio has no retained result"
  protectedFile s.tasks (workPath r ++ [bytes "source.wav"])
  protectedFile s.tasks (workPath r ++ [bytes "result.wav"])
  match r.parameters["result_sha256"]? with
  | none => .error "completed result checksum unavailable or changed; cleanup refused"
  | some digest =>
    if validDigest (bytes digest) = false then
      .error "completed result checksum unavailable or changed; cleanup refused"
    else
      match sha256File s.tasks (workPath r ++ [bytes "result.wav"]) with
      | .error e => .error e
      | .ok hash =>
        if hash = bytes digest then .ok ()
        else .error "completed result checksum unavailable or changed; cleanup refused"

/-- The checks of a task that has copies. -/
def check (s : Storage) (r : TaskRecord) : Except String Unit := do
  childDirectory s.tasks (workPath r)
  if RecoverableTraining r then checkTraining s r else checkAudio s r

/-- The number of removals before a failure. -/
def removals : Option PruneFault → Option ℕ
  | some (.unlink count) => some count
  | _ => none

/-- `prune_task_copies`: the number of bytes that it has freed. -/
def pruneTaskCopies (s : Storage) (r : TaskRecord) (fault : Option PruneFault) :
    Except String ℕ × Storage :=
  if validId r.id = false ∨ r.state ≠ .succeeded then
    (.error "only a successful task may be cleaned", s)
  else if fault = some .inspect then (.error "cannot inspect redundant copy", s)
  else
    match childDirectory s.tasks (taskPath r) with
    | .error e => (.error e, s)
    | .ok () =>
      if ¬r.kind.Audio ∧ ¬RecoverableTraining r then (.ok 0, s)
      else
        match check s r with
        | .error e => (.error e, s)
        | .ok () =>
          match removeCopies s.tasks (copies r) (removals fault) 0 with
          | (.error e, tasks) => (.error e, { s with tasks })
          | (.ok freed, tasks) =>
            if fault = some .sync then (.error "cannot sync task cleanup", { s with tasks })
            else (.ok freed, { s with tasks })

/-! ### The removals -/

variable {d d' : Directory} {paths : List (List Bytes)} {r : TaskRecord}

/-- Some of these files were removed, and they were private regular files. -/
def Trims (paths : List (List Bytes)) (d d' : Directory) : Prop :=
  ∀ path, d' path = d path ∨
    path ∈ paths ∧ d' path = none ∧ ∃ content, d path = some (.regular content 1)

/-- These files can be removed where they are there. -/
def Removable (paths : List (List Bytes)) (d : Directory) : Prop :=
  ∀ path ∈ paths, d path = none ∨ ∃ content, d path = some (.regular content 1)

/-- The directory without these files. -/
def cleared (paths : List (List Bytes)) (d : Directory) : Directory :=
  fun path => if path ∈ paths then none else d path

theorem Trims.refl (paths : List (List Bytes)) (d : Directory) : Trims paths d d :=
  fun _ => Or.inl rfl

theorem Trims.trans {d₁ d₂ d₃ : Directory} (h : Trims paths d₁ d₂) (h' : Trims paths d₂ d₃) :
    Trims paths d₁ d₃ := by
  intro path
  rcases h' path with hsame | ⟨hmem, hnone, content, hcontent⟩
  · rcases h path with hsame' | ⟨hmem, hnone, hcontent⟩
    · exact Or.inl (hsame.trans hsame')
    · exact Or.inr ⟨hmem, hsame.trans hnone, hcontent⟩
  · rcases h path with hsame' | ⟨-, hnone', -⟩
    · exact Or.inr ⟨hmem, hnone, content, hsame' ▸ hcontent⟩
    · rw [hnone'] at hcontent
      cases hcontent

theorem Trims.mono {paths' : List (List Bytes)} (h : Trims paths d d') (hsub : paths ⊆ paths') :
    Trims paths' d d' := fun path => (h path).imp id fun h => ⟨hsub h.1, h.2⟩

theorem Trims.removable (h : Trims paths d d') (hr : Removable paths d) : Removable paths d' := by
  intro path hpath
  rcases h path with hsame | ⟨-, hnone, -⟩
  · rw [hsame]
    exact hr path hpath
  · exact Or.inl hnone

theorem Trims.cleared_eq (h : Trims paths d d') : cleared paths d' = cleared paths d := by
  funext path
  rw [cleared, cleared]
  split_ifs with hmem
  · rfl
  · rcases h path with hsame | ⟨hmem', -⟩
    · exact hsame
    · exact absurd hmem' hmem

theorem trims_update {path : List Bytes} {content : Bytes} (hmem : path ∈ paths)
    (h : d path = some (.regular content 1)) : Trims paths d (Function.update d path none) := by
  intro other
  by_cases hother : other = path
  · subst hother
    exact Or.inr ⟨hmem, Function.update_self .., content, h⟩
  · exact Or.inl (Function.update_of_ne hother ..)

/-- The removals, as far as they come. -/
theorem removeCopies_spec {count : Option ℕ} {freed : ℕ} {out : Except String ℕ × Directory}
    (h : removeCopies d paths count freed = out) :
    Trims paths d out.2 ∧
      (∀ total, out.1 = .ok total → Removable paths d ∧ out.2 = cleared paths d) ∧
      (count = none → Removable paths d → ∃ total, out.1 = .ok total) := by
  induction paths generalizing d count freed with
  | nil =>
    obtain rfl := h
    exact ⟨Trims.refl _ _, fun _ _ => ⟨fun _ hmem => absurd hmem List.not_mem_nil, rfl⟩,
      fun _ _ => ⟨_, rfl⟩⟩
  | cons path paths ih =>
    have hsub : paths ⊆ path :: paths := List.subset_cons_self _ _
    have hrefused : ∀ {e : String}, ((.error e : Except String ℕ), d) = out →
        (Removable (path :: paths) d → count = none → False) →
        Trims (path :: paths) d out.2 ∧
          (∀ total, out.1 = .ok total → Removable (path :: paths) d ∧
            out.2 = cleared (path :: paths) d) ∧
          (count = none → Removable (path :: paths) d → ∃ total, out.1 = .ok total) := by
      rintro e rfl hnever
      refine ⟨Trims.refl _ _, fun total hok => ?_, fun hcount hr => (hnever hr hcount).elim⟩
      cases hok
    have hirregular : (∀ content, d path ≠ some (.regular content 1)) → d path ≠ none →
        ¬Removable (path :: paths) d := by
      intro hregular hsome hr
      obtain hnone | ⟨content, hcontent⟩ := hr path List.mem_cons_self
      · exact hsome hnone
      · exact hregular content hcontent
    rw [removeCopies.eq_def] at h
    dsimp only at h
    cases hnode : d path with
    | none =>
      rw [hnode] at h
      obtain ⟨htrims, hall, hok⟩ := ih h
      refine ⟨htrims.mono hsub, fun total htotal => ?_, fun hcount hr =>
        hok hcount fun other hother => hr other (hsub hother)⟩
      obtain ⟨hr, hcleared⟩ := hall total htotal
      refine ⟨List.forall_mem_cons.2 ⟨Or.inl hnode, hr⟩, hcleared.trans ?_⟩
      funext other
      rw [cleared, cleared]
      by_cases hother : other = path
      · rw [hother, hnode, ite_self, ite_self]
      · simp [hother]
    | some node =>
      rw [hnode] at h
      cases node with
      | regular content links =>
        dsimp only at h
        by_cases hlinks : links ≠ 1
        · rw [if_pos hlinks] at h
          refine hrefused h fun hr _ => hirregular (fun content' heq => ?_) (by simp [hnode]) hr
          rw [hnode] at heq
          exact hlinks (Node.regular.inj (Option.some.inj heq)).2
        rw [if_neg hlinks] at h
        obtain rfl := not_not.1 hlinks
        by_cases hcount : count = some 0
        · rw [if_pos hcount] at h
          refine hrefused h fun _ hnone => ?_
          rw [hcount] at hnone
          cases hnone
        rw [if_neg hcount] at h
        have hremoved : Trims (path :: paths) d (Function.update d path none) :=
          trims_update List.mem_cons_self hnode
        obtain ⟨htrims, hall, hok⟩ := ih h
        refine ⟨hremoved.trans (htrims.mono hsub), fun total htotal => ?_, fun hnone hr => ?_⟩
        · obtain ⟨hr, hcleared⟩ := hall total htotal
          refine ⟨List.forall_mem_cons.2 ⟨Or.inr ⟨content, hnode⟩, fun other hother => ?_⟩, ?_⟩
          · by_cases heq : other = path
            · exact Or.inr ⟨content, heq ▸ hnode⟩
            · have hother' := hr other hother
              rwa [Function.update_of_ne heq] at hother'
          · rw [← hremoved.cleared_eq, hcleared]
            funext other
            rw [cleared, cleared]
            by_cases heq : other = path
            · rw [heq, Function.update_self, ite_self, ite_self]
            · simp [heq]
        · refine hok (by rw [hnone]; rfl) fun other hother => ?_
          exact hremoved.removable hr other (hsub hother)
      | directory | symlink | other =>
        refine hrefused h fun hr _ => hirregular (fun content' heq => ?_) (by simp [hnode]) hr
        rw [hnode] at heq
        cases heq

/-! ### What is checked is kept -/

variable {s s' : Storage}

theorem mem_copies {name : Bytes} : workPath r ++ [name] ∈ copies r ↔ name ∈ copyNames r := by
  rw [copies, List.mem_map]
  constructor
  · rintro ⟨other, hother, heq⟩
    rw [List.append_cancel_left_eq, List.cons.injEq] at heq
    exact heq.1 ▸ hother
  · exact fun h => ⟨name, h, rfl⟩

theorem length_of_mem_copies {path : List Bytes} (h : path ∈ copies r) : path.length = 3 := by
  obtain ⟨name, -, rfl⟩ := List.mem_map.1 h
  rfl

/-- The first byte of a copy is none of those of the protected files and the markers. -/
theorem head?_copyNames {name : Bytes} (h : name ∈ copyNames r) :
    name.head? ≠ some 115 ∧ name.head? ≠ some 114 := by
  rw [copyNames] at h
  split_ifs at h
  · rcases List.mem_pair.1 h with rfl | rfl <;> exact ⟨by decide, by decide⟩
  · rw [List.append_nil, List.mem_cons, List.mem_pair] at h
    rcases h with rfl | rfl | rfl <;> exact ⟨by decide, by decide⟩
  · rw [List.mem_append, List.mem_cons, List.mem_pair, List.mem_singleton] at h
    rcases h with (rfl | rfl | rfl) | rfl <;> exact ⟨by decide, by decide⟩
  · exact absurd h List.not_mem_nil

theorem Trims.eq_of_not_mem (h : Trims (copies r) d d') {path : List Bytes} (hne : path ∉ copies r) :
    d' path = d path := by
  rcases h path with hsame | ⟨hmem, -⟩
  · exact hsame
  · exact absurd hmem hne

/-- The checks give the same result as long as only copies are removed. -/
theorem check_eq (hruns : s'.runs = s.runs) (h : Trims (copies r) s.tasks s'.tasks) :
    check s' r = check s r := by
  have hwork : s'.tasks (workPath r) = s.tasks (workPath r) :=
    h.eq_of_not_mem fun hmem => absurd (length_of_mem_copies hmem) (by simp [workPath])
  have hsource : s'.tasks (workPath r ++ [bytes "source.wav"]) =
      s.tasks (workPath r ++ [bytes "source.wav"]) :=
    h.eq_of_not_mem fun hmem => (head?_copyNames (mem_copies.1 hmem)).1 rfl
  have hresult : s'.tasks (workPath r ++ [bytes "result.wav"]) =
      s.tasks (workPath r ++ [bytes "result.wav"]) :=
    h.eq_of_not_mem fun hmem => (head?_copyNames (mem_copies.1 hmem)).2 rfl
  have hdirectory : childDirectory s'.tasks (workPath r) = childDirectory s.tasks (workPath r) := by
    rw [childDirectory, childDirectory, hwork]
  have hhash : sha256File s'.tasks (workPath r ++ [bytes "result.wav"]) =
      sha256File s.tasks (workPath r ++ [bytes "result.wav"]) := by
    rw [sha256File, sha256File, hresult]
  have hprotected : ∀ {path}, s'.tasks path = s.tasks path →
      protectedFile s'.tasks path = protectedFile s.tasks path := by
    intro path hpath
    rw [protectedFile, protectedFile, hpath]
  rw [check, check, checkTraining, checkTraining, checkAudio, checkAudio, hdirectory,
    hprotected hsource, hprotected hresult, hhash, hruns]

/-- The task is there, it has succeeded, and the checks of its copies succeed. -/
structure Checked (s : Storage) (r : TaskRecord) : Prop where
  valid : validId r.id = true
  succeeded : r.state = .succeeded
  task : childDirectory s.tasks (taskPath r) = .ok ()
  check : r.kind.Audio ∨ RecoverableTraining r → check s r = .ok ()

/-- The storage without the copies. -/
def ended (s : Storage) (r : TaskRecord) : Storage :=
  { s with tasks := cleared (copies r) s.tasks }

theorem ended_of_no_copies (h : ¬(r.kind.Audio ∨ RecoverableTraining r)) : ended s r = s := by
  have hnil : copies r = [] := by
    rw [copies, copyNames, if_neg (not_or.1 h).2, if_neg (not_or.1 h).1, List.map_nil]
  have hsame : cleared [] s.tasks = s.tasks := by
    funext path
    rw [cleared, if_neg List.not_mem_nil]
  rw [ended, hnil, hsame]

/-- What a cleanup does, wherever it stops. -/
theorem pruneTaskCopies_spec {fault : Option PruneFault} {result : Except String ℕ}
    (h : pruneTaskCopies s r fault = (result, s')) :
    s'.runs = s.runs ∧ Trims (copies r) s.tasks s'.tasks ∧
      (∀ freed, result = .ok freed → Checked s r ∧ s' = ended s r ∧
        (r.kind.Audio ∨ RecoverableTraining r → Removable (copies r) s.tasks)) ∧
      (Checked s r → (r.kind.Audio ∨ RecoverableTraining r → Removable (copies r) s.tasks) →
        fault = none → ∃ freed, result = .ok freed) ∧
      (¬Checked s r → s' = s) := by
  have hrefused : ∀ {e : String}, ((.error e : Except String ℕ), s) = (result, s') →
      (Checked s r → fault = none → False) →
      s'.runs = s.runs ∧ Trims (copies r) s.tasks s'.tasks ∧
        (∀ freed, result = .ok freed → Checked s r ∧ s' = ended s r ∧
          (r.kind.Audio ∨ RecoverableTraining r → Removable (copies r) s.tasks)) ∧
        (Checked s r → (r.kind.Audio ∨ RecoverableTraining r → Removable (copies r) s.tasks) →
          fault = none → ∃ freed, result = .ok freed) ∧
        (¬Checked s r → s' = s) := by
    intro e heq hnever
    obtain ⟨rfl, rfl⟩ := Prod.mk.inj heq
    refine ⟨rfl, Trims.refl _ _, fun freed hok => ?_, fun hchecked _ hnone => ?_, fun _ => rfl⟩
    · cases hok
    · exact (hnever hchecked hnone).elim
  rw [pruneTaskCopies] at h
  by_cases hinvalid : validId r.id = false ∨ r.state ≠ .succeeded
  · rw [if_pos hinvalid] at h
    refine hrefused h fun hchecked _ => hinvalid.elim (fun hid => ?_) fun hne =>
      hne hchecked.succeeded
    rw [hchecked.valid] at hid
    cases hid
  rw [if_neg hinvalid] at h
  by_cases hinspect : fault = some .inspect
  · rw [if_pos hinspect] at h
    refine hrefused h fun _ hnone => ?_
    rw [hnone] at hinspect
    cases hinspect
  rw [if_neg hinspect] at h
  obtain ⟨hid, hstate⟩ := not_or.1 hinvalid
  cases htask : childDirectory s.tasks (taskPath r) with
  | error e =>
    rw [htask] at h
    refine hrefused h fun hchecked _ => ?_
    rw [hchecked.task] at htask
    cases htask
  | ok =>
    rw [htask] at h
    dsimp only at h
    by_cases hcopies : ¬r.kind.Audio ∧ ¬RecoverableTraining r
    · rw [if_pos hcopies] at h
      obtain ⟨rfl, rfl⟩ := Prod.mk.inj h
      have hnot : ¬(r.kind.Audio ∨ RecoverableTraining r) := not_or.2 hcopies
      refine ⟨rfl, Trims.refl _ _, fun freed _ => ⟨⟨Bool.eq_true_of_not_eq_false hid,
        not_not.1 hstate, htask, fun hhas => (hnot hhas).elim⟩, ?_, fun hhas => (hnot hhas).elim⟩,
        fun _ _ _ => ⟨0, rfl⟩, fun _ => rfl⟩
      exact (ended_of_no_copies hnot).symm
    rw [if_neg hcopies] at h
    have hhas : r.kind.Audio ∨ RecoverableTraining r := by
      by_contra hnot
      exact hcopies (not_or.1 hnot)
    cases hcheck : check s r with
    | error e =>
      rw [hcheck] at h
      refine hrefused h fun hchecked _ => ?_
      rw [hchecked.check hhas] at hcheck
      cases hcheck
    | ok =>
      rw [hcheck] at h
      dsimp only at h
      have hchecked : Checked s r :=
        ⟨Bool.eq_true_of_not_eq_false hid, not_not.1 hstate, htask, fun _ => hcheck⟩
      rcases hout : removeCopies s.tasks (copies r) (removals fault) 0 with ⟨total, tasks⟩
      obtain ⟨htrims, hall, hok⟩ := removeCopies_spec hout
      rw [hout] at h
      cases total with
      | error e =>
        obtain ⟨rfl, rfl⟩ := Prod.mk.inj h
        refine ⟨rfl, htrims, fun freed hfreed => ?_, fun _ hr hnone => ?_, fun hnot =>
          absurd hchecked hnot⟩
        · cases hfreed
        · obtain ⟨total, htotal⟩ := hok (by rw [hnone]; rfl) (hr hhas)
          cases htotal
      | ok freed =>
        dsimp only at h
        obtain ⟨hr, hcleared⟩ := hall freed rfl
        dsimp only at hcleared
        by_cases hsync : fault = some .sync
        · rw [if_pos hsync] at h
          obtain ⟨rfl, rfl⟩ := Prod.mk.inj h
          refine ⟨rfl, htrims, fun freed hfreed => ?_, fun _ _ hnone => ?_, fun hnot =>
            absurd hchecked hnot⟩
          · cases hfreed
          · rw [hnone] at hsync
            cases hsync
        · rw [if_neg hsync] at h
          obtain ⟨rfl, rfl⟩ := Prod.mk.inj h
          refine ⟨rfl, htrims, fun _ _ => ⟨hchecked, ?_, fun _ => hr⟩, fun _ _ _ => ⟨freed, rfl⟩,
            fun hnot => absurd hchecked hnot⟩
          rw [ended, hcleared]

/-! ### Runs -/

/-- A cleanup that may stop at any point. -/
inductive Attempt (r : TaskRecord) : Storage → Except String ℕ → Storage → Prop
  | mk {s s' : Storage} {fault : Option PruneFault} {result : Except String ℕ}
      (h : pruneTaskCopies s r fault = (result, s')) : Attempt r s result s'

abbrev Run (r : TaskRecord) : Storage → Storage → Prop := Reach (Attempt r) fun _ => True

theorem trims_of_run (hrun : Run r s s') :
    s'.runs = s.runs ∧ Trims (copies r) s.tasks s'.tasks := by
  refine hrun.invariant (P := fun s' => s'.runs = s.runs ∧ Trims (copies r) s.tasks s'.tasks)
    (fun _ _ _ _ hs hstep => ?_) ⟨rfl, Trims.refl _ _⟩
  cases hstep with
  | mk h =>
    obtain ⟨hruns, htrims, -⟩ := pruneTaskCopies_spec h
    exact ⟨hruns.trans hs.1, hs.2.trans htrims⟩

/-- The work directory of a task. -/
def work (s : Storage) (r : TaskRecord) : Directory := fun path => s.tasks (workPath r ++ path)

/-- A training whose cleanup was not asked for yet. -/
def finishedTraining : TaskRecord where
  id := "task-0001"
  kind := .training
  name := "Alto"
  state := .succeeded
  parameters := (∅ : Parameters).insert "recovery" "training-full-v1"

def zeroDigest : Bytes := List.replicate 64 48

/-- A marker of a stage whose file is no copy. -/
def planMarker : Bytes := stageText zeroDigest (bytes "plan") (bytes "plan.txt") zeroDigest

def trainingFiles : List (List Bytes × Node) :=
  [([bytes "task-0001"], .directory), ([bytes "task-0001", bytes "work"], .directory),
    ([bytes "task-0001", bytes "work", bytes "generator.safetensors"], .regular [1, 2, 3] 1),
    ([bytes "task-0001", bytes "work", bytes "discriminator.safetensors"], .regular [4, 5] 1),
    ([bytes "task-0001", bytes "work", bytes "plan.txt"], .regular [8] 1),
    ([bytes "task-0001", bytes "work", stageName (bytes "plan")], .regular planMarker 1)]

def runFiles : List (List Bytes × Node) :=
  [([bytes "Alto"], .directory), ([bytes "Alto", bytes "full_training"], .directory),
    ([bytes "Alto", bytes "full_training", bytes "web-task"], .regular (bytes "task-0001") 1),
    ([bytes "Alto", bytes "full_training", bytes "result"], .directory),
    ([bytes "Alto", bytes "full_training", bytes "result", bytes "model.safetensors"],
      .regular [6] 1),
    ([bytes "Alto", bytes "full_training", bytes "result", bytes "model.index"], .regular [7] 1)]

def ofFiles (files : List (List Bytes × Node)) : Directory :=
  fun path => (files.find? fun file => file.1 = path).map Prod.snd

def trainingStorage : Storage := ⟨ofFiles trainingFiles, ofFiles runFiles⟩

/-- A cleanup that dies after its first removal. -/
def halfPruned : Storage := (pruneTaskCopies trainingStorage finishedTraining (some (.unlink 1))).2

theorem run_halfPruned : Run finishedTraining trainingStorage halfPruned :=
  Reach.refl.tail trivial (Attempt.mk Prod.mk.eta.symm)

/-- **Nothing but the copies is removed**, in any number of attempts that stop at any point, and
nothing at all if the result or the source of the task is not there or was changed. -/
theorem kept_of_run (hrun : Run r s s') :
    s'.runs = s.runs ∧
      (∀ path, s'.tasks path = s.tasks path ∨ path ∈ copies r ∧ s'.tasks path = none ∧
        ∃ content, s.tasks path = some (.regular content 1)) ∧
      (¬Checked s r → s' = s) := by
  obtain ⟨hruns, htrims⟩ := trims_of_run hrun
  refine ⟨hruns, htrims, fun hnot => ?_⟩
  refine hrun.invariant (P := fun s' => s' = s) (fun _ _ _ _ hs hstep => ?_) rfl
  cases hstep with
  | mk h =>
    obtain ⟨-, -, -, -, hsame⟩ := pruneTaskCopies_spec h
    rw [hs] at hsame
    exact hsame hnot

theorem kept_of_run_halfPruned : halfPruned.runs = trainingStorage.runs :=
  (kept_of_run run_halfPruned).1

/-- **A cleanup can be asked for again.** If the cleanup would succeed, then after any number of
attempts that stopped at any point it still does, and what it leaves is the same. -/
theorem prune_of_run {freed : ℕ} {done : Storage}
    (h : pruneTaskCopies s r none = (.ok freed, done)) (hrun : Run r s s') :
    ∃ freed', pruneTaskCopies s' r none = (.ok freed', done) := by
  obtain ⟨hruns, htrims⟩ := trims_of_run hrun
  obtain ⟨-, -, hok, -, -⟩ := pruneTaskCopies_spec h
  obtain ⟨hchecked, rfl, hremovable⟩ := hok freed rfl
  have htask : s'.tasks (taskPath r) = s.tasks (taskPath r) :=
    htrims.eq_of_not_mem fun hmem => absurd (length_of_mem_copies hmem) (by simp [taskPath])
  have hchecked' : Checked s' r := by
    refine ⟨hchecked.valid, hchecked.succeeded, ?_, fun hhas => ?_⟩
    · rw [childDirectory, htask]
      exact hchecked.task
    · rw [check_eq hruns htrims]
      exact hchecked.check hhas
  rcases hout : pruneTaskCopies s' r none with ⟨result, last⟩
  obtain ⟨-, -, hok', hpossible, -⟩ := pruneTaskCopies_spec hout
  obtain ⟨freed', rfl⟩ := hpossible hchecked' (fun hhas => htrims.removable (hremovable hhas)) rfl
  obtain ⟨-, rfl, -⟩ := hok' freed' rfl
  refine ⟨freed', ?_⟩
  rw [ended, ended, htrims.cleared_eq, hruns]

theorem prune_of_run_halfPruned :
    ∃ freed, (pruneTaskCopies halfPruned finishedTraining none).1 = .ok freed := by
  have hfreed : (pruneTaskCopies trainingStorage finishedTraining none).1 = .ok 5 := by
    decide
  obtain ⟨freed, hpruned⟩ := prune_of_run
    (Prod.ext hfreed rfl : pruneTaskCopies trainingStorage finishedTraining none =
      (.ok 5, (pruneTaskCopies trainingStorage finishedTraining none).2)) run_halfPruned
  exact ⟨freed, congrArg Prod.fst hpruned⟩

/-! ### Completed stages -/

theorem walk_congr (hsymlink : ∀ path, d' path = some .symlink ↔ d path = some .symlink)
    {result parts : List Bytes} (hlast : d' (result ++ parts) = d (result ++ parts)) :
    walk d' result parts = walk d result parts := by
  induction parts generalizing result with
  | nil =>
    rw [List.append_nil] at hlast
    rw [walk, walk, hlast]
  | cons part parts ih =>
    rw [walk, walk, ih (by rwa [List.append_assoc, List.singleton_append])]
    simp only [hsymlink]

theorem mem_copies_iff {path : List Bytes} :
    workPath r ++ path ∈ copies r ↔ ∃ name ∈ copyNames r, path = [name] := by
  rw [copies, List.mem_map]
  constructor
  · rintro ⟨name, hname, heq⟩
    rw [List.append_cancel_left_eq] at heq
    exact ⟨name, hname, heq.symm⟩
  · rintro ⟨name, hname, rfl⟩
    exact ⟨name, hname, rfl⟩

/-- **Completed stages stay completed.** A lookup of a stage, with or without the check of its
digest, gives the same answer after a cleanup, wherever that stopped, unless the file of the stage is
one of the copies. -/
theorem completedStage_of_cleanup {identity stage : Bytes} {verifyChecksum : Bool}
    (hrun : Run r s s')
    (hfile : ∀ text marker, read (work s r) (stageName stage) = .ok (some text) →
      parseMarker text = some marker → ∀ name ∈ copyNames r, components marker.path ≠ [name]) :
    completedStage (work s' r) identity stage verifyChecksum =
      completedStage (work s r) identity stage verifyChecksum := by
  obtain ⟨-, htrims⟩ := trims_of_run hrun
  have hmarker : work s' r [stageName stage] = work s r [stageName stage] :=
    htrims.eq_of_not_mem fun hmem => (head?_copyNames (mem_copies.1 hmem)).1 (head?_stageName stage)
  have hsymlink : ∀ path, work s' r path = some .symlink ↔ work s r path = some .symlink := by
    intro path
    rcases htrims (workPath r ++ path) with hsame | ⟨-, hnone, content, hcontent⟩
    · rw [work, work, hsame]
    · rw [work, work, hnone, hcontent]
      simp
  have hread : read (work s' r) (stageName stage) = read (work s r) (stageName stage) := by
    rw [TaskArtifacts.read, TaskArtifacts.read, hmarker]
  rw [completedStage, completedStage, hread]
  by_cases hkey : validKey stage = false
  · rw [if_pos hkey, if_pos hkey]
  rw [if_neg hkey, if_neg hkey]
  cases htext : read (work s r) (stageName stage) with
  | error e => rfl
  | ok text =>
    cases text with
    | none => rfl
    | some text =>
      dsimp only
      cases hparse : parseMarker text with
      | none => rfl
      | some marker =>
        dsimp only
        have hkept : work s' r (components marker.path) = work s r (components marker.path) := by
          refine htrims.eq_of_not_mem fun hmem => ?_
          obtain ⟨name, hname, heq⟩ := mem_copies_iff.1 hmem
          exact hfile text marker htext hparse name hname heq
        have hartifact : artifact (work s' r) marker.path = artifact (work s r) marker.path := by
          rw [artifact, artifact, @walk_congr _ _ hsymlink [] (components marker.path) hkept]
        rw [hartifact]
        cases hfound : artifact (work s r) marker.path with
        | error e => rfl
        | ok file =>
          have hhash : sha256File (work s' r) file = sha256File (work s r) file := by
            rw [sha256File, sha256File, artifact_eq hfound, hkept]
          dsimp only
          rw [hhash]

theorem completedStage_of_cleanup_halfPruned :
    completedStage (work halfPruned finishedTraining) zeroDigest (bytes "plan") false =
      .ok (some [bytes "plan.txt"]) := by
  have hread : read (work trainingStorage finishedTraining) (stageName (bytes "plan")) =
      .ok (some planMarker) := by
    decide +kernel
  have hparse : (parseMarker planMarker).map (fun marker => components marker.path) =
      some [bytes "plan.txt"] := by
    decide
  have hcopies : ∀ name ∈ copyNames finishedTraining, [bytes "plan.txt"] ≠ [name] := by
    decide
  rw [completedStage_of_cleanup run_halfPruned fun text marker htext hmarker => ?_]
  · decide +kernel
  · rw [hread] at htext
    obtain rfl := Option.some.inj (Except.ok.inj htext)
    rw [hmarker] at hparse
    have hpath : components marker.path = [bytes "plan.txt"] := Option.some.inj hparse
    rw [hpath]
    exact hcopies

end Resonantia.Web.TaskCleanup
