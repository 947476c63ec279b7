import Mathlib.Data.List.Nodup
import Resonantia.Library.Places

/-!
# Replacing artifacts

A result of several files and directories replaces the previous one. What is live is moved into a
fresh backup directory, then the staged artifacts are moved into place. A failure undoes the moves
made so far; the backup is deleted only after a commit or a complete undoing.

## Main definitions

* `Web.ArtifactSwap.swap`: the transaction.
* `Web.ArtifactSwap.replaceMaterialDirs`, `Web.ArtifactSwap.replaceStepArtifacts`,
  `Web.ArtifactSwap.replaceTrainingArtifacts`: the three replacements.
* `Web.ArtifactSwap.Atomic`: what a replacement guarantees.

## Main results

* `Web.ArtifactSwap.swap_atomic`: the transaction is atomic.
* `Web.ArtifactSwap.replacements_atomic`: so are the three replacements.
-/

namespace Resonantia.Web.ArtifactSwap

open Places

/-! ### The transaction -/

/-- Where an artifact is. -/
inductive Place
  | staged (name : String)
  | live (name : String)
  | old (name : String)
deriving DecidableEq

abbrev Disk := World Place

/-- `TempDir backup`: a new directory is empty. -/
def freshBackup : List String → Disk → Disk
  | [], w => w
  | name :: names, w => freshBackup names (w.set (.old name) none)

/-- The live artifacts are moved into the backup, up to the first failure. -/
def moveOld : List String → Disk → (List String × Except String Unit) × Disk
  | [], w => (([], .ok ()), w)
  | name :: names, w =>
    match existsAt (.live name) w with
    | (.error message, w) => (([], .error message), w)
    | (.ok false, w) => moveOld names w
    | (.ok true, w) =>
      match rename (.live name) (.old name) w with
      | (.error message, w) => (([], .error message), w)
      | (.ok (), w) =>
        match moveOld names w with
        | ((moved, result), w) => ((name :: moved, result), w)

/-- The staged artifacts are moved into place, up to the first failure. -/
def install : List String → Disk → (List String × Except String Unit) × Disk
  | [], w => (([], .ok ()), w)
  | name :: names, w =>
    match rename (.staged name) (.live name) w with
    | (.error message, w) => (([], .error message), w)
    | (.ok (), w) =>
      match install names w with
      | ((installed, result), w) => ((name :: installed, result), w)

/-- Nothing is installed after a failed move. -/
def installAfter (result : Except String Unit) (names : List String) (w : Disk) :
    (List String × Except String Unit) × Disk :=
  match result with
  | .ok () => install names w
  | .error message => (([], .error message), w)

/-- Undoing installations; the flag says that every call succeeded. -/
def removeInstalled : List String → Disk → Bool × Disk
  | [], w => (true, w)
  | name :: names, w =>
    match removeAll (.live name) w with
    | (result, w) =>
      match removeInstalled names w with
      | (ok, w) => (result.isOk && ok, w)

/-- Undoing moves. -/
def restoreOld : List String → Disk → Bool × Disk
  | [], w => (true, w)
  | name :: names, w =>
    match rename (.old name) (.live name) w with
    | (result, w) =>
      match restoreOld names w with
      | (ok, w) => (result.isOk && ok, w)

/-- The backup is deleted as far as that succeeds. -/
def cleanup : List String → Disk → Disk
  | [], w => w
  | name :: names, w => cleanup names (removeAll (.old name) w).2

/-- What a replacement returns, whether it kept the backup, and its error text. -/
structure Outcome where
  committed : Bool
  retained : Bool
  error : Option String := none

/-- The moves of the transaction up to the first failure: what was moved and what was installed. -/
def attempt (names installs : List String) (w : Disk) :
    (List String × List String × Except String Unit) × Disk :=
  let ((moved, result), w) := moveOld names (freshBackup names w)
  let ((installed, result), w) := installAfter result installs w
  ((moved, installed, result), w)

/-- The transaction: which artifacts are moved away and installed, and the order of undoing. -/
def swap (names installs : List String) (undo : List String → List String) (w : Disk) :
    Outcome × Disk :=
  let ((moved, installed, result), w) := attempt names installs w
  match result with
  | .ok () => ({ committed := true, retained := false }, cleanup names w)
  | .error message =>
    let (removed, w) := removeInstalled (undo installed) w
    let (restored, w) := restoreOld (undo moved) w
    if removed && restored then
      ({ committed := false, retained := false, error := some message }, cleanup names w)
    else ({ committed := false, retained := true, error := some message }, w)

/-! ### The three replacements -/

/-- `replace_material_dirs`: the step marker is retired with the materials. -/
def replaceMaterialDirs (w : Disk) : Outcome × Disk :=
  match statusAt (.live "steps.txt") w with
  | (.error message, w) => ({ committed := false, retained := false, error := some message }, w)
  | (.ok (some (.directory _)), w) =>
    ({ committed := false, retained := false
       error := some "existing step marker must be a regular file" }, w)
  | (.ok _, w) => swap ["raw", "work", "steps.txt"] ["raw", "work"] id w

/-- `replace_step_artifacts`. -/
def replaceStepArtifacts (w : Disk) : Outcome × Disk :=
  swap ["work", "steps.txt"] ["work", "steps.txt"] List.reverse w

/-- `replace_training_artifacts`. -/
def replaceTrainingArtifacts (w : Disk) : Outcome × Disk :=
  swap ["clips", "model.safetensors", "model.index"] ["clips", "model.safetensors", "model.index"]
    List.reverse w

variable {w w' : Disk}

/-! ### What the loops do -/

theorem node_freshBackup_of_not_mem {names : List String} {w : Disk} {name : String}
    (h : name ∉ names) : (freshBackup names w).node (.old name) = w.node (.old name) := by
  induction names generalizing w with
  | nil => rfl
  | cons a names ih =>
    rw [List.mem_cons, not_or] at h
    rw [freshBackup, ih h.2, node_set_of_ne (by simpa using h.1)]

theorem node_freshBackup (names : List String) (w : Disk) :
    (∀ name ∈ names, (freshBackup names w).node (.old name) = none) ∧
      (∀ name, (freshBackup names w).node (.live name) = w.node (.live name)) ∧
      ∀ name, (freshBackup names w).node (.staged name) = w.node (.staged name) := by
  induction names generalizing w with
  | nil => exact ⟨by simp, fun _ => rfl, fun _ => rfl⟩
  | cons name names ih =>
    obtain ⟨hold, hlive, hstaged⟩ := ih (w.set (.old name) none)
    rw [freshBackup]
    refine ⟨fun a ha => ?_, fun a => ?_, fun a => ?_⟩
    · by_cases hmem : a ∈ names
      · exact hold a hmem
      · obtain rfl : a = name := (List.mem_cons.1 ha).resolve_right hmem
        rw [node_freshBackup_of_not_mem hmem, node_set_self]
    · rw [hlive a, node_set_of_ne (by simp)]
    · rw [hstaged a, node_set_of_ne (by simp)]

/-- The artifacts that were moved are in the backup, and nothing else changed. -/
structure Moved (w w' : Disk) (moved : List String) : Prop where
  taken : ∀ name ∈ moved, ∃ node, w.node (.live name) = some node ∧
    w'.node (.old name) = some node ∧ w'.node (.live name) = none
  others : ∀ name, name ∉ moved → w'.node (.live name) = w.node (.live name)
  staged : ∀ name, w'.node (.staged name) = w.node (.staged name)

theorem Moved.refl (w : Disk) : Moved w w [] := ⟨by simp, by simp, fun _ => rfl⟩

theorem moved_moveOld {names moved : List String} {result : Except String Unit}
    (hnames : names.Nodup) (h : moveOld names w = ((moved, result), w')) :
    moved.Sublist names ∧ Moved w w' moved ∧
      (∀ name, name ∉ names → w'.node (.old name) = w.node (.old name)) ∧
      (result = .ok () → ∀ name ∈ names, w'.node (.live name) = none) := by
  induction names generalizing w moved with
  | nil =>
    obtain ⟨hpair, rfl⟩ := Prod.mk.inj h
    obtain ⟨rfl, rfl⟩ := Prod.mk.inj hpair
    exact ⟨List.Sublist.refl _, Moved.refl w, fun _ _ => rfl, by simp⟩
  | cons name names ih =>
    rw [List.nodup_cons] at hnames
    rw [moveOld] at h
    split at h
    · -- the call that asks for the artifact fails
      rename_i hexists
      obtain ⟨hpair, rfl⟩ := Prod.mk.inj h
      obtain ⟨rfl, rfl⟩ := Prod.mk.inj hpair
      have hnode := (existsAt_cases hexists).1
      exact ⟨List.nil_sublist _, ⟨by simp, fun a _ => by rw [hnode], fun a => by rw [hnode]⟩,
        fun a _ => by rw [hnode], (fun hok => by cases hok)⟩
    · -- there is no such artifact
      rename_i w₁ hexists
      obtain ⟨hnode, hvalue⟩ := existsAt_cases hexists
      obtain ⟨hsub, hmoved, hold, hgone⟩ := ih hnames.2 h
      have hnone : w.node (.live name) = none := by
        have hb := hvalue false rfl
        rw [eq_comm, Option.isSome_eq_false_iff, Option.isNone_iff_eq_none] at hb
        exact hb
      rw [hnode] at hold
      refine ⟨hsub.cons name, ⟨fun a ha => ?_, fun a ha => ?_, fun a => ?_⟩, fun a ha => ?_,
        fun hok a ha => ?_⟩
      · rw [← hnode]
        exact hmoved.taken a ha
      · rw [← hnode]
        exact hmoved.others a ha
      · rw [← hnode]
        exact hmoved.staged a
      · exact hold a fun hmem => ha (List.mem_cons_of_mem _ hmem)
      · rcases List.mem_cons.1 ha with rfl | ha
        · rw [hmoved.others a fun hmem => hnames.1 (hsub.subset hmem), hnode, hnone]
        · exact hgone hok a ha
    · rename_i w₁ hexists
      have hnode := (existsAt_cases hexists).1
      split at h
      · -- the renaming fails
        rename_i message w₂ hrename
        obtain ⟨hpair, rfl⟩ := Prod.mk.inj h
        obtain ⟨rfl, rfl⟩ := Prod.mk.inj hpair
        have hsame : w₂.node = w.node := by
          rcases rename_cases (by simp) hrename with ⟨node, hok, -⟩ | ⟨-, hsame⟩
          · cases hok
          · rw [hsame, hnode]
        exact ⟨List.nil_sublist _, ⟨by simp, fun a _ => by rw [hsame], fun a => by rw [hsame]⟩,
          fun a _ => by rw [hsame], (fun hok => by cases hok)⟩
      · rename_i w₂ hrename
        split at h
        rename_i moved' result' w₃ hrest
        obtain ⟨hpair, rfl⟩ := Prod.mk.inj h
        obtain ⟨rfl, rfl⟩ := Prod.mk.inj hpair
        obtain ⟨hsub, hmoved, hold, hgone⟩ := ih hnames.2 hrest
        rcases rename_cases (by simp) hrename with
          ⟨node, -, hsource, htarget, hempty, hothers⟩ | ⟨⟨message, herror⟩, -⟩
        · have hname : name ∉ moved' := fun hmem => hnames.1 (hsub.subset hmem)
          rw [hnode] at hsource hothers
          refine ⟨hsub.cons_cons name, ⟨fun a ha => ?_, fun a ha => ?_, fun a => ?_⟩,
            fun a ha => ?_, fun hok a ha => ?_⟩
          · rcases List.mem_cons.1 ha with rfl | ha
            · refine ⟨node, hsource, ?_, ?_⟩
              · rw [hold a hnames.1, htarget]
              · rw [hmoved.others a hname, hempty]
            · have hne : a ≠ name := fun heq => hname (heq ▸ ha)
              have hlive := hmoved.taken a ha
              rw [hothers (.live a) (by simpa using hne) (by simp)] at hlive
              exact hlive
          · rw [List.mem_cons, not_or] at ha
            rw [hmoved.others a ha.2, hothers (.live a) (by simpa using ha.1) (by simp)]
          · rw [hmoved.staged a, hothers (.staged a) (by simp) (by simp)]
          · rw [List.mem_cons, not_or] at ha
            rw [hold a ha.2, hothers (.old a) (by simp) (by simpa using ha.1)]
          · rcases List.mem_cons.1 ha with rfl | ha
            · rw [hmoved.others a hname, hempty]
            · exact hgone hok a ha
        · cases herror

/-- The artifacts that were installed are live with their staged content. -/
structure Installed (w w' : Disk) (installed : List String) : Prop where
  placed : ∀ name ∈ installed, ∃ node, w.node (.staged name) = some node ∧
    w'.node (.live name) = some node
  others : ∀ name, name ∉ installed → w'.node (.live name) = w.node (.live name)
  old : ∀ name, w'.node (.old name) = w.node (.old name)

theorem installed_install {names installed : List String} {result : Except String Unit}
    (hnames : names.Nodup) (h : install names w = ((installed, result), w')) :
    installed.Sublist names ∧ Installed w w' installed ∧
      (result = .ok () → installed = names) := by
  induction names generalizing w installed with
  | nil =>
    obtain ⟨hpair, rfl⟩ := Prod.mk.inj h
    obtain ⟨rfl, rfl⟩ := Prod.mk.inj hpair
    exact ⟨List.Sublist.refl _, ⟨by simp, fun _ _ => rfl, fun _ => rfl⟩, fun _ => rfl⟩
  | cons name names ih =>
    rw [List.nodup_cons] at hnames
    rw [install] at h
    split at h
    · rename_i message w₁ hrename
      obtain ⟨hpair, rfl⟩ := Prod.mk.inj h
      obtain ⟨rfl, rfl⟩ := Prod.mk.inj hpair
      have hsame : w₁.node = w.node := by
        rcases rename_cases (by simp) hrename with ⟨node, hok, -⟩ | ⟨-, hsame⟩
        · cases hok
        · exact hsame
      exact ⟨List.nil_sublist _, ⟨by simp, fun a _ => by rw [hsame], fun a => by rw [hsame]⟩,
        (fun hok => by cases hok)⟩
    · rename_i w₁ hrename
      split at h
      rename_i installed' result' w₂ hrest
      obtain ⟨hpair, rfl⟩ := Prod.mk.inj h
      obtain ⟨rfl, rfl⟩ := Prod.mk.inj hpair
      obtain ⟨hsub, hinstalled, hall⟩ := ih hnames.2 hrest
      rcases rename_cases (by simp) hrename with
        ⟨node, -, hsource, htarget, -, hothers⟩ | ⟨⟨message, herror⟩, -⟩
      · have hname : name ∉ installed' := fun hmem => hnames.1 (hsub.subset hmem)
        refine ⟨hsub.cons_cons name, ⟨fun a ha => ?_, fun a ha => ?_, fun a => ?_⟩, fun hok => ?_⟩
        · rcases List.mem_cons.1 ha with rfl | ha
          · exact ⟨node, hsource, by rw [hinstalled.others a hname, htarget]⟩
          · have hne : a ≠ name := fun heq => hname (heq ▸ ha)
            have hplaced := hinstalled.placed a ha
            rw [hothers (.staged a) (by simpa using hne) (by simp)] at hplaced
            exact hplaced
        · rw [List.mem_cons, not_or] at ha
          rw [hinstalled.others a ha.2, hothers (.live a) (by simp) (by simpa using ha.1)]
        · rw [hinstalled.old a, hothers (.old a) (by simp) (by simp)]
        · rw [hall hok]
      · cases herror

theorem node_removeInstalled {installed : List String} {ok : Bool}
    (h : removeInstalled installed w = (ok, w')) :
    (∀ name, name ∉ installed → w'.node (.live name) = w.node (.live name)) ∧
      (∀ name, w'.node (.old name) = w.node (.old name)) ∧
      (ok = true → ∀ name ∈ installed, w'.node (.live name) = none) := by
  induction installed generalizing w ok with
  | nil =>
    obtain ⟨rfl, rfl⟩ := Prod.mk.inj h
    exact ⟨fun _ _ => rfl, fun _ => rfl, by simp⟩
  | cons name names ih =>
    rw [removeInstalled] at h
    split at h
    rename_i result w₁ hremove
    split at h
    rename_i ok' w₂ hrest
    obtain ⟨rfl, rfl⟩ := Prod.mk.inj h
    obtain ⟨hothers, hempty⟩ := removeAll_cases hremove
    obtain ⟨hlive, hold, hgone⟩ := ih hrest
    refine ⟨fun a ha => ?_, fun a => ?_, fun hok a ha => ?_⟩
    · rw [List.mem_cons, not_or] at ha
      rw [hlive a ha.2, hothers (.live a) (by simpa using ha.1)]
    · rw [hold a, hothers (.old a) (by simp)]
    · rw [Bool.and_eq_true] at hok
      by_cases hmem : a ∈ names
      · exact hgone hok.2 a hmem
      · obtain rfl : a = name := (List.mem_cons.1 ha).resolve_right hmem
        rw [hlive a hmem]
        cases result with
        | ok _ => exact hempty rfl
        | error message => cases hok.1

/-- Moving one artifact back leaves the others. -/
theorem node_restore_of_ne {name a : String} {result : Except String Unit} (hne : a ≠ name)
    (h : rename (.old name) (.live name) w = (result, w')) :
    w'.node (.live a) = w.node (.live a) ∧ w'.node (.old a) = w.node (.old a) := by
  rcases rename_cases (by simp) h with ⟨node, -, -, -, -, hsame⟩ | ⟨-, hsame⟩
  · exact ⟨hsame _ (by simp) (by simpa using hne), hsame _ (by simpa using hne) (by simp)⟩
  · rw [hsame]
    exact ⟨rfl, rfl⟩

theorem node_restoreOld {moved : List String} {ok : Bool} (hmoved : moved.Nodup)
    (h : restoreOld moved w = (ok, w')) :
    (∀ name, name ∉ moved → w'.node (.live name) = w.node (.live name) ∧
      w'.node (.old name) = w.node (.old name)) ∧
      ∀ name ∈ moved, ∀ node, w.node (.old name) = some node →
        w'.node (.live name) = some node ∨ (ok = false ∧ w'.node (.old name) = some node) := by
  induction moved generalizing w ok with
  | nil =>
    obtain ⟨rfl, rfl⟩ := Prod.mk.inj h
    exact ⟨fun _ _ => ⟨rfl, rfl⟩, by simp⟩
  | cons name names ih =>
    rw [List.nodup_cons] at hmoved
    rw [restoreOld] at h
    split at h
    rename_i result w₁ hrename
    split at h
    rename_i ok' w₂ hrest
    obtain ⟨rfl, rfl⟩ := Prod.mk.inj h
    obtain ⟨hothers, hback⟩ := ih hmoved.2 hrest
    have hstep : ∀ a, a ≠ name →
        w₁.node (.live a) = w.node (.live a) ∧ w₁.node (.old a) = w.node (.old a) := fun a ha =>
      node_restore_of_ne ha hrename
    refine ⟨fun a ha => ?_, fun a ha node hnode => ?_⟩
    · rw [List.mem_cons, not_or] at ha
      rw [(hothers a ha.2).1, (hothers a ha.2).2]
      exact hstep a ha.1
    · rcases List.mem_cons.1 ha with rfl | ha
      · rw [(hothers a hmoved.1).1, (hothers a hmoved.1).2]
        rcases rename_cases (by simp) hrename with
          ⟨back, -, hsource, htarget, -⟩ | ⟨⟨message, rfl⟩, hsame⟩
        · exact Or.inl (by rw [htarget, ← hsource, hnode])
        · exact Or.inr ⟨rfl, by rw [hsame, hnode]⟩
      · have hne : a ≠ name := fun heq => hmoved.1 (heq ▸ ha)
        rw [← (hstep a hne).2] at hnode
        rcases hback a ha node hnode with hlive | ⟨rfl, hold⟩
        · exact Or.inl hlive
        · exact Or.inr ⟨Bool.and_false _, hold⟩

theorem node_cleanup (names : List String) (w : Disk) (name : String) :
    (cleanup names w).node (.live name) = w.node (.live name) := by
  induction names generalizing w with
  | nil => rfl
  | cons a names ih =>
    rw [cleanup, ih]
    obtain ⟨result, w₁, hremove⟩ : ∃ result w₁, removeAll (.old a) w = (result, w₁) :=
      ⟨_, _, rfl⟩
    rw [hremove]
    exact (removeAll_cases hremove).1 (.live name) (by simp)

/-! ### The calls of the undoing -/

/-- The calls of the undoing, by their place among all calls: one for each artifact that was
installed and one for each that was moved. -/
def undoCalls (names installs : List String) (w : Disk) : List ℕ :=
  let ((moved, installed, _), w) := attempt names installs w
  List.range' w.ticks (installed.length + moved.length)

theorem fault_freshBackup (names : List String) (w : Disk) :
    (freshBackup names w).fault = w.fault := by
  induction names generalizing w with
  | nil => rfl
  | cons name names ih => rw [freshBackup, ih, fault_set]

theorem fault_moveOld (names : List String) (w : Disk) : (moveOld names w).2.fault = w.fault := by
  induction names generalizing w with
  | nil => rfl
  | cons name names ih =>
    have hexists := (fault_existsAt (Place.live name) w).1
    have hrename := fun w : Disk => (fault_rename (Place.live name) (.old name) w).1
    rw [moveOld]
    split
    · rename_i heq
      rw [heq] at hexists
      exact hexists
    · rename_i heq
      rw [heq] at hexists
      rw [ih]
      exact hexists
    · rename_i w₁ heq
      rw [heq] at hexists
      split
      · rename_i hmove
        have hfault := hrename w₁
        rw [hmove] at hfault
        exact hfault.trans hexists
      · rename_i hmove
        have hfault := hrename w₁
        rw [hmove] at hfault
        exact (ih _).trans (hfault.trans hexists)

theorem fault_install (names : List String) (w : Disk) : (install names w).2.fault = w.fault := by
  induction names generalizing w with
  | nil => rfl
  | cons name names ih =>
    have hrename := (fault_rename (Place.staged name) (.live name) w).1
    rw [install]
    split
    · rename_i heq
      rw [heq] at hrename
      exact hrename
    · rename_i heq
      rw [heq] at hrename
      exact (ih _).trans hrename

/-- The environment does not depend on the calls. -/
theorem fault_attempt (names installs : List String) (w : Disk) :
    (attempt names installs w).2.fault = w.fault := by
  have hmove := (fault_moveOld names (freshBackup names w)).trans (fault_freshBackup names w)
  rw [attempt]
  dsimp only
  generalize (moveOld names (freshBackup names w)).1.2 = result
  cases result with
  | ok _ => exact (fault_install installs _).trans hmove
  | error message => exact hmove

/-- Installations are undone where the environment lets every call succeed. -/
theorem removeInstalled_of_fault_eq_none (installed : List String) {w : Disk}
    (hfault : ∀ t ∈ List.range' w.ticks installed.length, w.fault t = .none) :
    (removeInstalled installed w).1 = true ∧
      (removeInstalled installed w).2.fault = w.fault ∧
      (removeInstalled installed w).2.ticks = w.ticks + installed.length := by
  induction installed generalizing w with
  | nil => exact ⟨rfl, rfl, rfl⟩
  | cons name names ih =>
    obtain ⟨hsame, hticks⟩ := fault_removeAll (Place.live name) w
    rw [List.length_cons, List.range'_succ] at hfault
    have hok := removeAll_of_fault_eq_none (p := Place.live name)
      (hfault w.ticks List.mem_cons_self)
    have hrest := ih (w := (removeAll (Place.live name) w).2) fun t ht => by
      rw [hticks] at ht
      rw [hsame]
      exact hfault t (List.mem_cons_of_mem _ ht)
    rw [hsame, hticks] at hrest
    rw [removeInstalled]
    dsimp only
    refine ⟨?_, hrest.2.1, ?_⟩
    · rw [hok, hrest.1]
      rfl
    · rw [hrest.2.2, List.length_cons]
      omega

/-- Moves are undone where the environment lets every call succeed and the places are empty. -/
theorem restoreOld_of_fault_eq_none {moved : List String} {w : Disk} (hmoved : moved.Nodup)
    (hfault : ∀ t ∈ List.range' w.ticks moved.length, w.fault t = .none)
    (hplaces : ∀ name ∈ moved, (∃ node, w.node (.old name) = some node) ∧
      w.node (.live name) = none) :
    (restoreOld moved w).1 = true := by
  induction moved generalizing w with
  | nil => rfl
  | cons name names ih =>
    obtain ⟨hsame, hticks⟩ := fault_rename (Place.old name) (.live name) w
    rw [List.nodup_cons] at hmoved
    rw [List.length_cons, List.range'_succ] at hfault
    obtain ⟨⟨node, hold⟩, hlive⟩ := hplaces name List.mem_cons_self
    have hok := rename_of_fault_eq_none (hfault w.ticks List.mem_cons_self) hold hlive
    obtain ⟨result, w₁, hrename⟩ :
        ∃ result w₁, rename (Place.old name) (.live name) w = (result, w₁) := ⟨_, _, rfl⟩
    rw [hrename] at hsame hticks hok
    have hrest := ih (w := w₁) hmoved.2
      (fun t ht => by
        rw [hticks] at ht
        rw [hsame]
        exact hfault t (List.mem_cons_of_mem _ ht))
      (fun a ha => by
        have hne : a ≠ name := fun heq => hmoved.1 (heq ▸ ha)
        have hothers := node_restore_of_ne hne hrename
        rw [hothers.1, hothers.2]
        exact hplaces a (List.mem_cons_of_mem _ ha))
    rw [restoreOld, hrename]
    dsimp only at hok ⊢
    rw [hok, hrest]
    rfl

/-! ### Atomicity -/

/-- A commit installs every staged artifact and retires the others. Without a commit what was live is
live again and the backup is gone, if the environment lets the calls of the undoing succeed; whatever
it does, the backup is only deleted when what was live is live again, and every artifact that was live
is live or in the kept backup. -/
structure Atomic (names installs : List String) (calls : List ℕ) (w w' : Disk)
    (outcome : Outcome) : Prop where
  installed : outcome.committed = true → ∀ name ∈ installs, ∃ node,
    w.node (.staged name) = some node ∧ w'.node (.live name) = some node
  retired : outcome.committed = true → ∀ name ∈ names, name ∉ installs →
    w'.node (.live name) = none
  restored : outcome.committed = false → (∀ t ∈ calls, w.fault t = .none) →
    outcome.retained = false ∧ ∀ name, w'.node (.live name) = w.node (.live name)
  discarded : outcome.committed = false → outcome.retained = false →
    ∀ name, w'.node (.live name) = w.node (.live name)
  kept : outcome.committed = false → ∀ name node, w.node (.live name) = some node →
    w'.node (.live name) = some node ∨
      (outcome.retained = true ∧ w'.node (.old name) = some node)

/-- Undoing leaves what was live before the moves, as far as its calls succeed. -/
theorem node_undo {w₁ w₂ w₃ w₄ : Disk} {moved installed : List String} {removed restored : Bool}
    {undo : List String → List String} (hundo : ∀ l, (undo l).Perm l) (hnodup : moved.Nodup)
    (hmoved : Moved w w₁ moved) (hinstalled : Installed w₁ w₂ installed)
    (hempty : ∀ name ∈ installed, w₁.node (.live name) = none)
    (hremove : removeInstalled (undo installed) w₂ = (removed, w₃))
    (hrestore : restoreOld (undo moved) w₃ = (restored, w₄)) :
    (removed = true → restored = true → ∀ name, w₄.node (.live name) = w.node (.live name)) ∧
      ∀ name node, w.node (.live name) = some node →
        w₄.node (.live name) = some node ∨
          (restored = false ∧ w₄.node (.old name) = some node) := by
  obtain ⟨hlive₃, hold₃, hgone₃⟩ := node_removeInstalled hremove
  obtain ⟨hlive₄, hback⟩ := node_restoreOld ((hundo moved).nodup_iff.2 hnodup) hrestore
  simp only [(hundo installed).mem_iff] at hlive₃ hgone₃
  simp only [(hundo moved).mem_iff] at hlive₄ hback
  have hmovedBack : ∀ name ∈ moved, ∀ node, w.node (.live name) = some node →
      w₄.node (.live name) = some node ∨
        (restored = false ∧ w₄.node (.old name) = some node) := by
    intro name hname node hnode
    obtain ⟨node', hnode', hold, -⟩ := hmoved.taken name hname
    obtain rfl : node' = node := Option.some.inj (hnode'.symm.trans hnode)
    refine hback name hname node' ?_
    rw [hold₃ name, hinstalled.old name, hold]
  have huntouched : ∀ name, name ∉ moved → name ∉ installed →
      w₄.node (.live name) = w.node (.live name) := by
    intro name hname hname'
    rw [(hlive₄ name hname).1, hlive₃ name hname', hinstalled.others name hname',
      hmoved.others name hname]
  have hnew : ∀ name, name ∉ moved → name ∈ installed → w.node (.live name) = none := by
    intro name hname hname'
    rw [← hmoved.others name hname, hempty name hname']
  refine ⟨fun hremoved hrestored name => ?_, fun name node hnode => ?_⟩
  · by_cases hname : name ∈ moved
    · obtain ⟨node, hnode, -⟩ := hmoved.taken name hname
      rcases hmovedBack name hname node hnode with hlive | ⟨hfalse, -⟩
      · rw [hlive, hnode]
      · rw [hrestored] at hfalse
        cases hfalse
    by_cases hname' : name ∈ installed
    · rw [(hlive₄ name hname).1, hgone₃ hremoved name hname', hnew name hname hname']
    · exact huntouched name hname hname'
  · by_cases hname : name ∈ moved
    · exact hmovedBack name hname node hnode
    by_cases hname' : name ∈ installed
    · rw [hnew name hname hname'] at hnode
      cases hnode
    · exact Or.inl (by rw [huntouched name hname hname', hnode])

/-- The undoing succeeds where the environment lets its calls succeed. -/
theorem undo_of_fault_eq_none {w₁ w₂ : Disk} {moved installed : List String}
    {undo : List String → List String} (hundo : ∀ l, (undo l).Perm l) (hnodup : moved.Nodup)
    (hmoved : Moved w w₁ moved) (hinstalled : Installed w₁ w₂ installed)
    (hfault : ∀ t ∈ List.range' w₂.ticks (installed.length + moved.length), w₂.fault t = .none) :
    (removeInstalled (undo installed) w₂).1 = true ∧
      (restoreOld (undo moved) (removeInstalled (undo installed) w₂).2).1 = true := by
  rw [← List.range'_append, Nat.one_mul] at hfault
  obtain ⟨hremoved, hsame, hticks⟩ := removeInstalled_of_fault_eq_none (undo installed)
    fun t ht => hfault t (List.mem_append_left _ ((hundo installed).length_eq ▸ ht))
  obtain ⟨hlive, hold, hgone⟩ :=
    node_removeInstalled (rfl : removeInstalled (undo installed) w₂ = (_, _))
  refine ⟨hremoved, restoreOld_of_fault_eq_none ((hundo moved).nodup_iff.2 hnodup) ?_ ?_⟩
  · intro t ht
    rw [hticks, (hundo installed).length_eq, (hundo moved).length_eq] at ht
    rw [hsame]
    exact hfault t (List.mem_append_right _ ht)
  · intro name hname
    obtain ⟨node, -, hbackup, hempty⟩ := hmoved.taken name ((hundo moved).mem_iff.1 hname)
    refine ⟨⟨node, by rw [hold name, hinstalled.old name, hbackup]⟩, ?_⟩
    by_cases hmem : name ∈ undo installed
    · exact hgone hremoved name hmem
    · rw [hlive name hmem, hinstalled.others name fun h => hmem ((hundo installed).mem_iff.2 h),
        hempty]

/-- **The transaction is atomic.** -/
theorem swap_atomic {names installs : List String} {undo : List String → List String}
    (hnames : names.Nodup) (hinstalls : installs.Nodup) (hsub : installs ⊆ names)
    (hundo : ∀ l, (undo l).Perm l) (w : Disk) :
    Atomic names installs (undoCalls names installs w) w (swap names installs undo w).2
      (swap names installs undo w).1 := by
  obtain ⟨-, hlive₀, hstaged₀⟩ := node_freshBackup names w
  obtain ⟨moved, result₁, w₁, hmove⟩ :
      ∃ moved result₁ w₁, moveOld names (freshBackup names w) = ((moved, result₁), w₁) :=
    ⟨_, _, _, rfl⟩
  obtain ⟨hmovedSub, hmoved, -, hgone⟩ := moved_moveOld hnames hmove
  obtain ⟨installed, result₂, w₂, hrun, hinstalled, hempty, hdone⟩ :
      ∃ installed result₂ w₂,
        installAfter result₁ installs w₁ = ((installed, result₂), w₂) ∧
        Installed w₁ w₂ installed ∧
        (∀ name ∈ installed, w₁.node (.live name) = none) ∧
        (result₂ = .ok () → installed = installs ∧ result₁ = .ok ()) := by
    cases result₁ with
    | error message =>
      exact ⟨[], _, w₁, rfl, ⟨by simp, fun _ _ => rfl, fun _ => rfl⟩, by simp,
        (fun hok => by cases hok)⟩
    | ok _ =>
      obtain ⟨installed, result₂, w₂, hrun⟩ :
          ∃ installed result₂ w₂, install installs w₁ = ((installed, result₂), w₂) :=
        ⟨_, _, _, rfl⟩
      obtain ⟨hinstalledSub, hinstalled, hall⟩ := installed_install hinstalls hrun
      exact ⟨installed, result₂, w₂, hrun, hinstalled,
        fun name hname => hgone rfl name (hsub (hinstalledSub.subset hname)),
        fun hok => ⟨hall hok, rfl⟩⟩
  have hattempt : attempt names installs w = ((moved, installed, result₂), w₂) := by
    rw [attempt, hmove]
    simp only [hrun]
  have hfault₂ : w₂.fault = w.fault := by
    rw [← fault_attempt names installs w, hattempt]
  rw [undoCalls, swap, hattempt]
  dsimp only
  cases result₂ with
  | ok _ =>
    obtain ⟨rfl, hok₁⟩ := hdone rfl
    refine ⟨fun _ name hname => ?_, fun _ name hname hname' => ?_, (fun h => by cases h),
      (fun h => by cases h), (fun h => by cases h)⟩
    · obtain ⟨node, hstaged, hlive⟩ := hinstalled.placed name hname
      refine ⟨node, ?_, ?_⟩
      · rw [← hstaged₀ name, ← hmoved.staged name, hstaged]
      · rw [node_cleanup, hlive]
    · rw [node_cleanup, hinstalled.others name hname', hgone hok₁ name hname]
  | error message =>
    obtain ⟨removed, w₃, hremove⟩ :
        ∃ removed w₃, removeInstalled (undo installed) w₂ = (removed, w₃) := ⟨_, _, rfl⟩
    obtain ⟨restored, w₄, hrestore⟩ :
        ∃ restored w₄, restoreOld (undo moved) w₃ = (restored, w₄) := ⟨_, _, rfl⟩
    obtain ⟨hsame, hkept⟩ := node_undo hundo (hmovedSub.nodup hnames) hmoved hinstalled hempty
      hremove hrestore
    have hundone := undo_of_fault_eq_none hundo (hmovedSub.nodup hnames) hmoved hinstalled
    simp only [hlive₀] at hsame hkept
    simp only [hremove, hrestore, hfault₂] at hundone ⊢
    split
    · rename_i hok
      rw [Bool.and_eq_true] at hok
      have hback : ∀ name, (cleanup names w₄).node (.live name) = w.node (.live name) := by
        intro name
        rw [node_cleanup, hsame hok.1 hok.2 name]
      exact ⟨(fun h => by cases h), (fun h => by cases h), fun _ _ => ⟨rfl, hback⟩,
        fun _ _ => hback, fun _ name node hnode => Or.inl (by rw [hback name, hnode])⟩
    · rename_i hfailed
      refine ⟨(fun h => by cases h), (fun h => by cases h), fun _ hcalls => ?_,
        (fun _ h => by cases h), fun _ name node hnode => ?_⟩
      · obtain ⟨rfl, rfl⟩ := hundone hcalls
        exact absurd rfl hfailed
      · rcases hkept name node hnode with hlive | ⟨-, hold⟩
        · exact Or.inl hlive
        · exact Or.inr ⟨rfl, hold⟩

theorem Atomic.of_node {names installs : List String} {calls : List ℕ} {w₁ w w' : Disk}
    {outcome : Outcome} (h : Atomic names installs calls w₁ w' outcome) (hnode : w₁.node = w.node)
    (hfault : w₁.fault = w.fault) : Atomic names installs calls w w' outcome := by
  obtain ⟨hinstalled, hretired, hrestored, hdiscarded, hkept⟩ := h
  rw [hnode] at hinstalled hrestored hdiscarded hkept
  rw [hfault] at hrestored
  exact ⟨hinstalled, hretired, hrestored, hdiscarded, hkept⟩

/-- What fails before the transaction changes nothing. -/
theorem Atomic.of_refused {names installs : List String} {calls : List ℕ} {w w' : Disk}
    {error : Option String} (h : w'.node = w.node) :
    Atomic names installs calls w w' { committed := false, retained := false, error := error } :=
  ⟨(fun h => by cases h), (fun h => by cases h), fun _ _ => ⟨rfl, fun name => by rw [h]⟩,
    fun _ _ name => by rw [h], fun _ name node hnode => Or.inl (by rw [h, hnode])⟩

/-- **The three replacements are atomic.** Whatever calls fail, a replacement that commits has every
staged artifact live and no old step marker, one that does not commit has what was live if the calls
of its undoing succeed, and one that does not commit loses no old artifact. -/
theorem replacements_atomic (w : Disk) :
    Atomic ["raw", "work", "steps.txt"] ["raw", "work"]
        (undoCalls ["raw", "work", "steps.txt"] ["raw", "work"] (statusAt (.live "steps.txt") w).2) w
        (replaceMaterialDirs w).2 (replaceMaterialDirs w).1 ∧
      Atomic ["work", "steps.txt"] ["work", "steps.txt"]
        (undoCalls ["work", "steps.txt"] ["work", "steps.txt"] w) w
        (replaceStepArtifacts w).2 (replaceStepArtifacts w).1 ∧
      Atomic ["clips", "model.safetensors", "model.index"]
        ["clips", "model.safetensors", "model.index"]
        (undoCalls ["clips", "model.safetensors", "model.index"]
          ["clips", "model.safetensors", "model.index"] w) w
        (replaceTrainingArtifacts w).2 (replaceTrainingArtifacts w).1 := by
  refine ⟨?_, swap_atomic (by decide) (by decide) (List.Subset.refl _) List.reverse_perm w,
    swap_atomic (by decide) (by decide) (List.Subset.refl _) List.reverse_perm w⟩
  have hfault := (fault_statusAt (Place.live "steps.txt") w).1
  obtain ⟨status, w₁, hstatus⟩ : ∃ status w₁, statusAt (.live "steps.txt") w = (status, w₁) :=
    ⟨_, _, rfl⟩
  have hnode := (node_of_statusAt hstatus).1
  rw [hstatus] at hfault
  rw [replaceMaterialDirs, hstatus]
  split
  · rename_i heq
    obtain ⟨-, rfl⟩ := Prod.mk.inj heq
    exact Atomic.of_refused hnode
  · rename_i heq
    obtain ⟨-, rfl⟩ := Prod.mk.inj heq
    exact Atomic.of_refused hnode
  · rename_i heq
    obtain ⟨-, rfl⟩ := Prod.mk.inj heq
    have hswap : Atomic ["raw", "work", "steps.txt"] ["raw", "work"] _ w₁ _ _ :=
      swap_atomic (by decide) (by decide) (by decide) (fun l => List.Perm.refl l) w₁
    exact hswap.of_node hnode hfault

/-- A generation is live, the next one is staged, and every call succeeds. -/
def twoGenerations : Disk where
  node
    | .live _ => some (.file [1])
    | .staged _ => some (.file [2])
    | .old _ => none
  fault _ := .none
  ticks := 0

/-- A commit deletes what it replaced. -/
theorem not_kept_on_commit :
    ¬ ∀ (w : Disk) (name : String) (node : Node), w.node (.live name) = some node →
      (replaceStepArtifacts w).2.node (.live name) = some node ∨
        (replaceStepArtifacts w).2.node (.old name) = some node := by
  intro h
  have hlive : (replaceStepArtifacts twoGenerations).2.node (.live "work") = some (.file [2]) := rfl
  have hold : (replaceStepArtifacts twoGenerations).2.node (.old "work") = none := rfl
  have hkept := h twoGenerations "work" (.file [1]) rfl
  rw [hlive, hold] at hkept
  simp at hkept

end Resonantia.Web.ArtifactSwap
