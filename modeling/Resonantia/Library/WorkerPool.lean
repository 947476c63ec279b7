import Mathlib.Algebra.BigOperators.Group.Finset.Basic
import Mathlib.Algebra.Order.BigOperators.Group.Finset
import Mathlib.Data.List.GetD
import Mathlib.Logic.Relation
import Mathlib.Tactic.Ring
import Resonantia.Library.Slice

/-!
# Workers that share a table

A table has a row for every task. Workers take the tasks in strides and write the cells of their
rows one by one, in any order among each other. A worker that cannot start sets a flag; the others
take no further task when they see it.

## Main definitions

* `WorkerPool.Job`: tasks, width of a row, count of the workers, and what belongs into a cell.
* `WorkerPool.Step`, `WorkerPool.Run`: one step of any worker, and sequences of steps.

## Main results

* `WorkerPool.Invariant.step`: one step keeps what the workers have written.
* `WorkerPool.slice_table`: the row of a task.
* `WorkerPool.cells_of_run`: without a failure the table is complete, whatever the order.
* `WorkerPool.acc_step`, `WorkerPool.exists_finished`: every sequence of steps comes to an end.
-/

namespace WorkerPool

variable {V : Type}

/-- What the workers have to do. -/
structure Job (V : Type) where
  tasks : ℕ
  width : ℕ
  workers : ℕ
  value : ℕ → ℕ → V
  workers_pos : 0 < workers

/-- Where a worker is: before its task `i`, or in it before the cell `j`. -/
inductive Phase
  | starting
  | next (i : ℕ)
  | writing (i j : ℕ)
  | finished

structure State (V : Type) where
  cells : List V
  failed : Bool
  phases : ℕ → Phase

variable {job : Job V} {s t : State V} {w : ℕ}

/-- Another phase of one worker. -/
def State.enter (s : State V) (w : ℕ) (phase : Phase) : State V :=
  { s with phases := Function.update s.phases w phase }

/-- One step of a worker. -/
inductive Step (job : Job V) (s : State V) : State V → Prop
  | start (w : ℕ) (hw : w < job.workers) (h : s.phases w = .starting) :
      Step job s (s.enter w (.next w))
  | fail (w : ℕ) (hw : w < job.workers) (h : s.phases w = .starting) :
      Step job s ({ s with failed := true }.enter w .finished)
  | take (w i : ℕ) (hw : w < job.workers) (h : s.phases w = .next i) (hi : i < job.tasks)
      (hfailed : s.failed = false) : Step job s (s.enter w (.writing i 0))
  | stop (w i : ℕ) (hw : w < job.workers) (h : s.phases w = .next i)
      (hi : ¬(i < job.tasks ∧ s.failed = false)) : Step job s (s.enter w .finished)
  | write (w i j : ℕ) (hw : w < job.workers) (h : s.phases w = .writing i j) (hj : j < job.width) :
      Step job s ({ s with cells := s.cells.set (i * job.width + j) (job.value i j) }.enter w
        (.writing i (j + 1)))
  | advance (w i j : ℕ) (hw : w < job.workers) (h : s.phases w = .writing i j)
      (hj : ¬j < job.width) : Step job s (s.enter w (.next (i + job.workers)))

/-- Sequences of steps. -/
def Run (job : Job V) : State V → State V → Prop := Relation.ReflTransGen (Step job)

/-- Every worker has returned. -/
def Finished (job : Job V) (s : State V) : Prop := ∀ w < job.workers, s.phases w = .finished

/-- A table of any values before the workers start. -/
def initial (cells : List V) : State V where
  cells
  failed := false
  phases _ := .starting

/-- The complete table. -/
def table (job : Job V) : List V :=
  (List.range (job.tasks * job.width)).map fun p => job.value (p / job.width) (p % job.width)

/-! ### What is written stays -/

/-- The first cells of a row are as they belong. -/
def Written (job : Job V) (cells : List V) (i n : ℕ) : Prop :=
  ∀ j < n, j < job.width → cells[i * job.width + j]? = some (job.value i j)

theorem Written.set {cells : List V} {i n i' j' : ℕ} (h : Written job cells i n)
    (hj' : j' < job.width) :
    Written job (cells.set (i' * job.width + j') (job.value i' j')) i n := by
  intro j hj hwidth
  rw [List.getElem?_set]
  split_ifs with heq hlt
  · have hpos : 0 < job.width := by omega
    have hrow : i' = i := by
      have hdiv := congrArg (· / job.width) heq
      simpa [Nat.add_mul_div_right, Nat.mul_comm _ job.width, Nat.mul_add_div hpos,
        Nat.div_eq_of_lt hj', Nat.div_eq_of_lt hwidth] using hdiv
    subst hrow
    have hcolumn : j' = j := by omega
    rw [hcolumn]
  · have hold := h j hj hwidth
    rw [List.getElem?_eq_none (by omega)] at hold
    cases hold
  · exact h j hj hwidth

/-- The rows of a worker before a task. -/
def Behind (job : Job V) (cells : List V) (w i : ℕ) : Prop :=
  ∀ i' < i, i' < job.tasks → i' % job.workers = w → Written job cells i' job.width

theorem Behind.set {cells : List V} {i i' j' : ℕ} (h : Behind job cells w i)
    (hj' : j' < job.width) :
    Behind job (cells.set (i' * job.width + j') (job.value i' j')) w i :=
  fun i'' hlt htask hmod => (h i'' hlt htask hmod).set hj'

/-- The phase of a worker says what it has written. -/
def Progress (job : Job V) (s : State V) (w : ℕ) : Phase → Prop
  | .starting => True
  | .next i => i % job.workers = w ∧ Behind job s.cells w i
  | .writing i j =>
    i % job.workers = w ∧ i < job.tasks ∧ Behind job s.cells w i ∧ Written job s.cells i j
  | .finished => s.failed = true ∨ Behind job s.cells w job.tasks

/-- What every step keeps. -/
structure Invariant (job : Job V) (s : State V) : Prop where
  length : s.cells.length = job.tasks * job.width
  progress : ∀ w < job.workers, Progress job s w (s.phases w)

/-- Progress is not lost when more is written or the flag is set. -/
theorem Progress.mono {phase : Phase} (h : Progress job s w phase)
    (hcells : ∀ i n, Written job s.cells i n → Written job t.cells i n)
    (hfailed : s.failed = true → t.failed = true) : Progress job t w phase := by
  cases phase with
  | starting => trivial
  | next i => exact ⟨h.1, fun i' hlt htask hmod => hcells i' _ (h.2 i' hlt htask hmod)⟩
  | writing i j =>
    obtain ⟨hmod, hi, hbehind, hwritten⟩ := h
    exact ⟨hmod, hi, fun i' hlt htask hmod' => hcells i' _ (hbehind i' hlt htask hmod'),
      hcells i j hwritten⟩
  | finished =>
    rcases h with hfail | hbehind
    · exact Or.inl (hfailed hfail)
    · exact Or.inr fun i' hlt htask hmod => hcells i' _ (hbehind i' hlt htask hmod)

/-- A step of one worker keeps the progress of the others. -/
theorem Invariant.enter (h : Invariant job s) {phase : Phase}
    (hlength : t.cells.length = s.cells.length) (hphases : t.phases = s.phases)
    (hcells : ∀ i n, Written job s.cells i n → Written job t.cells i n)
    (hfailed : s.failed = true → t.failed = true) (hphase : Progress job t w phase) :
    Invariant job (t.enter w phase) := by
  refine ⟨hlength.trans h.length, fun w' hw' => ?_⟩
  rw [State.enter, hphases]
  dsimp only
  by_cases hsame : w' = w
  · rw [hsame, Function.update_self]
    exact Progress.mono hphase (fun _ _ hwritten => hwritten) id
  · rw [Function.update_of_ne hsame]
    exact Progress.mono (h.progress w' hw') hcells hfailed

theorem invariant_initial {cells : List V} (h : cells.length = job.tasks * job.width) :
    Invariant job (initial cells) := ⟨h, fun _ _ => trivial⟩

/-- **One step** of any worker. -/
theorem Invariant.step (h : Invariant job s) (hstep : Step job s t) : Invariant job t := by
  have hkeep : ∀ i n, Written job s.cells i n → Written job s.cells i n := fun _ _ hw => hw
  cases hstep with
  | start w hw hphase =>
    refine h.enter rfl rfl hkeep id ⟨Nat.mod_eq_of_lt hw, fun i hlt _ hmod => ?_⟩
    rw [Nat.mod_eq_of_lt (hlt.trans hw)] at hmod
    omega
  | fail w hw hphase => exact h.enter rfl rfl hkeep (fun _ => rfl) (Or.inl rfl)
  | take w i hw hphase hi hfailed =>
    have hprogress := h.progress w hw
    rw [hphase] at hprogress
    obtain ⟨hmod, hbehind⟩ := hprogress
    exact h.enter rfl rfl hkeep id ⟨hmod, hi, hbehind, fun j hj => absurd hj (Nat.not_lt_zero j)⟩
  | stop w i hw hphase hi =>
    have hprogress := h.progress w hw
    rw [hphase] at hprogress
    refine h.enter rfl rfl hkeep id ?_
    by_cases hfailed : s.failed = true
    · exact Or.inl hfailed
    · have hall : ¬i < job.tasks := fun hlt => hi ⟨hlt, Bool.not_eq_true _ ▸ hfailed⟩
      exact Or.inr fun i' hlt htask hmod => hprogress.2 i' (by omega) htask hmod
  | write w i j hw hphase hj =>
    have hprogress := h.progress w hw
    rw [hphase] at hprogress
    obtain ⟨hmod, hi, hbehind, hwritten⟩ := hprogress
    refine h.enter (List.length_set) rfl (fun _ _ hold => hold.set hj) id
      ⟨hmod, hi, hbehind.set hj, fun j' hj' hwidth => ?_⟩
    rcases Nat.lt_succ_iff_lt_or_eq.1 hj' with hlt | rfl
    · exact hwritten.set hj j' hlt hwidth
    · have hcell : i * job.width + j' < s.cells.length := by
        have hrow : (i + 1) * job.width ≤ job.tasks * job.width := Nat.mul_le_mul_right _ hi
        rw [h.length]
        rw [Nat.add_mul, Nat.one_mul] at hrow
        omega
      rw [List.getElem?_set_self hcell]
  | advance w i j hw hphase hj =>
    have hprogress := h.progress w hw
    rw [hphase] at hprogress
    obtain ⟨hmod, hi, hbehind, hwritten⟩ := hprogress
    refine h.enter rfl rfl hkeep id ⟨by rw [Nat.add_mod_right, hmod], ?_⟩
    intro i' hlt htask hmod'
    rcases Nat.lt_trichotomy i' i with hless | rfl | hmore
    · exact hbehind i' hless htask hmod'
    · exact fun j' hj' => hwritten j' (by omega)
    · -- no task of this worker lies between two of its strides
      have hdiff : (i' - i) % job.workers = 0 :=
        Nat.sub_mod_eq_zero_of_mod_eq (hmod'.trans hmod.symm)
      rw [Nat.mod_eq_of_lt (by omega)] at hdiff
      omega

theorem Invariant.run (h : Invariant job s) (hrun : Run job s t) : Invariant job t := by
  induction hrun with
  | refl => exact h
  | tail _ hstep ih => exact ih.step hstep

/-- **The complete table.** When all workers have returned and none failed, every cell has what
belongs there, whatever the count of the workers and the order of their steps. -/
theorem cells_of_run {cells : List V} (hlength : cells.length = job.tasks * job.width)
    (hrun : Run job (initial cells) s) (hfinished : Finished job s) (hfailed : s.failed = false) :
    s.cells = table job := by
  have hinvariant := (invariant_initial hlength).run hrun
  refine List.ext_getElem? fun p => ?_
  by_cases hp : p < job.tasks * job.width
  · have hpos : 0 < job.width := Nat.pos_of_mul_pos_left (Nat.zero_lt_of_lt hp)
    have hrow : p / job.width < job.tasks := by
      rw [Nat.div_lt_iff_lt_mul hpos]
      exact hp
    have hcolumn : p % job.width < job.width := Nat.mod_lt _ hpos
    have hworker := Nat.mod_lt (p / job.width) job.workers_pos
    have hprogress := hinvariant.progress _ hworker
    rw [hfinished _ hworker] at hprogress
    rcases hprogress with hfail | hbehind
    · rw [hfailed] at hfail
      cases hfail
    have hcell := hbehind _ hrow hrow rfl _ hcolumn hcolumn
    rw [Nat.mul_comm, Nat.div_add_mod] at hcell
    rw [hcell, table, List.getElem?_map, List.getElem?_range hp]
    rfl
  · rw [List.getElem?_eq_none (by rw [hinvariant.length]; omega), table,
      List.getElem?_eq_none (by rw [List.length_map, List.length_range]; omega)]

/-- The row of a task. -/
theorem slice_table {i : ℕ} (hi : i < job.tasks) :
    Slices.slice (table job) (i * job.width) ((i + 1) * job.width) =
      (List.range job.width).map (job.value i) := by
  have hend : (i + 1) * job.width = i * job.width + job.width := by
    rw [Nat.add_mul, Nat.one_mul]
  symm
  refine Slices.eq_slice_of_getElem? ?_ fun j hj => ?_
  · rw [List.length_map, List.length_range, hend, Nat.add_sub_cancel_left]
  · rw [hend] at hj
    have hwidth : j < job.width := by omega
    have hpos : 0 < job.width := by omega
    have hcell : i * job.width + j < job.tasks * job.width := by
      have hrow : (i + 1) * job.width ≤ job.tasks * job.width := Nat.mul_le_mul_right _ hi
      omega
    have hdiv : (i * job.width + j) / job.width = i := by
      rw [Nat.mul_comm, Nat.mul_add_div hpos, Nat.div_eq_of_lt hwidth, Nat.add_zero]
    have hmod : (i * job.width + j) % job.width = j := by
      rw [Nat.mul_comm, Nat.mul_add_mod, Nat.mod_eq_of_lt hwidth]
    rw [table, List.getElem?_map, List.getElem?_map, List.getElem?_range hwidth,
      List.getElem?_range hcell, Option.map_some, Option.map_some, hdiv, hmod]

/-! ### Every sequence of steps ends -/

/-- The steps that a worker may still take. -/
def remaining (job : Job V) : Phase → ℕ
  | .starting => job.tasks * (job.width + 2) + 2
  | .next i => (job.tasks - i) * (job.width + 2) + 1
  | .writing i j => (job.tasks - i - 1) * (job.width + 2) + 2 + (job.width - j)
  | .finished => 0

/-- The steps that all workers may still take. -/
def potential (job : Job V) (s : State V) : ℕ :=
  ∑ w ∈ Finset.range job.workers, remaining job (s.phases w)

theorem potential_enter_lt {phase : Phase} (hw : w < job.workers) (hphases : t.phases = s.phases)
    (h : remaining job phase < remaining job (s.phases w)) :
    potential job (t.enter w phase) < potential job s := by
  refine Finset.sum_lt_sum (fun w' _ => ?_) ⟨w, Finset.mem_range.2 hw, ?_⟩
  · rw [State.enter, hphases]
    dsimp only
    by_cases hsame : w' = w
    · rw [hsame, Function.update_self]
      exact h.le
    · rw [Function.update_of_ne hsame]
  · rw [State.enter]
    dsimp only
    rw [Function.update_self]
    exact h

/-- Every step brings the end closer. -/
theorem Step.potential_lt (h : Step job s t) : potential job t < potential job s := by
  cases h with
  | start w hw hphase =>
    refine potential_enter_lt hw rfl ?_
    have hle : (job.tasks - w) * (job.width + 2) ≤ job.tasks * (job.width + 2) :=
      Nat.mul_le_mul_right _ (Nat.sub_le _ _)
    rw [hphase, remaining, remaining]
    omega
  | fail w hw hphase =>
    refine potential_enter_lt hw rfl ?_
    rw [hphase, remaining, remaining]
    omega
  | take w i hw hphase hi hfailed =>
    refine potential_enter_lt hw rfl ?_
    have hrow : job.tasks - i = job.tasks - i - 1 + 1 := by omega
    rw [hphase, remaining, remaining, hrow, Nat.add_mul, Nat.one_mul, Nat.add_sub_cancel]
    omega
  | stop w i hw hphase hi =>
    refine potential_enter_lt hw rfl ?_
    rw [hphase, remaining, remaining]
    omega
  | write w i j hw hphase hj =>
    refine potential_enter_lt hw rfl ?_
    rw [hphase, remaining, remaining]
    omega
  | advance w i j hw hphase hj =>
    refine potential_enter_lt hw rfl ?_
    have hpos := job.workers_pos
    have hle : (job.tasks - (i + job.workers)) * (job.width + 2) ≤
        (job.tasks - i - 1) * (job.width + 2) := Nat.mul_le_mul_right _ (by omega)
    rw [hphase, remaining, remaining]
    omega

/-- No sequence of steps goes on for ever. -/
theorem acc_step (s : State V) : Acc (fun t s => Step job s t) s :=
  Subrelation.accessible (fun h => Step.potential_lt h) (InvImage.accessible (potential job)
    (Nat.lt_wfRel.wf.apply _))

/-- A worker that has not returned can take a step that does not fail. -/
theorem exists_step (h : ¬Finished job s) : ∃ t, Step job s t ∧ t.failed = s.failed := by
  rw [Finished, not_forall] at h
  obtain ⟨w, h⟩ := h
  rw [Classical.not_imp] at h
  obtain ⟨hw, hphase⟩ := h
  cases hcase : s.phases w with
  | starting => exact ⟨_, .start w hw hcase, rfl⟩
  | next i =>
    by_cases hi : i < job.tasks ∧ s.failed = false
    · exact ⟨_, .take w i hw hcase hi.1 hi.2, rfl⟩
    · exact ⟨_, .stop w i hw hcase hi, rfl⟩
  | writing i j =>
    by_cases hj : j < job.width
    · exact ⟨_, .write w i j hw hcase hj, rfl⟩
    · exact ⟨_, .advance w i j hw hcase hj, rfl⟩
  | finished => exact absurd hcase hphase

/-- The workers can return without a failure. -/
theorem exists_finished (s : State V) :
    ∃ t, Run job s t ∧ Finished job t ∧ t.failed = s.failed := by
  have hacc : Acc (fun t s => Step job s t) s := acc_step s
  induction hacc with
  | intro s _ ih =>
    by_cases hfinished : Finished job s
    · exact ⟨s, .refl, hfinished, rfl⟩
    obtain ⟨t, hstep, hfailed⟩ := exists_step hfinished
    obtain ⟨u, hrun, hfinished', hfailed'⟩ := ih t hstep
    exact ⟨u, .head hstep hrun, hfinished', hfailed'.trans hfailed⟩

end WorkerPool
