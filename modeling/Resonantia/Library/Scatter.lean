import Mathlib.Algebra.BigOperators.Group.Finset.Basic
import Mathlib.Algebra.BigOperators.Group.List.Basic

/-!
# Scattered writes and additions

A loop, or the threads of a kernel, go over indices; each one writes to an element of an array, or
adds to it. Writes to different elements, and additions anyway, leave the same array in every order.

## Main definitions

* `Scatter.scatter`: every index writes its value.
* `Scatter.scatterAdd`: every index adds its value.
* `Scatter.Schedule`: the order in which the threads of a kernel run.

## Main results

* `Scatter.getElem?_scatter`: an element that one index writes.
* `Scatter.getD_scatterAdd`: an element is the sum of what was added to it.
* `Scatter.scatterAdd_perm`: the order of the additions does not matter.
-/

namespace Scatter

variable {ι M : Type*}

/-- Every index writes its value to its element. -/
def scatter (indices : List ι) (element : ι → ℕ) (value : ι → M) (l : List M) : List M :=
  indices.foldl (fun l i => l.set (element i) (value i)) l

/-- Every index adds its value to its element. -/
def scatterAdd [Add M] (indices : List ι) (element : ι → ℕ) (value : ι → M) (l : List M) : List M :=
  indices.foldl (fun l i => l.modify (element i) (· + value i)) l

/-! ### Elements -/

/-- An element of an array that is given by its indices. -/
theorem getD_map_range (f : ℕ → M) {n p : ℕ} (hp : p < n) (d : M) :
    ((List.range n).map f).getD p d = f p := by
  rw [List.getD_eq_getElem?_getD, List.getElem?_map, List.getElem?_range hp]
  rfl

/-- An array by its elements. -/
theorem map_getD_range {l : List M} {n : ℕ} (h : l.length = n) (d : M) :
    ((List.range n).map fun i => l.getD i d) = l := by
  refine List.ext_getElem? fun i => ?_
  by_cases hi : i < l.length
  · rw [List.getElem?_map, List.getElem?_range (h ▸ hi), Option.map_some,
      List.getD_eq_getElem?_getD, List.getElem?_eq_getElem hi, Option.getD_some]
  · rw [List.getElem?_eq_none (by rw [List.length_map, List.length_range]; omega),
      List.getElem?_eq_none (not_lt.1 hi)]

theorem getElem?_eq_of_getD {l m : List M} {i j : ℕ} {d : M} (hi : i < l.length)
    (hj : j < m.length) (h : l.getD i d = m.getD j d) : l[i]? = m[j]? := by
  rw [List.getD_eq_getElem?_getD, List.getD_eq_getElem?_getD, List.getElem?_eq_getElem hi,
    List.getElem?_eq_getElem hj, Option.getD_some, Option.getD_some] at h
  rw [List.getElem?_eq_getElem hi, List.getElem?_eq_getElem hj, h]

/-! ### Writes -/

theorem length_scatter (indices : List ι) (element : ι → ℕ) (value : ι → M) (l : List M) :
    (scatter indices element value l).length = l.length := by
  induction indices generalizing l with
  | nil => rfl
  | cons i indices ih => exact (ih _).trans List.length_set

theorem getElem?_scatter_of_notMem {indices : List ι} {element : ι → ℕ} {p : ℕ}
    (h : ∀ i ∈ indices, element i ≠ p) (value : ι → M) (l : List M) :
    (scatter indices element value l)[p]? = l[p]? := by
  induction indices generalizing l with
  | nil => rfl
  | cons i indices ih =>
    have hrest := ih (fun j hj => h j (List.mem_cons_of_mem _ hj)) (l.set (element i) (value i))
    exact hrest.trans (List.getElem?_set_ne (h i List.mem_cons_self))

/-- An element that one index writes holds the value of that index. -/
theorem getElem?_scatter {indices : List ι} {element : ι → ℕ} {i : ι} (hi : i ∈ indices)
    (hother : ∀ j ∈ indices, element j = element i → j = i) (value : ι → M) {l : List M}
    (hlength : element i < l.length) :
    (scatter indices element value l)[element i]? = some (value i) := by
  induction indices generalizing l with
  | nil => exact absurd hi List.not_mem_nil
  | cons j indices ih =>
    by_cases hmem : i ∈ indices
    · exact ih hmem (fun k hk => hother k (List.mem_cons_of_mem _ hk))
        (by rw [List.length_set]; exact hlength)
    · obtain rfl : i = j := (List.mem_cons.1 hi).resolve_right hmem
      have hnot (k : ι) (hk : k ∈ indices) : element k ≠ element i := by
        intro heq
        exact hmem (hother k (List.mem_cons_of_mem _ hk) heq ▸ hk)
      have hset : (l.set (element i) (value i))[element i]? = some (value i) := by
        rw [List.getElem?_set_self hlength]
      exact (getElem?_scatter_of_notMem hnot value _).trans hset

/-! ### Additions -/

theorem length_scatterAdd [Add M] (indices : List ι) (element : ι → ℕ) (value : ι → M)
    (l : List M) : (scatterAdd indices element value l).length = l.length := by
  induction indices generalizing l with
  | nil => rfl
  | cons i indices ih => exact (ih _).trans (List.length_modify _ _ _)

variable [AddCommMonoid M]

/-- An element holds what it held before and what was added to it. -/
theorem getD_scatterAdd (indices : List ι) (element : ι → ℕ) (value : ι → M) {l : List M} {p : ℕ}
    (hp : p < l.length) :
    (scatterAdd indices element value l).getD p 0 =
      l.getD p 0 + (indices.map fun i => if element i = p then value i else 0).sum := by
  induction indices generalizing l with
  | nil => exact (add_zero _).symm
  | cons i indices ih =>
    have hstep : (l.modify (element i) (· + value i)).getD p 0 =
        l.getD p 0 + if element i = p then value i else 0 := by
      rw [List.getD_eq_getElem?_getD, List.getElem?_modify, List.getD_eq_getElem?_getD,
        List.getElem?_eq_getElem hp]
      change (if element i = p then l[p] + value i else l[p]) = l[p] + _
      by_cases h : element i = p
      · rw [if_pos h, if_pos h]
      · rw [if_neg h, if_neg h, add_zero]
    have hrest := @ih (l.modify (element i) (· + value i)) (by rw [List.length_modify]; exact hp)
    rw [hstep] at hrest
    rw [List.map_cons, List.sum_cons, ← add_assoc]
    exact hrest

/-- Additions leave the same array in every order. -/
theorem scatterAdd_perm {indices indices' : List ι} (h : indices.Perm indices') (element : ι → ℕ)
    (value : ι → M) (l : List M) :
    scatterAdd indices element value l = scatterAdd indices' element value l := by
  refine List.ext_getElem? fun p => ?_
  by_cases hp : p < l.length
  · have hsum := (h.map fun i => if element i = p then value i else 0).sum_eq
    have heq := getD_scatterAdd indices element value hp
    rw [hsum, ← getD_scatterAdd indices' element value hp, List.getD_eq_getElem?_getD,
      List.getD_eq_getElem?_getD] at heq
    have hlt : p < (scatterAdd indices element value l).length := by
      rw [length_scatterAdd]
      exact hp
    have hlt' : p < (scatterAdd indices' element value l).length := by
      rw [length_scatterAdd]
      exact hp
    rw [List.getElem?_eq_getElem hlt, List.getElem?_eq_getElem hlt'] at heq ⊢
    exact congrArg some heq
  · rw [List.getElem?_eq_none (by rw [length_scatterAdd]; exact not_lt.1 hp),
      List.getElem?_eq_none (by rw [length_scatterAdd]; exact not_lt.1 hp)]

/-- The sum over a range as a sum over indices. -/
theorem sum_map_range (f : ℕ → M) (n : ℕ) :
    ((List.range n).map f).sum = ∑ i ∈ Finset.range n, f i := rfl

/-- Of the indices of an interval at most one belongs to an element. -/
theorem sum_map_range_ite (value : ℕ → M) (len start p : ℕ) :
    ((List.range len).map fun i => if start + i = p then value i else 0).sum =
      if start ≤ p ∧ p < start + len then value (p - start) else 0 := by
  rw [sum_map_range]
  by_cases h : start ≤ p ∧ p < start + len
  · rw [if_pos h, Finset.sum_eq_single (p - start)]
    · rw [if_pos (Nat.add_sub_cancel' h.1)]
    · intro i _ hi
      rw [if_neg (by omega)]
    · intro hnot
      exact absurd (Finset.mem_range.2 (by omega)) hnot
  · rw [if_neg h]
    refine Finset.sum_eq_zero fun i hi => ?_
    have hlt := Finset.mem_range.1 hi
    rw [if_neg (by omega)]

/-! ### Threads -/

/-- An order of the threads of a kernel, for every number of threads. -/
structure Schedule where
  threads : ℕ → List ℕ
  perm : ∀ n, (threads n).Perm (List.range n)

namespace Schedule

/-- The threads one after the other. -/
def inOrder : Schedule := ⟨List.range, fun _ => .refl _⟩

theorem mem_threads (order : Schedule) {n i : ℕ} : i ∈ order.threads n ↔ i < n :=
  (order.perm n).mem_iff.trans List.mem_range

omit [AddCommMonoid M] in
/-- Threads that write to different elements. -/
theorem getD_scatter (order : Schedule) {n i : ℕ} {element : ℕ → ℕ} {value : ℕ → M} {l : List M}
    (hi : i < n) (hother : ∀ j < n, element j = element i → j = i)
    (hlength : element i < l.length) (d : M) :
    (scatter (order.threads n) element value l).getD (element i) d = value i := by
  have hget := getElem?_scatter (order.mem_threads.2 hi)
    (fun j hj => hother j (order.mem_threads.1 hj)) value hlength
  rw [List.getD_eq_getElem?_getD, hget, Option.getD_some]

omit [AddCommMonoid M] in
/-- Threads that write to the elements of their own numbers. -/
theorem scatter_self (order : Schedule) {n : ℕ} (value : ℕ → M) {l : List M} (h : l.length = n) :
    scatter (order.threads n) (fun i => i) value l = (List.range n).map value := by
  refine List.ext_getElem? fun i => ?_
  by_cases hi : i < n
  · rw [List.getElem?_map, List.getElem?_range hi]
    have hlength : i < l.length := by
      rw [h]
      exact hi
    exact @getElem?_scatter _ _ _ (fun i => i) i (order.mem_threads.2 hi) (fun j _ heq => heq) value
      _ hlength
  · rw [List.getElem?_eq_none (by rw [length_scatter]; omega),
      List.getElem?_eq_none (by rw [List.length_map, List.length_range]; omega)]

/-- The additions of the threads to an element. -/
theorem getD_scatterAdd (order : Schedule) (n : ℕ) (element : ℕ → ℕ)
    (value : ℕ → M) {l : List M} {p : ℕ} (hp : p < l.length) :
    (scatterAdd (order.threads n) element value l).getD p 0 =
      l.getD p 0 + ∑ i ∈ Finset.range n, if element i = p then value i else 0 := by
  rw [scatterAdd_perm (order.perm n), Scatter.getD_scatterAdd _ _ _ hp, sum_map_range]

end Schedule

end Scatter
