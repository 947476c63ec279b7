import Mathlib.Algebra.Ring.Int.Defs
import Mathlib.Algebra.Ring.Nat
import Mathlib.Data.List.Basic

/-!
# Contiguous slices of a list

`slice l s e` lists the elements of `l` at the positions of the half-open interval `[s, e)`. A
program that walks over a sequence block by block appends one slice after the other; the lemmas
below join adjacent slices, restrict a slice to a smaller interval and read a slice off a
concatenation.

## Main definitions

* `Slices.slice`: the elements at the positions of `[s, e)`.

## Main results

* `Slices.getElem?_slice`: a slice position by position.
* `Slices.slice_append_slice`: adjacent slices join to the slice of the union.
* `Slices.slice_slice`: a slice of a slice.
* `Slices.slice_append_left`, `Slices.slice_append_right`: slices of a concatenation.
* `Slices.eq_slice_of_getElem?`: a list is a slice when it agrees with it at every position.
-/

namespace Slices

variable {α β : Type*}

/-- The elements of `l` at the positions of `[s, e)`. -/
def slice (l : List α) (s e : ℕ) : List α :=
  (l.drop s).take (e - s)

theorem length_slice {l : List α} {s e : ℕ} (he : e ≤ l.length) : (slice l s e).length = e - s := by
  simp only [slice, List.length_take, List.length_drop]
  omega

theorem getElem?_slice (l : List α) (s e i : ℕ) :
    (slice l s e)[i]? = if s + i < e then l[s + i]? else none := by
  rw [slice, List.getElem?_take]
  by_cases h : s + i < e
  · rw [if_pos h, if_pos (by omega), List.getElem?_drop]
  · rw [if_neg h, if_neg (by omega)]

theorem getD_slice (l : List α) (d : α) {s e i : ℕ} (h : s + i < e) :
    (slice l s e).getD i d = l.getD (s + i) d := by
  rw [List.getD_eq_getElem?_getD, getElem?_slice, if_pos h, ← List.getD_eq_getElem?_getD]

/-- A list is the slice `[s, e)` of `l` when it has the length of the slice and agrees with `l`
at every position. -/
theorem eq_slice_of_getElem? {l m : List α} {s e : ℕ} (hlen : m.length = e - s)
    (hget : ∀ i, s + i < e → m[i]? = l[s + i]?) : m = slice l s e := by
  apply List.ext_getElem?
  intro i
  rw [getElem?_slice]
  by_cases h : s + i < e
  · rw [if_pos h, hget i h]
  · rw [if_neg h, List.getElem?_eq_none (by omega)]

@[simp] theorem slice_self (l : List α) (s : ℕ) : slice l s s = [] := by
  simp [slice]

theorem slice_eq_nil_of_le (l : List α) {s e : ℕ} (h : e ≤ s) : slice l s e = [] := by
  simp [slice, Nat.sub_eq_zero_of_le h]

@[simp] theorem slice_zero_length (l : List α) : slice l 0 l.length = l := by
  simp [slice]

theorem slice_zero_of_length {l : List α} {n : ℕ} (h : l.length = n) : slice l 0 n = l := by
  subst h
  exact slice_zero_length l

/-- Adjacent slices join to the slice of the union of their intervals. -/
theorem slice_append_slice (l : List α) {s m e : ℕ} (hsm : s ≤ m) (hme : m ≤ e) :
    slice l s m ++ slice l m e = slice l s e := by
  have hsplit : l.drop m = (l.drop s).drop (m - s) := by
    rw [List.drop_drop]
    congr 1
    omega
  have hlen : e - s = (m - s) + (e - m) := by omega
  rw [slice, slice, slice, hsplit, hlen, List.take_add]

/-- A slice of a slice is the slice of the shifted interval. -/
theorem slice_slice (l : List α) (s e : ℕ) {a b : ℕ} (hb : s + b ≤ e) :
    slice (slice l s e) a b = slice l (s + a) (s + b) := by
  apply List.ext_getElem?
  intro i
  simp only [getElem?_slice]
  by_cases h : a + i < b
  · have h₁ : s + (a + i) < e := by omega
    have h₂ : s + a + i < s + b := by omega
    rw [if_pos h, if_pos h₁, if_pos h₂, Nat.add_assoc]
  · have h₂ : ¬ s + a + i < s + b := by omega
    rw [if_neg h, if_neg h₂]

theorem mem_of_mem_slice {l : List α} {s e : ℕ} {x : α} (h : x ∈ slice l s e) : x ∈ l :=
  List.mem_of_mem_drop (List.mem_of_mem_take h)

/-- A slice that ends inside the first list of a concatenation. -/
theorem slice_append_left (l m : List α) {s e : ℕ} (he : e ≤ l.length) :
    slice (l ++ m) s e = slice l s e := by
  apply List.ext_getElem?
  intro i
  simp only [getElem?_slice]
  by_cases h : s + i < e
  · rw [if_pos h, if_pos h, List.getElem?_append_left (by omega)]
  · rw [if_neg h, if_neg h]

/-- A slice that starts inside the second list of a concatenation. -/
theorem slice_append_right (l m : List α) {s e : ℕ} (hs : l.length ≤ s) :
    slice (l ++ m) s e = slice m (s - l.length) (e - l.length) := by
  apply List.ext_getElem?
  intro i
  simp only [getElem?_slice]
  by_cases h : s + i < e
  · have h' : s - l.length + i < e - l.length := by omega
    rw [if_pos h, if_pos h', List.getElem?_append_right (by omega)]
    congr 1
    omega
  · have h' : ¬ s - l.length + i < e - l.length := by omega
    rw [if_neg h, if_neg h']

/-- Reading a slice backwards, position by position. -/
theorem getElem?_reverse_slice {l : List α} {s e i : ℕ} (he : e ≤ l.length) (hi : s + i < e) :
    (slice l s e).reverse[i]? = l[e - 1 - i]? := by
  have hlen : (slice l s e).length = e - s := length_slice he
  rw [List.getElem?_reverse (by omega), getElem?_slice, hlen, if_pos (by omega)]
  congr 1
  omega

theorem map_slice (f : α → β) (l : List α) (s e : ℕ) :
    (slice l s e).map f = slice (l.map f) s e := by
  simp [slice, List.map_take, List.map_drop]

end Slices
