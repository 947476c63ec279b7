import Mathlib.Algebra.Ring.Int.Defs
import Mathlib.Algebra.Ring.Nat
import Mathlib.Data.List.Infix
import Mathlib.Data.Nat.Notation

/-!
# Searching a list for a pattern

The first occurrence of a pattern cuts a list in two. A search may also reject occurrences by what
follows them and go on after the rejected one.

## Main definitions

* `Search.splitAtFirst`: what stands before and after the first occurrence.
* `Search.splitAtWhere`: the same for the first accepted occurrence.

## Main results

* `Search.eq_append_of_splitAtFirst`, `Search.eq_append_of_splitAtWhere`: nothing is lost.
* `Search.splitAtFirst_append`, `Search.splitAtWhere_append`: a cut whose front holds no earlier
  (accepted) occurrence is found.
-/

namespace Search

variable {α : Type} [DecidableEq α] {p a b l : List α}

/-- Cut a list at the first occurrence of a pattern, which belongs to neither part. -/
def splitAtFirst (p : List α) : List α → Option (List α × List α)
  | [] => if p = [] then some ([], []) else none
  | x :: l =>
    if p <+: x :: l then some ([], (x :: l).drop p.length)
    else (splitAtFirst p l).map fun cut => (x :: cut.1, cut.2)

theorem splitAtFirst_eq_nil (h : p <+: l) : splitAtFirst p l = some ([], l.drop p.length) := by
  cases l with
  | nil =>
    obtain rfl := List.prefix_nil.1 h
    rfl
  | cons x l => rw [splitAtFirst, if_pos h]

theorem splitAtFirst_cons {x : α} (h : ¬p <+: x :: l) :
    splitAtFirst p (x :: l) = (splitAtFirst p l).map fun cut => (x :: cut.1, cut.2) := by
  rw [splitAtFirst, if_neg h]

/-- The two parts and the pattern make up the list. -/
theorem eq_append_of_splitAtFirst (h : splitAtFirst p l = some (a, b)) : l = a ++ p ++ b := by
  induction l generalizing a with
  | nil =>
    rw [splitAtFirst] at h
    split at h
    · rename_i hp
      obtain ⟨rfl, rfl⟩ := Prod.mk.inj (Option.some.inj h)
      simp [hp]
    · cases h
  | cons x l ih =>
    rw [splitAtFirst] at h
    split at h
    · rename_i hp
      obtain ⟨rfl, rfl⟩ := Prod.mk.inj (Option.some.inj h)
      simpa using (List.prefix_append_drop hp)
    · obtain ⟨⟨a', b'⟩, hcut, heq⟩ := Option.map_eq_some_iff.1 h
      obtain ⟨rfl, rfl⟩ := Prod.mk.inj heq
      simp [ih hcut]

/-- The first occurrence is found. -/
theorem splitAtFirst_append (h : ∀ i < a.length, ¬p <+: (a ++ p ++ b).drop i) :
    splitAtFirst p (a ++ p ++ b) = some (a, b) := by
  induction a with
  | nil =>
    rw [List.nil_append, splitAtFirst_eq_nil (List.prefix_append p b), List.drop_left]
  | cons x a ih =>
    have hx : ¬p <+: x :: (a ++ p ++ b) := h 0 (by simp)
    have htail : splitAtFirst p (a ++ p ++ b) = some (a, b) :=
      ih fun i hi => h (i + 1) (by simpa using hi)
    rw [List.cons_append, List.cons_append, splitAtFirst_cons hx, htail, Option.map_some]

/-- A cut stands at the first occurrence. -/
theorem not_prefix_of_splitAtFirst (h : splitAtFirst p l = some (a, b)) {i : ℕ}
    (hi : i < a.length) : ¬p <+: l.drop i := by
  induction l generalizing a i with
  | nil =>
    rw [splitAtFirst] at h
    split at h
    · obtain ⟨rfl, rfl⟩ := Prod.mk.inj (Option.some.inj h)
      simp at hi
    · cases h
  | cons x l ih =>
    rw [splitAtFirst] at h
    split at h
    · obtain ⟨rfl, rfl⟩ := Prod.mk.inj (Option.some.inj h)
      simp at hi
    · rename_i hp
      obtain ⟨⟨a', b'⟩, hcut, heq⟩ := Option.map_eq_some_iff.1 h
      obtain ⟨rfl, rfl⟩ := Prod.mk.inj heq
      cases i with
      | zero => exact hp
      | succ i => exact ih hcut (by simpa using hi)

/-- A pattern is found at the first occurrence of its first element. -/
theorem splitAtFirst_append_of_not_mem {x : α} (h : x ∉ a) :
    splitAtFirst (x :: p) (a ++ x :: p ++ b) = some (a, b) := by
  refine splitAtFirst_append fun i hi hprefix => h ?_
  obtain ⟨rest, hrest⟩ := hprefix
  rw [List.append_assoc, List.drop_append_of_le_length hi.le, List.cons_append] at hrest
  rw [← List.getElem_cons_drop hi, List.cons_append] at hrest
  rw [(List.cons.inj hrest).1]
  exact List.getElem_mem hi

/-- A list without the first element of a pattern is not cut. -/
theorem splitAtFirst_eq_none_of_not_mem {x : α} (h : x ∉ l) : splitAtFirst (x :: p) l = none := by
  rw [Option.eq_none_iff_forall_ne_some]
  rintro ⟨a, b⟩ hcut
  exact h (by rw [eq_append_of_splitAtFirst hcut]; simp)

/-- A list that holds the pattern is cut. -/
theorem splitAtFirst_isSome (h : p <:+: l) : (splitAtFirst p l).isSome := by
  induction l with
  | nil =>
    obtain rfl := List.infix_nil.1 h
    rfl
  | cons x l ih =>
    by_cases hp : p <+: x :: l
    · rw [splitAtFirst_eq_nil hp]
      rfl
    · rw [splitAtFirst_cons hp, Option.isSome_map]
      exact ih ((List.infix_cons_iff.1 h).resolve_left hp)

theorem length_lt_of_splitAtFirst (hp : p ≠ []) (h : splitAtFirst p l = some (a, b)) :
    b.length < l.length := by
  have hpos : 0 < p.length := List.length_pos_of_ne_nil hp
  rw [eq_append_of_splitAtFirst h]
  simp only [List.length_append]
  omega

/-- Cut a list at the first occurrence of a nonempty pattern whose sequel is accepted; after a
rejected occurrence the search goes on behind it. -/
def splitAtWhere (p : List α) (hp : p ≠ []) (accept : List α → Bool) (l : List α) :
    Option (List α × List α) :=
  match _hcut : splitAtFirst p l with
  | none => none
  | some (a, b) =>
    if accept b then some (a, b)
    else (splitAtWhere p hp accept b).map fun cut => (a ++ p ++ cut.1, cut.2)
termination_by l.length
decreasing_by exact length_lt_of_splitAtFirst hp _hcut

variable {hp : p ≠ []} {accept : List α → Bool}

theorem splitAtWhere_eq_of_cut (hcut : splitAtFirst p l = some (a, b)) :
    splitAtWhere p hp accept l =
      if accept b then some (a, b)
      else (splitAtWhere p hp accept b).map fun cut => (a ++ p ++ cut.1, cut.2) := by
  rw [splitAtWhere]
  split
  · rename_i hnone
    rw [hcut] at hnone
    cases hnone
  · rename_i a' b' hsome
    rw [hcut] at hsome
    obtain ⟨rfl, rfl⟩ := Prod.mk.inj (Option.some.inj hsome)
    rfl

/-- The two parts and the pattern make up the list, and the sequel is accepted. -/
theorem eq_append_of_splitAtWhere (h : splitAtWhere p hp accept l = some (a, b)) :
    l = a ++ p ++ b ∧ accept b = true := by
  induction hlen : l.length using Nat.strong_induction_on generalizing l a with
  | _ n ih =>
    cases hcut : splitAtFirst p l with
    | none =>
      rw [splitAtWhere] at h
      split at h
      · cases h
      · rename_i hsome
        rw [hcut] at hsome
        cases hsome
    | some cut =>
      obtain ⟨a₁, b₁⟩ := cut
      have happend := eq_append_of_splitAtFirst hcut
      rw [splitAtWhere_eq_of_cut hcut] at h
      split at h
      · rename_i haccept
        obtain ⟨rfl, rfl⟩ := Prod.mk.inj (Option.some.inj h)
        exact ⟨happend, haccept⟩
      · obtain ⟨⟨a₂, b₂⟩, hrec, heq⟩ := Option.map_eq_some_iff.1 h
        obtain ⟨rfl, rfl⟩ := Prod.mk.inj heq
        obtain ⟨hb, haccept⟩ := ih b₁.length
          (hlen ▸ length_lt_of_splitAtFirst hp hcut) hrec rfl
        exact ⟨by rw [happend, hb]; simp, haccept⟩

/-- **The first accepted occurrence is found**, if no earlier one is accepted and no earlier one
reaches into it. -/
theorem splitAtWhere_append (haccept : accept b = true)
    (hearlier : ∀ i < a.length, p <+: (a ++ p ++ b).drop i →
      i + p.length ≤ a.length ∧ accept ((a ++ p ++ b).drop (i + p.length)) = false) :
    splitAtWhere p hp accept (a ++ p ++ b) = some (a, b) := by
  induction hlen : a.length using Nat.strong_induction_on generalizing a with
  | _ n ih =>
    obtain ⟨⟨a₁, b₁⟩, hcut⟩ := Option.isSome_iff_exists.1
      (splitAtFirst_isSome (show p <:+: a ++ p ++ b from ⟨a, b, rfl⟩))
    have happend := eq_append_of_splitAtFirst hcut
    have hle : a₁.length ≤ a.length := by
      by_contra hlt
      refine not_prefix_of_splitAtFirst hcut (Nat.lt_of_not_le hlt) ?_
      rw [List.append_assoc, List.drop_left]
      exact List.prefix_append p b
    rcases hle.eq_or_lt with heq | hlt
    · -- The first occurrence is the cut itself.
      rw [List.append_assoc, List.append_assoc] at happend
      obtain ⟨rfl, htail⟩ := List.append_inj happend heq.symm
      obtain rfl := List.append_cancel_left htail
      rw [splitAtWhere_eq_of_cut hcut, if_pos haccept]
    · -- An earlier occurrence is rejected, and the search goes on behind it.
      have hprefix : p <+: (a ++ p ++ b).drop a₁.length := by
        rw [happend, List.append_assoc, List.drop_left]
        exact List.prefix_append p b₁
      obtain ⟨hfit, hreject⟩ := hearlier a₁.length hlt hprefix
      have hdrop : (a ++ p ++ b).drop (a₁.length + p.length) = b₁ := by
        rw [happend, ← List.length_append, List.drop_left]
      rw [hdrop] at hreject
      obtain ⟨a₂, rfl⟩ : ∃ a₂, a = a₁ ++ p ++ a₂ := by
        have htake : a.take (a₁.length + p.length) = a₁ ++ p := by
          have htake := congrArg (List.take (a₁.length + p.length)) happend
          rw [List.append_assoc, List.take_append_of_le_length hfit] at htake
          rw [htake, ← List.length_append, List.take_left]
        exact ⟨a.drop (a₁.length + p.length), by rw [← htake, List.take_append_drop]⟩
      have hb₁ : b₁ = a₂ ++ p ++ b := by
        rw [← hdrop, ← List.length_append, List.append_assoc (a₁ ++ p), List.append_assoc (a₁ ++ p),
          List.drop_left, List.append_assoc]
      have hrec : splitAtWhere p hp accept b₁ = some (a₂, b) := by
        rw [hb₁]
        refine ih a₂.length ?_ (fun i hi hprefix => ?_) rfl
        · have hpos : 0 < p.length := List.length_pos_of_ne_nil hp
          simp only [List.length_append] at hlen
          omega
        · have hshift : ∀ j, (a₁ ++ p ++ a₂ ++ p ++ b).drop (a₁.length + p.length + j) =
              (a₂ ++ p ++ b).drop j := by
            intro j
            rw [← List.drop_drop, hdrop, hb₁]
          obtain ⟨hfit, hreject⟩ := hearlier (a₁.length + p.length + i)
            (by simp only [List.length_append]; omega) (by rwa [hshift])
          rw [Nat.add_assoc _ i, hshift] at hreject
          simp only [List.length_append] at hfit
          exact ⟨by omega, hreject⟩
      rw [splitAtWhere_eq_of_cut hcut, hreject, if_neg Bool.false_ne_true, hrec, Option.map_some]

end Search
