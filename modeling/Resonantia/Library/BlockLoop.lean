import Mathlib.Data.List.Basic
import Mathlib.Data.Nat.Notation
import Resonantia.Library.Slice

/-!
# Loops over the blocks of a sequence

A program that works on a long sequence in bounded memory walks over it in blocks: it starts at an
offset, takes `min size (total - offset)` elements at a time, and passes a state from block to
block. A step may fail, and the loop then stops. `overBlocks` is that loop. Its rule asks what a
block preserves; a step that only folds the elements of its block is the fold over the whole
sequence, wherever the blocks fall.

## Main definitions

* `BlockLoop.overBlocks`: the loop over the blocks of `[offset, total)`.
* `BlockLoop.Outcome`: a postcondition for the returning and the failing outcome.

## Main results

* `BlockLoop.overBlocks_outcome`: the rule of the loop.
* `BlockLoop.overBlocks_foldlM`: folding block by block is folding at once.
-/

namespace BlockLoop

open Slices

variable {σ τ α ε : Type}

/-- The loop over blocks of at most `size` elements, from `offset` to `total`. -/
def overBlocks (size total : ℕ) (step : ℕ → ℕ → σ → Except ε σ) (offset : ℕ) (s : σ) :
    Except ε σ :=
  if _h : offset < total ∧ 0 < size then
    step offset (min size (total - offset)) s >>=
      overBlocks size total step (offset + min size (total - offset))
  else .ok s
termination_by total - offset

/-- A result satisfies `Q`, or an error satisfies `E`. -/
def Outcome (Q : σ → Prop) (E : ε → Prop) : Except ε σ → Prop
  | .ok s => Q s
  | .error e => E e

theorem outcome_bind {Q : σ → Prop} {R : τ → Prop} {E : ε → Prop} {x : Except ε σ}
    {f : σ → Except ε τ} (hx : Outcome Q E x) (hf : ∀ s, Q s → Outcome R E (f s)) :
    Outcome R E (x >>= f) := by
  cases x with
  | error e => exact hx
  | ok s => exact hf s hx

theorem outcome_conseq {Q Q' : σ → Prop} {E E' : ε → Prop} {x : Except ε σ} (hx : Outcome Q E x)
    (hQ : ∀ s, Q s → Q' s) (hE : ∀ e, E e → E' e) : Outcome Q' E' x := by
  cases x with
  | error e => exact hE e hx
  | ok s => exact hQ s hx

/-- An outcome without errors is a result. -/
theorem exists_of_outcome {Q : σ → Prop} {x : Except ε σ} (hx : Outcome Q (fun _ => False) x) :
    ∃ s, x = .ok s ∧ Q s := by
  cases x with
  | error e => exact hx.elim
  | ok s => exact ⟨s, rfl, hx⟩

variable {size total : ℕ}

/-- The rule of the loop: what every block preserves holds at the end. -/
theorem overBlocks_outcome (Inv : ℕ → σ → Prop) {E : ε → Prop}
    {step : ℕ → ℕ → σ → Except ε σ} (hsize : 0 < size)
    (hstep : ∀ offset count s, 0 < count → count ≤ size → offset + count ≤ total →
      Inv offset s → Outcome (Inv (offset + count)) E (step offset count s))
    {offset : ℕ} {s : σ} (hoffset : offset ≤ total) (h : Inv offset s) :
    Outcome (Inv total) E (overBlocks size total step offset s) := by
  induction hd : total - offset using Nat.strongRecOn generalizing offset s with
  | ind d ih =>
    rw [overBlocks]
    by_cases hmore : offset < total ∧ 0 < size
    · rw [dif_pos hmore]
      refine outcome_bind (hstep offset _ s (by omega) (Nat.min_le_left _ _) (by omega) h) ?_
      intro t ht
      exact ih _ (by omega) (by omega) ht rfl
    · obtain rfl : offset = total := by omega
      rw [dif_neg hmore]
      exact h

/-- The loop depends on the steps that it makes only. -/
theorem overBlocks_congr {step step' : ℕ → ℕ → σ → Except ε σ}
    (h : ∀ offset count s, offset + count ≤ total →
      step offset count s = step' offset count s) (offset : ℕ) (s : σ) :
    overBlocks size total step offset s = overBlocks size total step' offset s := by
  induction hd : total - offset using Nat.strongRecOn generalizing offset s with
  | ind d ih =>
    rw [overBlocks, overBlocks]
    by_cases hmore : offset < total ∧ 0 < size
    · rw [dif_pos hmore, dif_pos hmore, h _ _ _ (by omega)]
      exact congrArg (step' offset _ s >>= ·) (funext fun t => ih _ (by omega) _ t rfl)
    · rw [dif_neg hmore, dif_neg hmore]

/-- Folding the elements of every block, with their positions, is folding the rest of the
sequence. -/
theorem overBlocks_foldlM {l : List α} {f : σ → α × ℕ → Except ε σ} (hsize : 0 < size)
    {offset : ℕ} (s : σ) :
    overBlocks size l.length
        (fun offset count s => ((slice l offset (offset + count)).zipIdx offset).foldlM f s)
        offset s =
      ((l.drop offset).zipIdx offset).foldlM f s := by
  induction hd : l.length - offset using Nat.strongRecOn generalizing offset s with
  | ind d ih =>
    rw [overBlocks]
    by_cases hmore : offset < l.length ∧ 0 < size
    · have hcount : offset + min size (l.length - offset) ≤ l.length := by omega
      have hsplit : l.drop offset =
          slice l offset (offset + min size (l.length - offset)) ++
            l.drop (offset + min size (l.length - offset)) := by
        rw [slice, Nat.add_sub_cancel_left, ← List.drop_drop, List.take_append_drop]
      rw [dif_pos hmore]
      conv_rhs => rw [hsplit, List.zipIdx_append, length_slice hcount, Nat.add_sub_cancel_left,
        List.foldlM_append]
      exact congrArg (_ >>= ·) (funext fun t => ih _ (by omega) t rfl)
    · rw [dif_neg hmore, List.drop_eq_nil_of_le (by omega)]
      rfl

end BlockLoop
