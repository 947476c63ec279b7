import Mathlib.Logic.Relation
import Resonantia.Library.Triple

/-!
# Steps, runs and what they keep

A system takes labelled steps. `Reach Step ok s t` says that steps whose labels satisfy `ok` lead
from `s` to `t`. A step is often one operation with state and errors; `Moves R x s` says that the
operation relates the state it starts in to the state it leaves, whether it returns or raises.

## Main definitions

* `Transition.Reach`: runs with admitted labels.
* `Effect.Moves`: the state relation of one operation.

## Main results

* `Transition.Reach.invariant`, `Transition.Reach.stable`: induction over runs.
* `Effect.moves_bind`, `Effect.moves_get_bind`, `Effect.moves_tryCatch`: composition of operations.
* `Effect.exec_bind_eq_ok_iff`: an operation that returned, taken apart.
-/

namespace Transition

variable {σ α : Type} {Step : σ → α → σ → Prop} {ok ok' : α → Prop} {s t u : σ}

/-- Steps with admitted labels lead from one state to another. -/
def Reach (Step : σ → α → σ → Prop) (ok : α → Prop) : σ → σ → Prop :=
  Relation.ReflTransGen fun s t => ∃ a, ok a ∧ Step s a t

theorem Reach.refl : Reach Step ok s s := Relation.ReflTransGen.refl

theorem Reach.tail {a : α} (h : Reach Step ok s t) (ha : ok a) (hstep : Step t a u) :
    Reach Step ok s u :=
  Relation.ReflTransGen.tail h ⟨a, ha, hstep⟩

theorem Reach.trans (h : Reach Step ok s t) (h' : Reach Step ok t u) : Reach Step ok s u :=
  Relation.ReflTransGen.trans h h'

theorem Reach.mono (hok : ∀ a, ok a → ok' a) (h : Reach Step ok s t) : Reach Step ok' s t :=
  Relation.ReflTransGen.mono (fun _ _ hstep => hstep.imp fun a h => ⟨hok a h.1, h.2⟩) _ _ h

/-- **Invariants.** What every admitted step keeps, a run keeps. -/
theorem Reach.invariant {P : σ → Prop} (hkeep : ∀ s a t, ok a → P s → Step s a t → P t)
    (h : Reach Step ok s t) (hs : P s) : P t := by
  induction h with
  | refl => exact hs
  | tail _ hstep ih =>
    obtain ⟨a, ha, hstep⟩ := hstep
    exact hkeep _ a _ ha ih hstep

/-- Stable facts may lean on an invariant. -/
theorem Reach.stable {I P : σ → Prop} (hI : ∀ s a t, ok a → I s → Step s a t → I t)
    (hkeep : ∀ s a t, ok a → I s → P s → Step s a t → P t)
    (h : Reach Step ok s t) (hIs : I s) (hs : P s) : P t :=
  (h.invariant (P := fun s => I s ∧ P s)
    (fun s a t ha hIP hstep => ⟨hI s a t ha hIP.1 hstep, hkeep s a t ha hIP.1 hIP.2 hstep⟩)
    ⟨hIs, hs⟩).2

end Transition

namespace Effect

variable {ε σ β γ : Type}

@[simp] theorem exec_get (s : σ) : exec (get : ExceptT ε (StateM σ) σ) s = (.ok s, s) := rfl

@[simp] theorem exec_modify (f : σ → σ) (s : σ) :
    exec (modify f : ExceptT ε (StateM σ) PUnit) s = (.ok ⟨⟩, f s) := rfl

@[simp] theorem exec_get_bind (f : σ → ExceptT ε (StateM σ) γ) (s : σ) :
    exec (get >>= f) s = exec (f s) s := exec_bind_of_ok rfl

@[simp] theorem exec_modify_bind (g : σ → σ) (f : PUnit → ExceptT ε (StateM σ) γ) (s : σ) :
    exec (modify g >>= f) s = exec (f ⟨⟩) (g s) := exec_bind_of_ok rfl

/-- An operation with a handler for what it raises. -/
theorem exec_tryCatch (x : ExceptT ε (StateM σ) β) (handle : ε → ExceptT ε (StateM σ) β) (s : σ) :
    exec (tryCatch x handle) s =
      match exec x s with
      | (.ok b, t) => (.ok b, t)
      | (.error e, t) => exec (handle e) t := by
  simp only [exec, tryCatch, tryCatchThe, MonadExceptOf.tryCatch, ExceptT.tryCatch, ExceptT.mk,
    bind, StateT.bind]
  rcases x s with ⟨_ | _, t⟩ <;> rfl

/-- A sequence that returned, taken apart. -/
theorem exec_bind_eq_ok_iff {x : ExceptT ε (StateM σ) β} {f : β → ExceptT ε (StateM σ) γ}
    {s u : σ} {c : γ} :
    exec (x >>= f) s = (.ok c, u) ↔ ∃ b t, exec x s = (.ok b, t) ∧ exec (f b) t = (.ok c, u) := by
  rw [exec_bind]
  rcases exec x s with ⟨e | b, t⟩
  · simp
  · simp only [Prod.mk.injEq, Except.ok.injEq]
    constructor
    · intro h
      exact ⟨b, t, ⟨rfl, rfl⟩, h⟩
    · rintro ⟨b, t, ⟨rfl, rfl⟩, h⟩
      exact h

/-- The rule of handlers. -/
theorem triple_tryCatch {P : σ → Prop} {Q : β → σ → Prop} {E E' : ε → σ → Prop}
    {x : ExceptT ε (StateM σ) β} {handle : ε → ExceptT ε (StateM σ) β} (hx : Triple P x Q E')
    (hhandle : ∀ e, Triple (E' e) (handle e) Q E) : Triple P (tryCatch x handle) Q E := by
  intro s hs
  have hpost := hx s hs
  rw [exec_tryCatch]
  rcases hr : exec x s with ⟨e | b, t⟩
  · rw [hr] at hpost
    exact hhandle e t hpost
  · rw [hr] at hpost
    exact hpost

/-- The rule of reading the state. -/
theorem triple_get_bind {P : σ → Prop} {Q : γ → σ → Prop} {E : ε → σ → Prop}
    {f : σ → ExceptT ε (StateM σ) γ} (h : ∀ s, P s → Triple (· = s) (f s) Q E) :
    Triple P (get >>= f) Q E := by
  intro s hs
  rw [exec_get_bind]
  exact h s hs s rfl

/-- The operation relates the state it starts in to the state it leaves. -/
def Moves (R : σ → σ → Prop) (x : ExceptT ε (StateM σ) β) (s : σ) : Prop :=
  R s (exec x s).2

theorem moves_elim {R : σ → σ → Prop} {x : ExceptT ε (StateM σ) β} {s t : σ} {r : Except ε β}
    (h : Moves R x s) (hx : exec x s = (r, t)) : R s t := by
  rw [Moves, hx] at h
  exact h

variable {R : σ → σ → Prop} [Std.Refl R] [IsTrans σ R] {s : σ}

omit [Std.Refl R] [IsTrans σ R] in
theorem moves_get_bind {f : σ → ExceptT ε (StateM σ) γ} (h : Moves R (f s) s) :
    Moves R (get >>= f) s := by
  rw [Moves, exec_get_bind]
  exact h

omit [Std.Refl R] in
/-- The second operation may use what the first one did. -/
theorem moves_bind {x : ExceptT ε (StateM σ) β} {f : β → ExceptT ε (StateM σ) γ}
    (hx : Moves R x s) (hf : ∀ b t, exec x s = (.ok b, t) → R s t → Moves R (f b) t) :
    Moves R (x >>= f) s := by
  rw [Moves, exec_bind]
  rcases h : exec x s with ⟨e | b, t⟩
  · exact moves_elim hx h
  · exact IsTrans.trans _ _ _ (moves_elim hx h) (hf b t h (moves_elim hx h))

omit [Std.Refl R] in
theorem moves_tryCatch {x : ExceptT ε (StateM σ) β} {handle : ε → ExceptT ε (StateM σ) β}
    (hx : Moves R x s)
    (hhandle : ∀ e t, exec x s = (.error e, t) → R s t → Moves R (handle e) t) :
    Moves R (tryCatch x handle) s := by
  rw [Moves, exec_tryCatch]
  rcases h : exec x s with ⟨e | b, t⟩
  · exact IsTrans.trans _ _ _ (moves_elim hx h) (hhandle e t h (moves_elim hx h))
  · exact moves_elim hx h

end Effect
