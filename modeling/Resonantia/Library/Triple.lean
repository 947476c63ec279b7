import Mathlib.Algebra.Ring.Int.Defs
import Mathlib.Algebra.Ring.Nat
import Mathlib.Data.Nat.Notation

/-!
# Triples for operations with state and errors

An operation over a state `σ` either returns or raises an error, and leaves a state in both cases.
`Triple P x Q E` says that from every state satisfying `P` the operation returns in `Q` or raises
in `E`. The rules below follow the construction of the operation; the errors of every part of a
sequence end in the same postcondition `E`.

## Main definitions

* `Effect.exec`: the outcome of an operation and the state after it.
* `Effect.Triple`: pre- and postconditions, for the returning and for the raising outcomes.

## Main results

* `Effect.triple_bind`, `Effect.triple_pure`, `Effect.triple_throw`, `Effect.triple_conseq`.
* `Effect.triple_elim`: what a triple says about one run.
-/

namespace Effect

variable {ε σ β γ : Type}

/-- The outcome of an operation started in `s`, and the state after it. -/
def exec (x : ExceptT ε (StateM σ) β) (s : σ) : Except ε β × σ :=
  x s

@[simp] theorem exec_pure (b : β) (s : σ) :
    exec (pure b : ExceptT ε (StateM σ) β) s = (.ok b, s) := rfl

@[simp] theorem exec_throw (e : ε) (s : σ) :
    exec (throw e : ExceptT ε (StateM σ) β) s = (.error e, s) := rfl

theorem exec_bind (x : ExceptT ε (StateM σ) β) (f : β → ExceptT ε (StateM σ) γ) (s : σ) :
    exec (x >>= f) s =
      match exec x s with
      | (.ok b, t) => exec (f b) t
      | (.error e, t) => (.error e, t) := by
  change (ExceptT.bindCont f (x s).1) (x s).2 = _
  rw [exec]
  rcases x s with ⟨_ | _, _⟩ <;> rfl

theorem exec_bind_of_ok {x : ExceptT ε (StateM σ) β} {f : β → ExceptT ε (StateM σ) γ} {s t : σ}
    {b : β} (h : exec x s = (.ok b, t)) : exec (x >>= f) s = exec (f b) t := by
  rw [exec_bind, h]

/-- From every state of `P` the operation returns in `Q` or raises in `E`. -/
def Triple (P : σ → Prop) (x : ExceptT ε (StateM σ) β) (Q : β → σ → Prop) (E : ε → σ → Prop) :
    Prop :=
  ∀ s, P s → match exec x s with
    | (.ok b, t) => Q b t
    | (.error e, t) => E e t

variable {P P' : σ → Prop} {Q Q' : β → σ → Prop} {E E' : ε → σ → Prop}

/-- What a triple says about one run. -/
theorem triple_elim {x : ExceptT ε (StateM σ) β} (h : Triple P x Q E) {s t : σ}
    {r : Except ε β} (hs : P s) (hx : exec x s = (r, t)) :
    (∃ b, r = .ok b ∧ Q b t) ∨ ∃ e, r = .error e ∧ E e t := by
  have hpost := h s hs
  rw [hx] at hpost
  cases r with
  | ok b => exact Or.inl ⟨b, rfl, hpost⟩
  | error e => exact Or.inr ⟨e, rfl, hpost⟩

theorem triple_trivial (x : ExceptT ε (StateM σ) β) :
    Triple P x (fun _ _ => True) fun _ _ => True := by
  intro s _
  rcases exec x s with ⟨_ | _, _⟩ <;> trivial

theorem triple_pure {b : β} (h : ∀ s, P s → Q b s) :
    Triple P (pure b : ExceptT ε (StateM σ) β) Q E := fun s hs => h s hs

theorem triple_throw {e : ε} (h : ∀ s, P s → E e s) :
    Triple P (throw e : ExceptT ε (StateM σ) β) Q E := fun s hs => h s hs

/-- The rule of sequences. -/
theorem triple_bind {x : ExceptT ε (StateM σ) β} {f : β → ExceptT ε (StateM σ) γ}
    {R : γ → σ → Prop} (hx : Triple P x Q E) (hf : ∀ b, Triple (Q b) (f b) R E) :
    Triple P (x >>= f) R E := by
  intro s hs
  have hpost := hx s hs
  rw [exec_bind]
  rcases hr : exec x s with ⟨e | b, t⟩
  · rw [hr] at hpost
    exact hpost
  · rw [hr] at hpost
    exact hf b t hpost

/-- The rule of consequence. -/
theorem triple_conseq {x : ExceptT ε (StateM σ) β} (h : Triple P x Q E) (hP : ∀ s, P' s → P s)
    (hQ : ∀ b s, Q b s → Q' b s) (hE : ∀ e s, E e s → E' e s) : Triple P' x Q' E' := by
  intro s hs
  have hpost := h s (hP s hs)
  rcases hr : exec x s with ⟨e | b, t⟩
  · rw [hr] at hpost
    exact hE e t hpost
  · rw [hr] at hpost
    exact hQ b t hpost

theorem triple_pre {x : ExceptT ε (StateM σ) β} (h : Triple P x Q E) (hP : ∀ s, P' s → P s) :
    Triple P' x Q E :=
  triple_conseq h hP (fun _ _ hQ => hQ) fun _ _ hE => hE

theorem triple_raise {x : ExceptT ε (StateM σ) β} (h : Triple P x Q E)
    (hE : ∀ e s, E e s → E' e s) : Triple P x Q E' :=
  triple_conseq h (fun _ hP => hP) (fun _ _ hQ => hQ) hE

/-- A fact that does not depend on the state may be taken out of the precondition. -/
theorem triple_of_fact {p : Prop} {x : ExceptT ε (StateM σ) β} (h : p → Triple P x Q E) :
    Triple (fun s => p ∧ P s) x Q E := fun s hs => h hs.1 s hs.2

end Effect
