import Mathlib.Algebra.Ring.Int.Defs
import Mathlib.Algebra.Ring.Nat
import Mathlib.Data.Nat.Notation
import Mathlib.Logic.Relation

/-!
# Loops over deterministic jobs with a cache of their results

A loop walks through states. In each state it has a job or is finished; the job's result is
computed by a deterministic function of the job, and the state moves on with the result. A run may
keep the results in a cache, and a later run may take them from the cache in place of computing
them. A run may also stop anywhere, and a cache may lose entries between two runs.

The loop is correct with a cache because the cache of any run, and of any sequence of stopped runs,
only ever holds computed results (`Consistent`): a completing run then ends where the run without a
cache ends.

## Main definitions

* `CachedLoop.Loop`: the states, jobs and results of a loop.
* `CachedLoop.Loop.Step`, `CachedLoop.Loop.Completes`: the run without a cache.
* `CachedLoop.Loop.Attempt`: one run with a cache, completed or stopped.
* `CachedLoop.Loop.Consistent`: every cached result of a job of the loop is the computed one.

## Main results

* `CachedLoop.Loop.Completes.unique`: the run without a cache is deterministic.
* `CachedLoop.Loop.keysDistinct_of_strictMono`: jobs named by a counter have different names.
* `CachedLoop.Loop.Attempt.consistent`: a run keeps the cache consistent.
* `CachedLoop.Loop.Attempt.completes`: a completing run over a consistent cache ends where the run
  without a cache ends.
-/

namespace CachedLoop

variable {σ κ ι β ε : Type*}

/-- The states, jobs and results of a loop. -/
structure Loop (σ κ ι β ε : Type*) where
  /-- The job of a state; `none` when the loop is finished. -/
  next : σ → Except ε (Option κ)
  /-- The name under which the result of a job is cached. -/
  key : κ → ι
  compute : κ → Except ε β
  advance : σ → κ → β → Except ε σ

namespace Loop

variable (L : Loop σ κ ι β ε)

/-- One iteration without a cache. -/
def Step (s t : σ) : Prop :=
  ∃ k v, L.next s = .ok (some k) ∧ L.compute k = .ok v ∧ L.advance s k v = .ok t

/-- The states that the run without a cache visits from `s`. -/
abbrev Visits : σ → σ → Prop := Relation.ReflTransGen L.Step

/-- The run without a cache from `s` is finished in `t`. -/
def Completes (s t : σ) : Prop :=
  L.Visits s t ∧ L.next t = .ok none

variable {L}

theorem Step.unique {s t t' : σ} (h : L.Step s t) (h' : L.Step s t') : t = t' := by
  obtain ⟨k, v, hk, hv, ht⟩ := h
  obtain ⟨k', v', hk', hv', ht'⟩ := h'
  rw [hk] at hk'
  cases hk'
  rw [hv] at hv'
  cases hv'
  rw [ht] at ht'
  cases ht'
  rfl

theorem Step.next_ne_none {s t : σ} (h : L.Step s t) : L.next s ≠ .ok none := by
  obtain ⟨k, _, hk, _⟩ := h
  rw [hk]
  simp

/-- Two states of one run: one of them is visited from the other. -/
theorem visits_total {s t t' : σ} (h : L.Visits s t) (h' : L.Visits s t') :
    L.Visits t t' ∨ L.Visits t' t :=
  Relation.ReflTransGen.total_of_right_unique (fun _ _ _ => Step.unique) h h'

/-- The run without a cache is deterministic. -/
theorem Completes.unique {s t t' : σ} (h : L.Completes s t) (h' : L.Completes s t') : t = t' := by
  have hfinal {a b : σ} (ha : L.next a = .ok none) (hab : L.Visits a b) : a = b := by
    rcases Relation.ReflTransGen.cases_head hab with rfl | ⟨c, hac, _⟩
    · rfl
    · exact absurd ha hac.next_ne_none
  rcases visits_total h.1 h'.1 with hab | hba
  · exact hfinal h.2 hab
  · exact (hfinal h'.2 hba).symm

/-- The entries of `c'` are entries of `c` or the computed result of the job of `s`. -/
def Adds (L : Loop σ κ ι β ε) (s : σ) (c c' : ι → Option β) : Prop :=
  ∀ i v, c' i = some v → c i = some v ∨
    ∃ k, L.next s = .ok (some k) ∧ L.compute k = .ok v ∧ i = L.key k

theorem adds_refl (s : σ) (c : ι → Option β) : L.Adds s c c := fun _ _ h => Or.inl h

/-- One run with a cache, from `s` with cache `c`: the cache after it, and the final state when the
run completes. -/
inductive Attempt (L : Loop σ κ ι β ε) : (ι → Option β) → σ → (ι → Option β) → Option σ → Prop
  | finish {c s} (hnext : L.next s = .ok none) : Attempt L c s c (some s)
  | stop {c s c'} (hadds : L.Adds s c c') : Attempt L c s c' none
  | hit {c s k v t c' r} (hnext : L.next s = .ok (some k)) (hcached : c (L.key k) = some v)
      (hadvance : L.advance s k v = .ok t) (hrest : Attempt L c t c' r) : Attempt L c s c' r
  | miss {c s k v t c₁ c' r} (hnext : L.next s = .ok (some k)) (hcompute : L.compute k = .ok v)
      (hadvance : L.advance s k v = .ok t) (hadds : L.Adds s c c₁) (hrest : Attempt L c₁ t c' r) :
      Attempt L c s c' r

/-- Every cached result of a job on the run from `s₀` is the computed one. -/
def Consistent (L : Loop σ κ ι β ε) (s₀ : σ) (c : ι → Option β) : Prop :=
  ∀ s k v, L.Visits s₀ s → L.next s = .ok (some k) → c (L.key k) = some v → L.compute k = .ok v

/-- The jobs on the run from `s₀` have different names. -/
def KeysDistinct (L : Loop σ κ ι β ε) (s₀ : σ) : Prop :=
  ∀ s s' k k', L.Visits s₀ s → L.Visits s₀ s' → L.next s = .ok (some k) →
    L.next s' = .ok (some k') → L.key k = L.key k' → k = k'

/-- A counter that every iteration increases has increased in every later state. -/
theorem eq_or_lt_of_visits (μ : σ → ℕ) (hμ : ∀ s t, L.Step s t → μ s < μ t) {s t : σ}
    (h : L.Visits s t) : s = t ∨ μ s < μ t := by
  induction h with
  | refl => exact Or.inl rfl
  | tail _ hstep ih =>
    have hlt := hμ _ _ hstep
    rcases ih with rfl | ih
    · exact Or.inr hlt
    · exact Or.inr (Nat.lt_trans ih hlt)

/-- Jobs have different names when a counter that every iteration increases names them. -/
theorem keysDistinct_of_strictMono {s₀ : σ} (μ : σ → ℕ) (name : ℕ → ι)
    (hname : Function.Injective name) (hμ : ∀ s t, L.Step s t → μ s < μ t)
    (hkey : ∀ s k, L.next s = .ok (some k) → L.key k = name (μ s)) : L.KeysDistinct s₀ := by
  intro s s' k k' hs hs' hk hk' heq
  rw [hkey s k hk, hkey s' k' hk'] at heq
  have hcount := hname heq
  have hsame : s = s' := by
    rcases visits_total hs hs' with h | h
    · exact (eq_or_lt_of_visits μ hμ h).resolve_right (by omega)
    · exact ((eq_or_lt_of_visits μ hμ h).resolve_right (by omega)).symm
  subst hsame
  rw [hk] at hk'
  cases hk'
  rfl

theorem consistent_empty (s₀ : σ) : L.Consistent s₀ fun _ => none := by
  intro s k v _ _ h
  cases h

/-- A cache that lost entries stays consistent. -/
theorem Consistent.mono {s₀ : σ} {c c' : ι → Option β} (h : L.Consistent s₀ c)
    (hsub : ∀ i v, c' i = some v → c i = some v) : L.Consistent s₀ c' :=
  fun s k v hs hk hv => h s k v hs hk (hsub _ _ hv)

theorem Consistent.adds {s₀ s : σ} {c c' : ι → Option β} (hd : L.KeysDistinct s₀)
    (h : L.Consistent s₀ c) (hs : L.Visits s₀ s) (hadds : L.Adds s c c') : L.Consistent s₀ c' := by
  intro s' k' v' hs' hk' hv'
  rcases hadds _ _ hv' with hold | ⟨k, hk, hcompute, hkey⟩
  · exact h s' k' v' hs' hk' hold
  · rw [hd s' s k' k hs' hs hk' hk hkey]
    exact hcompute

/-- **The cache.** A run keeps the cache consistent, whether it completes or stops. -/
theorem Attempt.consistent {s₀ s : σ} {c c' : ι → Option β} {r : Option σ}
    (hd : L.KeysDistinct s₀) (hrun : L.Attempt c s c' r) (h : L.Consistent s₀ c)
    (hs : L.Visits s₀ s) : L.Consistent s₀ c' := by
  induction hrun with
  | finish hnext => exact h
  | stop hadds => exact h.adds hd hs hadds
  | hit hnext hcached hadvance hrest ih =>
    have hstep : L.Step _ _ := ⟨_, _, hnext, h _ _ _ hs hnext hcached, hadvance⟩
    exact ih h (hs.tail hstep)
  | miss hnext hcompute hadvance hadds hrest ih =>
    exact ih (h.adds hd hs hadds) (hs.tail ⟨_, _, hnext, hcompute, hadvance⟩)

/-- A run adds results under names of jobs of the loop only. -/
theorem Attempt.eq_key {s : σ} {c c' : ι → Option β} {r : Option σ} (hrun : L.Attempt c s c' r)
    {i : ι} {v : β} (h : c' i = some v) : c i = some v ∨ ∃ k, i = L.key k := by
  have hadded {s : σ} {c c' : ι → Option β} (hadds : L.Adds s c c') (h : c' i = some v) :
      c i = some v ∨ ∃ k, i = L.key k := by
    rcases hadds _ _ h with hold | ⟨k, _, _, hkey⟩
    · exact Or.inl hold
    · exact Or.inr ⟨k, hkey⟩
  induction hrun with
  | finish hnext => exact Or.inl h
  | stop hadds => exact hadded hadds h
  | hit hnext hcached hadvance hrest ih => exact ih h
  | miss hnext hcompute hadvance hadds hrest ih =>
    rcases ih h with hold | hkey
    · exact hadded hadds hold
    · exact Or.inr hkey

/-- **Completed runs.** A completing run over a consistent cache visits the states of the run
without a cache and ends in its final state. -/
theorem Attempt.completes {s₀ s t : σ} {c c' : ι → Option β} (hd : L.KeysDistinct s₀)
    (hrun : L.Attempt c s c' (some t)) (h : L.Consistent s₀ c) (hs : L.Visits s₀ s) :
    L.Completes s t := by
  generalize hr : some t = r at hrun
  induction hrun with
  | finish hnext =>
    cases hr
    exact ⟨.refl, hnext⟩
  | stop hadds => cases hr
  | hit hnext hcached hadvance hrest ih =>
    have hstep : L.Step _ _ := ⟨_, _, hnext, h _ _ _ hs hnext hcached, hadvance⟩
    obtain ⟨hvisits, hfinal⟩ := ih h (hs.tail hstep) hr
    exact ⟨hvisits.head hstep, hfinal⟩
  | miss hnext hcompute hadvance hadds hrest ih =>
    have hstep : L.Step _ _ := ⟨_, _, hnext, hcompute, hadvance⟩
    obtain ⟨hvisits, hfinal⟩ := ih (h.adds hd hs hadds) (hs.tail hstep) hr
    exact ⟨hvisits.head hstep, hfinal⟩

end Loop

end CachedLoop
