import Mathlib.Algebra.BigOperators.Fin
import Mathlib.Algebra.BigOperators.Group.Finset.Basic
import Mathlib.Algebra.BigOperators.Group.Finset.Sigma
import Mathlib.Algebra.BigOperators.Ring.Finset
import Mathlib.Algebra.BigOperators.Ring.List
import Mathlib.Algebra.Module.BigOperators
import Mathlib.Algebra.Module.Defs
import Mathlib.Data.Finset.Dedup
import Mathlib.Logic.Relation
import Mathlib.Tactic.Abel

/-!
# Reverse accumulation on acyclic graphs

A weighted acyclic graph has a list of outgoing edges at every node, with repetitions. A depth-first
search from a root lists every node that it reaches once, behind the targets of its edges; from the
root on, the reverse of this list therefore comes to a node only after all its sources. A sweep in
that order, in which every node adds its weighted value to the targets of its edges, leaves in every
node the sum of the weights of all paths from the root.

## Main definitions

* `ReverseMode.Dag`: weighted acyclic graphs.
* `ReverseMode.Dag.visit`: the depth-first search.
* `ReverseMode.Dag.paths`, `ReverseMode.Dag.weight`, `ReverseMode.Dag.total`: paths and their
  weights.
* `ReverseMode.Dag.spread`, `ReverseMode.Dag.sweep`: the accumulation.

## Main results

* `ReverseMode.Dag.postOrder_spec`: the list of the search.
* `ReverseMode.Dag.mem_paths_iff`: the list of all paths.
* `ReverseMode.Dag.total_eq_sum`: paths by their last edge.
* `ReverseMode.Dag.sweep_postOrder`: what the sweep leaves.
-/

namespace ReverseMode

/-- A weighted acyclic graph. Every edge leads to a node of smaller rank. -/
structure Dag (ν S : Type*) where
  edges : ν → List (ν × S)
  rank : ν → ℕ
  rank_lt : ∀ {u : ν} {e : ν × S}, e ∈ edges u → rank e.1 < rank u

namespace Dag

variable {ν S : Type*} (g : Dag ν S)

/-- There is an edge from the one node to the other. -/
def Edge (u v : ν) : Prop := ∃ e ∈ g.edges u, e.1 = v

/-- Edges lead from the one node to the other. -/
def Reaches : ν → ν → Prop := Relation.ReflTransGen g.Edge

variable {g}

theorem Edge.rank_lt {u v : ν} (h : g.Edge u v) : g.rank v < g.rank u := by
  obtain ⟨e, he, rfl⟩ := h
  exact g.rank_lt he

theorem Reaches.refl (u : ν) : g.Reaches u u := Relation.ReflTransGen.refl

theorem Reaches.head {u v w : ν} (h : g.Edge u v) (h' : g.Reaches v w) : g.Reaches u w :=
  Relation.ReflTransGen.head h h'

theorem Reaches.rank_le {u v : ν} (h : g.Reaches u v) : g.rank v ≤ g.rank u := by
  induction h with
  | refl => exact le_rfl
  | tail _ hedge ih => exact hedge.rank_lt.le.trans ih

/-! ### The search -/

/-- The nodes that the search has come to, and those that it has finished, in this order. -/
structure Search (ν : Type*) where
  visited : List ν := []
  finished : List ν := []

variable (g) in
/-- The depth-first search from a node. -/
def visit [DecidableEq ν] (u : ν) (s : Search ν) : Search ν :=
  if u ∈ s.visited then s
  else
    let s := (g.edges u).attach.foldl (fun s e => visit e.1.1 s)
      { s with visited := u :: s.visited }
    { s with finished := s.finished ++ [u] }
termination_by g.rank u
decreasing_by exact g.rank_lt e.2

variable (g) in
/-- The nodes that a root reaches, each behind the targets of its edges. -/
def postOrder [DecidableEq ν] (root : ν) : List ν := (g.visit root {}).finished

/-- A list without repetitions in which every node stands behind the targets of its edges. -/
structure Ordered (g : Dag ν S) (l : List ν) : Prop where
  nodup : l.Nodup
  targets : ∀ before u after, l = before ++ u :: after → ∀ e ∈ g.edges u, e.1 ∈ before

theorem Ordered.nil : g.Ordered [] where
  nodup := List.nodup_nil
  targets before u after h := by simp at h

theorem Ordered.append_singleton {l : List ν} (h : g.Ordered l) {u : ν} (hu : u ∉ l)
    (htargets : ∀ e ∈ g.edges u, e.1 ∈ l) : g.Ordered (l ++ [u]) where
  nodup := List.nodup_append.2 ⟨h.nodup, List.nodup_singleton u, by
    rintro v hv w hw rfl
    exact hu (List.mem_singleton.1 hw ▸ hv)⟩
  targets before v after hsplit e he := by
    rcases List.eq_nil_or_concat after with rfl | ⟨after', w, rfl⟩
    · obtain ⟨rfl, hv⟩ := List.append_inj' hsplit rfl
      obtain rfl := List.head_eq_of_cons_eq hv
      exact htargets e he
    · rw [List.concat_eq_append, ← List.cons_append, ← List.append_assoc] at hsplit
      obtain ⟨hl, -⟩ := List.append_inj' hsplit rfl
      exact h.targets before v after' hl e he

/-- A node of the list has the targets of its edges in the list. -/
theorem Ordered.mem_of_edge {l : List ν} (h : g.Ordered l) {u v : ν} (hu : u ∈ l)
    (hedge : g.Edge u v) : v ∈ l := by
  obtain ⟨before, after, hsplit⟩ := List.append_of_mem hu
  obtain ⟨e, he, rfl⟩ := hedge
  rw [hsplit]
  exact List.mem_append_left _ (h.targets before u after hsplit e he)

theorem Ordered.mem_of_reaches {l : List ν} (h : g.Ordered l) {u v : ν} (hu : u ∈ l)
    (hreaches : g.Reaches u v) : v ∈ l := by
  induction hreaches with
  | refl => exact hu
  | tail _ hedge ih => exact h.mem_of_edge ih hedge

/-- All sources of a node stand behind it. -/
theorem Ordered.source_mem {l before after : List ν} (h : g.Ordered l) {u x : ν}
    (hsplit : l = before ++ u :: after) (hx : x ∈ l) (hedge : g.Edge x u) : x ∈ after := by
  have hnodup := h.nodup
  rw [hsplit, List.nodup_append] at hnodup
  have hbefore : u ∉ before := fun hu => hnodup.2.2 u hu u List.mem_cons_self rfl
  obtain ⟨e, he, rfl⟩ := hedge
  rw [hsplit, List.mem_append, List.mem_cons] at hx
  rcases hx with hx | rfl | hx
  · obtain ⟨first, second, rfl⟩ := List.append_of_mem hx
    have htarget := h.targets first x (second ++ e.1 :: after) (by simpa using hsplit) e he
    exact absurd (List.mem_append_left _ htarget) hbefore
  · exact absurd (h.targets before e.1 after hsplit e he) hbefore
  · exact hx

/-- What holds during the search; the nodes that it has not finished are of rank `n` at least. -/
structure Search.Sound (s : Search ν) (g : Dag ν S) (n : ℕ) : Prop where
  ordered : g.Ordered s.finished
  visited : ∀ v ∈ s.finished, v ∈ s.visited
  pending : ∀ v ∈ s.visited, v ∉ s.finished → n ≤ g.rank v

/-- What a part of the search does: it finishes nodes that it had not come to before and that a
node reaches, and leaves no others pending. -/
structure Search.Extends (t : Search ν) (g : Dag ν S) (u : ν) (s : Search ν) : Prop where
  visited : ∀ v ∈ s.visited, v ∈ t.visited
  finished : ∀ v ∈ s.finished, v ∈ t.finished
  reaches : ∀ v ∈ t.finished, v ∈ s.finished ∨ g.Reaches u v
  kept : ∀ v ∈ s.visited, v ∈ t.finished → v ∈ s.finished
  pending : ∀ v ∈ t.visited, v ∉ t.finished → v ∈ s.visited

theorem Search.Extends.refl (u : ν) (s : Search ν) : s.Extends g u s where
  visited _ h := h
  finished _ h := h
  reaches _ h := Or.inl h
  kept _ _ h := h
  pending _ h _ := h

theorem Search.Extends.trans {u v : ν} {s t r : Search ν} (hedge : g.Edge u v)
    (hstep : t.Extends g v s) (hrest : r.Extends g u t) : r.Extends g u s where
  visited w hw := hrest.visited w (hstep.visited w hw)
  finished w hw := hrest.finished w (hstep.finished w hw)
  reaches w hw := by
    rcases hrest.reaches w hw with hold | hnew
    · exact (hstep.reaches w hold).imp id (Reaches.head hedge)
    · exact Or.inr hnew
  kept w hw hr := hstep.kept w hw (hrest.kept w (hstep.visited w hw) hr)
  pending w hw hr := by
    have ht : w ∉ t.finished := fun h => hr (hrest.finished w h)
    exact hstep.pending w (hrest.pending w hw hr) ht

/-- The search from a node that it has not come to, after the loop over the edges. -/
theorem Search.Sound.finish {u : ν} {n : ℕ} {s t : Search ν} (hs : s.Sound g n)
    (hu : u ∉ s.visited)
    (ht : t.Sound g (g.rank u)) (hextends : t.Extends g u { s with visited := u :: s.visited })
    (htargets : ∀ e ∈ g.edges u, e.1 ∈ t.finished) :
    ({ t with finished := t.finished ++ [u] } : Search ν).Sound g n ∧
      ({ t with finished := t.finished ++ [u] } : Search ν).Extends g u s := by
  have hnew : u ∉ t.finished := fun h =>
    hu (hs.visited u (hextends.kept u List.mem_cons_self h))
  have hvisited : u ∈ t.visited := hextends.visited u List.mem_cons_self
  have hpending : ∀ v ∈ t.visited, v ∉ t.finished ++ [u] → v ∈ s.visited := by
    intro v hv hv'
    rw [List.mem_append, List.mem_singleton, not_or] at hv'
    exact (List.mem_cons.1 (hextends.pending v hv hv'.1)).resolve_left hv'.2
  refine ⟨⟨ht.ordered.append_singleton hnew htargets, fun v hv => ?_, fun v hv hv' => ?_⟩,
    ⟨fun v hv => hextends.visited v (List.mem_cons_of_mem u hv),
      fun v hv => List.mem_append_left _ (hextends.finished v hv), fun v hv => ?_,
      fun v hv hv' => ?_, hpending⟩⟩
  · rcases List.mem_append.1 hv with hv | hv
    · exact ht.visited v hv
    · exact List.mem_singleton.1 hv ▸ hvisited
  · exact hs.pending v (hpending v hv hv') fun h =>
      hv' (List.mem_append_left _ (hextends.finished v h))
  · rcases List.mem_append.1 hv with hv | hv
    · exact hextends.reaches v hv
    · obtain rfl := List.mem_singleton.1 hv
      exact Or.inr (Reaches.refl v)
  · rcases List.mem_append.1 hv' with hv' | hv'
    · exact hextends.kept v (List.mem_cons_of_mem u hv) hv'
    · exact absurd (List.mem_singleton.1 hv' ▸ hv) hu

section Search

variable [DecidableEq ν]

/-- The loop over the edges of a node. -/
theorem foldl_visit {u : ν} {n : ℕ} {l : List {e // e ∈ g.edges u}} {s : Search ν}
    (hvisit : ∀ e ∈ l, ∀ s : Search ν, s.Sound g n →
      (g.visit e.1.1 s).Sound g n ∧ (g.visit e.1.1 s).Extends g e.1.1 s ∧
        e.1.1 ∈ (g.visit e.1.1 s).finished)
    (hs : s.Sound g n) :
    (l.foldl (fun s e => g.visit e.1.1 s) s).Sound g n ∧
      (l.foldl (fun s e => g.visit e.1.1 s) s).Extends g u s ∧
        ∀ e ∈ l, e.1.1 ∈ (l.foldl (fun s e => g.visit e.1.1 s) s).finished := by
  induction l generalizing s with
  | nil => exact ⟨hs, Search.Extends.refl u s, fun _ h => (nomatch h)⟩
  | cons e l ih =>
    obtain ⟨hsound, hstep, hmem⟩ := hvisit e List.mem_cons_self s hs
    obtain ⟨hsound', hrest, hall⟩ := ih (fun e' he' => hvisit e' (List.mem_cons_of_mem _ he')) hsound
    refine ⟨hsound', hstep.trans ⟨e.1, e.2, rfl⟩ hrest, fun e' he' => ?_⟩
    rcases List.mem_cons.1 he' with rfl | he'
    · exact hrest.finished _ hmem
    · exact hall e' he'

/-- **The search from a node.** -/
theorem visit_spec (u : ν) {n : ℕ} (hn : g.rank u < n) {s : Search ν} (hs : s.Sound g n) :
    (g.visit u s).Sound g n ∧ (g.visit u s).Extends g u s ∧ u ∈ (g.visit u s).finished := by
  induction hrank : g.rank u using Nat.strong_induction_on generalizing u n s with
  | _ m ih =>
    rw [visit]
    split_ifs with hu
    · have hfinished : u ∈ s.finished := by
        by_contra hu'
        exact absurd (hs.pending u hu hu') (by omega)
      exact ⟨hs, Search.Extends.refl u s, hfinished⟩
    · have hinner : ({ s with visited := u :: s.visited } : Search ν).Sound g (g.rank u) := by
        refine ⟨hs.ordered, fun v hv => List.mem_cons_of_mem u (hs.visited v hv),
          fun v hv hv' => ?_⟩
        rcases List.mem_cons.1 hv with rfl | hv
        · exact le_rfl
        · exact hn.le.trans (hs.pending v hv hv')
      obtain ⟨hsound, hextends, htargets⟩ := foldl_visit (l := (g.edges u).attach)
        (fun e _ s hs => ih (g.rank e.1.1) (hrank ▸ g.rank_lt e.2) e.1.1 (g.rank_lt e.2) hs rfl)
        hinner
      obtain ⟨hsound', hextends'⟩ := hs.finish hu hsound hextends fun e he =>
        htargets ⟨e, he⟩ (List.mem_attach _ _)
      exact ⟨hsound', hextends', List.mem_append_right _ (List.mem_singleton_self u)⟩

variable (g) in
/-- **The list of the search.** It holds the nodes that the root reaches, each once and behind the
targets of its edges. -/
theorem postOrder_spec (root : ν) :
    g.Ordered (g.postOrder root) ∧ ∀ v, v ∈ g.postOrder root ↔ g.Reaches root v := by
  have hstart : ({} : Search ν).Sound g (g.rank root + 1) :=
    ⟨Ordered.nil, fun _ h => h, fun _ h => (nomatch h)⟩
  obtain ⟨hsound, hextends, hroot⟩ := visit_spec root (Nat.lt_succ_self _) hstart
  refine ⟨hsound.ordered, fun v => ⟨fun hv => ?_, hsound.ordered.mem_of_reaches hroot⟩⟩
  exact (hextends.reaches v hv).resolve_left (by simp)

end Search

/-! ### Paths -/

variable (g) in
/-- The node to which a path leads: a path is a list of positions of edges. -/
def follow (u : ν) : List ℕ → Option ν
  | [] => some u
  | k :: path => (g.edges u)[k]?.bind fun e => follow e.1 path

variable (g) in
/-- The product of the weights along a path, the first edge on the right. -/
def weight [Semiring S] (u : ν) : List ℕ → S
  | [] => 1
  | k :: path => (g.edges u)[k]?.elim 0 fun e => weight e.1 path * e.2

variable (g) in
/-- The paths from the one node to the other. -/
def paths [DecidableEq ν] (u v : ν) : Finset (List ℕ) :=
  (if u = v then {[]} else ∅) ∪
    Finset.univ.biUnion fun k : Fin (g.edges u).length =>
      (paths (g.edges u)[k].1 v).image (k.1 :: ·)
termination_by g.rank u
decreasing_by exact g.rank_lt (List.getElem_mem _)

section Paths

variable [DecidableEq ν]

theorem mem_paths_iff {u v : ν} {path : List ℕ} :
    path ∈ g.paths u v ↔ g.follow u path = some v := by
  induction path generalizing u with
  | nil =>
    rw [paths, follow]
    by_cases h : u = v <;> simp [h]
  | cons k path ih =>
    rw [paths, follow]
    by_cases hk : k < (g.edges u).length
    · have hpath : path ∈ g.paths (g.edges u)[k].1 v ↔ _ := ih
      rw [List.getElem?_eq_getElem hk, Option.bind_some, ← hpath]
      constructor
      · intro h
        simp only [Finset.mem_union, Finset.mem_biUnion, Finset.mem_image] at h
        rcases h with h | ⟨k', -, path', hpath', heq⟩
        · split_ifs at h <;> simp at h
        · obtain ⟨rfl, rfl⟩ := List.cons_eq_cons.1 heq
          exact hpath'
      · intro h
        refine Finset.mem_union_right _ (Finset.mem_biUnion.2 ⟨⟨k, hk⟩, Finset.mem_univ _, ?_⟩)
        exact Finset.mem_image_of_mem _ h
    · rw [List.getElem?_eq_none (not_lt.1 hk), Option.bind_none]
      refine ⟨fun h => ?_, fun h => nomatch h⟩
      simp only [Finset.mem_union, Finset.mem_biUnion, Finset.mem_image] at h
      rcases h with h | ⟨k', -, path', hpath', heq⟩
      · split_ifs at h <;> simp at h
      · obtain ⟨rfl, rfl⟩ := List.cons_eq_cons.1 heq
        exact absurd k'.2 hk

variable [Semiring S]

variable (g) in
/-- The sum of the weights of all paths from the one node to the other. -/
def total (u v : ν) : S := ∑ path ∈ g.paths u v, g.weight u path

/-- The paths by their first edge. -/
theorem total_eq (u v : ν) :
    g.total u v = (if u = v then 1 else 0) +
      ∑ k : Fin (g.edges u).length, g.total (g.edges u)[k].1 v * (g.edges u)[k].2 := by
  have hdisjoint : Disjoint (if u = v then {[]} else ∅ : Finset (List ℕ))
      (Finset.univ.biUnion fun k : Fin (g.edges u).length =>
        (g.paths (g.edges u)[k].1 v).image (k.1 :: ·)) := by
    rw [Finset.disjoint_left]
    intro path hnil hcons
    obtain ⟨k, -, hk⟩ := Finset.mem_biUnion.1 hcons
    obtain ⟨path', -, rfl⟩ := Finset.mem_image.1 hk
    split_ifs at hnil <;> simp at hnil
  have hpairwise : ∀ k : Fin (g.edges u).length, k ∈ Finset.univ → ∀ k' ∈ Finset.univ, k ≠ k' →
      Disjoint ((g.paths (g.edges u)[k].1 v).image (k.1 :: ·))
        ((g.paths (g.edges u)[k'].1 v).image (k'.1 :: ·)) := by
    intro k _ k' _ hne
    rw [Finset.disjoint_left]
    intro path h h'
    obtain ⟨path₁, -, rfl⟩ := Finset.mem_image.1 h
    obtain ⟨path₂, -, heq⟩ := Finset.mem_image.1 h'
    exact hne (Fin.ext (List.cons_eq_cons.1 heq).1.symm)
  rw [total, paths, Finset.sum_union hdisjoint, Finset.sum_biUnion hpairwise]
  congr 1
  · split_ifs <;> simp [weight]
  · refine Finset.sum_congr rfl fun k _ => ?_
    rw [Finset.sum_image fun _ _ _ _ h => (List.cons_eq_cons.1 h).2, total, Finset.sum_mul]
    refine Finset.sum_congr rfl fun path _ => ?_
    simp [weight]

omit [DecidableEq ν] [Semiring S] in
theorem reaches_of_follow {u v : ν} {path : List ℕ} (h : g.follow u path = some v) :
    g.Reaches u v := by
  induction path generalizing u with
  | nil => exact Option.some.inj h ▸ Reaches.refl u
  | cons k path ih =>
    rw [follow] at h
    obtain ⟨e, he, htail⟩ := Option.bind_eq_some_iff.1 h
    exact Reaches.head ⟨e, List.mem_of_getElem? he, rfl⟩ (ih htail)

theorem total_eq_zero {u v : ν} (h : ¬g.Reaches u v) : g.total u v = 0 :=
  Finset.sum_eq_zero fun _ hpath => absurd (reaches_of_follow (mem_paths_iff.1 hpath)) h

/-- The paths by their first edge, in the order of the edges. -/
theorem total_eq_sum_map (u v : ν) :
    g.total u v =
      (if u = v then 1 else 0) + ((g.edges u).map fun e => g.total e.1 v * e.2).sum := by
  rw [total_eq, ← Fin.sum_univ_fun_getElem]
  rfl

/-- The only path from a node to itself is the empty one. -/
theorem total_self (u : ν) : g.total u u = 1 := by
  rw [total_eq_sum_map, if_pos rfl, List.sum_eq_zero, add_zero]
  intro x hx
  obtain ⟨e, he, rfl⟩ := List.mem_map.1 hx
  rw [total_eq_zero fun h => absurd h.rank_le (not_le.2 (g.rank_lt he)), zero_mul]

variable (g) in
/-- The sum of the weights of the edges from the one node to the other. -/
def edgeWeight (u v : ν) : S :=
  ∑ k : Fin (g.edges u).length, if (g.edges u)[k].1 = v then (g.edges u)[k].2 else 0

/-- **The paths by their last edge.** -/
theorem total_eq_sum {X : Finset ν} (hX : ∀ u ∈ X, ∀ e ∈ g.edges u, e.1 ∈ X) {u : ν} (hu : u ∈ X)
    (v : ν) :
    g.total u v = (if u = v then 1 else 0) + ∑ x ∈ X, g.edgeWeight x v * g.total u x := by
  induction hrank : g.rank u using Nat.strong_induction_on generalizing u with
  | _ n ih =>
    have htail : ∀ k : Fin (g.edges u).length,
        g.total (g.edges u)[k].1 v = (if (g.edges u)[k].1 = v then 1 else 0) +
          ∑ x ∈ X, g.edgeWeight x v * g.total (g.edges u)[k].1 x := fun k =>
      have hmem : (g.edges u)[k] ∈ g.edges u := List.getElem_mem _
      ih _ (hrank ▸ g.rank_lt hmem) (hX u hu _ hmem) rfl
    rw [total_eq]
    congr 1
    calc ∑ k : Fin (g.edges u).length, g.total (g.edges u)[k].1 v * (g.edges u)[k].2
        = g.edgeWeight u v + ∑ k : Fin (g.edges u).length,
            ∑ x ∈ X, g.edgeWeight x v * (g.total (g.edges u)[k].1 x * (g.edges u)[k].2) := by
          rw [edgeWeight, ← Finset.sum_add_distrib]
          refine Finset.sum_congr rfl fun k _ => ?_
          rw [htail k, add_mul, Finset.sum_mul]
          congr 1
          · split_ifs <;> simp
          · exact Finset.sum_congr rfl fun x _ => mul_assoc _ _ _
      _ = ∑ x ∈ X, g.edgeWeight x v * g.total u x := by
          rw [Finset.sum_comm]
          have hhead : g.edgeWeight u v =
              ∑ x ∈ X, g.edgeWeight x v * (if u = x then 1 else 0) := by
            simp [hu]
          rw [hhead, ← Finset.sum_add_distrib]
          refine Finset.sum_congr rfl fun x _ => ?_
          rw [total_eq u x, mul_add, Finset.mul_sum]

end Paths

/-! ### The accumulation -/

section Sweep

variable [DecidableEq ν] [Semiring S] {A : Type*} [AddCommMonoid A] [Module S A]

variable (g) in
/-- A node adds its weighted value to the targets of its edges. -/
def spread (u : ν) (value : ν → A) : ν → A :=
  (g.edges u).foldl (fun value e => Function.update value e.1 (value e.1 + e.2 • value u)) value

variable (g) in
/-- The nodes of a list spread their values, one after the other. -/
def sweep (l : List ν) (value : ν → A) : ν → A := l.foldl (fun value u => g.spread u value) value

/-- What a node adds to another. -/
theorem spread_apply (u v : ν) (value : ν → A) :
    g.spread u value v = value v + g.edgeWeight u v • value u := by
  have hfold : ∀ l : List (ν × S), (∀ e ∈ l, e.1 ≠ u) → ∀ value : ν → A,
      l.foldl (fun value e => Function.update value e.1 (value e.1 + e.2 • value u)) value v =
        value v + (l.map fun e => if e.1 = v then e.2 else 0).sum • value u := by
    intro l hl
    induction l with
    | nil => intro value; simp
    | cons e l ih =>
      intro value
      have hne : u ≠ e.1 := (hl e List.mem_cons_self).symm
      rw [List.foldl_cons, ih (fun e' he' => hl e' (List.mem_cons_of_mem _ he')), List.map_cons,
        List.sum_cons, add_smul, Function.update_of_ne hne]
      by_cases h : e.1 = v
      · subst h
        rw [Function.update_self, if_pos rfl, add_assoc]
      · rw [Function.update_of_ne (Ne.symm h), if_neg h, zero_smul, zero_add]
  rw [spread, hfold _ (fun e he => fun h => (g.rank_lt he).ne (congrArg g.rank h)), edgeWeight]
  rw [← Fin.sum_univ_fun_getElem]
  rfl

omit [AddCommMonoid A] [Module S A] in
theorem edgeWeight_eq_zero {u v : ν} (h : ¬ g.Edge u v) : g.edgeWeight u v = 0 :=
  Finset.sum_eq_zero fun _ _ => if_neg fun hv => h ⟨_, List.getElem_mem _, hv⟩

/-- What a node has as soon as all its sources gave to it. -/
theorem value_add_sum {X D : Finset ν} (hX : ∀ u ∈ X, ∀ e ∈ g.edges u, e.1 ∈ X) {root v : ν}
    (hroot : root ∈ X) (hD : D ⊆ X) (hsources : ∀ x ∈ X, g.Edge x v → x ∈ D) {value : ν → A}
    (hvalue : v ≠ root → value v = 0) :
    value v + ∑ x ∈ D, g.edgeWeight x v • g.total root x • value root =
      g.total root v • value root := by
  have hsum : ∑ x ∈ D, g.edgeWeight x v * g.total root x =
      ∑ x ∈ X, g.edgeWeight x v * g.total root x :=
    Finset.sum_subset hD fun x hx hx' => by
      rw [edgeWeight_eq_zero fun h => hx' (hsources x hx h), zero_mul]
  rw [total_eq_sum hX hroot v, add_smul, ← hsum, Finset.sum_smul]
  congr 1
  · by_cases h : root = v
    · rw [if_pos h, one_smul, h]
    · rw [if_neg h, zero_smul, hvalue (Ne.symm h)]
  · exact Finset.sum_congr rfl fun x _ => (mul_smul _ _ _).symm

/-- **What the sweep leaves.** Where the root has its seed, the other nodes that it reaches nothing,
and the rest what it may, every node that the root reaches is left with the total weight of its
paths, and the rest with what it had. -/
theorem sweep_postOrder {root : ν} {value : ν → A}
    (hvalue : ∀ v, g.Reaches root v → v ≠ root → value v = 0) (v : ν) :
    g.sweep (g.postOrder root).reverse value v =
      if v ∈ g.postOrder root then g.total root v • value root else value v := by
  obtain ⟨hordered, hmem⟩ := g.postOrder_spec root
  generalize g.postOrder root = order at hordered hmem
  have hclosed : ∀ u ∈ order.toFinset, ∀ e ∈ g.edges u, e.1 ∈ order.toFinset := by
    intro u hu e he
    rw [List.mem_toFinset] at hu ⊢
    exact hordered.mem_of_edge hu ⟨e, he, rfl⟩
  have hroot : root ∈ order.toFinset := List.mem_toFinset.2 ((hmem root).2 (Reaches.refl root))
  -- a node has what its sources gave to it, and on its turn this is all
  have hinit : ∀ done rest, order.reverse = done ++ rest → ∀ v,
      g.sweep done value v =
        value v + ∑ x ∈ done.toFinset, g.edgeWeight x v • g.total root x • value root := by
    intro done
    induction done using List.reverseRecOn with
    | nil => intro rest _ v; simp [sweep]
    | append_singleton done u ih =>
      intro rest hsplit v
      rw [List.append_assoc, List.singleton_append] at hsplit
      have horder : order = rest.reverse ++ u :: done.reverse := by
        rw [← List.reverse_reverse order, hsplit]
        simp
      have hu : u ∈ order := by rw [horder]; simp
      have hsubset : done.toFinset ⊆ order.toFinset := fun x hx => by
        rw [List.mem_toFinset] at hx ⊢
        rw [horder]
        simp [hx]
      have hsources : ∀ x ∈ order.toFinset, g.Edge x u → x ∈ done.toFinset := fun x hx hedge => by
        rw [List.mem_toFinset] at hx ⊢
        exact List.mem_reverse.1 (hordered.source_mem horder hx hedge)
      have hturn : g.sweep done value u = g.total root u • value root := by
        rw [ih _ hsplit u, value_add_sum hclosed hroot hsubset hsources (hvalue u ((hmem u).1 hu))]
      have hnew : u ∉ done.toFinset := fun h => by
        have hnodup := hordered.nodup
        rw [horder] at hnodup
        exact (List.nodup_cons.1 hnodup.of_append_right).1 (by simpa using h)
      have hstep : g.sweep (done ++ [u]) value = g.spread u (g.sweep done value) := by
        simp [sweep]
      rw [hstep, spread_apply, hturn, ih _ hsplit v, List.toFinset_append,
        Finset.union_comm, List.toFinset_cons, List.toFinset_nil, insert_empty_eq,
        ← Finset.insert_eq, Finset.sum_insert hnew]
      abel
  rw [hinit order.reverse [] (List.append_nil _).symm v, List.toFinset_reverse]
  split_ifs with hv
  · exact value_add_sum hclosed hroot (Finset.Subset.refl _) (fun x hx _ => hx)
      (hvalue v ((hmem v).1 hv))
  · rw [Finset.sum_eq_zero, add_zero]
    intro x hx
    rw [edgeWeight_eq_zero fun h => hv (hordered.mem_of_edge (List.mem_toFinset.1 hx) h),
      zero_smul]

end Sweep

end Dag

end ReverseMode
