import Mathlib.Tactic.SplitIfs
import Resonantia.Library.Bytes

/-!
# Files and directories that are moved between places

A process asks for, renames and removes the files and directories at some places. The environment
lets every call succeed or fail. A failed renaming changes nothing; a failed removal may leave
anything at its place.

## Main definitions

* `Places.Node`: a file or a directory.
* `Places.World`: what is at each place, and the faults to come.
* `Places.statusAt`, `Places.existsAt`, `Places.rename`, `Places.removeAll`: the calls.

## Main results

* `Places.existsAt_cases`, `Places.rename_cases`, `Places.removeAll_cases`: what a call does.
* `Places.rename_of_fault_eq_none`, `Places.removeAll_of_fault_eq_none`: the calls that succeed.
-/

namespace Places

open ByteString

/-- A file with its content, or a directory with its entries. -/
inductive Node
  | file (content : Bytes)
  | directory (entries : List (Bytes × Node))

/-- What the environment does to one call; a removal that fails leaves the rest. -/
inductive Fault
  | none
  | fail (message : String) (rest : Option Node)

variable {P : Type}

structure World (P : Type) where
  node : P → Option Node
  fault : ℕ → Fault
  ticks : ℕ

/-- The same world at the next call. -/
def World.next (w : World P) : World P := { w with ticks := w.ticks + 1 }

@[simp]
theorem node_next (w : World P) : w.next.node = w.node := rfl

section

variable [DecidableEq P]

def World.set (w : World P) (p : P) (node : Option Node) : World P :=
  { w with node := fun q => if q = p then node else w.node q }

@[simp]
theorem node_set_self (w : World P) (p : P) (node : Option Node) : (w.set p node).node p = node :=
  if_pos rfl

theorem node_set_of_ne {w : World P} {p q : P} {node : Option Node} (h : q ≠ p) :
    (w.set p node).node q = w.node q := if_neg h

end

/-! ### Calls -/

/-- What stands at a place. -/
def statusAt (p : P) (w : World P) : Except String (Option Node) × World P :=
  match w.fault w.ticks with
  | .none => (.ok (w.node p), w.next)
  | .fail message _ => (.error message, w.next)

def existsAt (p : P) (w : World P) : Except String Bool × World P :=
  match statusAt p w with
  | (.ok node, w) => (.ok node.isSome, w)
  | (.error message, w) => (.error message, w)

/-- A file replaces a file, and a directory replaces an empty directory. -/
def replaces : Node → Option Node → Except String Unit
  | _, none => .ok ()
  | .file _, some (.file _) => .ok ()
  | .file _, some (.directory _) => .error "Is a directory"
  | .directory _, some (.file _) => .error "Not a directory"
  | .directory _, some (.directory []) => .ok ()
  | .directory _, some (.directory (_ :: _)) => .error "Directory not empty"

variable [DecidableEq P]

def rename (source target : P) (w : World P) : Except String Unit × World P :=
  match w.fault w.ticks with
  | .fail message _ => (.error message, w.next)
  | .none =>
    match w.node source with
    | none => (.error "No such file or directory", w.next)
    | some node =>
      match replaces node (w.node target) with
      | .error message => (.error message, w.next)
      | .ok () => (.ok (), (w.next.set source none).set target (some node))

def removeAll (p : P) (w : World P) : Except String Unit × World P :=
  match w.fault w.ticks with
  | .none => (.ok (), w.next.set p none)
  | .fail message rest => (.error message, w.next.set p rest)

/-! ### What a call does -/

variable {w w' : World P} {p q : P}

omit [DecidableEq P] in
theorem node_of_statusAt {result : Except String (Option Node)} (h : statusAt p w = (result, w')) :
    w'.node = w.node ∧ ∀ node, result = .ok node → node = w.node p := by
  rw [statusAt] at h
  split at h
  · obtain ⟨rfl, rfl⟩ := Prod.mk.inj h
    exact ⟨rfl, fun node hnode => (Except.ok.inj hnode).symm⟩
  · obtain ⟨rfl, rfl⟩ := Prod.mk.inj h
    exact ⟨rfl, fun node hnode => by cases hnode⟩

omit [DecidableEq P] in
theorem existsAt_cases {result : Except String Bool} (h : existsAt p w = (result, w')) :
    w'.node = w.node ∧ ∀ b, result = .ok b → b = (w.node p).isSome := by
  rw [existsAt] at h
  split at h
  · rename_i hstatus
    obtain ⟨hnode, hvalue⟩ := node_of_statusAt hstatus
    obtain ⟨rfl, rfl⟩ := Prod.mk.inj h
    refine ⟨hnode, fun b hb => ?_⟩
    rw [← Except.ok.inj hb, hvalue _ rfl]
  · rename_i hstatus
    obtain ⟨rfl, rfl⟩ := Prod.mk.inj h
    exact ⟨(node_of_statusAt hstatus).1, fun b hb => by cases hb⟩

/-- A renaming moves what stands at the source, or fails and changes nothing. -/
theorem rename_cases {result : Except String Unit} (hne : p ≠ q)
    (h : rename p q w = (result, w')) :
    (∃ node, result = .ok () ∧ w.node p = some node ∧ w'.node q = some node ∧ w'.node p = none ∧
      ∀ r, r ≠ p → r ≠ q → w'.node r = w.node r) ∨
    ((∃ message, result = .error message) ∧ w'.node = w.node) := by
  rw [rename] at h
  split at h
  · obtain ⟨rfl, rfl⟩ := Prod.mk.inj h
    exact Or.inr ⟨⟨_, rfl⟩, rfl⟩
  split at h
  · obtain ⟨rfl, rfl⟩ := Prod.mk.inj h
    exact Or.inr ⟨⟨_, rfl⟩, rfl⟩
  · rename_i node hnode
    split at h
    · obtain ⟨rfl, rfl⟩ := Prod.mk.inj h
      exact Or.inr ⟨⟨_, rfl⟩, rfl⟩
    · obtain ⟨rfl, rfl⟩ := Prod.mk.inj h
      refine Or.inl ⟨node, rfl, hnode, node_set_self _ _ _, ?_, fun r hp hq => ?_⟩
      · rw [node_set_of_ne hne, node_set_self]
      · rw [node_set_of_ne hq, node_set_of_ne hp, node_next]

theorem removeAll_cases {result : Except String Unit} (h : removeAll p w = (result, w')) :
    (∀ r, r ≠ p → w'.node r = w.node r) ∧ (result = .ok () → w'.node p = none) := by
  rw [removeAll] at h
  split at h
  · obtain ⟨rfl, rfl⟩ := Prod.mk.inj h
    exact ⟨fun r hr => node_set_of_ne hr, fun _ => node_set_self _ _ _⟩
  · obtain ⟨rfl, rfl⟩ := Prod.mk.inj h
    exact ⟨fun r hr => node_set_of_ne hr, fun hok => by cases hok⟩

/-! ### Faults to come -/

section

omit [DecidableEq P]

@[simp]
theorem fault_next (w : World P) : w.next.fault = w.fault := rfl

@[simp]
theorem ticks_next (w : World P) : w.next.ticks = w.ticks + 1 := rfl

theorem fault_statusAt (p : P) (w : World P) :
    (statusAt p w).2.fault = w.fault ∧ (statusAt p w).2.ticks = w.ticks + 1 := by
  rw [statusAt]
  split <;> exact ⟨rfl, rfl⟩

theorem fault_existsAt (p : P) (w : World P) :
    (existsAt p w).2.fault = w.fault ∧ (existsAt p w).2.ticks = w.ticks + 1 := by
  rw [existsAt]
  split
  · rename_i hstatus
    rw [← congrArg Prod.snd hstatus]
    exact fault_statusAt p w
  · rename_i hstatus
    rw [← congrArg Prod.snd hstatus]
    exact fault_statusAt p w

end

@[simp]
theorem fault_set (w : World P) (p : P) (node : Option Node) : (w.set p node).fault = w.fault := rfl

@[simp]
theorem ticks_set (w : World P) (p : P) (node : Option Node) : (w.set p node).ticks = w.ticks := rfl

theorem fault_rename (p q : P) (w : World P) :
    (rename p q w).2.fault = w.fault ∧ (rename p q w).2.ticks = w.ticks + 1 := by
  rw [rename]
  split
  · exact ⟨rfl, rfl⟩
  split
  · exact ⟨rfl, rfl⟩
  · split <;> exact ⟨rfl, rfl⟩

theorem fault_removeAll (p : P) (w : World P) :
    (removeAll p w).2.fault = w.fault ∧ (removeAll p w).2.ticks = w.ticks + 1 := by
  rw [removeAll]
  split <;> exact ⟨rfl, rfl⟩

/-- A renaming to an empty place succeeds, if the environment lets it. -/
theorem rename_of_fault_eq_none {node : Node} (hfault : w.fault w.ticks = .none)
    (hsource : w.node p = some node) (htarget : w.node q = none) :
    (rename p q w).1 = .ok () := by
  have hreplaces : replaces node (w.node q) = .ok () := by
    rw [htarget]
    cases node <;> rfl
  simp only [rename, hfault, hsource, hreplaces]

theorem removeAll_of_fault_eq_none (hfault : w.fault w.ticks = .none) :
    (removeAll p w).1 = .ok () := by
  rw [removeAll, hfault]

end Places
