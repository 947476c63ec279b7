import Mathlib.Tactic.SplitIfs
import Resonantia.Library.Bytes
import Resonantia.Library.Transition

/-!
# Directories and operations that may fail or crash

A directory is a list of names with contents, in the order in which it is listed. A process works
on it by system calls. The environment lets every call succeed, fail, or be the last thing that the
process does; a call that does not succeed may have done a part of its work. Listing the directory
gives its entries in any order.

## Main definitions

* `FileSystem.Files`, `FileSystem.find`, `FileSystem.put`, `FileSystem.erase`, `FileSystem.rename`:
  directories.
* `FileSystem.Environment`, `FileSystem.World`, `FileSystem.FileM`: faults, and operations under
  them.
* `FileSystem.syscall`: one system call.
* `FileSystem.succeeds`: a call whose failure is left to the caller.

## Main results

* `FileSystem.find_put`, `FileSystem.find_erase`, `FileSystem.find_rename`: contents after a change.
* `FileSystem.triple_syscall`, `FileSystem.triple_succeeds`: the rules of one call.
-/

namespace FileSystem

open ByteString Effect

abbrev FileName := Bytes

abbrev Files := List (FileName × Bytes)

/-! ### Directories -/

/-- The content of the file with this name. -/
def find (files : Files) (name : FileName) : Option Bytes := files.lookup name

def erase (files : Files) (name : FileName) : Files := files.filter fun file => file.1 ≠ name

/-- The file with this name and content instead of any of that name before. -/
def put (files : Files) (name : FileName) (content : Bytes) : Files :=
  erase files name ++ [(name, content)]

/-- Renaming replaces a file that has the new name. -/
def rename (files : Files) (source target : FileName) : Files :=
  match find files source with
  | none => files
  | some content => put (erase files source) target content

/-- The names of a directory differ. -/
def Distinct (files : Files) : Prop := (files.map Prod.fst).Nodup

variable {files : Files} {name name' : FileName} {content : Bytes}

@[simp]
theorem find_nil : find [] name = none := rfl

theorem find_cons : find ((name', content) :: files) name =
    if name = name' then some content else find files name := by
  rw [find, List.lookup_cons]
  by_cases h : name = name'
  · simp [h]
  · have hbeq : (name == name') = false := by simpa using h
    rw [hbeq, if_neg h, find]

theorem find_erase :
    find (erase files name) name' = if name' = name then none else find files name' := by
  induction files with
  | nil => simp [erase]
  | cons file files ih =>
    obtain ⟨n, c⟩ := file
    rw [erase] at ih ⊢
    by_cases hn : n = name
    · rw [List.filter_cons_of_neg (by simpa using hn), ih, find_cons, hn]
      split_ifs <;> rfl
    · rw [List.filter_cons_of_pos (by simpa using hn), find_cons, ih, find_cons]
      by_cases hname : name' = n
      · rw [if_pos hname, if_neg (fun h => hn (hname ▸ h)), if_pos hname]
      · rw [if_neg hname, if_neg hname]

theorem find_append_singleton (h : find files name = none) :
    find (files ++ [(name, content)]) name' =
      if name' = name then some content else find files name' := by
  induction files with
  | nil => rw [List.nil_append, find_cons]
  | cons file files ih =>
    obtain ⟨n, c⟩ := file
    rw [find_cons] at h
    by_cases hn : name = n
    · rw [if_pos hn] at h
      cases h
    · rw [if_neg hn] at h
      rw [List.cons_append, find_cons, ih h, find_cons]
      by_cases hname : name' = n
      · rw [if_pos hname, if_neg fun heq : name' = name => hn (heq ▸ hname), if_pos hname]
      · rw [if_neg hname, if_neg hname]

theorem find_put : find (put files name content) name' =
    if name' = name then some content else find files name' := by
  have hnone : find (erase files name) name = none := by rw [find_erase, if_pos rfl]
  rw [put, find_append_singleton hnone, find_erase]
  split_ifs <;> rfl

theorem find_rename {source target : FileName} (h : find files source = some content) :
    find (rename files source target) name =
      if name = target then some content
      else if name = source then none else find files name := by
  rw [rename, h]
  dsimp only
  rw [find_put, find_erase]

theorem find_eq_none_iff : find files name = none ↔ name ∉ files.map Prod.fst := by
  induction files with
  | nil => simp
  | cons file files ih =>
    obtain ⟨n, c⟩ := file
    rw [find_cons, List.map_cons, List.mem_cons, not_or]
    by_cases hn : name = n
    · simp [hn]
    · rw [if_neg hn, ih]
      simp [hn]

theorem mem_of_find (h : find files name = some content) : (name, content) ∈ files := by
  induction files with
  | nil => cases h
  | cons file files ih =>
    obtain ⟨n, c⟩ := file
    rw [find_cons] at h
    by_cases hn : name = n
    · rw [if_pos hn] at h
      rw [hn, ← Option.some.inj h]
      exact List.mem_cons_self
    · rw [if_neg hn] at h
      exact List.mem_cons_of_mem _ (ih h)

theorem find_of_mem (hdistinct : Distinct files) (h : (name, content) ∈ files) :
    find files name = some content := by
  induction files with
  | nil => cases h
  | cons file files ih =>
    obtain ⟨n, c⟩ := file
    rw [Distinct, List.map_cons, List.nodup_cons] at hdistinct
    rw [find_cons]
    rcases List.mem_cons.1 h with heq | hmem
    · obtain ⟨rfl, rfl⟩ := Prod.mk.inj heq
      rw [if_pos rfl]
    · have hn : name ≠ n := by
        rintro rfl
        exact hdistinct.1 (List.mem_map.2 ⟨_, hmem, rfl⟩)
      rw [if_neg hn]
      exact ih hdistinct.2 hmem

/-- The order of a directory does not matter. -/
theorem find_perm {files' : Files} (hdistinct : Distinct files) (h : files.Perm files') :
    find files name = find files' name := by
  have hdistinct' : Distinct files' := (h.map Prod.fst).nodup_iff.1 hdistinct
  cases hfind : find files' name with
  | none => rw [find_eq_none_iff, (h.map Prod.fst).mem_iff, ← find_eq_none_iff, hfind]
  | some c => exact find_of_mem hdistinct (h.mem_iff.2 (mem_of_find hfind))

theorem erase_eq_self (h : find files name = none) : erase files name = files := by
  rw [find_eq_none_iff] at h
  rw [erase, List.filter_eq_self]
  rintro ⟨n, c⟩ hmem
  have hne : n ≠ name := by
    rintro rfl
    exact h (List.mem_map.2 ⟨_, hmem, rfl⟩)
  simpa using hne

theorem put_eq_append (h : find files name = none) :
    put files name content = files ++ [(name, content)] := by
  rw [put, erase_eq_self h]

theorem Distinct.erase (h : Distinct files) (name : FileName) : Distinct (erase files name) :=
  List.Nodup.sublist (List.Sublist.map _ List.filter_sublist) h

theorem Distinct.put (h : Distinct files) (name : FileName) (content : Bytes) :
    Distinct (put files name content) := by
  rw [FileSystem.put, Distinct, List.map_append, List.nodup_append]
  refine ⟨h.erase name, by simp, ?_⟩
  rintro n hn _ hmem rfl
  obtain rfl := List.mem_singleton.1 hmem
  obtain ⟨file, hfile, rfl⟩ := List.mem_map.1 hn
  simpa using (List.mem_filter.1 hfile).2

theorem Distinct.rename (h : Distinct files) (source target : FileName) :
    Distinct (rename files source target) := by
  rw [FileSystem.rename]
  split
  · exact h
  · exact (h.erase source).put target _

/-! ### Operations under faults -/

/-- What the environment does to one system call; a part of the work may be done. -/
inductive Fault
  | none
  | fail (part : ℕ)
  | crash (part : ℕ)
deriving DecidableEq

/-- Why an operation does not return: an error with its message, or the death of the process. -/
inductive Stop
  | failed (message : String)
  | crashed
deriving DecidableEq

/-- The faults by the number of the call, and the order in which directories are listed. -/
structure Environment where
  fault : ℕ → Fault
  listing : Files → Files
  listing_perm : ∀ files, (listing files).Perm files

/-- Nothing fails. -/
def Environment.Calm (environment : Environment) : Prop := ∀ i, environment.fault i = .none

/-- A directory, the names that were renamed into place so far, and the memory of the process. -/
structure World (μ : Type) where
  files : Files
  renamed : List FileName
  memory : μ
  environment : Environment
  ticks : ℕ

abbrev FileM (μ : Type) := ExceptT Stop (StateM (World μ))

variable {μ α : Type}

/-- One system call: what it does when it succeeds, and what it may have done otherwise. -/
def syscall (message : String) (done : World μ → World μ) (part : ℕ → World μ → World μ) :
    FileM μ Unit := do
  let w ← get
  let next := { w with ticks := w.ticks + 1 }
  match w.environment.fault w.ticks with
  | .none => set (done next)
  | .fail n =>
    set (part n next)
    throw (.failed message)
  | .crash n =>
    set (part n next)
    throw .crashed

/-- A call that changes no file. -/
def check (message : String) : FileM μ Unit := syscall message id fun _ => id

/-- The same world at the next call. -/
def World.next (w : World μ) : World μ := { w with ticks := w.ticks + 1 }

theorem exec_syscall (message : String) (done : World μ → World μ) (part : ℕ → World μ → World μ)
    (w : World μ) : exec (syscall message done part) w =
      match w.environment.fault w.ticks with
      | .none => (.ok (), done w.next)
      | .fail n => (.error (.failed message), part n w.next)
      | .crash n => (.error .crashed, part n w.next) := by
  rw [syscall, exec_get_bind]
  dsimp only
  cases w.environment.fault w.ticks <;> rfl

/-- The rule of one call. A call that stops shows that the environment is not calm. -/
theorem triple_syscall {P : World μ → Prop} {Q : Unit → World μ → Prop}
    {E : Stop → World μ → Prop} {message : String} {done : World μ → World μ}
    {part : ℕ → World μ → World μ} (hdone : ∀ w, P w → Q () (done w.next))
    (hstop : ∀ w, P w → ¬w.environment.Calm → ∀ stop n, E stop (part n w.next)) :
    Triple P (syscall message done part) Q E := by
  intro w hw
  rw [exec_syscall]
  cases hfault : w.environment.fault w.ticks with
  | none => exact hdone w hw
  | fail n => exact hstop w hw (fun h => by rw [h] at hfault; cases hfault) _ n
  | crash n => exact hstop w hw (fun h => by rw [h] at hfault; cases hfault) _ n

/-- A world up to the number of its next call. -/
structure At (files : Files) (renamed : List FileName) (memory : μ) (environment : Environment)
    (w : World μ) : Prop where
  files : w.files = files
  renamed : w.renamed = renamed
  memory : w.memory = memory
  environment : w.environment = environment

/-- A check changes nothing. -/
theorem triple_check {files : Files} {renamed : List FileName} {memory : μ}
    {environment : Environment} {E : Stop → World μ → Prop} {message : String}
    (hstop : ∀ w stop, ¬environment.Calm → At files renamed memory environment w → E stop w) :
    Triple (At files renamed memory environment) (check message)
      (fun _ => At files renamed memory environment) E := by
  refine triple_syscall (fun w hw => ⟨hw.files, hw.renamed, hw.memory, hw.environment⟩) ?_
  intro w hw hcalm stop n
  refine hstop _ stop ?_ ⟨hw.files, hw.renamed, hw.memory, hw.environment⟩
  rw [← hw.environment]
  exact hcalm

/-- Whether a call succeeds. A failure is left to the caller, the end of the process is not. -/
def succeeds (x : FileM μ Unit) : FileM μ Bool :=
  tryCatch (do x; pure true) fun
    | .crashed => throw .crashed
    | .failed _ => pure false

/-- The rule of a call whose failure is left to the caller. One that does not succeed shows that the
environment is not calm. -/
theorem triple_succeeds_of_not_calm {P : World μ → Prop} {Q : Bool → World μ → Prop}
    {E : Stop → World μ → Prop} {message : String} {done : World μ → World μ}
    {part : ℕ → World μ → World μ} (hdone : ∀ w, P w → Q true (done w.next))
    (hpart : ∀ w, P w → ¬w.environment.Calm → ∀ n,
      Q false (part n w.next) ∧ E .crashed (part n w.next)) :
    Triple P (succeeds (syscall message done part)) Q E := by
  refine @triple_tryCatch _ _ _ _ _ _ (fun stop w => match stop with
    | .crashed => E .crashed w
    | .failed _ => Q false w) _ _ ?_ fun stop => ?_
  · refine triple_bind (Q := fun _ => Q true) (triple_syscall hdone ?_) fun _ =>
      triple_pure fun w hw => hw
    intro w hw hcalm stop n
    cases stop with
    | crashed => exact (hpart w hw hcalm n).2
    | failed message => exact (hpart w hw hcalm n).1
  · cases stop with
    | crashed => exact triple_throw fun w hw => hw
    | failed message => exact triple_pure fun w hw => hw

/-- The rule of a call whose failure is left to the caller. -/
theorem triple_succeeds {P : World μ → Prop} {Q : Bool → World μ → Prop}
    {E : Stop → World μ → Prop} {message : String} {done : World μ → World μ}
    {part : ℕ → World μ → World μ} (hdone : ∀ w, P w → Q true (done w.next))
    (hpart : ∀ w, P w → ∀ n, Q false (part n w.next) ∧ E .crashed (part n w.next)) :
    Triple P (succeeds (syscall message done part)) Q E :=
  triple_succeeds_of_not_calm hdone fun w hw _ => hpart w hw

end FileSystem
