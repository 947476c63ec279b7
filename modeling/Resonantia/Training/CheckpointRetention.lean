import Mathlib.Data.List.Induction
import Mathlib.Data.List.Nodup
import Mathlib.Data.List.Perm.Subperm
import Mathlib.Order.Basic
import Resonantia.Library.Json

/-!
# Retained checkpoints of a training run

After every save the training program removes all but the two checkpoints with the highest names.
The run may be resumed from any checkpoint that is left, and a checkpoint of a later step may then
still be there.

## Main definitions

* `Training.saveState`: a save and the removals after it.
* `Training.latestFullCheckpoint`: the checkpoint that is offered for resuming.
* `Training.TrainingRun`, `Training.perform`: saves and resumes.
* `Training.LeftBehind`: a later checkpoint at the resume of an older one.

## Main results

* `Training.Held.perform`: every save and every resume keeps the invariant of the directory.
* `Training.leftBehind_of_lt`: only a resume of an older checkpoint leaves a later one.
* `Training.retention`: what a directory holds after a save.
-/

namespace Resonantia.Training

open ByteString Json

/-! ### The directory -/

/-- An entry of a directory; a checkpoint is a regular file that records its step. -/
inductive FolderEntry
  | checkpoint (step : ℕ)
  | file (content : Bytes)
  | directory
  | link
deriving DecidableEq

def FolderEntry.isRegular : FolderEntry → Bool
  | .checkpoint _ | .file _ => true
  | .directory | .link => false

/-- A checkpoint is not empty. -/
def FolderEntry.hasContent : FolderEntry → Bool
  | .checkpoint _ => true
  | .file content => content ≠ []
  | .directory | .link => false

/-- The entries of a directory, under different names. -/
structure Directory where
  entries : List (Bytes × FolderEntry)
  nodup : (entries.map Prod.fst).Nodup

/-- Write a file under a name, in place of what had the name before. -/
def Directory.put (d : Directory) (name : Bytes) (entry : FolderEntry) : Directory where
  entries := (name, entry) :: d.entries.filter fun e => e.1 ≠ name
  nodup := by
    rw [List.map_cons, List.nodup_cons]
    refine ⟨fun hmem => ?_, d.nodup.sublist (List.filter_sublist.map _)⟩
    obtain ⟨e, he, hname⟩ := List.mem_map.1 hmem
    exact of_decide_eq_true (List.mem_filter.1 he).2 hname

/-- Remove the entries with these names. -/
def Directory.remove (d : Directory) (names : List Bytes) : Directory where
  entries := d.entries.filter fun e => e.1 ∉ names
  nodup := d.nodup.sublist (List.filter_sublist.map _)

/-! ### Saving -/

/-- The number of digits in the name of a checkpoint. -/
def kDigits : ℕ := 10

def kStatePrefix : Bytes := bytes "state_step_"

def kStateSuffix : Bytes := bytes ".safetensors"

/-- `numbered`. -/
def numbered (before : Bytes) (value : ℕ) (after : Bytes) : Bytes :=
  before ++ (List.replicate (kDigits - (decimalText value).length) (byte '0') ++ decimalText value) ++
    after

def stateName (step : ℕ) : Bytes := numbered kStatePrefix step kStateSuffix

/-- `checkpoint_name`. -/
def checkpointName (name : Bytes) : Bool :=
  name.length == 33 && kStatePrefix.isPrefixOf name && kStateSuffix.isSuffixOf name &&
    ((name.drop 11).take kDigits).all isDigit

/-- The names of the regular files that are named like checkpoints. -/
def retained (d : Directory) : List Bytes :=
  (d.entries.filter fun e => checkpointName e.1 && e.2.isRegular).map Prod.fst

/-- All but the two highest names, which are removed after a save. -/
def pruned (d : Directory) : List Bytes :=
  let checkpoints := (retained d).mergeSort fun a b => decide (a ≤ b)
  checkpoints.take (checkpoints.length - 2)

/-- `save_state`; a file does not replace a directory. -/
def saveState (d : Directory) (step : ℕ) : Option Directory :=
  if (stateName step, FolderEntry.directory) ∈ d.entries then none
  else
    let d := d.put (stateName step) (.checkpoint step)
    some (d.remove (pruned d))

/-- `latest_full_checkpoint`: the name of the checkpoint. -/
def latestFullCheckpoint (d : Directory) : Option Bytes :=
  d.entries.foldl (fun latest e =>
    if checkpointName e.1 && e.2.isRegular && e.2.hasContent &&
        (latest.all fun name => decide (name < e.1)) then some e.1
    else latest) none

/-! ### Runs -/

/-- The directory of a run and the step that its trainer has reached. -/
structure TrainingRun where
  directory : Directory
  step : ℕ

/-- Train up to a step and save there, or start again from a checkpoint. -/
inductive TrainingEvent
  | save (step : ℕ)
  | resume (name : Bytes) (step : ℕ)

/-- The largest step, an `int`. -/
def kMaxStep : ℕ := 2147483647

def perform (s : TrainingRun) : TrainingEvent → Option TrainingRun
  | .save step =>
    if s.step ≤ step ∧ step ≤ kMaxStep then (saveState s.directory step).map fun d => ⟨d, step⟩
    else none
  | .resume name step =>
    if (name, FolderEntry.checkpoint step) ∈ s.directory.entries then some { s with step } else none

def runEvents (s : TrainingRun) (events : List TrainingEvent) : Option TrainingRun :=
  events.foldlM perform s

/-- A directory without checkpoints, in which a run starts. -/
def Fresh (d : Directory) : Prop :=
  retained d = [] ∧ ∀ e ∈ d.entries, ∀ step, e.2 ≠ .checkpoint step

/-! ### Names of checkpoints -/

theorem decimal_lt_of_head {v w : ℕ} {a b : Bytes} (ha : ∀ c ∈ a, isDigit c = true) (h : v < w)
    (hlength : a.length = b.length) : decimal v a < decimal w b := by
  induction a generalizing v w b with
  | nil =>
    obtain rfl := List.length_eq_zero_iff.1 hlength.symm
    exact h
  | cons c a ih =>
    cases b with
    | nil => cases hlength
    | cons d b =>
      rw [decimal_cons, decimal_cons]
      have hdigit := ha c List.mem_cons_self
      have hle : c.toNat ≤ 57 := by
        simp only [isDigit, Bool.and_eq_true, decide_eq_true_eq, UInt8.le_iff_toNat_le] at hdigit
        exact hdigit.2
      exact ih (fun x hx => ha x (List.mem_cons_of_mem _ hx)) (by omega) (Nat.succ.inj hlength)

/-- Digit strings of one length are ordered like their values. -/
theorem lt_iff_decimal_lt {v : ℕ} {a b : Bytes} (ha : ∀ c ∈ a, isDigit c = true)
    (hb : ∀ c ∈ b, isDigit c = true) (hlength : a.length = b.length) :
    a < b ↔ decimal v a < decimal v b := by
  induction a generalizing v b with
  | nil =>
    obtain rfl := List.length_eq_zero_iff.1 hlength.symm
    exact iff_of_false (List.lt_irrefl _) (Nat.lt_irrefl _)
  | cons c a ih =>
    cases b with
    | nil => cases hlength
    | cons d b =>
      have hc : 48 ≤ c.toNat ∧ c.toNat ≤ 57 := by
        have := ha c List.mem_cons_self
        simp only [isDigit, Bool.and_eq_true, decide_eq_true_eq, UInt8.le_iff_toNat_le] at this
        exact this
      have hd : 48 ≤ d.toNat ∧ d.toNat ≤ 57 := by
        have := hb d List.mem_cons_self
        simp only [isDigit, Bool.and_eq_true, decide_eq_true_eq, UInt8.le_iff_toNat_le] at this
        exact this
      have ha' : ∀ x ∈ a, isDigit x = true := fun x hx => ha x (List.mem_cons_of_mem _ hx)
      have hb' : ∀ x ∈ b, isDigit x = true := fun x hx => hb x (List.mem_cons_of_mem _ hx)
      rw [List.cons_lt_cons_iff, decimal_cons, decimal_cons, UInt8.lt_iff_toNat_lt]
      rcases Nat.lt_trichotomy c.toNat d.toNat with hlt | heq | hlt
      · exact iff_of_true (Or.inl hlt)
          (decimal_lt_of_head ha' (by omega) (Nat.succ.inj hlength))
      · obtain rfl := UInt8.toNat_inj.1 heq
        rw [← ih ha' hb' (Nat.succ.inj hlength)]
        simp
      · refine iff_of_false ?_ (Nat.not_lt.2 (Nat.le_of_lt
          (decimal_lt_of_head hb' (by omega) (Nat.succ.inj hlength).symm)))
        rintro (h | ⟨rfl, -⟩)
        · omega
        · omega

/-- The digits of a name. -/
def stepText (step : ℕ) : Bytes :=
  List.replicate (kDigits - (decimalText step).length) (byte '0') ++ decimalText step

theorem decimal_stepText (step : ℕ) : decimal 0 (stepText step) = step := by
  rw [stepText]
  generalize kDigits - (decimalText step).length = n
  induction n with
  | zero => exact decimal_decimalText step
  | succ n ih =>
    rw [List.replicate_succ, List.cons_append, decimal_cons]
    exact ih

theorem isDigit_stepText {step : ℕ} : ∀ c ∈ stepText step, isDigit c = true := by
  intro c hc
  rcases List.mem_append.1 hc with hc | hc
  · rw [List.eq_of_mem_replicate hc]
    decide
  · exact isDigit_decimalText hc

theorem length_stepText {step : ℕ} (h : step ≤ kMaxStep) : (stepText step).length = 10 := by
  have hlength : (decimalText step).length ≤ 10 :=
    length_decimalText_le (by decide) (Nat.lt_of_le_of_lt h (by decide))
  rw [stepText, List.length_append, List.length_replicate, kDigits]
  omega

theorem append_lt_append_iff {a b c : Bytes} : a ++ b < a ++ c ↔ b < c := by
  induction a with
  | nil => rfl
  | cons x a ih =>
    rw [List.cons_append, List.cons_append, List.cons_lt_cons_iff, ih]
    simp

theorem lt_append_iff {a b c : Bytes} (h : a.length = b.length) : a ++ c < b ++ c ↔ a < b := by
  induction a generalizing b with
  | nil =>
    obtain rfl := List.length_eq_zero_iff.1 h.symm
    exact iff_of_false (List.lt_irrefl _) (List.lt_irrefl _)
  | cons x a ih =>
    cases b with
    | nil => cases h
    | cons y b =>
      rw [List.cons_append, List.cons_append, List.cons_lt_cons_iff, List.cons_lt_cons_iff,
        ih (Nat.succ.inj h)]

/-- Names are ordered like steps. -/
theorem stateName_lt_iff {s t : ℕ} (hs : s ≤ kMaxStep) (ht : t ≤ kMaxStep) :
    stateName s < stateName t ↔ s < t := by
  have hlength : (stepText s).length = (stepText t).length := by
    rw [length_stepText hs, length_stepText ht]
  show kStatePrefix ++ stepText s ++ kStateSuffix < kStatePrefix ++ stepText t ++ kStateSuffix ↔ s < t
  rw [List.append_assoc, List.append_assoc, append_lt_append_iff, lt_append_iff hlength,
    lt_iff_decimal_lt (v := 0) isDigit_stepText isDigit_stepText hlength, decimal_stepText,
    decimal_stepText]

theorem stateName_inj {s t : ℕ} (hs : s ≤ kMaxStep) (ht : t ≤ kMaxStep)
    (h : stateName s = stateName t) : s = t := by
  rcases Nat.lt_trichotomy s t with hlt | heq | hlt
  · have := (stateName_lt_iff hs ht).2 hlt
    rw [h] at this
    exact absurd this (List.lt_irrefl _)
  · exact heq
  · have := (stateName_lt_iff ht hs).2 hlt
    rw [h] at this
    exact absurd this (List.lt_irrefl _)

theorem checkpointName_stateName {step : ℕ} (h : step ≤ kMaxStep) :
    checkpointName (stateName step) = true := by
  have hlength := length_stepText h
  have hname : stateName step = kStatePrefix ++ (stepText step ++ kStateSuffix) :=
    List.append_assoc _ _ _
  have hdigits : ((stateName step).drop 11).take kDigits = stepText step := by
    have hprefix' : kStatePrefix.length = 11 := by decide
    have hdigits' : (stepText step).length = kDigits := hlength
    rw [hname, List.drop_left' hprefix', List.take_left' hdigits']
  rw [checkpointName, hdigits]
  simp only [Bool.and_eq_true]
  refine ⟨⟨⟨?_, ?_⟩, ?_⟩, List.all_eq_true.2 isDigit_stepText⟩
  · rw [hname, List.length_append, List.length_append, hlength]
    decide
  · rw [List.isPrefixOf_iff_prefix, hname]
    exact List.prefix_append _ _
  · rw [List.isSuffixOf_iff_suffix, hname, ← List.append_assoc]
    exact List.suffix_append _ _

/-! ### One save -/

theorem mem_retained {d : Directory} {name : Bytes} : name ∈ retained d ↔
    ∃ entry, (name, entry) ∈ d.entries ∧ checkpointName name = true ∧ entry.isRegular = true := by
  rw [retained, List.mem_map]
  constructor
  · rintro ⟨⟨n, entry⟩, hmem, rfl⟩
    obtain ⟨hmem, hname⟩ := List.mem_filter.1 hmem
    exact ⟨entry, hmem, Bool.and_eq_true_iff.1 hname⟩
  · rintro ⟨entry, hmem, hname⟩
    exact ⟨(name, entry), List.mem_filter.2 ⟨hmem, Bool.and_eq_true_iff.2 hname⟩, rfl⟩

theorem nodup_retained (d : Directory) : (retained d).Nodup :=
  d.nodup.sublist (List.filter_sublist.map _)

theorem mem_put {d : Directory} {name : Bytes} {entry : FolderEntry} {e : Bytes × FolderEntry} :
    e ∈ (d.put name entry).entries ↔ e = (name, entry) ∨ e ∈ d.entries ∧ e.1 ≠ name := by
  rw [Directory.put, List.mem_cons, List.mem_filter, decide_eq_true_eq]

theorem mem_remove {d : Directory} {names : List Bytes} {e : Bytes × FolderEntry} :
    e ∈ (d.remove names).entries ↔ e ∈ d.entries ∧ e.1 ∉ names := by
  rw [Directory.remove, List.mem_filter, decide_eq_true_eq]

theorem retained_remove (d : Directory) (names : List Bytes) :
    retained (d.remove names) = (retained d).filter fun name => name ∉ names := by
  rw [retained, retained, Directory.remove, List.filter_map, List.filter_filter, List.filter_filter]
  congr 1
  refine List.filter_congr fun e _ => ?_
  rw [Bool.and_comm]
  rfl

/-- The names that are checked, in order. -/
def sorted (d : Directory) : List Bytes := (retained d).mergeSort fun a b => decide (a ≤ b)

theorem sorted_perm (d : Directory) : (sorted d).Perm (retained d) := List.mergeSort_perm _ _

theorem pairwise_sorted (d : Directory) : (sorted d).Pairwise fun a b => a ≤ b := by
  have htrans : ∀ a b c : Bytes, decide (a ≤ b) = true → decide (b ≤ c) = true →
      decide (a ≤ c) = true := fun a b c h h' =>
    decide_eq_true (List.le_trans (of_decide_eq_true h) (of_decide_eq_true h'))
  have htotal : ∀ a b : Bytes, (decide (a ≤ b) || decide (b ≤ a)) = true := fun a b => by
    simpa using List.le_total a b
  exact (List.pairwise_mergeSort htrans htotal (retained d)).imp of_decide_eq_true

theorem pruned_eq (d : Directory) : pruned d = (sorted d).take ((sorted d).length - 2) := rfl

/-- After the removals at most two checkpoints are left. -/
theorem length_retained_remove_le (d : Directory) : (retained (d.remove (pruned d))).length ≤ 2 := by
  have hnodup : (sorted d).Nodup := (sorted_perm d).nodup_iff.2 (nodup_retained d)
  have hsplit := List.take_append_drop ((sorted d).length - 2) (sorted d)
  have hkeep : (sorted d).filter (fun name => name ∉ pruned d) =
      (sorted d).drop ((sorted d).length - 2) := by
    conv_lhs => rw [← hsplit]
    rw [← hsplit] at hnodup
    obtain ⟨-, -, hdisjoint⟩ := List.nodup_append.1 hnodup
    rw [List.filter_append, ← pruned_eq, List.filter_eq_nil_iff.2, List.nil_append,
      List.filter_eq_self]
    · intro name hmem
      refine decide_eq_true fun hmem' => hdisjoint name hmem' name hmem rfl
    · intro name hmem
      simpa using hmem
  rw [retained_remove, ← ((sorted_perm d).filter _).length_eq, hkeep, List.length_drop]
  omega

/-- A name is not removed if there are at most two, or at most three and a lower one. -/
theorem notMem_pruned {d : Directory} {name : Bytes}
    (h : (retained d).length ≤ 2 ∨
      (retained d).length ≤ 3 ∧ ∃ lower ∈ retained d, lower < name) : name ∉ pruned d := by
  have hlength := (sorted_perm d).length_eq
  rw [pruned_eq]
  rcases h with hfew | ⟨hfew, lower, hmem, hlt⟩
  · rw [show (sorted d).length - 2 = 0 by omega, List.take_zero]
    exact List.not_mem_nil
  · intro hfirst
    have hpairwise := pairwise_sorted d
    have hmem' : lower ∈ sorted d := (sorted_perm d).symm.subset hmem
    have hshort : (sorted d).length - 2 ≤ 1 := by omega
    cases hsorted : sorted d with
    | nil =>
      rw [hsorted] at hmem'
      cases hmem'
    | cons first rest =>
      rw [hsorted] at hmem' hpairwise hfirst hshort
      have hname : name = first := by
        have hone : name ∈ (first :: rest).take 1 := List.take_subset_take_left _ hshort hfirst
        simpa using hone
      subst hname
      rcases List.mem_cons.1 hmem' with rfl | hrest
      · exact List.lt_irrefl _ hlt
      · exact (List.pairwise_cons.1 hpairwise).1 lower hrest hlt

/-! ### The invariant -/

/-- What a run keeps: its checkpoints are named after their steps, there are at most two, and the
trainer is not behind all of them. -/
structure Held (s : TrainingRun) : Prop where
  named : ∀ name step, (name, FolderEntry.checkpoint step) ∈ s.directory.entries →
    name = stateName step ∧ step ≤ kMaxStep
  sound : ∀ name ∈ retained s.directory, ∃ step ≤ kMaxStep, name = stateName step ∧
    (name, FolderEntry.checkpoint step) ∈ s.directory.entries
  few : (retained s.directory).length ≤ 2
  base : retained s.directory = [] ∨
    ∃ step ≤ s.step, step ≤ kMaxStep ∧ stateName step ∈ retained s.directory

theorem Held.of_fresh {s : TrainingRun} (h : Fresh s.directory) : Held s where
  named := fun name step hmem => absurd rfl (h.2 _ hmem step)
  sound := by
    intro name hmem
    rw [h.1] at hmem
    cases hmem
  few := by
    rw [h.1]
    exact Nat.zero_le _
  base := Or.inl h.1

/-- What a save leaves in the directory. -/
structure Saved (d d' : Directory) (step : ℕ) : Prop where
  written : (stateName step, FolderEntry.checkpoint step) ∈ d'.entries
  few : (retained d').length ≤ 2
  kept : ∀ e, e ∈ d'.entries → e = (stateName step, .checkpoint step) ∨ e ∈ d.entries
  others : ∀ name entry, checkpointName name = false →
    ((name, entry) ∈ d'.entries ↔ (name, entry) ∈ d.entries)

theorem mem_retained_put {d : Directory} {name n : Bytes} {entry : FolderEntry}
    (h : n ∈ retained (d.put name entry)) : n = name ∨ n ∈ retained d := by
  obtain ⟨entry', hmem, hname⟩ := mem_retained.1 h
  rcases mem_put.1 hmem with heq | ⟨hmem, -⟩
  · exact Or.inl (Prod.mk.inj heq).1
  · exact Or.inr (mem_retained.2 ⟨entry', hmem, hname⟩)

/-- **The checkpoint that is saved is not removed**, because a checkpoint of an earlier or the same
step is there. -/
theorem Held.saved {s : TrainingRun} (h : Held s) {step : ℕ} {d : Directory} (hle : s.step ≤ step)
    (hmax : step ≤ kMaxStep) (hsave : saveState s.directory step = some d) :
    Saved s.directory d step := by
  rw [saveState] at hsave
  split_ifs at hsave with hdirectory
  obtain rfl := Option.some.inj hsave
  have hnotMem : stateName step ∉ pruned (s.directory.put (stateName step) (.checkpoint step)) := by
    have hsubset : retained (s.directory.put (stateName step) (.checkpoint step)) ⊆
        stateName step :: retained s.directory := fun n hn =>
      List.mem_cons.2 (mem_retained_put hn)
    have hthree : (retained (s.directory.put (stateName step) (.checkpoint step))).length ≤ 3 :=
      ((nodup_retained _).subperm hsubset).length_le.trans (Nat.succ_le_succ h.few)
    apply notMem_pruned
    rcases h.base with hnone | ⟨t, htstep, htmax, ht⟩
    · rw [hnone] at hsubset
      exact Or.inl (((nodup_retained _).subperm hsubset).length_le.trans (Nat.le_succ 1))
    · rcases (htstep.trans hle).eq_or_lt with rfl | hlt
      · refine Or.inl (((nodup_retained _).subperm fun n hn => ?_).length_le.trans h.few)
        rcases mem_retained_put hn with rfl | hn
        · exact ht
        · exact hn
      · have hname := (stateName_lt_iff htmax hmax).2 hlt
        refine Or.inr ⟨hthree, stateName t, ?_, hname⟩
        obtain ⟨entry, hmem, hcheckpoint⟩ := mem_retained.1 ht
        refine mem_retained.2 ⟨entry, mem_put.2 (Or.inr ⟨hmem, fun heq => ?_⟩), hcheckpoint⟩
        rw [show stateName t = stateName step from heq] at hname
        exact List.lt_irrefl _ hname
  refine ⟨mem_remove.2 ⟨mem_put.2 (Or.inl rfl), hnotMem⟩, length_retained_remove_le _,
    fun e he => ?_, fun name entry hname => ?_⟩
  · exact (mem_put.1 (mem_remove.1 he).1).imp_right And.left
  · have hne : name ≠ stateName step := by
      rintro rfl
      rw [checkpointName_stateName hmax] at hname
      cases hname
    have hkept : name ∉ pruned (s.directory.put (stateName step) (.checkpoint step)) := by
      intro hmem
      have hretained := (sorted_perm _).subset (List.mem_of_mem_take hmem)
      obtain ⟨-, -, hcheckpoint, -⟩ := mem_retained.1 hretained
      rw [hcheckpoint] at hname
      cases hname
    rw [mem_remove, mem_put]
    constructor
    · rintro ⟨heq | ⟨hmem, -⟩, -⟩
      · exact absurd (Prod.mk.inj heq).1 hne
      · exact hmem
    · exact fun hmem => ⟨Or.inr ⟨hmem, hne⟩, hkept⟩

/-- Every save and every resume keeps the invariant, and the files that are not checkpoints. -/
theorem Held.perform {s s' : TrainingRun} {event : TrainingEvent} (h : Held s)
    (hperform : perform s event = some s') : Held s' ∧ ∀ name entry, checkpointName name = false →
      ((name, entry) ∈ s'.directory.entries ↔ (name, entry) ∈ s.directory.entries) := by
  cases event with
  | save step =>
    rw [Training.perform] at hperform
    split_ifs at hperform with hrange
    obtain ⟨d, hsave, rfl⟩ := Option.map_eq_some_iff.1 hperform
    have hsaved := h.saved hrange.1 hrange.2 hsave
    have hnamed : ∀ name t, (name, FolderEntry.checkpoint t) ∈ d.entries →
        name = stateName t ∧ t ≤ kMaxStep := by
      intro name t hmem
      rcases hsaved.kept _ hmem with heq | hmem
      · obtain ⟨rfl, hentry⟩ := Prod.mk.inj heq
        obtain rfl := FolderEntry.checkpoint.inj hentry
        exact ⟨rfl, hrange.2⟩
      · exact h.named name t hmem
    refine ⟨⟨hnamed, fun name hmem => ?_, hsaved.few, Or.inr ⟨step, le_rfl, hrange.2, ?_⟩⟩,
      hsaved.others⟩
    · obtain ⟨entry, hentry, hname, hregular⟩ := mem_retained.1 hmem
      rcases hsaved.kept _ hentry with heq | hold
      · obtain ⟨rfl, rfl⟩ := Prod.mk.inj heq
        exact ⟨step, hrange.2, rfl, hentry⟩
      · obtain ⟨t, ht, rfl, hchecked⟩ := h.sound name (mem_retained.2 ⟨entry, hold, hname, hregular⟩)
        have hsame := List.inj_on_of_nodup_map s.directory.nodup hold hchecked rfl
        obtain ⟨-, rfl⟩ := Prod.mk.inj hsame
        exact ⟨t, ht, rfl, hentry⟩
    · exact mem_retained.2 ⟨_, hsaved.written, checkpointName_stateName hrange.2, rfl⟩
  | resume name step =>
    rw [Training.perform] at hperform
    split_ifs at hperform with hmem
    obtain rfl := Option.some.inj hperform
    obtain ⟨rfl, hmax⟩ := h.named name step hmem
    refine ⟨⟨h.named, h.sound, h.few, Or.inr ⟨step, le_rfl, hmax, ?_⟩⟩, fun _ _ _ => Iff.rfl⟩
    exact mem_retained.2 ⟨_, hmem, checkpointName_stateName hmax, rfl⟩

/-- **A run keeps the invariant**, and the files that are not checkpoints. -/
theorem Held.runEvents {s s' : TrainingRun} {events : List TrainingEvent} (h : Held s)
    (hrun : runEvents s events = some s') : Held s' ∧ ∀ name entry, checkpointName name = false →
      ((name, entry) ∈ s'.directory.entries ↔ (name, entry) ∈ s.directory.entries) := by
  induction events generalizing s with
  | nil =>
    obtain rfl := Option.some.inj hrun
    exact ⟨h, fun _ _ _ => Iff.rfl⟩
  | cons event events ih =>
    rw [Training.runEvents, List.foldlM_cons] at hrun
    obtain ⟨next, hnext, hrest⟩ := Option.bind_eq_some_iff.1 hrun
    obtain ⟨hheld, hothers⟩ := h.perform hnext
    obtain ⟨hheld', hothers'⟩ := ih hheld hrest
    exact ⟨hheld', fun name entry hname => (hothers' name entry hname).trans (hothers name entry hname)⟩

/-! ### The latest checkpoint -/

/-- One turn of the loop of `latest_full_checkpoint`. -/
def latestOf (latest : Option Bytes) (e : Bytes × FolderEntry) : Option Bytes :=
  if checkpointName e.1 && e.2.isRegular && e.2.hasContent &&
      (latest.all fun name => decide (name < e.1)) then some e.1
  else latest

/-- The loop finds the highest step. -/
theorem exists_latest {l : List (Bytes × FolderEntry)}
    (hsound : ∀ e ∈ l, checkpointName e.1 = true → e.2.isRegular = true →
      ∃ t ≤ kMaxStep, e = (stateName t, .checkpoint t))
    (hnamed : ∀ name t, (name, FolderEntry.checkpoint t) ∈ l → name = stateName t ∧ t ≤ kMaxStep)
    {k : ℕ} (hk : k ≤ kMaxStep) :
    ∃ t ≤ kMaxStep, l.foldl latestOf (some (stateName k)) = some (stateName t) ∧ k ≤ t ∧
      (t = k ∨ (stateName t, FolderEntry.checkpoint t) ∈ l) ∧
      ∀ u, (stateName u, FolderEntry.checkpoint u) ∈ l → u ≤ t := by
  induction l generalizing k with
  | nil => exact ⟨k, hk, rfl, le_rfl, Or.inl rfl, fun u hu => (by cases hu)⟩
  | cons e l ih =>
    have hsound' : ∀ e ∈ l, checkpointName e.1 = true → e.2.isRegular = true →
        ∃ t ≤ kMaxStep, e = (stateName t, .checkpoint t) := fun e he =>
      hsound e (List.mem_cons_of_mem _ he)
    have hnamed' : ∀ name t, (name, FolderEntry.checkpoint t) ∈ l → name = stateName t ∧ t ≤ kMaxStep :=
      fun name t hmem => hnamed name t (List.mem_cons_of_mem _ hmem)
    rw [List.foldl_cons]
    by_cases htaken : (checkpointName e.1 && e.2.isRegular && e.2.hasContent &&
        ((some (stateName k)).all fun name => decide (name < e.1))) = true
    · rw [show latestOf (some (stateName k)) e = some e.1 from if_pos htaken]
      simp only [Bool.and_eq_true, Option.all_some, decide_eq_true_eq] at htaken
      obtain ⟨⟨⟨hname, hregular⟩, -⟩, hlt⟩ := htaken
      obtain ⟨v, hv, rfl⟩ := hsound e List.mem_cons_self hname hregular
      obtain ⟨t, ht, heq, hle, hmem, hall⟩ := ih hsound' hnamed' hv
      have hkv : k < v := (stateName_lt_iff hk hv).1 hlt
      refine ⟨t, ht, heq, hkv.le.trans hle, ?_, fun u hu => ?_⟩
      · rcases hmem with rfl | hmem
        · exact Or.inr List.mem_cons_self
        · exact Or.inr (List.mem_cons_of_mem _ hmem)
      · rcases List.mem_cons.1 hu with hu | hu
        · rw [FolderEntry.checkpoint.inj (Prod.mk.inj hu).2]
          exact hle
        · exact hall u hu
    · rw [show latestOf (some (stateName k)) e = some (stateName k) from if_neg htaken]
      obtain ⟨t, ht, heq, hle, hmem, hall⟩ := ih hsound' hnamed' hk
      refine ⟨t, ht, heq, hle, hmem.imp_right (List.mem_cons_of_mem _), fun u hu => ?_⟩
      rcases List.mem_cons.1 hu with rfl | hu
      · have humax := (hnamed _ _ List.mem_cons_self).2
        by_contra hlt
        refine htaken ?_
        have hku : k < u := hle.trans_lt (Nat.not_le.1 hlt)
        simp only [Bool.and_eq_true, Option.all_some, decide_eq_true_eq]
        exact ⟨⟨⟨checkpointName_stateName humax, rfl⟩, rfl⟩, (stateName_lt_iff hk humax).2 hku⟩
      · exact hall u hu

/-- **`latest_full_checkpoint` returns the checkpoint of the highest step**, if there is one. -/
theorem Held.latest {s : TrainingRun} (h : Held s) {k : ℕ}
    (hk : (stateName k, FolderEntry.checkpoint k) ∈ s.directory.entries) :
    ∃ t, latestFullCheckpoint s.directory = some (stateName t) ∧ k ≤ t ∧
      (stateName t, FolderEntry.checkpoint t) ∈ s.directory.entries ∧
      ∀ u, (stateName u, FolderEntry.checkpoint u) ∈ s.directory.entries → u ≤ t := by
  have hsound : ∀ e ∈ s.directory.entries, checkpointName e.1 = true → e.2.isRegular = true →
      ∃ t ≤ kMaxStep, e = (stateName t, .checkpoint t) := by
    intro e he hname hregular
    obtain ⟨t, ht, heq, hmem⟩ := h.sound e.1 (mem_retained.2 ⟨e.2, he, hname, hregular⟩)
    have hsame := List.inj_on_of_nodup_map s.directory.nodup he hmem rfl
    exact ⟨t, ht, by rw [hsame, heq]⟩
  have hfold : latestFullCheckpoint s.directory = s.directory.entries.foldl latestOf none := rfl
  have hgeneral : ∀ l : List (Bytes × FolderEntry), (∀ e ∈ l, e ∈ s.directory.entries) →
      (stateName k, FolderEntry.checkpoint k) ∈ l → ∃ t ≤ kMaxStep,
        l.foldl latestOf none = some (stateName t) ∧ (stateName t, FolderEntry.checkpoint t) ∈ l ∧
          ∀ u, (stateName u, FolderEntry.checkpoint u) ∈ l → u ≤ t := by
    intro l
    induction l with
    | nil =>
      intro _ hmem
      cases hmem
    | cons e l ih =>
      intro hsubset hmem
      have hsubset' : ∀ e ∈ l, e ∈ s.directory.entries := fun e he =>
        hsubset e (List.mem_cons_of_mem _ he)
      rw [List.foldl_cons]
      by_cases htaken : (checkpointName e.1 && e.2.isRegular && e.2.hasContent) = true
      · rw [show latestOf none e = some e.1 from if_pos (by rw [htaken]; rfl)]
        simp only [Bool.and_eq_true] at htaken
        obtain ⟨v, hv, rfl⟩ := hsound e (hsubset e List.mem_cons_self) htaken.1.1 htaken.1.2
        obtain ⟨t, ht, heq, hle, hfrom, hall⟩ := exists_latest (fun e he => hsound e (hsubset' e he))
          (fun name t hmem => h.named name t (hsubset' _ hmem)) hv
        refine ⟨t, ht, heq, ?_, fun u hu => ?_⟩
        · rcases hfrom with rfl | hfrom
          · exact List.mem_cons_self
          · exact List.mem_cons_of_mem _ hfrom
        · rcases List.mem_cons.1 hu with hu | hu
          · rw [FolderEntry.checkpoint.inj (Prod.mk.inj hu).2]
            exact hle
          · exact hall u hu
      · have hskip : ∀ u, e ≠ (stateName u, FolderEntry.checkpoint u) := by
          rintro u rfl
          refine htaken ?_
          rw [checkpointName_stateName (h.named _ _ (hsubset _ List.mem_cons_self)).2]
          rfl
        have hnone : latestOf none e = none := if_neg fun hall => htaken (Bool.and_eq_true_iff.1 hall).1
        rw [hnone]
        obtain ⟨t, ht, heq, hfrom, hall⟩ :=
          ih hsubset' ((List.mem_cons.1 hmem).resolve_left (hskip k).symm)
        refine ⟨t, ht, heq, List.mem_cons_of_mem _ hfrom, fun u hu => ?_⟩
        exact hall u ((List.mem_cons.1 hu).resolve_left (hskip u).symm)
  obtain ⟨t, -, heq, hmem, hall⟩ := hgeneral _ (fun _ he => he) hk
  exact ⟨t, hfold.trans heq, hall k hk, hmem, hall⟩

/-! ### Checkpoints that a resume leaves behind -/

/-- The checkpoint of a step was there when an older checkpoint was resumed. -/
def LeftBehind (s : TrainingRun) (events : List TrainingEvent) (step : ℕ) : Prop :=
  ∃ before name older after middle, events = before ++ TrainingEvent.resume name older :: after ∧
    runEvents s before = some middle ∧ older < step ∧
    (stateName step, FolderEntry.checkpoint step) ∈ middle.directory.entries

theorem LeftBehind.append {s : TrainingRun} {events : List TrainingEvent} {step : ℕ}
    (h : LeftBehind s events step) (event : TrainingEvent) :
    LeftBehind s (events ++ [event]) step := by
  obtain ⟨before, name, older, after, middle, rfl, hrun, holder, hmem⟩ := h
  exact ⟨before, name, older, after ++ [event], middle, by simp, hrun, holder, hmem⟩

/-- The events before a run's last one lead to the state in which that one happens. -/
theorem runEvents_append_singleton {s s' : TrainingRun} {events : List TrainingEvent}
    {event : TrainingEvent} : runEvents s (events ++ [event]) = some s' ↔
      ∃ middle, runEvents s events = some middle ∧ perform middle event = some s' := by
  rw [runEvents, List.foldlM_append]
  simp only [List.foldlM_cons, List.foldlM_nil]
  change ((runEvents s events).bind fun middle => (perform middle event).bind some) = some s' ↔ _
  rw [Option.bind_eq_some_iff]
  refine exists_congr fun middle => and_congr_right fun _ => ?_
  cases perform middle event <;> rfl

/-- **Only a resume of an older checkpoint leaves a later one**: a checkpoint of a step that the
trainer has not reached was there when an older one was resumed. -/
theorem leftBehind_of_lt {s s' : TrainingRun} {events : List TrainingEvent}
    (hfresh : Fresh s.directory) (hrun : runEvents s events = some s') {step : ℕ}
    (hmem : (stateName step, FolderEntry.checkpoint step) ∈ s'.directory.entries)
    (hlt : s'.step < step) : LeftBehind s events step := by
  induction events using List.reverseRecOn generalizing s' with
  | nil =>
    obtain rfl := Option.some.inj hrun
    exact absurd rfl (hfresh.2 _ hmem step)
  | append_singleton events event ih =>
    obtain ⟨middle, hmiddle, hlast⟩ := runEvents_append_singleton.1 hrun
    obtain ⟨hheld, -⟩ := (Held.of_fresh hfresh).runEvents hmiddle
    cases event with
    | save saved =>
      rw [perform] at hlast
      split_ifs at hlast with hrange
      obtain ⟨d, hsave, rfl⟩ := Option.map_eq_some_iff.1 hlast
      refine (ih hmiddle ?_ (hrange.1.trans_lt hlt)).append _
      rcases (hheld.saved hrange.1 hrange.2 hsave).kept _ hmem with heq | hold
      · obtain rfl := FolderEntry.checkpoint.inj (Prod.mk.inj heq).2
        exact absurd hlt (Nat.lt_irrefl _)
      · exact hold
    | resume name older =>
      rw [perform] at hlast
      split_ifs at hlast with hfrom
      obtain rfl := Option.some.inj hlast
      exact ⟨events, name, older, [], middle, rfl, hmiddle, hlt, hmem⟩

/-- **Retention of checkpoints.** After every run of saves and resumes and a save at its end, the
checkpoint of that save is there, at most two checkpoints are left, no other file was touched, and the
checkpoint that is offered for resuming is the one of the highest step that is left: the one just
saved, unless one of a later step was left when an older one was resumed and is still there. Without
a resume it is the one just saved. -/
theorem retention {s s' : TrainingRun} {events : List TrainingEvent} {step : ℕ}
    (hfresh : Fresh s.directory) (hrun : runEvents s (events ++ [.save step]) = some s') :
    (stateName step, FolderEntry.checkpoint step) ∈ s'.directory.entries ∧
      (retained s'.directory).length ≤ 2 ∧
      (∀ name entry, checkpointName name = false →
        ((name, entry) ∈ s'.directory.entries ↔ (name, entry) ∈ s.directory.entries)) ∧
      (∃ t, latestFullCheckpoint s'.directory = some (stateName t) ∧
        (stateName t, FolderEntry.checkpoint t) ∈ s'.directory.entries ∧
        ∀ u, (stateName u, FolderEntry.checkpoint u) ∈ s'.directory.entries → u ≤ t) ∧
      (∀ u, step < u → (stateName u, FolderEntry.checkpoint u) ∈ s'.directory.entries →
        LeftBehind s events u) ∧
      (latestFullCheckpoint s'.directory = some (stateName step) ↔
        ¬∃ u, step < u ∧ LeftBehind s events u ∧
          (stateName u, FolderEntry.checkpoint u) ∈ s'.directory.entries) ∧
      ((∀ name older, TrainingEvent.resume name older ∉ events) →
        latestFullCheckpoint s'.directory = some (stateName step)) := by
  obtain ⟨hheld', hothers⟩ := (Held.of_fresh hfresh).runEvents hrun
  obtain ⟨middle, hmiddle, hlast⟩ := runEvents_append_singleton.1 hrun
  obtain ⟨hheld, -⟩ := (Held.of_fresh hfresh).runEvents hmiddle
  rw [perform] at hlast
  split_ifs at hlast with hrange
  obtain ⟨d, hsave, rfl⟩ := Option.map_eq_some_iff.1 hlast
  have hsaved := hheld.saved hrange.1 hrange.2 hsave
  have hleft : ∀ u, step < u → (stateName u, FolderEntry.checkpoint u) ∈ d.entries →
      LeftBehind s events u := by
    intro u hlt hmem
    refine leftBehind_of_lt hfresh hmiddle ?_ (hrange.1.trans_lt hlt)
    rcases hsaved.kept _ hmem with heq | hold
    · obtain rfl := FolderEntry.checkpoint.inj (Prod.mk.inj heq).2
      exact absurd hlt (Nat.lt_irrefl _)
    · exact hold
  obtain ⟨t, hlatest, hle, hmem, hall⟩ := hheld'.latest hsaved.written
  have hlatest_iff : latestFullCheckpoint d = some (stateName step) ↔
      ¬∃ u, step < u ∧ LeftBehind s events u ∧
        (stateName u, FolderEntry.checkpoint u) ∈ d.entries := by
    constructor
    · rintro heq ⟨u, hlt, -, hu⟩
      have htstep := stateName_inj (hheld'.named _ _ hmem).2 hrange.2
        (Option.some.inj (hlatest.symm.trans heq))
      have hut := hall u hu
      omega
    · intro hnone
      rcases hle.eq_or_lt with rfl | hlt
      · exact hlatest
      · exact absurd ⟨t, hlt, hleft t hlt hmem, hmem⟩ hnone
  refine ⟨hsaved.written, hheld'.few, hothers, ⟨t, hlatest, hmem, hall⟩, hleft, hlatest_iff,
    fun hresumes => hlatest_iff.2 ?_⟩
  rintro ⟨u, -, ⟨before, name, older, after, -, rfl, -⟩, -⟩
  exact hresumes name older (List.mem_append_right _ List.mem_cons_self)

/-! ### A run that resumes an older checkpoint -/

/-- The removals, from the checkpoints in order. -/
theorem pruned_of_perm {d : Directory} {names : List Bytes} (hperm : names.Perm (retained d))
    (hsorted : names.Pairwise fun a b => a ≤ b) : pruned d = names.take (names.length - 2) := by
  have heq : sorted d = names :=
    ((sorted_perm d).trans hperm.symm).eq_of_pairwise
      (fun _ _ _ _ hle hge => List.le_antisymm hle hge) (pairwise_sorted d) hsorted
  rw [pruned_eq, heq]

/-- A save, from the checkpoints in order. -/
theorem perform_save_of_perm {d : Directory} {step step' : ℕ} (names : List Bytes)
    (hle : step ≤ step') (hmax : step' ≤ kMaxStep)
    (hdirectory : (stateName step', FolderEntry.directory) ∉ d.entries)
    (hperm : names.Perm (retained (d.put (stateName step') (.checkpoint step'))))
    (hsorted : names.Pairwise fun a b => a ≤ b) :
    perform ⟨d, step⟩ (.save step') =
      some ⟨(d.put (stateName step') (.checkpoint step')).remove (names.take (names.length - 2)),
        step'⟩ := by
  rw [perform, if_pos ⟨hle, hmax⟩, saveState, if_neg hdirectory]
  dsimp only
  rw [pruned_of_perm hperm hsorted]
  rfl

/-- An empty directory. -/
def emptyRun : TrainingRun := ⟨⟨[], List.nodup_nil⟩, 0⟩

/-- The first save of a run. -/
def firstSave : Directory := (emptyRun.directory.put (stateName 0) (.checkpoint 0)).remove []

/-- A save after ten steps. -/
def secondSave : Directory := (firstSave.put (stateName 10) (.checkpoint 10)).remove []

/-- A save after twenty steps; the first checkpoint goes. -/
def thirdSave : Directory :=
  (secondSave.put (stateName 20) (.checkpoint 20)).remove [stateName 0]

/-- A save after the checkpoint of ten steps was resumed, which goes. -/
def fourthSave : Directory :=
  (thirdSave.put (stateName 15) (.checkpoint 15)).remove [stateName 10]

theorem runEvents_secondSave : runEvents emptyRun [.save 0, .save 10] = some ⟨secondSave, 10⟩ := by
  have hfirst : perform emptyRun (.save 0) = some ⟨firstSave, 0⟩ :=
    perform_save_of_perm [stateName 0] le_rfl (by decide) (by decide)
      (List.Perm.refl _) (by decide)
  have hsecond : perform ⟨firstSave, 0⟩ (.save 10) = some ⟨secondSave, 10⟩ :=
    perform_save_of_perm [stateName 0, stateName 10] (by decide) (by decide) (by decide)
      (List.Perm.swap _ _ _) (by decide)
  rw [runEvents, List.foldlM_cons, hfirst, Option.bind_eq_bind, Option.bind_some, List.foldlM_cons,
    hsecond]
  rfl

theorem runEvents_fourthSave :
    runEvents emptyRun ([.save 0, .save 10, .save 20, .resume (stateName 10) 10] ++ [.save 15]) =
      some ⟨fourthSave, 15⟩ := by
  have hthird : perform ⟨secondSave, 10⟩ (.save 20) = some ⟨thirdSave, 20⟩ :=
    perform_save_of_perm [stateName 0, stateName 10, stateName 20] (by decide) (by decide)
      (by decide) (by decide) (by decide)
  have hresume : perform ⟨thirdSave, 20⟩ (.resume (stateName 10) 10) = some ⟨thirdSave, 10⟩ := by
    rw [perform]
    exact if_pos (by decide)
  have hfourth : perform ⟨thirdSave, 10⟩ (.save 15) = some ⟨fourthSave, 15⟩ :=
    perform_save_of_perm [stateName 10, stateName 15, stateName 20] (by decide)
      (by decide) (by decide) (by decide) (by decide)
  have hfront : List.foldlM perform emptyRun [.save 0, .save 10] = some ⟨secondSave, 10⟩ :=
    runEvents_secondSave
  have hsplit : [TrainingEvent.save 0, .save 10, .save 20, .resume (stateName 10) 10] ++ [.save 15] =
      [TrainingEvent.save 0, .save 10] ++ [.save 20, .resume (stateName 10) 10, .save 15] := rfl
  rw [runEvents, hsplit, List.foldlM_append, hfront, Option.bind_eq_bind, Option.bind_some,
    List.foldlM_cons, hthird, Option.bind_eq_bind, Option.bind_some, List.foldlM_cons, hresume,
    Option.bind_eq_bind, Option.bind_some, List.foldlM_cons, hfourth]
  rfl

/-- Behind a pruned save and a resume, the checkpoint of the later step is offered. -/
theorem retention_fourthSave :
    (stateName 15, FolderEntry.checkpoint 15) ∈ fourthSave.entries ∧
      (retained fourthSave).length ≤ 2 ∧
      LeftBehind emptyRun [.save 0, .save 10, .save 20, .resume (stateName 10) 10] 20 ∧
      latestFullCheckpoint fourthSave ≠ some (stateName 15) := by
  have hfresh : Fresh emptyRun.directory := ⟨rfl, fun e he => (by cases he)⟩
  obtain ⟨hwritten, hfew, -, -, hleft, hlatest, -⟩ := retention hfresh runEvents_fourthSave
  have hmem : (stateName 20, FolderEntry.checkpoint 20) ∈ fourthSave.entries := by decide
  have hbehind := hleft 20 (by decide) hmem
  exact ⟨hwritten, hfew, hbehind, fun heq => hlatest.1 heq ⟨20, by decide, hbehind, hmem⟩⟩

/-- After the older of two checkpoints is resumed and saved again, the other one is offered. -/
theorem not_latest_of_resume :
    ∃ s, runEvents emptyRun [.save 0, .save 10, .resume (stateName 0) 0, .save 0] = some s ∧
      latestFullCheckpoint s.directory = some (stateName 10) ∧ stateName 10 ≠ stateName 0 := by
  have hresume : perform ⟨secondSave, 10⟩ (.resume (stateName 0) 0) = some ⟨secondSave, 0⟩ := by
    rw [perform]
    exact if_pos (by decide)
  have hsave : perform ⟨secondSave, 0⟩ (.save 0) =
      some ⟨(secondSave.put (stateName 0) (.checkpoint 0)).remove [], 0⟩ :=
    perform_save_of_perm [stateName 0, stateName 10] le_rfl (by decide) (by decide)
      (by decide) (by decide)
  refine ⟨⟨(secondSave.put (stateName 0) (.checkpoint 0)).remove [], 0⟩, ?_, by decide, by decide⟩
  have hsplit : [TrainingEvent.save 0, .save 10, .resume (stateName 0) 0, .save 0] =
      [.save 0, .save 10] ++ [.resume (stateName 0) 0, .save 0] := rfl
  have hfront : List.foldlM perform emptyRun [TrainingEvent.save 0, .save 10] =
      some ⟨secondSave, 10⟩ := runEvents_secondSave
  rw [runEvents, hsplit, List.foldlM_append, hfront, Option.bind_eq_bind, Option.bind_some,
    List.foldlM_cons, hresume, Option.bind_eq_bind, Option.bind_some, List.foldlM_cons, hsave]
  rfl

end Resonantia.Training
