import Mathlib.Algebra.Order.BigOperators.Group.List
import Mathlib.Algebra.Order.Group.Nat
import Mathlib.Data.List.Perm.Basic
import Mathlib.Data.List.Nodup
import Mathlib.Tactic.ByContra
import Mathlib.Tactic.SplitIfs
import Resonantia.Library.Transition
import Resonantia.Web.TaskArtifacts

/-!
# The initial directory of a training

A training that stops before its first checkpoint leaves a directory with its lock, the identity of
its recipe and files that were being written. The next start inspects the directory, whose entries
come in any order, and removes what was being written; it refuses every other directory.

## Main definitions

* `AppSupport.InitialDirectory.inspect`: the inspection of a directory.
* `AppSupport.InitialDirectory.recover`: the recovery, which may fail between any two removals.
* `AppSupport.InitialDirectory.Accepted`: the directories that can be recovered.

## Main results

* `AppSupport.InitialDirectory.validate_isOk_iff`: exactly these directories are accepted.
* `AppSupport.InitialDirectory.recovers_of_run`: after any number of recoveries that failed, one
  that does not fail leaves the lock and the identity.
* `AppSupport.InitialDirectory.unchanged_of_run`: nothing is removed from any other directory.
-/

namespace Resonantia.AppSupport.InitialDirectory

open ByteString Transition
open Web.TaskArtifacts (Node validDigest)

/-! ### The inspection -/

/-- The entries of a directory in the order in which they are read. -/
abbrev Entries := List (Bytes × Node)

def lockName : Bytes := bytes ".lock"

def identityName : Bytes := bytes "identity.txt"

def stateName : Bytes := bytes "state_step_0000000000.safetensors"

def alphanumeric : Bytes :=
  bytes "ABCDEFGHIJKLMNOPQRSTUVWXYZabcdefghijklmnopqrstuvwxyz0123456789"

/-- `temporary`. -/
def temporary (name target : Bytes) : Bool :=
  if target.isPrefixOf name = false ∨ name.length ≠ target.length + 11 then false
  else
    let suffix := name.drop target.length
    (bytes ".tmp.").isPrefixOf suffix && (suffix.drop 5).all fun c => alphanumeric.contains c

/-- What `InitialDirectory` knows of the entries so far. -/
structure Scan where
  identity : Option Bytes := none
  pending : List Bytes := []
  partialState : Bool := false
  bytes : ℕ := 0
  count : ℕ := 0
deriving DecidableEq

def maxEntries : ℕ := 18

def maxPending : ℕ := 16

def maxBytes : ℕ := 8 * 1024 * 1024 * 1024

/-- The largest partial file of a state, or of an identity. -/
def maxPartial (state : Bool) : ℕ := if state then 4 * 1024 * 1024 * 1024 else 128

/-- The text of the identity file. -/
def identityOf (content : Bytes) : Option Bytes :=
  if content.length = 65 ∧ content.getLast? = some 10 ∧ validDigest (content.take 64) = true then
    some (content.take 64)
  else none

/-- One turn of the loop over the entries. -/
def scanEntry (s : Scan) (entry : Bytes × Node) : Except String Scan :=
  if maxEntries < s.count + 1 then .error "too many initial training checkpoint entries"
  else
    match entry.2 with
    | .regular content links =>
      if links ≠ 1 then .error "initial training checkpoint entry must be a regular unlinked file"
      else if entry.1 = lockName then .ok { s with count := s.count + 1 }
      else if entry.1 = identityName then
        match identityOf content with
        | none => .error "invalid initial training identity"
        | some identity => .ok { s with count := s.count + 1, identity := some identity }
      else
        let state := temporary entry.1 stateName
        if state = false ∧ temporary entry.1 identityName = false then
          .error "initial resume requires no published checkpoint, candidate or unknown file"
        else if maxPartial state < content.length then
          .error "initial training partial file is too large"
        else if maxBytes < s.bytes + content.length ∨ maxPending ≤ s.pending.length then
          .error "initial training staging limit exceeded"
        else
          .ok { s with
            count := s.count + 1
            bytes := s.bytes + content.length
            partialState := s.partialState || state
            pending := s.pending ++ [entry.1] }
    | _ => .error "initial training checkpoint entry must be a regular unlinked file"

/-- The loop over the entries. -/
def scanEntries (s : Scan) : Entries → Except String Scan
  | [] => .ok s
  | entry :: entries =>
    match scanEntry s entry with
    | .error e => .error e
    | .ok s => scanEntries s entries

/-- The constructor of `InitialDirectory`. -/
def inspect (entries : Entries) : Except String Scan :=
  match scanEntries {} entries with
  | .error e => .error e
  | .ok s =>
    if s.partialState = true ∧ s.identity = none then
      .error "initial state partial exists without a committed recipe identity"
    else .ok s

/-- `validate_initial_training_directory`. -/
def validate (entries : Entries) : Except String Unit := (inspect entries).map fun _ => ()

/-! ### The recovery -/

/-- Where a recovery stops, by an error or a crash. -/
inductive RecoverFault
  | inspect
  | unlink (count : ℕ)
  | sync
deriving DecidableEq

def remove (entries : Entries) (name : Bytes) : Entries :=
  entries.filter fun entry => entry.1 ≠ name

/-- The loop over the files to be removed, of which so many are removed before a failure. -/
def removePending (entries : Entries) : List Bytes → Option ℕ → Except String Unit × Entries
  | [], _ => (.ok (), entries)
  | _ :: _, some 0 => (.error "cannot remove incomplete initial training write", entries)
  | name :: names, some (count + 1) => removePending (remove entries name) names (some count)
  | name :: names, none => removePending (remove entries name) names none

/-- The number of removals before a failure. -/
def removals : Option RecoverFault → Option ℕ
  | some (.unlink count) => some count
  | _ => none

/-- `recover_initial_training_directory`. -/
def recover (entries : Entries) (identity : Bytes) (fault : Option RecoverFault) :
    Except String Unit × Entries :=
  if validDigest identity = false then (.error "invalid expected training identity", entries)
  else if fault = some .inspect then
    (.error "cannot inspect initial training checkpoint directory", entries)
  else
    match inspect entries with
    | .error e => (.error e, entries)
    | .ok s =>
      if s.identity ≠ none ∧ s.identity ≠ some identity then
        (.error "initial training directory belongs to another dataset or recipe", entries)
      else
        match removePending entries s.pending (removals fault) with
        | (.error e, entries) => (.error e, entries)
        | (.ok (), entries) =>
          if fault = some .sync then
            (.error "cannot sync initial training checkpoint directory", entries)
          else (.ok (), entries)

/-! ### The directories that are accepted -/

/-- A file that was being written. -/
def isPending (entry : Bytes × Node) : Bool :=
  temporary entry.1 stateName || temporary entry.1 identityName

/-- An entry that may be there: the lock, the identity, or a file that was being written. -/
def Admitted (entry : Bytes × Node) : Prop :=
  ∃ content, entry.2 = .regular content 1 ∧
    (entry.1 = lockName ∨ entry.1 = identityName ∧ identityOf content ≠ none ∨
      entry.1 ≠ lockName ∧ entry.1 ≠ identityName ∧ isPending entry = true ∧
        content.length ≤ maxPartial (temporary entry.1 stateName))

def size (entry : Bytes × Node) : ℕ :=
  match entry.2 with
  | .regular content _ => content.length
  | _ => 0

def entryIdentity (entry : Bytes × Node) : Option Bytes :=
  match entry.2 with
  | .regular content _ => identityOf content
  | _ => none

/-- What the entries add up to, without a look at the limits. -/
def absorb (s : Scan) (entry : Bytes × Node) : Scan :=
  if entry.1 = lockName then { s with count := s.count + 1 }
  else if entry.1 = identityName then
    { s with
      count := s.count + 1
      identity := entryIdentity entry }
  else
    { s with
      count := s.count + 1
      bytes := s.bytes + size entry
      partialState := s.partialState || temporary entry.1 stateName
      pending := s.pending ++ [entry.1] }

/-- The limits are kept. -/
structure Scan.Within (s : Scan) : Prop where
  count : s.count ≤ maxEntries
  bytes : s.bytes ≤ maxBytes
  pending : s.pending.length ≤ maxPending

theorem Scan.Within.of_absorb {s : Scan} {entry : Bytes × Node} (h : (absorb s entry).Within) :
    s.Within := by
  obtain ⟨hcount, hbytes, hpending⟩ := h
  rw [absorb] at hcount hbytes hpending
  split_ifs at hcount hbytes hpending
  · exact ⟨Nat.le_of_succ_le hcount, hbytes, hpending⟩
  · exact ⟨Nat.le_of_succ_le hcount, hbytes, hpending⟩
  · rw [List.length_append] at hpending
    exact ⟨Nat.le_of_succ_le hcount, Nat.le_of_add_right_le hbytes, Nat.le_of_add_right_le hpending⟩

@[simp] theorem absorb_count (s : Scan) (entry : Bytes × Node) :
    (absorb s entry).count = s.count + 1 := by
  rw [absorb]
  split_ifs <;> rfl

/-- An entry is taken if it may be there and the limits are kept. -/
theorem scanEntry_eq_ok_iff {s s' : Scan} {entry : Bytes × Node} (hs : s.Within) :
    scanEntry s entry = .ok s' ↔
      Admitted entry ∧ s' = absorb s entry ∧ (absorb s entry).Within := by
  obtain ⟨name, node⟩ := entry
  rw [scanEntry]
  by_cases hmax : maxEntries < s.count + 1
  · rw [if_pos hmax]
    refine iff_of_false (by simp) fun ⟨_, _, hwithin⟩ => ?_
    have hcount := hwithin.count
    rw [absorb_count] at hcount
    omega
  rw [if_neg hmax]
  have hother : ∀ node, (∀ content, node ≠ .regular content 1) → ¬Admitted (name, node) := by
    rintro node hnode ⟨content, hregular, -⟩
    exact hnode content hregular
  cases node with
  | regular content links =>
    dsimp only
    by_cases hlinks : links ≠ 1
    · rw [if_pos hlinks]
      exact iff_of_false (by simp) fun h =>
        hother _ (fun _ heq => hlinks (Node.regular.inj heq).2) h.1
    rw [if_neg hlinks]
    obtain rfl := not_not.1 hlinks
    by_cases hlock : name = lockName
    · rw [if_pos hlock, absorb, if_pos hlock, Except.ok.injEq, eq_comm]
      refine ⟨fun heq => ⟨⟨content, rfl, Or.inl hlock⟩, heq, ?_⟩, fun h => h.2.1⟩
      exact ⟨Nat.not_lt.1 hmax, hs.bytes, hs.pending⟩
    rw [if_neg hlock]
    by_cases hidentity : name = identityName
    · have hentry : entryIdentity (name, .regular content 1) = identityOf content := rfl
      rw [if_pos hidentity, absorb, if_neg hlock, if_pos hidentity, hentry]
      cases htext : identityOf content with
      | none =>
        refine iff_of_false (by simp) ?_
        rintro ⟨⟨content', hregular, hname⟩, -⟩
        obtain rfl := (Node.regular.inj hregular).1
        rcases hname with h | ⟨-, h⟩ | ⟨-, h, -⟩
        · exact hlock h
        · exact h htext
        · exact h hidentity
      | some identity =>
        have hadmitted : Admitted (name, .regular content 1) :=
          ⟨content, rfl, Or.inr (Or.inl ⟨hidentity, by rw [htext]; simp⟩)⟩
        rw [Except.ok.injEq, eq_comm]
        exact ⟨fun heq => ⟨hadmitted, heq, Nat.not_lt.1 hmax, hs.bytes, hs.pending⟩, fun h => h.2.1⟩
    have hadmitted : Admitted (name, .regular content 1) ↔
        isPending (name, .regular content 1) = true ∧
          content.length ≤ maxPartial (temporary name stateName) := by
      constructor
      · rintro ⟨content', hregular, hname⟩
        obtain rfl := (Node.regular.inj hregular).1
        rcases hname with h | ⟨h, -⟩ | ⟨-, -, h⟩
        · exact absurd h hlock
        · exact absurd h hidentity
        · exact h
      · exact fun h => ⟨content, rfl, Or.inr (Or.inr ⟨hlock, hidentity, h⟩)⟩
    rw [if_neg hidentity, absorb, if_neg hlock, if_neg hidentity, hadmitted, isPending]
    dsimp only [size]
    by_cases htemp : temporary name stateName = false ∧ temporary name identityName = false
    · rw [if_pos htemp, htemp.1, htemp.2]
      exact iff_of_false (by simp) fun h => Bool.false_ne_true h.1.1
    rw [if_neg htemp]
    by_cases hlarge : maxPartial (temporary name stateName) < content.length
    · rw [if_pos hlarge]
      exact iff_of_false (by simp) fun h => absurd hlarge (Nat.not_lt.2 h.1.2)
    rw [if_neg hlarge]
    by_cases hlimit : maxBytes < s.bytes + content.length ∨ maxPending ≤ s.pending.length
    · rw [if_pos hlimit]
      refine iff_of_false (by simp) fun h => ?_
      have hbytes := h.2.2.bytes
      have hpending := h.2.2.pending
      rw [List.length_append, List.length_singleton] at hpending
      dsimp only at hbytes
      omega
    rw [if_neg hlimit, Except.ok.injEq, eq_comm]
    refine ⟨fun heq => ⟨⟨?_, Nat.not_lt.1 hlarge⟩, heq, Nat.not_lt.1 hmax, ?_, ?_⟩, fun h => h.2.1⟩
    · cases hstate : temporary name stateName <;> cases hid : temporary name identityName
      · exact absurd ⟨hstate, hid⟩ htemp
      all_goals rfl
    · dsimp only
      omega
    · rw [List.length_append, List.length_singleton]
      omega
  | directory | symlink | other =>
    exact iff_of_false (by simp) fun h => hother _ (fun _ heq => by cases heq) h.1

/-- The entries are taken if all of them may be there and the limits are kept. -/
theorem scanEntries_eq_ok_iff {s s' : Scan} {entries : Entries} (hs : s.Within) :
    scanEntries s entries = .ok s' ↔
      (∀ entry ∈ entries, Admitted entry) ∧ s' = entries.foldl absorb s ∧ s'.Within := by
  induction entries generalizing s with
  | nil =>
    rw [scanEntries, List.foldl_nil, Except.ok.injEq, eq_comm]
    exact ⟨fun heq => ⟨fun _ h => absurd h List.not_mem_nil, heq, heq ▸ hs⟩, fun h => h.2.1⟩
  | cons entry entries ih =>
    have hwithin : ∀ {entries : Entries} {s : Scan},
        (entries.foldl absorb s).Within → s.Within := by
      intro entries
      induction entries with
      | nil => exact fun h => h
      | cons entry entries ih => exact fun h => (ih h).of_absorb
    rw [scanEntries, List.foldl_cons, List.forall_mem_cons]
    cases hentry : scanEntry s entry with
    | error e =>
      refine iff_of_false (by simp) fun ⟨hadmitted, heq, h⟩ => ?_
      rw [heq] at h
      have hok := (scanEntry_eq_ok_iff hs).2 ⟨hadmitted.1, rfl, hwithin h⟩
      rw [hentry] at hok
      cases hok
    | ok s₁ =>
      obtain ⟨hadmitted, rfl, hs₁⟩ := (scanEntry_eq_ok_iff hs).1 hentry
      dsimp only
      rw [ih hs₁]
      exact ⟨fun h => ⟨⟨hadmitted, h.1⟩, h.2⟩, fun h => ⟨h.1.2, h.2⟩⟩

/-! ### The sums -/

/-- The lock and the identity. -/
def isKept (entry : Bytes × Node) : Bool := entry.1 = lockName || entry.1 = identityName

def kept (entries : Entries) : Entries := entries.filter isKept

/-- The files that were being written. -/
def partials (entries : Entries) : Entries := entries.filter fun entry => !isKept entry

/-- The identity that the directory has. -/
def savedIdentity (entries : Entries) : Option Bytes :=
  (entries.find? fun entry => entry.1 = identityName).bind entryIdentity

theorem absorb_of_isKept {s : Scan} {entry : Bytes × Node} (h : isKept entry = true) :
    (absorb s entry).pending = s.pending ∧ (absorb s entry).bytes = s.bytes ∧
      (absorb s entry).partialState = s.partialState := by
  rw [isKept, Bool.or_eq_true, decide_eq_true_eq, decide_eq_true_eq] at h
  rw [absorb]
  split_ifs with hlock hidentity
  · exact ⟨rfl, rfl, rfl⟩
  · exact ⟨rfl, rfl, rfl⟩
  · exact (h.elim hlock hidentity).elim

theorem absorb_of_not_isKept {s : Scan} {entry : Bytes × Node} (h : isKept entry = false) :
    (absorb s entry).pending = s.pending ++ [entry.1] ∧
      (absorb s entry).bytes = s.bytes + size entry ∧
      (absorb s entry).partialState = (s.partialState || temporary entry.1 stateName) := by
  rw [isKept, Bool.or_eq_false_iff, decide_eq_false_iff_not, decide_eq_false_iff_not] at h
  rw [absorb, if_neg h.1, if_neg h.2]
  exact ⟨rfl, rfl, rfl⟩

theorem partials_cons (entry : Bytes × Node) (entries : Entries) :
    partials (entry :: entries) =
      if isKept entry = true then partials entries else entry :: partials entries := by
  rw [partials, List.filter_cons]
  cases isKept entry <;> rfl

theorem foldl_absorb_count (s : Scan) (entries : Entries) :
    (entries.foldl absorb s).count = s.count + entries.length := by
  induction entries generalizing s with
  | nil => rfl
  | cons entry entries ih =>
    rw [List.foldl_cons, ih, absorb_count, List.length_cons]
    omega

theorem foldl_absorb_pending (s : Scan) (entries : Entries) :
    (entries.foldl absorb s).pending = s.pending ++ (partials entries).map Prod.fst := by
  induction entries generalizing s with
  | nil => exact (List.append_nil _).symm
  | cons entry entries ih =>
    rw [List.foldl_cons, ih, partials_cons]
    cases hkept : isKept entry with
    | true =>
      rw [(absorb_of_isKept hkept).1, if_pos rfl]
    | false =>
      rw [(absorb_of_not_isKept hkept).1, if_neg Bool.false_ne_true, List.append_assoc]
      rfl

theorem foldl_absorb_bytes (s : Scan) (entries : Entries) :
    (entries.foldl absorb s).bytes = s.bytes + ((partials entries).map size).sum := by
  induction entries generalizing s with
  | nil => rfl
  | cons entry entries ih =>
    rw [List.foldl_cons, ih, partials_cons]
    cases hkept : isKept entry with
    | true =>
      rw [(absorb_of_isKept hkept).2.1, if_pos rfl]
    | false =>
      rw [(absorb_of_not_isKept hkept).2.1, if_neg Bool.false_ne_true, List.map_cons,
        List.sum_cons, Nat.add_assoc]

/-- The names of the lock and of the identity are no names of partial files. -/
theorem not_temporary_of_isKept {entry : Bytes × Node} (h : isKept entry = true) :
    temporary entry.1 stateName = false := by
  rw [isKept, Bool.or_eq_true, decide_eq_true_eq, decide_eq_true_eq] at h
  rcases h with h | h
  · rw [h]
    decide
  · rw [h]
    decide

theorem foldl_absorb_partialState (s : Scan) (entries : Entries) :
    (entries.foldl absorb s).partialState = true ↔
      s.partialState = true ∨ ∃ entry ∈ entries, temporary entry.1 stateName = true := by
  induction entries generalizing s with
  | nil => simp
  | cons entry entries ih =>
    rw [List.foldl_cons, ih, List.exists_mem_cons_iff]
    cases hkept : isKept entry with
    | true => rw [(absorb_of_isKept hkept).2.2, not_temporary_of_isKept hkept]; simp
    | false => rw [(absorb_of_not_isKept hkept).2.2, Bool.or_eq_true, or_assoc]

theorem foldl_absorb_identity {s : Scan} {entries : Entries}
    (hnodup : (entries.map Prod.fst).Nodup) :
    (entries.foldl absorb s).identity =
      ((entries.find? fun entry => entry.1 = identityName).elim s.identity entryIdentity) := by
  induction entries generalizing s with
  | nil => rfl
  | cons entry entries ih =>
    rw [List.map_cons, List.nodup_cons] at hnodup
    rw [List.foldl_cons, ih hnodup.2, List.find?_cons]
    by_cases hidentity : entry.1 = identityName
    · have hnone : entries.find? (fun entry => entry.1 = identityName) = none := by
        refine List.find?_eq_none.2 fun other hother heq => hnodup.1 ?_
        rw [hidentity, ← of_decide_eq_true heq]
        exact List.mem_map_of_mem hother
      have hlock : entry.1 ≠ lockName := by
        rw [hidentity]
        decide
      rw [hnone, decide_eq_true hidentity, absorb, if_neg hlock, if_pos hidentity]
      rfl
    · rw [decide_eq_false hidentity]
      have hsame : (absorb s entry).identity = s.identity := by
        rw [absorb, if_neg hidentity]
        split_ifs <;> rfl
      rw [hsame]

/-! ### Exactly these directories are accepted -/

/-- A directory that can be recovered. -/
structure Accepted (entries : Entries) : Prop where
  admitted : ∀ entry ∈ entries, Admitted entry
  count : entries.length ≤ maxEntries
  pending : (partials entries).length ≤ maxPending
  bytes : ((partials entries).map size).sum ≤ maxBytes
  identity : (∃ entry ∈ entries, temporary entry.1 stateName = true) →
    ∃ entry ∈ entries, entry.1 = identityName

theorem Accepted.perm {entries order : Entries} (h : Accepted entries)
    (hperm : order.Perm entries) : Accepted order where
  admitted entry hentry := h.admitted entry (hperm.mem_iff.1 hentry)
  count := hperm.length_eq.trans_le h.count
  pending := (hperm.filter _).length_eq.trans_le h.pending
  bytes := ((hperm.filter _).map size).sum_eq.trans_le h.bytes
  identity := by
    rintro ⟨entry, hentry, hstate⟩
    obtain ⟨other, hother, hidentity⟩ := h.identity ⟨entry, hperm.mem_iff.1 hentry, hstate⟩
    exact ⟨other, hperm.mem_iff.2 hother, hidentity⟩

theorem savedIdentity_eq_none_iff {entries : Entries} (h : ∀ entry ∈ entries, Admitted entry) :
    savedIdentity entries = none ↔ ∀ entry ∈ entries, entry.1 ≠ identityName := by
  rw [savedIdentity]
  cases hfind : entries.find? fun entry => entry.1 = identityName with
  | none =>
    refine iff_of_true rfl fun entry hentry hname => ?_
    exact List.find?_eq_none.1 hfind entry hentry (decide_eq_true hname)
  | some entry =>
    have hmem := List.mem_of_find?_eq_some hfind
    have hname : entry.1 = identityName := by simpa using List.find?_some hfind
    refine iff_of_false ?_ fun hnone => hnone entry hmem hname
    obtain ⟨content, hregular, hlock | ⟨-, htext⟩ | ⟨-, hidentity, -⟩⟩ := h entry hmem
    · rw [hname] at hlock
      exact absurd hlock (by decide)
    · rw [Option.bind_some, entryIdentity, hregular]
      exact htext
    · exact absurd hname hidentity

theorem foldl_absorb_savedIdentity {entries : Entries} (hnodup : (entries.map Prod.fst).Nodup) :
    (entries.foldl absorb {}).identity = savedIdentity entries := by
  rw [foldl_absorb_identity hnodup, savedIdentity]
  cases entries.find? fun entry => entry.1 = identityName <;> rfl

/-- The inspection finds the partial files and the identity of an accepted directory. -/
theorem inspect_eq_ok_iff {entries : Entries} {s : Scan} (hnodup : (entries.map Prod.fst).Nodup) :
    inspect entries = .ok s ↔ Accepted entries ∧ s = entries.foldl absorb {} := by
  have hempty : Scan.Within {} := ⟨Nat.zero_le _, Nat.zero_le _, Nat.zero_le _⟩
  have hwithin : (entries.foldl absorb {}).Within ↔ entries.length ≤ maxEntries ∧
      ((partials entries).map size).sum ≤ maxBytes ∧ (partials entries).length ≤ maxPending := by
    constructor
    · rintro ⟨hcount, hbytes, hpending⟩
      rw [foldl_absorb_count] at hcount
      rw [foldl_absorb_bytes] at hbytes
      rw [foldl_absorb_pending, List.length_append, List.length_map] at hpending
      exact ⟨by simpa using hcount, by simpa using hbytes, by simpa using hpending⟩
    · rintro ⟨hcount, hbytes, hpending⟩
      refine ⟨?_, ?_, ?_⟩
      · rw [foldl_absorb_count]
        simpa using hcount
      · rw [foldl_absorb_bytes]
        simpa using hbytes
      · rw [foldl_absorb_pending, List.length_append, List.length_map]
        simpa using hpending
  have hpartial : (entries.foldl absorb {}).partialState = true ↔
      ∃ entry ∈ entries, temporary entry.1 stateName = true := by
    rw [foldl_absorb_partialState]
    simp
  rw [inspect]
  cases hscan : scanEntries {} entries with
  | error e =>
    refine iff_of_false (by simp) fun ⟨h, _⟩ => ?_
    have hok := (scanEntries_eq_ok_iff hempty).2
      ⟨h.admitted, rfl, hwithin.2 ⟨h.count, h.bytes, h.pending⟩⟩
    rw [hscan] at hok
    cases hok
  | ok s₁ =>
    obtain ⟨hadmitted, rfl, hs⟩ := (scanEntries_eq_ok_iff hempty).1 hscan
    obtain ⟨hcount, hbytes, hpending⟩ := hwithin.1 hs
    dsimp only
    have hmissing : (entries.foldl absorb {}).partialState = true ∧
        (entries.foldl absorb {}).identity = none ↔
          (∃ entry ∈ entries, temporary entry.1 stateName = true) ∧
            ∀ entry ∈ entries, entry.1 ≠ identityName := by
      rw [foldl_absorb_savedIdentity hnodup, hpartial, savedIdentity_eq_none_iff hadmitted]
    split_ifs with hbad
    · refine iff_of_false (by simp) fun ⟨h, _⟩ => ?_
      obtain ⟨hstate, hnone⟩ := hmissing.1 hbad
      obtain ⟨other, hother, hname⟩ := h.identity hstate
      exact hnone other hother hname
    · rw [Except.ok.injEq, eq_comm]
      refine ⟨fun heq => ⟨⟨hadmitted, hcount, hpending, hbytes, fun hstate => ?_⟩, heq⟩, And.right⟩
      by_contra hnone
      exact hbad (hmissing.2 ⟨hstate, fun entry hentry hname => hnone ⟨entry, hentry, hname⟩⟩)

/-- A start that stopped while it wrote its first state. -/
def stoppedEntries : Entries :=
  [(lockName, .regular [] 1),
    (stateName ++ bytes ".tmp.aB3dE9", .regular [1, 2, 3] 1),
    (identityName, .regular (List.replicate 64 48 ++ [10]) 1)]

def zeroIdentity : Bytes := List.replicate 64 48

theorem nodup_stoppedEntries : (stoppedEntries.map Prod.fst).Nodup := by decide

theorem accepted_stoppedEntries : Accepted stoppedEntries := by
  have hinspect : inspect stoppedEntries = .ok (stoppedEntries.foldl absorb {}) := by
    decide
  exact ((inspect_eq_ok_iff nodup_stoppedEntries).1 hinspect).1

/-- **Exactly these directories are accepted**, in whatever order their entries are read. -/
theorem validate_isOk_iff {entries order : Entries} (hnodup : (entries.map Prod.fst).Nodup)
    (hperm : order.Perm entries) : (validate order).isOk = true ↔ Accepted entries := by
  have horder : (order.map Prod.fst).Nodup := (hperm.map Prod.fst).nodup_iff.2 hnodup
  rw [validate]
  cases hinspect : inspect order with
  | error e =>
    refine iff_of_false (by simp [Except.map, Except.isOk, Except.toBool]) fun h => ?_
    have hok := (inspect_eq_ok_iff horder).2 ⟨h.perm hperm, rfl⟩
    rw [hinspect] at hok
    cases hok
  | ok s => exact iff_of_true rfl (((inspect_eq_ok_iff horder).1 hinspect).1.perm hperm.symm)

theorem validate_isOk_iff_stopped : (validate stoppedEntries).isOk = true :=
  (validate_isOk_iff nodup_stoppedEntries (List.Perm.refl _)).2 accepted_stoppedEntries

/-! ### What a recovery leaves -/

/-- Some partial files were removed. -/
structure Trimmed (entries left : Entries) : Prop where
  sublist : left.Sublist entries
  kept : kept left = kept entries

theorem Trimmed.refl (entries : Entries) : Trimmed entries entries := ⟨List.Sublist.refl _, rfl⟩

theorem Trimmed.trans {entries middle left : Entries} (h : Trimmed entries middle)
    (h' : Trimmed middle left) : Trimmed entries left :=
  ⟨h'.sublist.trans h.sublist, h'.kept.trans h.kept⟩

theorem trimmed_remove {entries : Entries} {name : Bytes} (hlock : name ≠ lockName)
    (hidentity : name ≠ identityName) : Trimmed entries (remove entries name) := by
  refine ⟨List.filter_sublist, ?_⟩
  rw [kept, remove, List.filter_filter, kept]
  refine List.filter_congr fun entry _ => ?_
  cases hkept : isKept entry with
  | false => rfl
  | true =>
    rw [isKept, Bool.or_eq_true, decide_eq_true_eq, decide_eq_true_eq] at hkept
    rw [Bool.true_and, decide_eq_true_eq]
    rintro rfl
    exact hkept.elim hlock hidentity

theorem savedIdentity_kept (entries : Entries) :
    savedIdentity (kept entries) = savedIdentity entries := by
  rw [savedIdentity, savedIdentity, kept, List.find?_filter]
  congr 2
  funext entry
  by_cases hidentity : entry.1 = identityName
  · simp [isKept, hidentity]
  · simp [hidentity]

theorem Trimmed.savedIdentity_eq {entries left : Entries} (h : Trimmed entries left) :
    savedIdentity left = savedIdentity entries := by
  rw [← savedIdentity_kept, h.kept, savedIdentity_kept]

theorem Trimmed.accepted {entries left : Entries} (h : Trimmed entries left)
    (ha : Accepted entries) : Accepted left where
  admitted entry hentry := ha.admitted entry (h.sublist.subset hentry)
  count := h.sublist.length_le.trans ha.count
  pending := (h.sublist.filter _).length_le.trans ha.pending
  bytes := (((h.sublist.filter _).map size).sum_le_sum fun _ _ => Nat.zero_le _).trans ha.bytes
  identity := by
    rintro ⟨entry, hentry, hstate⟩
    obtain ⟨other, hother, hname⟩ := ha.identity ⟨entry, h.sublist.subset hentry, hstate⟩
    have hkept : other ∈ InitialDirectory.kept entries :=
      List.mem_filter.2 ⟨hother, by simp [isKept, hname]⟩
    rw [← h.kept] at hkept
    exact ⟨other, (List.mem_filter.1 hkept).1, hname⟩

/-- The removals of partial files; a failure keeps the rest of them. -/
theorem removePending_spec {entries : Entries} {names : List Bytes} {count : Option ℕ}
    (hnames : ∀ name ∈ names, name ≠ lockName ∧ name ≠ identityName) :
    Trimmed entries (removePending entries names count).2 ∧
      ((removePending entries names count).1 = .ok () →
        (removePending entries names count).2 = entries.filter fun entry => entry.1 ∉ names) ∧
      (count = none → (removePending entries names count).1 = .ok ()) := by
  induction names generalizing entries count with
  | nil =>
    refine ⟨Trimmed.refl _, fun _ => ?_, fun _ => rfl⟩
    simp [removePending]
  | cons name names ih =>
    obtain ⟨⟨hlock, hidentity⟩, hrest⟩ := List.forall_mem_cons.1 hnames
    have hjoin : (remove entries name).filter (fun entry => entry.1 ∉ names) =
        entries.filter fun entry => entry.1 ∉ name :: names := by
      rw [remove, List.filter_filter]
      refine List.filter_congr fun entry _ => ?_
      simp [not_or, Bool.and_comm]
    have htrimmed : Trimmed entries (remove entries name) := trimmed_remove hlock hidentity
    cases count with
    | none =>
      obtain ⟨hleft, hall, hok⟩ := @ih (remove entries name) none hrest
      exact ⟨htrimmed.trans hleft, fun h => (hall h).trans hjoin, hok⟩
    | some count =>
      cases count with
      | zero =>
        refine ⟨Trimmed.refl _, fun h => ?_, fun h => ?_⟩
        · cases h
        · cases h
      | succ count =>
        obtain ⟨hleft, hall, -⟩ := @ih (remove entries name) (some count) hrest
        exact ⟨htrimmed.trans hleft, fun h => (hall h).trans hjoin, fun h => absurd h (by simp)⟩

/-- Partial files are neither the lock nor the identity. -/
theorem names_of_partials (entries : Entries) :
    ∀ name ∈ (partials entries).map Prod.fst, name ≠ lockName ∧ name ≠ identityName := by
  intro name hname
  obtain ⟨entry, hentry, rfl⟩ := List.mem_map.1 hname
  have hkept := (List.mem_filter.1 hentry).2
  rw [Bool.not_eq_true', isKept, Bool.or_eq_false_iff, decide_eq_false_iff_not,
    decide_eq_false_iff_not] at hkept
  exact hkept

/-- What is left without the partial files. -/
theorem filter_partials (entries : Entries) :
    (entries.filter fun entry => entry.1 ∉ (partials entries).map Prod.fst) = kept entries := by
  refine List.filter_congr fun entry hentry => ?_
  cases hkept : isKept entry with
  | true =>
    refine decide_eq_true fun hname => ?_
    obtain ⟨hlock, hidentity⟩ := names_of_partials entries entry.1 hname
    rw [isKept, Bool.or_eq_true, decide_eq_true_eq, decide_eq_true_eq] at hkept
    exact hkept.elim hlock hidentity
  | false =>
    refine decide_eq_false (not_not.2 (List.mem_map_of_mem (List.mem_filter.2 ⟨hentry, ?_⟩)))
    rw [hkept]
    rfl

/-- A directory that can be recovered for this recipe. -/
structure Recoverable (entries : Entries) (identity : Bytes) : Prop where
  accepted : Accepted entries
  valid : validDigest identity = true
  saved : savedIdentity entries = none ∨ savedIdentity entries = some identity

/-- A recovery trims the directory; it removes all partial files or none of them where nothing
fails. -/
theorem recover_spec {entries : Entries} {identity : Bytes} {fault : Option RecoverFault}
    (hnodup : (entries.map Prod.fst).Nodup) :
    Trimmed entries (recover entries identity fault).2 ∧
      ((recover entries identity fault).1 = .ok () →
        (recover entries identity fault).2 = kept entries) ∧
      (Recoverable entries identity → fault = none → (recover entries identity fault).1 = .ok ()) ∧
      (¬Recoverable entries identity →
        (recover entries identity fault).1 ≠ .ok () ∧
          (recover entries identity fault).2 = entries) := by
  rw [recover]
  by_cases hvalid : validDigest identity = false
  · rw [if_pos hvalid]
    refine ⟨Trimmed.refl _, by simp, fun h => ?_, fun _ => ⟨by simp, rfl⟩⟩
    rw [h.valid] at hvalid
    cases hvalid
  rw [if_neg hvalid]
  by_cases hinspected : fault = some .inspect
  · rw [if_pos hinspected]
    refine ⟨Trimmed.refl _, by simp, fun _ h => ?_, fun _ => ⟨by simp, rfl⟩⟩
    rw [h] at hinspected
    cases hinspected
  rw [if_neg hinspected]
  cases hinspect : inspect entries with
  | error e =>
    refine ⟨Trimmed.refl _, by simp, fun h => ?_, fun _ => ⟨by simp, rfl⟩⟩
    have hok := (inspect_eq_ok_iff hnodup).2 ⟨h.accepted, rfl⟩
    rw [hinspect] at hok
    cases hok
  | ok s =>
    obtain ⟨haccepted, rfl⟩ := (inspect_eq_ok_iff hnodup).1 hinspect
    dsimp only
    rw [foldl_absorb_savedIdentity hnodup]
    by_cases hother : savedIdentity entries ≠ none ∧ savedIdentity entries ≠ some identity
    · rw [if_pos hother]
      refine ⟨Trimmed.refl _, by simp, fun h => ?_, fun _ => ⟨by simp, rfl⟩⟩
      exact (h.saved.elim hother.1 hother.2).elim
    rw [if_neg hother]
    have hrecoverable : Recoverable entries identity := by
      refine ⟨haccepted, Bool.eq_true_of_not_eq_false hvalid, ?_⟩
      by_contra hsaved
      exact hother ⟨fun h => hsaved (Or.inl h), fun h => hsaved (Or.inr h)⟩
    rw [foldl_absorb_pending]
    have hspec := @removePending_spec entries _ (removals fault) (names_of_partials entries)
    rw [filter_partials] at hspec
    rcases hout : removePending entries ([] ++ (partials entries).map Prod.fst) (removals fault)
      with ⟨result, left⟩
    rw [List.nil_append] at hout
    rw [hout] at hspec
    obtain ⟨htrimmed, hall, hok⟩ := hspec
    cases result with
    | error e =>
      refine ⟨htrimmed, by simp, fun _ hfault => ?_, fun h => absurd hrecoverable h⟩
      cases hok (by rw [hfault]; rfl)
    | ok =>
      dsimp only
      split_ifs with hsync
      · refine ⟨htrimmed, by simp, fun _ hfault => ?_, fun h => absurd hrecoverable h⟩
        rw [hfault] at hsync
        cases hsync
      · exact ⟨htrimmed, fun _ => hall rfl, fun _ _ => rfl, fun h => absurd hrecoverable h⟩

theorem Trimmed.recoverable {entries left : Entries} {identity : Bytes} (h : Trimmed entries left)
    (hr : Recoverable entries identity) : Recoverable left identity := by
  refine ⟨h.accepted hr.accepted, hr.valid, ?_⟩
  rw [h.savedIdentity_eq]
  exact hr.saved

/-! ### Runs -/

/-- A start with any recipe tries to recover the directory, which it reads in any order. -/
inductive Attempt : Entries → Except String Unit → Entries → Prop
  | mk {entries order left : Entries} {identity : Bytes} {fault : Option RecoverFault}
      {result : Except String Unit} (hperm : order.Perm entries)
      (h : recover order identity fault = (result, left)) : Attempt entries result left

/-- The identity is found by its name. -/
theorem find_identity_iff {entries : Entries} {entry : Bytes × Node}
    (hnodup : (entries.map Prod.fst).Nodup) :
    (entries.find? fun entry => entry.1 = identityName) = some entry ↔
      entry ∈ entries ∧ entry.1 = identityName := by
  constructor
  · intro hfind
    exact ⟨List.mem_of_find?_eq_some hfind, by simpa using List.find?_some hfind⟩
  · rintro ⟨hmem, hname⟩
    cases hfind : entries.find? fun entry => entry.1 = identityName with
    | none => exact absurd (decide_eq_true hname) (List.find?_eq_none.1 hfind entry hmem)
    | some other =>
      have hother : other.1 = identityName := by simpa using List.find?_some hfind
      rw [List.inj_on_of_nodup_map hnodup (List.mem_of_find?_eq_some hfind) hmem
        (hother.trans hname.symm)]

theorem Recoverable.perm {entries order : Entries} {identity : Bytes}
    (h : Recoverable entries identity) (hnodup : (entries.map Prod.fst).Nodup)
    (hperm : order.Perm entries) : Recoverable order identity := by
  have horder : (order.map Prod.fst).Nodup := (hperm.map Prod.fst).nodup_iff.2 hnodup
  have hfind : (order.find? fun entry => entry.1 = identityName) =
      entries.find? fun entry => entry.1 = identityName := by
    refine Option.ext fun entry => ?_
    rw [find_identity_iff horder, find_identity_iff hnodup, hperm.mem_iff]
  refine ⟨h.accepted.perm hperm, h.valid, ?_⟩
  rw [savedIdentity, hfind]
  exact h.saved

/-- What holds after every attempt. -/
structure Waiting (identity : Bytes) (entries left : Entries) : Prop where
  nodup : (left.map Prod.fst).Nodup
  recoverable : Recoverable left identity
  kept : (kept left).Perm (kept entries)

/-- An attempt that fails, at any point, leaves a directory that can be recovered. -/
theorem Attempt.waiting {identity : Bytes} {entries middle left : Entries}
    {result : Except String Unit} (h : Attempt middle result left)
    (hw : Waiting identity entries middle) : Waiting identity entries left := by
  cases h with
  | @mk order _ identity' fault _ hperm hrecover =>
    have horder : (order.map Prod.fst).Nodup := (hperm.map Prod.fst).nodup_iff.2 hw.nodup
    obtain ⟨htrimmed, -⟩ := @recover_spec order identity' fault horder
    rw [hrecover] at htrimmed
    refine ⟨horder.sublist (htrimmed.sublist.map Prod.fst),
      htrimmed.recoverable (hw.recoverable.perm hw.nodup hperm), ?_⟩
    rw [htrimmed.kept]
    exact (hperm.filter isKept).trans hw.kept

theorem recoverable_stoppedEntries : Recoverable stoppedEntries zeroIdentity := by
  have hsaved : savedIdentity stoppedEntries = some zeroIdentity := by decide
  exact ⟨accepted_stoppedEntries, by decide, Or.inr hsaved⟩

/-- **Recovery finishes.** After any number of attempts to recover the directory, by starts with any
recipes, each of which stopped at any point and read the entries in any order, an attempt with the
recipe of the directory that does not fail leaves the lock and the identity, and nothing else. -/
theorem recovers_of_run {entries left order : Entries} {identity : Bytes}
    (hnodup : (entries.map Prod.fst).Nodup) (hrecoverable : Recoverable entries identity)
    (hrun : Reach Attempt (fun _ => True) entries left) (hperm : order.Perm left) :
    ∃ rest, recover order identity none = (.ok (), rest) ∧ rest.Perm (kept entries) := by
  have hwaiting : Waiting identity entries left :=
    hrun.invariant (fun _ _ _ _ hw hstep => hstep.waiting hw)
      ⟨hnodup, hrecoverable, List.Perm.refl _⟩
  have horder : (order.map Prod.fst).Nodup := (hperm.map Prod.fst).nodup_iff.2 hwaiting.nodup
  obtain ⟨-, hall, hok, -⟩ := @recover_spec order identity none horder
  have hdone := hok (hwaiting.recoverable.perm hwaiting.nodup hperm) rfl
  exact ⟨kept order, Prod.ext hdone (hall hdone), (hperm.filter isKept).trans hwaiting.kept⟩

theorem recovers_of_run_stopped :
    ∃ rest, recover stoppedEntries zeroIdentity none = (.ok (), rest) ∧
      rest.Perm (kept stoppedEntries) := by
  have hstopped : recover stoppedEntries zeroIdentity (some (.unlink 0)) =
      (.error "cannot remove incomplete initial training write", stoppedEntries) := by
    decide
  exact recovers_of_run nodup_stoppedEntries recoverable_stoppedEntries
    (Reach.refl.tail trivial (Attempt.mk (List.Perm.refl _) hstopped)) (List.Perm.refl _)

/-- **Nothing is removed from any other directory.** A directory with a published checkpoint, a
link, a directory or any unknown file, or with more than a start can have left, is refused by every
attempt, and no attempt removes anything from it. -/
theorem unchanged_of_run {entries left order : Entries} {identity : Bytes}
    {fault : Option RecoverFault} (hnodup : (entries.map Prod.fst).Nodup)
    (hrefused : ¬Accepted entries) (hrun : Reach Attempt (fun _ => True) entries left)
    (hperm : order.Perm left) :
    left.Perm entries ∧ (recover order identity fault).1 ≠ .ok () ∧
      (recover order identity fault).2 = order := by
  have hsame : ∀ {order : Entries} identity fault, order.Perm entries →
      (recover order identity fault).1 ≠ .ok () ∧ (recover order identity fault).2 = order := by
    intro order identity fault hperm
    have horder : (order.map Prod.fst).Nodup := (hperm.map Prod.fst).nodup_iff.2 hnodup
    obtain ⟨-, -, -, hnone⟩ := @recover_spec order identity fault horder
    exact hnone fun h => hrefused (h.accepted.perm hperm.symm)
  have hleft : left.Perm entries := by
    refine hrun.invariant (P := fun left => left.Perm entries) (fun _ _ _ _ hmiddle hstep => ?_)
      (List.Perm.refl _)
    cases hstep with
    | @mk order _ identity fault _ hread hrecover =>
      have hkept := (hsame identity fault (hread.trans hmiddle)).2
      rw [hrecover] at hkept
      dsimp only at hkept
      rw [hkept]
      exact hread.trans hmiddle
  exact ⟨hleft, hsame identity fault (hperm.trans hleft)⟩

/-- A directory with a published checkpoint. -/
def publishedEntries : Entries := [(lockName, .regular [] 1), (stateName, .regular [1, 2, 3] 1)]

/-- What an attempt leaves that reads the entries in the other order and could unlink one of them. -/
def refusedEntries : Entries :=
  (recover publishedEntries.reverse zeroIdentity (some (.unlink 1))).2

theorem unchanged_of_run_published :
    refusedEntries.Perm publishedEntries ∧
      (recover refusedEntries zeroIdentity none).2 = refusedEntries := by
  have hnodup : (publishedEntries.map Prod.fst).Nodup := by decide
  have hinspect : (inspect publishedEntries).isOk = false := by decide
  have hrefused : ¬Accepted publishedEntries := by
    intro h
    rw [(inspect_eq_ok_iff hnodup).2 ⟨h, rfl⟩] at hinspect
    cases hinspect
  have hattempt : Reach Attempt (fun _ => True) publishedEntries refusedEntries :=
    Reach.refl.tail trivial (.mk (List.reverse_perm _) Prod.mk.eta.symm)
  obtain ⟨hperm, -, hkept⟩ := @unchanged_of_run _ _ _ zeroIdentity none hnodup hrefused hattempt
    (List.Perm.refl _)
  exact ⟨hperm, hkept⟩

end Resonantia.AppSupport.InitialDirectory
