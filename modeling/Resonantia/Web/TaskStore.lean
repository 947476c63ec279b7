import Mathlib.Data.Nat.Notation
import Mathlib.Tactic.SplitIfs
import Resonantia.Web.TaskRecord

/-!
# The task store

A map from identifiers to admitted records, updated by compare and swap on the revision. One
storage call can meet one fault of the disk, before or after the record file is replaced.

## Main definitions

* `Web.DiskFault`, `Web.StoreError`: what a call can meet and what it then throws.
* `Web.TaskStore`: the records with the capacity; every stored record passed `validate`, lies
  under its own identifier and has a positive revision.
* `Web.TaskStore.save`, `Web.TaskStore.recoverRecord`: the two writers.

## Main results

* `Web.TaskStore.save_cases`: a save changes nothing or stores the record with the next revision.
* `Web.TaskStore.save_existing_ne_stale`: a record saved at the revision it was read with is never
  refused as stale.
* `Web.TaskStore.recoverRecord_cases`: recovery touches active records only.
-/

namespace Resonantia.Web

open Std

/-- Where a storage call fails: reading, before the record file is renamed into place, or
syncing the directory after that, when the new record is already visible. -/
inductive DiskFault
  | read
  | write
  | sync
deriving DecidableEq, Repr

/-- What a storage call throws. -/
inductive StoreError
  | invalid (message : String)
  | capacity
  | disk
deriving DecidableEq, Repr

theorem TaskRecord.Valid.withRevision {r : TaskRecord} (h : r.Valid) (n : ℕ) :
    { r with revision := n }.Valid :=
  ⟨h.id, h.attempt, h.texts, h.result, h.progress, h.size, h.retention, h.digest, h.source,
    h.parameters⟩

/-- The records of one task directory. -/
structure TaskStore where
  records : ExtTreeMap String TaskRecord
  capacity : ℕ
  sound : ∀ (id : String) (r : TaskRecord), records[id]? = some r →
    r.id = id ∧ 0 < r.revision ∧ r.Valid

namespace TaskStore

/-- An empty task directory with the default capacity. -/
def empty : TaskStore where
  records := ∅
  capacity := 256
  sound := by
    intro id r h
    simp at h

/-- Replace or add one record. -/
def put (store : TaskStore) (r : TaskRecord) (hrevision : 0 < r.revision) (hvalid : r.Valid) :
    TaskStore where
  records := store.records.insert r.id r
  capacity := store.capacity
  sound := by
    intro id other h
    rw [ExtTreeMap.getElem?_insert] at h
    split_ifs at h with heq
    · obtain rfl := Option.some.inj h
      exact ⟨Std.compare_eq_iff_eq.1 heq, hrevision, hvalid⟩
    · exact store.sound id other h

/-- `TaskStore::get`, reading faults apart. -/
def get (store : TaskStore) (id : String) : Option TaskRecord := store.records[id]?

@[simp]
theorem get_put_self (store : TaskStore) (r : TaskRecord) (hrevision : 0 < r.revision)
    (hvalid : r.Valid) : (store.put r hrevision hvalid).get r.id = some r := by
  rw [get, put, ExtTreeMap.getElem?_insert_self]

theorem get_put_of_ne {store : TaskStore} {r : TaskRecord} {hrevision : 0 < r.revision}
    {hvalid : r.Valid} {id : String} (h : r.id ≠ id) :
    (store.put r hrevision hvalid).get id = store.get id := by
  rw [get, put, ExtTreeMap.getElem?_insert, if_neg (by simpa using h), get]

/-- `list_locked`: the newest record first. -/
def listLocked (store : TaskStore) : List TaskRecord :=
  (store.records.toList.map Prod.snd).mergeSort fun a b =>
    if a.createdMs ≠ b.createdMs then a.createdMs > b.createdMs else a.id > b.id

/-- The number of records whose copies have not been pruned. -/
def retained (store : TaskStore) : ℕ :=
  store.listLocked.countP fun r => !r.parameters.contains "retention"

/-- `write_locked`: encode, write and rename, then sync the directory. -/
def writeLocked (store : TaskStore) (next : TaskRecord) (hrevision : 0 < next.revision)
    (hvalid : next.Valid) (fault : Option DiskFault) : Except StoreError Unit × TaskStore :=
  match encode next with
  | .error message => (.error (.invalid message), store)
  | .ok _ =>
    match fault with
    | none => (.ok (), store.put next hrevision hvalid)
    | some .sync => (.error .disk, store.put next hrevision hvalid)
    | some _ => (.error .disk, store)

/-- The revision test of `save`: an existing record has another revision, or none exists and one
was expected. -/
def isStale (old : Option TaskRecord) (expected : ℕ) : Bool :=
  match old with
  | some old => old.revision != expected
  | none => expected != 0

/-- `TaskStore::save`: create when `expected` is zero, otherwise compare and swap. `false` means
a stale revision or an identifier in use. -/
def save (store : TaskStore) (record : TaskRecord) (expected : ℕ) (fault : Option DiskFault) :
    Except StoreError Bool × TaskStore :=
  match hvalid : validate record with
  | .error message => (.error (.invalid message), store)
  | .ok () =>
    if record.revision ≠ expected then (.error (.invalid "task revision mismatch"), store)
    else if fault = some .read then (.error .disk, store)
    else if isStale (store.get record.id) expected then
      (.ok false, store)
    else if store.get record.id = none ∧
        (4096 ≤ store.listLocked.length ∨ store.capacity ≤ store.retained) then
      (.error .capacity, store)
    else if 2 ^ 64 - 1 ≤ expected then (.error (.invalid "task revision overflow"), store)
    else
      match store.writeLocked { record with revision := expected + 1 } (Nat.succ_pos _)
        ((validate_eq_ok_iff.1 hvalid).withRevision _) fault with
      | (.error e, store') => (.error e, store')
      | (.ok (), store') => (.ok true, store')

/-- What `recover_interrupted` makes of an active record. -/
def recovered (r : TaskRecord) (nowMs : ℕ) : TaskRecord :=
  { r with
    state := .interrupted
    updatedMs := nowMs
    error := "Service restarted; explicit recovery is required."
    revision := r.revision + 1 }

/-- Only succeeded records carry a retention mark or a digest, so marking an active record
interrupted keeps it valid. -/
theorem recovered_valid {r : TaskRecord} (h : r.Valid) (hactive : r.state.Active) (nowMs : ℕ) :
    (recovered r nowMs).Valid := by
  have hstate : r.state ≠ .succeeded := by
    rintro heq
    rw [heq] at hactive
    revert hactive
    decide
  refine ⟨h.id, h.attempt, ?_, h.result, h.progress, h.size, ?_, ?_, h.source, h.parameters⟩
  · intro value hvalue
    have htexts := h.texts
    simp only [TaskRecord.texts, recovered, List.mem_cons, List.not_mem_nil, or_false] at hvalue htexts
    rcases hvalue with rfl | rfl | rfl | rfl | rfl | rfl
    · exact htexts _ (by simp)
    · exact htexts _ (by simp)
    · decide
    · exact htexts _ (by simp)
    · exact htexts _ (by simp)
    · exact htexts _ (by simp)
  · intro value hvalue
    exact absurd (h.retention value hvalue).2 hstate
  · intro value hvalue
    exact absurd (h.digest value hvalue).2.1 hstate

/-- One turn of the loop of `recover_interrupted`. -/
def recoverRecord (store : TaskStore) (id : String) (nowMs : ℕ) (fault : Option DiskFault) :
    Except StoreError Unit × TaskStore :=
  match hget : store.records[id]? with
  | none => (.ok (), store)
  | some r =>
    if hactive : r.state.Active then
      if 2 ^ 64 - 1 ≤ r.revision then (.error (.invalid "task revision overflow"), store)
      else
        store.writeLocked (recovered r nowMs) (Nat.succ_pos _)
          (recovered_valid (store.sound id r hget).2.2 hactive nowMs) fault
    else (.ok (), store)

/-! ### What the writers do -/

theorem writeLocked_cases {store store' : TaskStore} {next : TaskRecord}
    {hrevision : 0 < next.revision} {hvalid : next.Valid} {fault : Option DiskFault}
    {result : Except StoreError Unit}
    (h : store.writeLocked next hrevision hvalid fault = (result, store')) :
    (store' = store ∧ ∃ e, result = .error e) ∨
      (store' = store.put next hrevision hvalid ∧
        (result = .ok () ∨ (result = .error .disk ∧ fault = some .sync))) := by
  rw [writeLocked.eq_def] at h
  split at h
  · obtain ⟨rfl, rfl⟩ := Prod.mk.inj h
    exact Or.inl ⟨rfl, _, rfl⟩
  · split at h
    · obtain ⟨rfl, rfl⟩ := Prod.mk.inj h
      exact Or.inr ⟨rfl, Or.inl rfl⟩
    · obtain ⟨rfl, rfl⟩ := Prod.mk.inj h
      exact Or.inr ⟨rfl, Or.inr ⟨rfl, rfl⟩⟩
    · obtain ⟨rfl, rfl⟩ := Prod.mk.inj h
      exact Or.inl ⟨rfl, _, rfl⟩

/-- **What a save does.** It leaves the store as it was and does not report success, or it stores
the record with the next revision over the expected one; then it reports success unless the disk
failed after the rename. -/
theorem save_cases {store store' : TaskStore} {record : TaskRecord} {expected : ℕ}
    {fault : Option DiskFault} {result : Except StoreError Bool}
    (h : store.save record expected fault = (result, store')) :
    (store' = store ∧ result ≠ .ok true) ∨
      (isStale (store.get record.id) expected = false ∧ record.revision = expected ∧
        ∃ hvalid : { record with revision := expected + 1 }.Valid,
          store' = store.put { record with revision := expected + 1 } (Nat.succ_pos _) hvalid ∧
          (result = .ok true ∨ (result = .error .disk ∧ fault = some .sync))) := by
  rw [save] at h
  split at h
  · obtain ⟨rfl, rfl⟩ := Prod.mk.inj h
    exact Or.inl ⟨rfl, by simp⟩
  · split_ifs at h with hrevision hread hstale hcapacity hoverflow
    case neg =>
      split at h
      · rename_i e _ hwrite
        obtain ⟨rfl, rfl⟩ := Prod.mk.inj h
        rcases writeLocked_cases hwrite with ⟨rfl, -⟩ | ⟨hput, hok | ⟨herror, hsync⟩⟩
        · exact Or.inl ⟨rfl, by simp⟩
        · cases hok
        · cases herror
          exact Or.inr ⟨by simpa using hstale, Decidable.not_not.1 hrevision, _, hput,
            Or.inr ⟨rfl, hsync⟩⟩
      · rename_i hwrite
        obtain ⟨rfl, rfl⟩ := Prod.mk.inj h
        rcases writeLocked_cases hwrite with ⟨-, e, herror⟩ | ⟨hput, -⟩
        · cases herror
        · exact Or.inr ⟨by simpa using hstale, Decidable.not_not.1 hrevision, _, hput, Or.inl rfl⟩
    all_goals
      obtain ⟨rfl, rfl⟩ := Prod.mk.inj h
      exact Or.inl ⟨rfl, by simp⟩

/-- A reported save is in the store. -/
theorem get_of_save {store store' : TaskStore} {record : TaskRecord} {expected : ℕ}
    {fault : Option DiskFault} (h : store.save record expected fault = (.ok true, store')) :
    store'.get record.id = some { record with revision := expected + 1 } := by
  rcases save_cases h with ⟨-, hne⟩ | ⟨-, -, hvalid, rfl, -⟩
  · exact absurd rfl hne
  · exact get_put_self store { record with revision := expected + 1 } (Nat.succ_pos _) hvalid

/-- **No stale refusal.** A record saved at the revision of the stored one is never refused as
stale. -/
theorem save_existing_ne_stale {store : TaskStore} {record old : TaskRecord} {expected : ℕ}
    {fault : Option DiskFault} (hold : store.get record.id = some old)
    (hrevision : old.revision = expected) :
    (store.save record expected fault).1 ≠ .ok false := by
  rw [save]
  split
  · simp
  · rw [hold]
    split_ifs with h₁ h₂ h₃ h₄ h₅
    all_goals try simp
    · simp [isStale, hrevision] at h₃
    · split <;> simp

/-- **Recovery touches active records only.** -/
theorem recoverRecord_cases {store store' : TaskStore} {id : String} {nowMs : ℕ}
    {fault : Option DiskFault} {result : Except StoreError Unit}
    (h : store.recoverRecord id nowMs fault = (result, store')) :
    (store' = store ∧ (result = .ok () → ∀ r, store.get id = some r → ¬r.state.Active)) ∨
      ∃ r hvalid, store.get id = some r ∧ r.state.Active ∧
        store' = store.put (recovered r nowMs) (Nat.succ_pos _) hvalid := by
  rw [recoverRecord] at h
  split at h
  · rename_i hget
    obtain ⟨rfl, rfl⟩ := Prod.mk.inj h
    refine Or.inl ⟨rfl, fun _ r hr => ?_⟩
    rw [get, hget] at hr
    cases hr
  · rename_i r hget
    split_ifs at h with hactive hoverflow
    · obtain ⟨rfl, rfl⟩ := Prod.mk.inj h
      exact Or.inl ⟨rfl, by simp⟩
    · rcases writeLocked_cases h with ⟨rfl, e, rfl⟩ | ⟨hput, -⟩
      · exact Or.inl ⟨rfl, by simp⟩
      · exact Or.inr ⟨r, _, hget, hactive, hput⟩
    · obtain ⟨rfl, rfl⟩ := Prod.mk.inj h
      refine Or.inl ⟨rfl, fun _ other hother => ?_⟩
      rw [get, hget] at hother
      obtain rfl := Option.some.inj hother
      exact hactive

end TaskStore

end Resonantia.Web
