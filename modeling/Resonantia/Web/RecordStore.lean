import Resonantia.Web.RecordCodec
import Resonantia.Web.TaskStore

/-!
# The record files of a task store

A task directory holds one file for each task. A call reads what it needs back from these bytes,
and all calls hold one lock, so that what any number of callers do is a list of calls. Over the files
stands what the store is for: one register for each task, changed by compare and swap on its
revision.

## Main definitions

* `Web.RecordStore`: the record files.
* `Web.RecordStore.get`, `Web.RecordStore.save`, `Web.RecordStore.run`: calls, and lists of them.
* `Web.Registers`, `Web.Registers.Admits`: the registers, and when a save takes effect.

## Main results

* `Web.RecordStore.Holds.save`: a save takes effect exactly when the registers admit it.
* `Web.RecordStore.holds_run`: after any calls, the files hold registers.
-/

namespace Resonantia.Web

open Std ByteString

/-! ### The files -/

/-- The record files of a task store, by task. -/
structure RecordStore where
  files : ExtTreeMap Bytes Bytes := ∅
  capacity : ℕ

/-- A record that has not been pruned. -/
def StoredRecord.retained (r : StoredRecord) : Bool := !r.parameters.contains (bytes "retention")

namespace RecordStore

/-- The entries of the root directory. -/
def entries (store : RecordStore) : List Bytes := bytes ".owner.lock" :: store.files.keys

/-- `read_locked`. -/
def readLocked (store : RecordStore) (id : Bytes) : Except String (Option StoredRecord) := do
  require (StoredRecord.validId id = true) "invalid task ID"
  match store.files[id]? with
  | none => return none
  | some text => do
    require (0 < text.length ∧ text.length ≤ maxRecordBytes) "invalid task record file"
    let r ← StoredRecord.decode text
    require (r.id = id) "task record identity mismatch"
    return some r

/-- `TaskStore::get`. -/
def get (store : RecordStore) (id : Bytes) : Except String (Option StoredRecord) :=
  store.readLocked id

/-- The loop of `list_locked` over the entries of the directory. -/
def scan (store : RecordStore) : List Bytes → ℕ → List StoredRecord →
    Except String (List StoredRecord)
  | [], _, records => .ok records
  | id :: ids, scanned, records => do
    require (scanned + 1 ≤ 16384) "task directory scan limit exceeded"
    if StoredRecord.validId id then do
      let r ← store.readLocked id
      require ((records ++ r.toList).length ≤ 4096) "task history capacity exceeded"
      scan store ids (scanned + 1) (records ++ r.toList)
    else scan store ids (scanned + 1) records

/-- The newest record comes first. -/
def newer (a b : StoredRecord) : Bool :=
  if a.createdMs ≠ b.createdMs then a.createdMs > b.createdMs else compare a.id b.id = .gt

/-- `list_locked`. -/
def listLocked (store : RecordStore) : Except String (List StoredRecord) := do
  let records ← store.scan store.entries 0 []
  return records.mergeSort newer

/-- `write_locked`. -/
def writeLocked (store : RecordStore) (record : StoredRecord) :
    Except String Unit × RecordStore :=
  match record.encode with
  | .error message => (.error message, store)
  | .ok text => (.ok (), { store with files := store.files.insert record.id text })

/-- The revision test of `save`. -/
def stale (old : Option StoredRecord) (expected : UInt64) : Bool :=
  match old with
  | some old => old.revision ≠ expected
  | none => expected ≠ 0

/-- The capacity test of `save`: a new record needs room. -/
def checkCapacity (store : RecordStore) (old : Option StoredRecord) : Except StoreError Unit :=
  match old with
  | some _ => .ok ()
  | none =>
    match store.listLocked with
    | .error message => .error (.invalid message)
    | .ok records =>
      if records.length ≥ 4096 ∨ records.countP StoredRecord.retained ≥ store.capacity then .error .capacity
      else .ok ()

/-- `TaskStore::save`: what it returns or throws, the caller's copy after it, and the files. -/
def save (store : RecordStore) (record : StoredRecord) (expected : UInt64) :
    Except StoreError Bool × StoredRecord × RecordStore :=
  match record.validate with
  | .error message => (.error (.invalid message), record, store)
  | .ok () =>
    if record.revision ≠ expected then
      (.error (.invalid "task revision mismatch"), record, store)
    else
      match store.readLocked record.id with
      | .error message => (.error (.invalid message), record, store)
      | .ok old =>
        if stale old expected then (.ok false, record, store)
        else
          match store.checkCapacity old with
          | .error e => (.error e, record, store)
          | .ok () =>
            if expected < 18446744073709551615 then
              let next := { record with revision := expected + 1 }
              match store.writeLocked next with
              | (.error message, store) => (.error (.invalid message), record, store)
              | (.ok (), store) => (.ok true, { record with revision := next.revision }, store)
            else (.error (.invalid "task revision overflow"), record, store)

/-! ### Calls -/

/-- A call of some caller, with the copy it holds. -/
inductive Call
  | get (id : Bytes)
  | save (copy : StoredRecord) (expected : UInt64)

/-- The files after a call. -/
def after (store : RecordStore) : Call → RecordStore
  | .get _ => store
  | .save copy expected => (store.save copy expected).2.2

/-- The files after the calls of all callers, in the order in which they held the lock. -/
def run (store : RecordStore) (calls : List Call) : RecordStore := calls.foldl after store

end RecordStore

/-! ### Registers -/

/-- One register for each task: its record, with the number of saves as its revision. -/
abbrev Registers := ExtTreeMap Bytes StoredRecord

namespace Registers

/-- The revision of a register; an absent one has revision 0. -/
def revision (registers : Registers) (id : Bytes) : UInt64 :=
  (registers[id]?).elim 0 StoredRecord.revision

/-- There is room for another register. -/
def Room (registers : Registers) (capacity : ℕ) : Prop :=
  registers.size < 4096 ∧
    (registers.toList.map Prod.snd).countP StoredRecord.retained < capacity

/-- **When a save takes effect.** -/
structure Admits (registers : Registers) (capacity : ℕ) (copy : StoredRecord)
    (expected : UInt64) : Prop where
  valid : copy.validate = .ok ()
  fits : { copy with revision := expected + 1 }.text.length ≤ maxRecordBytes
  matching : copy.revision = expected
  current : registers.revision copy.id = expected
  room : registers[copy.id]? = none → registers.Room capacity
  bounded : expected < 18446744073709551615

open scoped Classical in
/-- The registers after a call. -/
noncomputable def after (registers : Registers) (capacity : ℕ) : RecordStore.Call → Registers
  | .get _ => registers
  | .save copy expected =>
    if registers.Admits capacity copy expected then
      registers.insert copy.id { copy with revision := expected + 1 }
    else registers

/-- The registers after the calls of all callers. -/
noncomputable def run (capacity : ℕ) (calls : List RecordStore.Call) : Registers :=
  calls.foldl (fun registers call => registers.after capacity call) ∅

theorem run_concat (capacity : ℕ) (calls : List RecordStore.Call) (call : RecordStore.Call) :
    run capacity (calls ++ [call]) = (run capacity calls).after capacity call := by
  rw [run, List.foldl_append]
  rfl

end Registers

/-! ### The files hold registers -/

namespace RecordStore

/-- The files are the texts of the registers. -/
structure Holds (store : RecordStore) (registers : Registers) : Prop where
  files : store.files = registers.map fun _ r => r.text
  sound : ∀ (id : Bytes) (r : StoredRecord), registers[id]? = some r →
    r.id = id ∧ r.validate = .ok () ∧ r.text.length ≤ maxRecordBytes ∧ r.revision ≠ 0
  size : registers.size ≤ 4096

theorem holds_empty (capacity : ℕ) : Holds { capacity } ∅ where
  files := by
    refine ExtTreeMap.ext_getElem? fun id => ?_
    simp
  sound id r h := by simp at h
  size := by simp

theorem text_length_pos (r : StoredRecord) : 0 < r.text.length := by
  rw [StoredRecord.text_eq, List.length_append]
  exact Nat.lt_of_lt_of_le (by decide) (Nat.le_add_right (bytes "RESONANTIA_TASK 2\n").length _)

variable {store : RecordStore} {registers : Registers}

theorem Holds.getElem?_files (h : store.Holds registers) (id : Bytes) :
    store.files[id]? = (registers[id]?).map StoredRecord.text := by
  rw [h.files, ExtTreeMap.getElem?_map]

/-- What is read is the register. -/
theorem Holds.readLocked (h : store.Holds registers) {id : Bytes}
    (hid : StoredRecord.validId id = true) : store.readLocked id = .ok registers[id]? := by
  rw [RecordStore.readLocked, require, if_pos hid]
  dsimp only [bind, Except.bind]
  rw [h.getElem?_files]
  cases hget : registers[id]? with
  | none => rfl
  | some r =>
    obtain ⟨hr, hvalid, hlength, hrevision⟩ := h.sound id r hget
    rw [Option.map_some]
    dsimp only
    rw [require, if_pos ⟨text_length_pos r, hlength⟩]
    dsimp only
    rw [StoredRecord.decode_text hvalid hrevision]
    dsimp only
    rw [require, if_pos hr]
    rfl

theorem validId_of_validate {r : StoredRecord} (h : r.validate = .ok ()) :
    StoredRecord.validId r.id = true := by
  rw [StoredRecord.validate, bind_eq_ok_iff, require_eq_ok] at h
  exact h.1

theorem Holds.validId (h : store.Holds registers) {id : Bytes} {r : StoredRecord}
    (hget : registers[id]? = some r) : StoredRecord.validId id = true := by
  obtain ⟨rfl, hvalid, -⟩ := h.sound id r hget
  exact validId_of_validate hvalid

/-- The records of the given registers are read one after the other. -/
theorem Holds.scan (h : store.Holds registers) {entries : List (Bytes × StoredRecord)}
    (hentries : ∀ entry ∈ entries, registers[entry.1]? = some entry.2) {scanned : ℕ}
    {records : List StoredRecord} (hscanned : scanned + entries.length ≤ 16384)
    (hrecords : records.length + entries.length ≤ 4096) :
    store.scan (entries.map Prod.fst) scanned records = .ok (records ++ entries.map Prod.snd) := by
  induction entries generalizing scanned records with
  | nil => simp [RecordStore.scan]
  | cons entry entries ih =>
    rw [List.forall_mem_cons] at hentries
    rw [List.length_cons] at hscanned hrecords
    have hid := h.validId hentries.1
    have hlength : (records ++ [entry.2]).length = records.length + 1 := List.length_append
    rw [List.map_cons, RecordStore.scan, bind_eq_ok_iff, require_eq_ok, if_pos hid,
      bind_eq_ok_iff_exists]
    refine ⟨by omega, some entry.2, by rw [h.readLocked hid, hentries.1], ?_⟩
    rw [Option.toList_some, bind_eq_ok_iff, require_eq_ok]
    refine ⟨by omega, ?_⟩
    rw [ih hentries.2 (by omega) (by omega), List.append_assoc, List.map_cons, List.singleton_append]

/-- All records, in some order. -/
theorem Holds.listLocked (h : store.Holds registers) :
    ∃ records, store.listLocked = .ok records ∧
      List.Perm records (registers.toList.map Prod.snd) := by
  have hkeys : store.files.keys = registers.toList.map Prod.fst := by
    rw [h.files, ExtTreeMap.keys_map, ExtTreeMap.map_fst_toList_eq_keys]
  have hlength : registers.toList.length = registers.size := ExtTreeMap.length_toList
  have hsize := h.size
  have hentries : ∀ entry ∈ registers.toList, registers[entry.1]? = some entry.2 :=
    fun entry hentry => ExtTreeMap.mem_toList_iff_getElem?_eq_some.1 hentry
  have hscan : store.scan (registers.toList.map Prod.fst) 1 [] =
      .ok ([] ++ registers.toList.map Prod.snd) :=
    h.scan hentries (by omega) (by rw [List.length_nil]; omega)
  have hlock : store.scan store.entries 0 [] = .ok (registers.toList.map Prod.snd) := by
    rw [entries, hkeys, RecordStore.scan, bind_eq_ok_iff, require_eq_ok, if_neg (by decide)]
    exact ⟨by omega, hscan⟩
  rw [RecordStore.listLocked, hlock]
  exact ⟨_, rfl, List.mergeSort_perm _ _⟩

theorem Holds.checkCapacity_eq_ok (h : store.Holds registers) (id : Bytes) :
    store.checkCapacity registers[id]? = .ok () ↔
      (registers[id]? = none → registers.Room store.capacity) := by
  cases hget : registers[id]? with
  | some r => simp [RecordStore.checkCapacity]
  | none =>
    obtain ⟨records, hlist, hperm⟩ := h.listLocked
    have hlength : records.length = registers.size := by
      rw [hperm.length_eq, List.length_map, ExtTreeMap.length_toList]
    have hretained := hperm.countP_eq StoredRecord.retained
    rw [RecordStore.checkCapacity, hlist]
    dsimp only
    simp only [true_implies]
    rw [Registers.Room, ← hlength, ← hretained]
    split_ifs with hfull
    · simp only [false_iff]
      omega
    · simp only [true_iff]
      omega

theorem stale_eq_false (registers : Registers) (id : Bytes) (expected : UInt64) :
    stale registers[id]? expected = false ↔ registers.revision id = expected := by
  rw [Registers.revision]
  cases registers[id]? with
  | some r => simp [stale]
  | none =>
    rw [stale, decide_eq_false_iff_not, not_not]
    exact eq_comm

theorem validate_withRevision (r : StoredRecord) (revision : UInt64) :
    { r with revision }.validate = r.validate := rfl

/-- **A save that the registers admit is stored.** -/
theorem Holds.save_of_admits (h : store.Holds registers) {copy : StoredRecord} {expected : UInt64}
    (hadmits : registers.Admits store.capacity copy expected) :
    store.save copy expected =
      (.ok true, { copy with revision := expected + 1 },
        { store with
          files := store.files.insert copy.id { copy with revision := expected + 1 }.text }) := by
  have hencode : { copy with revision := expected + 1 }.encode =
      .ok { copy with revision := expected + 1 }.text :=
    StoredRecord.encode_eq_ok.2
      ⟨(validate_withRevision copy (expected + 1)).trans hadmits.valid, hadmits.fits, rfl⟩
  rw [RecordStore.save, hadmits.valid]
  dsimp only
  rw [if_neg (not_not.2 hadmits.matching), h.readLocked (validId_of_validate hadmits.valid)]
  dsimp only
  rw [(stale_eq_false registers copy.id expected).2 hadmits.current, if_neg Bool.false_ne_true,
    (h.checkCapacity_eq_ok copy.id).2 hadmits.room]
  dsimp only
  rw [if_pos hadmits.bounded, writeLocked, hencode]

/-- **A save that the registers do not admit changes nothing.** -/
theorem Holds.save_of_not_admits (h : store.Holds registers) {copy : StoredRecord}
    {expected : UInt64} (hadmits : ¬registers.Admits store.capacity copy expected) :
    ∃ outcome, outcome ≠ .ok true ∧ store.save copy expected = (outcome, copy, store) := by
  rw [RecordStore.save]
  cases hvalid : copy.validate with
  | error message => exact ⟨_, by simp, rfl⟩
  | ok =>
    dsimp only
    by_cases hmatching : copy.revision = expected
    swap
    · exact ⟨.error (.invalid "task revision mismatch"), by simp, by rw [if_pos hmatching]⟩
    rw [if_neg (not_not.2 hmatching), h.readLocked (validId_of_validate hvalid)]
    dsimp only
    cases hstale : stale registers[copy.id]? expected with
    | true => exact ⟨.ok false, by simp, rfl⟩
    | false =>
      rw [if_neg Bool.false_ne_true]
      cases hroom : store.checkCapacity registers[copy.id]? with
      | error e => exact ⟨.error e, by simp, rfl⟩
      | ok =>
        dsimp only
        by_cases hbounded : expected < 18446744073709551615
        swap
        · exact ⟨.error (.invalid "task revision overflow"), by simp, by rw [if_neg hbounded]⟩
        rw [if_pos hbounded]
        cases hencode : { copy with revision := expected + 1 }.encode with
        | error message => exact ⟨.error (.invalid message), by simp, by rw [writeLocked, hencode]⟩
        | ok text =>
          exact absurd ⟨hvalid, (StoredRecord.encode_eq_ok.1 hencode).2.1, hmatching,
            (stale_eq_false registers copy.id expected).1 hstale,
            (h.checkCapacity_eq_ok copy.id).1 hroom, hbounded⟩ hadmits

theorem add_one_ne_zero {n : UInt64} (h : n < 18446744073709551615) : n + 1 ≠ 0 := by
  rw [UInt64.lt_iff_toNat_lt] at h
  intro hzero
  have hnat := congrArg UInt64.toNat hzero
  rw [UInt64.toNat_add] at hnat
  have hmax : (18446744073709551615 : UInt64).toNat = 18446744073709551615 := rfl
  have hone : (1 : UInt64).toNat = 1 := rfl
  have hzero' : (0 : UInt64).toNat = 0 := rfl
  omega

/-- The register of an admitted save is replaced. -/
theorem Holds.insert (h : store.Holds registers) {copy : StoredRecord} {expected : UInt64}
    (hadmits : registers.Admits store.capacity copy expected) :
    Holds
      { store with
        files := store.files.insert copy.id { copy with revision := expected + 1 }.text }
      (registers.insert copy.id { copy with revision := expected + 1 }) where
  files := by
    refine ExtTreeMap.ext_getElem? fun id => ?_
    rw [ExtTreeMap.getElem?_map, ExtTreeMap.getElem?_insert, ExtTreeMap.getElem?_insert]
    split_ifs
    · rfl
    · exact h.getElem?_files id
  sound id r hget := by
    rw [ExtTreeMap.getElem?_insert] at hget
    split_ifs at hget with heq
    · obtain rfl := Option.some.inj hget
      exact ⟨Std.compare_eq_iff_eq.1 heq,
        (validate_withRevision copy (expected + 1)).trans hadmits.valid, hadmits.fits,
        add_one_ne_zero hadmits.bounded⟩
    · exact h.sound id r hget
  size := by
    have hsize := h.size
    rw [ExtTreeMap.size_insert]
    split_ifs with hmem
    · exact hsize
    · have hnone : registers[copy.id]? = none := ExtTreeMap.getElem?_eq_none hmem
      have hroom := (hadmits.room hnone).1
      omega

/-- A call does to the files what it does to the registers. -/
theorem Holds.after (h : store.Holds registers) (call : Call) :
    (store.after call).Holds (registers.after store.capacity call) ∧
      (store.after call).capacity = store.capacity := by
  cases call with
  | get id => exact ⟨h, rfl⟩
  | save copy expected =>
    rw [RecordStore.after, Registers.after]
    by_cases hadmits : registers.Admits store.capacity copy expected
    · rw [h.save_of_admits hadmits, if_pos hadmits]
      exact ⟨h.insert hadmits, rfl⟩
    · obtain ⟨outcome, -, hsave⟩ := h.save_of_not_admits hadmits
      rw [hsave, if_neg hadmits]
      exact ⟨h, rfl⟩

theorem run_concat (store : RecordStore) (calls : List Call) (call : Call) :
    store.run (calls ++ [call]) = (store.run calls).after call := by
  rw [run, List.foldl_append]
  rfl

/-- **After any calls, the files hold the registers.** -/
theorem holds_run (capacity : ℕ) (calls : List Call) :
    (run { capacity } calls).Holds (Registers.run capacity calls) ∧
      (run { capacity } calls).capacity = capacity := by
  induction calls using List.reverseRecOn with
  | nil => exact ⟨holds_empty capacity, rfl⟩
  | append_singleton calls call ih =>
    have hstep := ih.1.after call
    rw [ih.2] at hstep
    rw [run_concat, Registers.run_concat]
    exact hstep

/-! ### Every save -/

/-- What a save answers, and what it leaves in the caller's copy and in the files. -/
structure Linearizes (store : RecordStore) (registers : Registers) (copy : StoredRecord)
    (expected : UInt64) : Prop where
  effect : (store.save copy expected).1 = .ok true ↔ registers.Admits store.capacity copy expected
  raised : (store.save copy expected).1 = .ok true →
    (store.save copy expected).2.1 = { copy with revision := expected + 1 } ∧
      (expected + 1).toNat = (registers.revision copy.id).toNat + 1
  stored : (store.save copy expected).1 = .ok true → ∀ id,
    (store.save copy expected).2.2.get id =
      if id = copy.id then .ok (some (store.save copy expected).2.1) else store.get id
  unchanged : (store.save copy expected).1 ≠ .ok true →
    (store.save copy expected).2 = (copy, store)

theorem get_insert_of_ne {store : RecordStore} {id id' : Bytes} {text : Bytes} (h : id' ≠ id) :
    get { store with files := store.files.insert id text } id' = store.get id' := by
  have hfiles : (store.files.insert id text)[id']? = store.files[id']? := by
    rw [ExtTreeMap.getElem?_insert, if_neg (by simpa using h.symm)]
  rw [get, get, readLocked, readLocked, hfiles]

theorem Holds.linearizes {store : RecordStore} {registers : Registers}
    (h : store.Holds registers) (copy : StoredRecord) (expected : UInt64) :
    store.Linearizes registers copy expected := by
  by_cases hadmits : registers.Admits store.capacity copy expected
  · have hsave := h.save_of_admits hadmits
    have hnext := (h.insert hadmits).readLocked (validId_of_validate hadmits.valid)
    rw [ExtTreeMap.getElem?_insert_self] at hnext
    refine ⟨by rw [hsave]; simp [hadmits], fun _ => ⟨by rw [hsave], ?_⟩, fun _ id => ?_, fun hne => ?_⟩
    · have hlt := UInt64.lt_iff_toNat_lt.1 hadmits.bounded
      have hmax : (18446744073709551615 : UInt64).toNat = 18446744073709551615 := rfl
      have hone : (1 : UInt64).toNat = 1 := rfl
      rw [hadmits.current, UInt64.toNat_add]
      omega
    · rw [hsave]
      split_ifs with hid
      · rw [hid]
        exact hnext
      · exact get_insert_of_ne hid
    · rw [hsave] at hne
      exact absurd rfl hne
  · obtain ⟨outcome, houtcome, hsave⟩ := h.save_of_not_admits hadmits
    refine ⟨by rw [hsave]; simp [hadmits, houtcome], fun hok => ?_, fun hok => ?_, fun _ => by rw [hsave]⟩
    all_goals
      rw [hsave] at hok
      exact absurd hok houtcome

/-- **The store is a compare-and-swap register for each task.** -/
theorem run_linearizes (capacity : ℕ) (calls : List Call) :
    (run { capacity } calls).capacity = capacity ∧ (∀ id, StoredRecord.validId id = true →
      (run { capacity } calls).get id = .ok (Registers.run capacity calls)[id]?) ∧
    ∀ copy expected,
      (run { capacity } calls).Linearizes (Registers.run capacity calls) copy expected := by
  obtain ⟨hholds, hcapacity⟩ := holds_run capacity calls
  exact ⟨hcapacity, fun _ hid => hholds.readLocked hid, hholds.linearizes⟩

end RecordStore

/-! ### A record of the largest size -/

namespace StoredRecord

/-- A mark takes two bytes. -/
theorem length_quoted_marks (n : ℕ) :
    (InputStream.quoted (List.replicate n 34)).length = 2 * n + 2 := by
  rw [InputStream.quoted, List.length_cons, List.length_append, List.length_flatMap,
    List.map_replicate, List.sum_replicate_nat, show (InputStream.escape 34).length = 2 from rfl,
    List.length_singleton]
  omega

/-- A record of the largest size, as long as its revision has one digit. -/
def bulky (revision : UInt64) : StoredRecord where
  id := bytes "task-0001"
  kind := bytes "convert"
  name := List.replicate 4096 34
  stage := List.replicate 4035 34
  phase := List.replicate 4096 34
  revision := revision
  parameters := [bytes "a", bytes "b", bytes "c", bytes "d", bytes "e"].foldl
    (fun parameters key => parameters.insert key (List.replicate 4096 34)) ∅

theorem toList_parameters_bulky (revision : UInt64) :
    (bulky revision).parameters.toList =
      [bytes "a", bytes "b", bytes "c", bytes "d", bytes "e"].map
        fun key => (key, List.replicate 4096 34) := rfl

theorem length_bulky (revision : UInt64) :
    (bulky revision).text.length = 65535 + (counterText revision).length := by
  have hsize : (Json.decimalText (bulky revision).parameters.size).length = 1 := by
    rw [← ExtTreeMap.length_toList, toList_parameters_bulky]
    rfl
  have htexts : ((bulky revision).texts.map fun value => (InputStream.quoted value).length + 1).sum =
      12 + (10 + (8195 + (9 + (8073 + (3 + (3 + (3 + (8195 + 0)))))))) := by
    simp only [texts, bulky, List.map_cons, List.map_nil, List.sum_cons, List.sum_nil,
      length_quoted_marks]
    rfl
  have hcounters : ((bulky revision).counters.map fun n => (counterText n).length + 1).sum =
      (counterText revision).length + 1 + 16 := by
    simp only [counters, bulky, List.map_cons, List.map_nil, List.sum_cons, List.sum_nil]
    rfl
  rw [length_text, hsize, htexts, hcounters, toList_parameters_bulky]
  simp only [List.map_cons, List.map_nil, List.sum_cons, List.sum_nil, length_quoted_marks]
  have hkey : ∀ key ∈ [bytes "a", bytes "b", bytes "c", bytes "d", bytes "e"],
      (InputStream.quoted key).length = 3 := by decide
  simp only [List.forall_mem_cons] at hkey
  obtain ⟨ha, hb, hc, hd, he, -⟩ := hkey
  rw [ha, hb, hc, hd, he]
  generalize (counterText revision).length = k
  omega

theorem validate_bulky (revision : UInt64) : (bulky revision).validate = .ok () := by
  have hmarks : ∀ n ≤ 4096, boundedText 4096 (List.replicate n 34) = true := by
    intro n hn
    simp [boundedText, hn]
  have hentries : ∀ entry ∈ (bulky revision).parameters.toList, entry.1 ≠ [] ∧
      boundedText 64 entry.1 = true ∧ boundedText 4096 entry.2 = true := by
    intro entry hentry
    rw [toList_parameters_bulky] at hentry
    obtain ⟨key, hkey, rfl⟩ := List.mem_map.1 hentry
    have hkeys : ∀ key ∈ [bytes "a", bytes "b", bytes "c", bytes "d", bytes "e"],
        key ≠ [] ∧ boundedText 64 key = true := by decide
    exact ⟨(hkeys key hkey).1, (hkeys key hkey).2, hmarks 4096 (Nat.le_refl 4096)⟩
  rw [show (bulky revision).validate = (bulky 0).validate from rfl]
  simp only [validate, bind_eq_ok_iff, require_eq_ok, requireAll_eq_ok]
  refine ⟨by decide, by decide, by decide, by decide, ?_, by decide, by decide, ?_, rfl, rfl, rfl, hentries⟩
  · intro value hvalue
    simp only [bulky, List.mem_cons, List.not_mem_nil, or_false] at hvalue
    rcases hvalue with rfl | rfl | rfl | rfl | rfl | rfl
    · exact hmarks 4096 (by decide)
    · exact hmarks 4035 (by decide)
    · decide
    · decide
    · decide
    · exact hmarks 4096 (by decide)
  · rw [← ExtTreeMap.length_toList, toList_parameters_bulky]
    decide

/-- A small record. -/
def brief : StoredRecord where
  id := bytes "task-0001"
  kind := bytes "convert"
  name := bytes "voice"

theorem validate_brief : brief.validate = .ok () := by
  decide

theorem length_brief_le (revision : UInt64) :
    { brief with revision := revision }.text.length ≤ maxRecordBytes := by
  have hdigits : (counterText revision).length ≤ 20 :=
    Json.length_decimalText_le (by decide) (by have := revision.toNat_lt; omega)
  have htexts : ({ brief with revision := revision }.texts.map
      fun value => (InputStream.quoted value).length + 1).sum = 60 := by
    show (brief.texts.map fun value => (InputStream.quoted value).length + 1).sum = 60
    decide
  have hcounters : ({ brief with revision := revision }.counters.map
      fun n => (counterText n).length + 1).sum = (counterText revision).length + 1 + 16 := by
    simp only [counters, brief, List.map_cons, List.map_nil, List.sum_cons, List.sum_nil]
    rfl
  rw [length_text, htexts, hcounters, show (brief.parameters.toList.map _).sum = 0 from rfl,
    show (Json.decimalText brief.parameters.size).length = 1 from rfl, maxRecordBytes]
  omega

end StoredRecord

namespace RecordStore

open StoredRecord

/-- One caller saves a record as often as given. -/
def saves (record : StoredRecord) (n : ℕ) : List Call :=
  (List.range n).map fun k => .save { record with revision := UInt64.ofNat k } (UInt64.ofNat k)

/-- As long as its text is not too long, the record is stored. -/
theorem run_saves {record : StoredRecord} (hvalid : record.validate = .ok ()) {n : ℕ}
    (hn : n ≤ 18446744073709551615) (hfits : ∀ k < n,
      { record with revision := UInt64.ofNat k + 1 }.text.length ≤ maxRecordBytes) :
    (n = 0 → Registers.run 256 (saves record n) = ∅) ∧
      (n ≠ 0 → (Registers.run 256 (saves record n))[record.id]? =
        some { record with revision := UInt64.ofNat n }) := by
  induction n with
  | zero => exact ⟨fun _ => rfl, fun h => absurd rfl h⟩
  | succ n ih =>
    obtain ⟨hzero, hstored⟩ := ih (by omega) fun k hk => hfits k (by omega)
    refine ⟨fun h => absurd h (Nat.succ_ne_zero n), fun _ => ?_⟩
    have hlt : n < UInt64.size := hn.trans (by decide)
    have hbounded : UInt64.ofNat n < 18446744073709551615 := by
      rw [UInt64.lt_iff_toNat_lt, UInt64.toNat_ofNat_of_lt' hlt]
      exact hn
    have hadmits : (Registers.run 256 (saves record n)).Admits 256
        { record with revision := UInt64.ofNat n } (UInt64.ofNat n) := by
      refine ⟨hvalid, hfits n (Nat.lt_succ_self n), rfl, ?_, fun hnone => ?_, hbounded⟩
      · dsimp only
        rw [Registers.revision]
        by_cases hn0 : n = 0
        · rw [hzero hn0, hn0]
          rfl
        · rw [hstored hn0]
          rfl
      · by_cases hn0 : n = 0
        · rw [hzero hn0]
          exact ⟨by decide, by decide⟩
        · dsimp only at hnone
          rw [hstored hn0] at hnone
          cases hnone
    rw [saves, List.range_succ, List.map_append, ← saves, List.map_singleton, Registers.run_concat,
      Registers.after, if_pos hadmits, ExtTreeMap.getElem?_insert_self, UInt64.ofNat_add]
    rfl

/-- A save of a copy with the stored revision. -/
def Matching (calls : List Call) (copy : StoredRecord) : Prop :=
  copy.validate = .ok () ∧ copy.text.length ≤ maxRecordBytes ∧
    (Registers.run 256 calls)[copy.id]? = some copy

/-- A copy that fits is refused when its next revision has one more digit, and when it has the
largest revision. -/
theorem not_saved_whenever_copy_fits :
    (Matching (saves (bulky 0) 9) (bulky 9) ∧
      ((run { capacity := 256 } (saves (bulky 0) 9)).save (bulky 9) 9).1 ≠ .ok true) ∧
    (Matching (saves brief 18446744073709551615)
        { brief with revision := 18446744073709551615 } ∧
      ((run { capacity := 256 } (saves brief 18446744073709551615)).save
        { brief with revision := 18446744073709551615 } 18446744073709551615).1 ≠ .ok true) := by
  constructor
  · have hdigit : ∀ k < 9, (counterText (UInt64.ofNat k + 1)).length = 1 := by decide
    have hstored : (Registers.run 256 (saves (bulky 0) 9))[(bulky 0).id]? = some (bulky 9) := by
      refine (run_saves (validate_bulky 0) (by decide) fun k hk => ?_).2 (by decide)
      have hlength := length_bulky (UInt64.ofNat k + 1)
      rw [hdigit k hk] at hlength
      exact Nat.le_of_eq hlength
    refine ⟨⟨validate_bulky 9, Nat.le_of_eq (length_bulky 9), hstored⟩, fun hsaved => ?_⟩
    have hfits := (((holds_run 256 (saves (bulky 0) 9)).1.linearizes (bulky 9) 9).effect.1
      hsaved).fits
    have hlength : (bulky 10).text.length ≤ maxRecordBytes := hfits
    rw [length_bulky] at hlength
    exact absurd hlength (by decide)
  · have hstored := (run_saves validate_brief (Nat.le_refl 18446744073709551615)
      fun _ _ => length_brief_le _).2 (by decide)
    refine ⟨⟨validate_brief, length_brief_le _, hstored⟩, fun hsaved => ?_⟩
    have hbounded := (((holds_run 256 (saves brief 18446744073709551615)).1.linearizes
      { brief with revision := 18446744073709551615 } 18446744073709551615).effect.1
      hsaved).bounded
    exact absurd hbounded (by decide)

end RecordStore

end Resonantia.Web
