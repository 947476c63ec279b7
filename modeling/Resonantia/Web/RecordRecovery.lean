import Resonantia.Web.RecordStore

/-!
# Recovery of interrupted tasks

When the service starts, every record of a live execution is marked interrupted. The mark, the error
text and the next revision go through the same validating and size-limited writer as a save, so
recovery ends with an error when a live record has no room for them.

## Main definitions

* `Web.StoredRecord.recovered`: a record as recovery writes it.
* `Web.RecordStore.recoverInterrupted`: the loop over all records.
* `Web.StoredRecord.RecoveryFits`: the room that a live record needs.

## Main results

* `Web.RecordStore.recovers_run_iff`: recovery completes exactly when every live record has room.
-/

namespace Resonantia.Web

open Std ByteString

namespace StoredRecord

/-! ### One record -/

/-- The states of an execution that the service owned. -/
def liveStates : List Bytes :=
  [bytes "preparing", bytes "queued", bytes "running", bytes "pause_requested"]

def live (r : StoredRecord) : Bool := liveStates.contains r.state

def recoveryError : Bytes := bytes "Service restarted; explicit recovery is required."

/-- A live record as recovery writes it. -/
def recovered (r : StoredRecord) (nowMs : UInt64) : StoredRecord :=
  { r with
    state := bytes "interrupted"
    updatedMs := nowMs
    error := recoveryError
    revision := r.revision + 1 }

/-- The mark, the error text, the time and the next revision take no more room than there is, and
there is a next revision. -/
structure RecoveryFits (r : StoredRecord) (nowMs : UInt64) : Prop where
  bounded : r.revision < 18446744073709551615
  room : r.text.length + ((InputStream.quoted (bytes "interrupted")).length +
      (InputStream.quoted recoveryError).length + (counterText nowMs).length +
      (counterText (r.revision + 1)).length) ≤
    maxRecordBytes + ((InputStream.quoted r.state).length + (InputStream.quoted r.error).length +
      (counterText r.updatedMs).length + (counterText r.revision).length)

/-- The change of the length. -/
theorem length_recovered (r : StoredRecord) (nowMs : UInt64) :
    (r.recovered nowMs).text.length + ((InputStream.quoted r.state).length +
        (InputStream.quoted r.error).length + (counterText r.updatedMs).length +
        (counterText r.revision).length) =
      r.text.length + ((InputStream.quoted (bytes "interrupted")).length +
        (InputStream.quoted recoveryError).length + (counterText nowMs).length +
        (counterText (r.revision + 1)).length) := by
  rw [length_text, length_text]
  simp only [texts, counters, recovered, List.map_cons, List.map_nil, List.sum_cons, List.sum_nil]
  omega

theorem recoveryFits_iff {r : StoredRecord} {nowMs : UInt64} :
    r.RecoveryFits nowMs ↔
      r.revision < 18446744073709551615 ∧ (r.recovered nowMs).text.length ≤ maxRecordBytes := by
  have hlength := r.length_recovered nowMs
  constructor
  · intro h
    have hroom := h.room
    exact ⟨h.bounded, by omega⟩
  · rintro ⟨hbounded, hfits⟩
    exact ⟨hbounded, by omega⟩

theorem state_ne_succeeded {r : StoredRecord} (h : r.live = true) :
    r.state ≠ bytes "succeeded" := by
  intro hstate
  rw [live, hstate] at h
  exact absurd h (by decide)

/-- Only succeeded records carry a retention mark or a digest, so a live record stays valid. -/
theorem validate_recovered {r : StoredRecord} (hlive : r.live = true)
    (hvalid : r.validate = .ok ()) (nowMs : UInt64) : (r.recovered nowMs).validate = .ok () := by
  have hstate := state_ne_succeeded hlive
  simp only [validate, bind_eq_ok_iff, require_eq_ok, requireAll_eq_ok, requireParameter_eq_ok,
    Bool.and_eq_true, decide_eq_true_eq] at hvalid ⊢
  obtain ⟨hid, hattempt, hkind, -, htexts, hresult, hprogress, hsize, hretention, hdigest, hsource,
    hparameters⟩ := hvalid
  refine ⟨hid, hattempt, hkind, show bytes "interrupted" ∈ states by decide, ?_, hresult, hprogress, hsize, fun value hvalue => ?_,
    fun value hvalue => ?_, hsource, hparameters⟩
  · simp only [List.forall_mem_cons] at htexts ⊢
    obtain ⟨hname, hstage, -, hrest⟩ := htexts
    exact ⟨hname, hstage, show boundedText 4096 recoveryError = true by decide, hrest⟩
  · exact absurd (hretention value hvalue).2 hstate
  · exact absurd (hdigest value hvalue).1.2 hstate

end StoredRecord

namespace RecordStore

/-! ### The loop -/

/-- The loop of `recover_interrupted`. -/
def recoverLoop (nowMs : UInt64) : List StoredRecord → ℕ → RecordStore →
    Except String ℕ × RecordStore
  | [], count, store => (.ok count, store)
  | r :: records, count, store =>
    if r.live = false then recoverLoop nowMs records count store
    else if r.revision < 18446744073709551615 then
      match store.writeLocked (r.recovered nowMs) with
      | (.error message, store) => (.error message, store)
      | (.ok (), store) => recoverLoop nowMs records (count + 1) store
    else (.error "task revision overflow", store)

/-- `TaskStore::recover_interrupted`: the number of records, and the files. -/
def recoverInterrupted (store : RecordStore) (nowMs : UInt64) : Except String ℕ × RecordStore :=
  match store.listLocked with
  | .error message => (.error message, store)
  | .ok records => recoverLoop nowMs records 0 store

/-- The files after the loop, when every live record has room. -/
def recoveredFiles (nowMs : UInt64) (records : List StoredRecord)
    (files : ExtTreeMap Bytes Bytes) : ExtTreeMap Bytes Bytes :=
  records.foldl
    (fun files r => if r.live = true then files.insert r.id (r.recovered nowMs).text else files) files

theorem recoverLoop_of_fits {nowMs : UInt64} {records : List StoredRecord}
    (hvalid : ∀ r ∈ records, r.validate = .ok ())
    (hfits : ∀ r ∈ records, r.live = true → r.RecoveryFits nowMs) (count : ℕ)
    (store : RecordStore) :
    recoverLoop nowMs records count store =
      (.ok (count + records.countP StoredRecord.live),
        { store with files := recoveredFiles nowMs records store.files }) := by
  induction records generalizing count store with
  | nil => rfl
  | cons r records ih =>
    rw [List.forall_mem_cons] at hvalid hfits
    rw [recoverLoop, recoveredFiles, List.foldl_cons]
    cases hlive : r.live with
    | false =>
      rw [if_pos rfl, if_neg Bool.false_ne_true, ih hvalid.2 hfits.2,
        List.countP_cons_of_neg (by rw [hlive]; exact Bool.false_ne_true)]
      rfl
    | true =>
      obtain ⟨hbounded, hlength⟩ := StoredRecord.recoveryFits_iff.1 (hfits.1 hlive)
      have hencode : (r.recovered nowMs).encode = .ok (r.recovered nowMs).text :=
        StoredRecord.encode_eq_ok.2
          ⟨StoredRecord.validate_recovered hlive hvalid.1 nowMs, hlength, rfl⟩
      rw [if_neg (by decide), if_pos hbounded, if_pos rfl, writeLocked, hencode]
      dsimp only
      rw [ih hvalid.2 hfits.2, List.countP_cons_of_pos hlive, Nat.add_assoc,
        Nat.add_comm 1 (List.countP _ _)]
      rfl

/-- Recovery that ends without error had room for every live record. -/
theorem fits_of_recoverLoop {nowMs : UInt64} {records : List StoredRecord} {count n : ℕ}
    {store store' : RecordStore}
    (h : recoverLoop nowMs records count store = (.ok n, store')) :
    ∀ r ∈ records, r.live = true → r.RecoveryFits nowMs := by
  induction records generalizing count store with
  | nil => simp
  | cons r records ih =>
    rw [recoverLoop] at h
    rw [List.forall_mem_cons]
    cases hlive : r.live with
    | false =>
      rw [hlive, if_pos rfl] at h
      exact ⟨fun hfalse => absurd hfalse Bool.false_ne_true, ih h⟩
    | true =>
      rw [hlive, if_neg (by decide)] at h
      split_ifs at h with hbounded
      · rw [writeLocked] at h
        cases hencode : (r.recovered nowMs).encode with
        | error message =>
          rw [hencode] at h
          cases (Prod.mk.inj h).1
        | ok text =>
          rw [hencode] at h
          exact ⟨fun _ => StoredRecord.recoveryFits_iff.2
            ⟨hbounded, (StoredRecord.encode_eq_ok.1 hencode).2.1⟩, ih h⟩
      · cases (Prod.mk.inj h).1

/-- Without live records nothing is written. -/
theorem recoverLoop_of_not_live {nowMs : UInt64} {records : List StoredRecord}
    (hlive : ∀ r ∈ records, r.live = false) (count : ℕ) (store : RecordStore) :
    recoverLoop nowMs records count store = (.ok count, store) := by
  induction records with
  | nil => rfl
  | cons r records ih =>
    rw [List.forall_mem_cons] at hlive
    rw [recoverLoop, if_pos hlive.1, ih hlive.2]

/-! ### The files after recovery -/

theorem getElem?_recoveredFiles_of_forall_ne {nowMs : UInt64} {records : List StoredRecord}
    {id : Bytes} (h : ∀ r ∈ records, r.id ≠ id) (files : ExtTreeMap Bytes Bytes) :
    (recoveredFiles nowMs records files)[id]? = files[id]? := by
  induction records generalizing files with
  | nil => rfl
  | cons r records ih =>
    rw [List.forall_mem_cons] at h
    rw [recoveredFiles, List.foldl_cons, ← recoveredFiles, ih h.2]
    split_ifs with hlive
    · rw [ExtTreeMap.getElem?_insert, if_neg (by simpa using h.1)]
    · rfl

theorem getElem?_recoveredFiles {nowMs : UInt64} {records : List StoredRecord}
    (hdistinct : records.Pairwise fun a b => a.id ≠ b.id) {r : StoredRecord} (hr : r ∈ records)
    (files : ExtTreeMap Bytes Bytes) :
    (recoveredFiles nowMs records files)[r.id]? =
      if r.live = true then some (r.recovered nowMs).text else files[r.id]? := by
  induction records generalizing files with
  | nil => cases hr
  | cons a records ih =>
    rw [List.pairwise_cons] at hdistinct
    rw [recoveredFiles, List.foldl_cons, ← recoveredFiles]
    rcases List.mem_cons.1 hr with rfl | hr
    · rw [getElem?_recoveredFiles_of_forall_ne fun b hb => (hdistinct.1 b hb).symm]
      split_ifs with hlive
      · rw [ExtTreeMap.getElem?_insert_self]
      · rfl
    · rw [ih hdistinct.2 hr]
      have hne : a.id ≠ r.id := hdistinct.1 r hr
      refine if_congr Iff.rfl rfl ?_
      split_ifs
      · rw [ExtTreeMap.getElem?_insert, if_neg (by simpa using hne)]
      · rfl

/-! ### All records -/

variable {store : RecordStore} {registers : Registers}

/-- The registers after recovery. -/
def recoveredRegisters (registers : Registers) (nowMs : UInt64) : Registers :=
  registers.map fun _ r => if r.live = true then r.recovered nowMs else r

/-- The records of the listing are the registers, each once. -/
theorem Holds.listed (h : store.Holds registers) {records : List StoredRecord}
    (hperm : records.Perm (registers.toList.map Prod.snd)) :
    (∀ r, r ∈ records ↔ registers[r.id]? = some r) ∧
      records.Pairwise fun a b => a.id ≠ b.id := by
  have hid : ∀ entry ∈ registers.toList, entry.2.id = entry.1 := fun entry hentry =>
    (h.sound entry.1 entry.2 (ExtTreeMap.mem_toList_iff_getElem?_eq_some.1 hentry)).1
  constructor
  · intro r
    rw [hperm.mem_iff, List.mem_map]
    constructor
    · rintro ⟨entry, hentry, rfl⟩
      rw [hid entry hentry]
      exact ExtTreeMap.mem_toList_iff_getElem?_eq_some.1 hentry
    · intro hget
      exact ⟨(r.id, r), ExtTreeMap.mem_toList_iff_getElem?_eq_some.2 hget, rfl⟩
  · refine (List.Perm.pairwise_iff (fun hne => hne.symm) hperm).2 ?_
    rw [List.pairwise_map]
    have hkeys : registers.toList.Pairwise fun a b => ¬compare a.1 b.1 = .eq :=
      ExtTreeMap.distinct_keys_toList
    refine hkeys.imp_of_mem fun ha hb hne heq => hne ?_
    rw [hid _ ha, hid _ hb] at heq
    exact Std.compare_eq_iff_eq.2 heq

/-- When every live record has room, recovery writes all of them. -/
theorem Holds.recovered (h : store.Holds registers) {nowMs : UInt64}
    (hfits : ∀ (id : Bytes) (r : StoredRecord), registers[id]? = some r → r.live = true →
      r.RecoveryFits nowMs) {records : List StoredRecord}
    (hperm : records.Perm (registers.toList.map Prod.snd)) :
    Holds { store with files := recoveredFiles nowMs records store.files }
      (recoveredRegisters registers nowMs) where
  files := by
    obtain ⟨hmem, hdistinct⟩ := h.listed hperm
    refine ExtTreeMap.ext_getElem? fun id => ?_
    rw [recoveredRegisters, ExtTreeMap.getElem?_map, ExtTreeMap.getElem?_map]
    cases hget : registers[id]? with
    | none =>
      rw [getElem?_recoveredFiles_of_forall_ne, h.getElem?_files, hget]
      · rfl
      · rintro r hr rfl
        rw [(hmem r).1 hr] at hget
        cases hget
    | some r =>
      obtain ⟨rfl, -⟩ := h.sound id r hget
      rw [getElem?_recoveredFiles hdistinct ((hmem r).2 hget), h.getElem?_files, hget,
        Option.map_some, Option.map_some, Option.map_some]
      split_ifs <;> rfl
  sound id r' hget := by
    rw [recoveredRegisters, ExtTreeMap.getElem?_map, Option.map_eq_some_iff] at hget
    obtain ⟨r, hget, rfl⟩ := hget
    obtain ⟨hid, hvalid, hlength, hrevision⟩ := h.sound id r hget
    split_ifs with hlive
    · obtain ⟨hbounded, hroom⟩ := StoredRecord.recoveryFits_iff.1 (hfits id r hget hlive)
      exact ⟨hid, StoredRecord.validate_recovered hlive hvalid nowMs, hroom,
        add_one_ne_zero hbounded⟩
    · exact ⟨hid, hvalid, hlength, hrevision⟩
  size := by
    rw [recoveredRegisters, ExtTreeMap.size_map]
    exact h.size

theorem live_recovered (r : StoredRecord) (nowMs : UInt64) : (r.recovered nowMs).live = false := by
  have hstate : (r.recovered nowMs).state = bytes "interrupted" := rfl
  rw [StoredRecord.live, hstate]
  decide

/-- Recovery does what it is for. -/
structure Recovers (store : RecordStore) (registers : Registers) (nowMs : UInt64) : Prop where
  completes : ∃ count, (store.recoverInterrupted nowMs).1 = .ok count
  interrupted : ∀ (id : Bytes) (r : StoredRecord), registers[id]? = some r → r.live = true →
    (store.recoverInterrupted nowMs).2.get id = .ok (some (r.recovered nowMs))
  others : ∀ id : Bytes, (∀ r : StoredRecord, registers[id]? = some r → r.live = false) →
    (store.recoverInterrupted nowMs).2.files[id]? = store.files[id]?
  again : ∀ laterMs, (store.recoverInterrupted nowMs).2.recoverInterrupted laterMs =
    (.ok 0, (store.recoverInterrupted nowMs).2)

theorem Holds.recovers (h : store.Holds registers) {nowMs : UInt64}
    (hfits : ∀ (id : Bytes) (r : StoredRecord), registers[id]? = some r → r.live = true →
      r.RecoveryFits nowMs) : store.Recovers registers nowMs := by
  obtain ⟨records, hlist, hperm⟩ := h.listLocked
  obtain ⟨hmem, hdistinct⟩ := h.listed hperm
  have hafter := h.recovered hfits hperm
  have hrun : store.recoverInterrupted nowMs =
      (.ok (0 + records.countP StoredRecord.live),
        { store with files := recoveredFiles nowMs records store.files }) := by
    rw [recoverInterrupted, hlist]
    exact recoverLoop_of_fits
      (fun r hr => (h.sound r.id r ((hmem r).1 hr)).2.1)
      (fun r hr => hfits r.id r ((hmem r).1 hr)) 0 store
  refine ⟨⟨_, by rw [hrun]⟩, fun id r hget hlive => ?_, fun id hother => ?_, fun laterMs => ?_⟩
  · rw [hrun]
    have hread := hafter.readLocked (h.validId hget)
    rw [recoveredRegisters, ExtTreeMap.getElem?_map, hget, Option.map_some, if_pos hlive] at hread
    exact hread
  · have hfiles := hafter.getElem?_files id
    rw [recoveredRegisters, ExtTreeMap.getElem?_map] at hfiles
    rw [hrun, h.getElem?_files]
    dsimp only
    rw [hfiles]
    cases hget : registers[id]? with
    | none => rfl
    | some r => rw [Option.map_some, hother r hget, if_neg Bool.false_ne_true]
  · rw [hrun]
    dsimp only
    obtain ⟨records', hlist', hperm'⟩ := hafter.listLocked
    rw [recoverInterrupted, hlist']
    refine recoverLoop_of_not_live (fun r' hr' => ?_) 0 _
    have hget := ((hafter.listed hperm').1 r').1 hr'
    rw [recoveredRegisters, ExtTreeMap.getElem?_map, Option.map_eq_some_iff] at hget
    obtain ⟨r, -, heq⟩ := hget
    rw [← heq]
    split_ifs with hlive
    · exact live_recovered r nowMs
    · exact eq_false_of_ne_true hlive

/-- Recovery that completes had room for every live record. -/
theorem Holds.fits_of_completes (h : store.Holds registers) {nowMs : UInt64} {count : ℕ}
    (hcount : (store.recoverInterrupted nowMs).1 = .ok count) (id : Bytes) (r : StoredRecord)
    (hget : registers[id]? = some r) (hlive : r.live = true) : r.RecoveryFits nowMs := by
  obtain ⟨records, hlist, hperm⟩ := h.listLocked
  obtain ⟨rfl, -⟩ := h.sound id r hget
  rw [recoverInterrupted, hlist] at hcount
  exact fits_of_recoverLoop (Prod.ext hcount rfl) r (((h.listed hperm).1 r).2 hget) hlive

/-- **Recovery after any calls.** -/
theorem recovers_run_iff (capacity : ℕ) (calls : List Call) (nowMs : UInt64) :
    (run { capacity } calls).Recovers (Registers.run capacity calls) nowMs ↔
      ∀ (id : Bytes) (r : StoredRecord), (Registers.run capacity calls)[id]? = some r →
        r.live = true → r.RecoveryFits nowMs := by
  obtain ⟨hholds, -⟩ := holds_run capacity calls
  constructor
  · intro h
    obtain ⟨count, hcount⟩ := h.completes
    exact hholds.fits_of_completes hcount
  · exact hholds.recovers

/-- A queued record of the largest size has no room for the mark and the error text. -/
theorem not_recovers_bulky :
    ¬(run { capacity := 256 } [.save (StoredRecord.bulky 0) 0]).Recovers
      (Registers.run 256 [.save (StoredRecord.bulky 0) 0]) 5 := by
  intro h
  obtain ⟨count, hcount⟩ := h.completes
  have hlength := StoredRecord.length_bulky 1
  have hget : (Registers.run 256 (saves (StoredRecord.bulky 0) 1))[(StoredRecord.bulky 0).id]? =
      some (StoredRecord.bulky 1) := by
    refine (run_saves (StoredRecord.validate_bulky 0) (by decide) fun k hk => ?_).2 (by decide)
    obtain rfl : k = 0 := by omega
    exact Nat.le_of_eq hlength
  have hfits := (holds_run 256 (saves (StoredRecord.bulky 0) 1)).1.fits_of_completes hcount _ _
    hget (by decide)
  have hroom := hfits.room
  rw [hlength] at hroom
  exact absurd hroom (by decide)

end RecordStore

end Resonantia.Web
