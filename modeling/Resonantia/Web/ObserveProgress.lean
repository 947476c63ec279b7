import Resonantia.AppSupport.Preprocess
import Resonantia.Web.RecordStore

/-!
# Taking reports of a worker

The service reads the lines of a worker and keeps the last report in the task record, at most once
in a second unless the report changes more than its counter. A counter that falls poisons the task
storage. Other callers may save the record in between; they keep its progress.

## Main definitions

* `Web.ProgressService`, `Web.observeProgress`: the service and one line.
* `Web.Feeds`: the lines of a worker, one after the other, among the saves of other callers.
* `Web.Behind`: the record has an earlier state of the counter that was last read.

## Main results

* `Web.Behind.observe`: the record stays behind the last report that was read.
* `Web.preprocess_never_moves_backwards`: the reports of a preprocessing run are accepted.
-/

namespace Resonantia.Web

open Std ByteString AppSupport

/-! ### One line -/

/-- The service as far as it takes the reports of one execution of a task. -/
structure ProgressService where
  tasks : RecordStore
  id : Bytes
  current : Bool := true
  storageFailed : Bool := false
  progressSaved : ℕ := 0

/-- What a line meets: the clocks, a storage guard that may raise an error, and the disk. -/
structure Moment where
  now : ℕ
  wallMs : UInt64
  guard : Option String := none
  disk : Option DiskFault := none

inductive ObserveError
  | malformed (message : String)
  | guard (message : String)
  | unavailable
  | missing
  | backwards
  | revisionChanged
  | store (e : StoreError)

def ObserveError.text : ObserveError → String
  | .malformed message => message
  | .guard message => message
  | .unavailable => "task progress storage unavailable"
  | .missing => "task progress record missing"
  | .backwards => "task progress moved backwards"
  | .revisionChanged => "task progress revision changed"
  | .store (.invalid message) => message
  | .store .capacity => "task store capacity reached"
  | .store .disk => "task record write failed"

/-- The record with a report. -/
def withProgress (r : StoredRecord) (p : ProgressMessage) (wallMs : UInt64) : StoredRecord :=
  { r with
    phase := p.phase, unit := p.unit, completed := p.completed, total := p.total
    progressAtMs := wallMs, updatedMs := wallMs }

/-- The report differs from the record in more than its counter. -/
def Changed (r : StoredRecord) (p : ProgressMessage) : Prop :=
  r.phase ≠ p.phase ∨ r.unit ≠ p.unit ∨ r.total ≠ p.total

instance (r : StoredRecord) (p : ProgressMessage) : Decidable (Changed r p) :=
  inferInstanceAs (Decidable (_ ∨ _ ∨ _))

/-- The locked part of `observe_progress`: what becomes of the record. -/
def takeReport (moment : Moment) (p : ProgressMessage) (s : ProgressService) :
    Except ObserveError Unit × ProgressService :=
  match s.tasks.get s.id with
  | .error message => (.error (.store (.invalid message)), s)
  | .ok none => (.error .missing, s)
  | .ok (some r) =>
    if ¬Changed r p ∧ p.completed < r.completed then (.error .backwards, s)
    else if ¬Changed r p ∧ p.completed = r.completed then (.ok (), s)
    else if ¬Changed r p ∧ p.completed ≠ p.total ∧ moment.now < s.progressSaved + 1000 then
      (.ok (), s)
    else
      match s.tasks.save (withProgress r p moment.wallMs) r.revision with
      | (.error e, _, tasks) => (.error (.store e), { s with tasks })
      | (.ok false, _, tasks) => (.error .revisionChanged, { s with tasks })
      | (.ok true, _, tasks) =>
        match moment.disk with
        | none => (.ok (), { s with tasks, progressSaved := moment.now })
        | some .sync => (.error (.store .disk), { s with tasks })
        | some _ => (.error (.store .disk), s)

/-- `observe_progress`. -/
def observeProgress (moment : Moment) (line : Bytes) (s : ProgressService) :
    Except ObserveError Unit × ProgressService :=
  match parseProgressMessage line with
  | .error message => (.error (.malformed message), s)
  | .ok none => (.ok (), s)
  | .ok (some p) =>
    match moment.guard with
    | some message => (.error (.guard message), s)
    | none =>
      if s.current = false then (.ok (), s)
      else if s.storageFailed then (.error .unavailable, s)
      else
        match takeReport moment p s with
        | (.ok (), s) => (.ok (), s)
        | (.error e, s) => (.error e, { s with storageFailed := true })

theorem id_takeReport (moment : Moment) (p : ProgressMessage) (s : ProgressService) :
    (takeReport moment p s).2.id = s.id := by
  rw [takeReport]
  split
  · rfl
  · rfl
  · split_ifs
    · rfl
    · rfl
    · rfl
    · split
      · rfl
      · rfl
      · split <;> rfl

theorem id_observeProgress (moment : Moment) (line : Bytes) (s : ProgressService) :
    (observeProgress moment line s).2.id = s.id := by
  rw [observeProgress]
  split
  · rfl
  · rfl
  · rename_i p hparse
    have hid := id_takeReport moment p s
    split
    · rfl
    · split_ifs
      · rfl
      · rfl
      · split
        · rename_i htake
          rw [htake] at hid
          exact hid
        · rename_i htake
          rw [htake] at hid
          exact hid

/-! ### All lines -/

/-- A caller that saves the record of the task saves the progress that it has. -/
def KeepsProgress (s : ProgressService) (copy : StoredRecord) : Prop :=
  copy.id = s.id → ∃ r, s.tasks.get s.id = .ok (some r) ∧ copy.phase = r.phase ∧
    copy.unit = r.unit ∧ copy.completed = r.completed ∧ copy.total = r.total

/-- The service reads the lines in order, until an error. In between others save, the storage
may fail, and the execution may end; the service may stop at any time. -/
inductive Feeds : ProgressService → List Bytes → Except ObserveError Unit × ProgressService → Prop
  | stop (s : ProgressService) (lines : List Bytes) : Feeds s lines (.ok (), s)
  | line (moment : Moment) {line : Bytes} {lines : List Bytes} {s s' : ProgressService}
      {outcome : Except ObserveError Unit × ProgressService}
      (hline : observeProgress moment line s = (.ok (), s')) (hrest : Feeds s' lines outcome) :
      Feeds s (line :: lines) outcome
  | fail (moment : Moment) {line : Bytes} {lines : List Bytes} {s s' : ProgressService}
      {e : ObserveError} (hline : observeProgress moment line s = (.error e, s')) :
      Feeds s (line :: lines) (.error e, s')
  | save (copy : StoredRecord) (expected : UInt64) (failed : Bool) {lines : List Bytes}
      {s : ProgressService} {outcome : Except ObserveError Unit × ProgressService}
      (hkeeps : KeepsProgress s copy)
      (hrest : Feeds
        { s with tasks := s.tasks.after (.save copy expected), storageFailed := failed } lines
        outcome) : Feeds s lines outcome
  | finish {lines : List Bytes} {s : ProgressService}
      {outcome : Except ObserveError Unit × ProgressService}
      (hrest : Feeds { s with current := false } lines outcome) : Feeds s lines outcome

/-! ### The record stays behind -/

/-- The stored counter is within its total. -/
def ProgressService.Bounded (s : ProgressService) : Prop :=
  ∀ r, s.tasks.get s.id = .ok (some r) → r.completed ≤ r.total

/-- The record is cleared, or it has an earlier state of the counter of the last report. -/
structure Behind (last : Option ProgressMessage) (s : ProgressService) : Prop where
  holds : ∃ registers, s.tasks.Holds registers
  bounded : s.Bounded
  behind : s.current = true → ∀ r, s.tasks.get s.id = .ok (some r) → r.phase = [] ∨
    ∃ p, last = some p ∧ ¬Changed r p ∧ r.completed ≤ p.completed

theorem RecordStore.id_of_get {store : RecordStore} {id : Bytes} {r : StoredRecord}
    (h : store.get id = .ok (some r)) : r.id = id := by
  rw [get, readLocked, bind_eq_ok_iff, require_eq_ok] at h
  obtain ⟨-, h⟩ := h
  split at h
  · cases h
  · rw [bind_eq_ok_iff, bind_eq_ok_iff_exists] at h
    obtain ⟨-, r', -, h⟩ := h
    rw [bind_eq_ok_iff, require_eq_ok] at h
    obtain ⟨hid, h⟩ := h
    obtain rfl := Option.some.inj (Except.ok.inj h)
    exact hid

/-- A save stores the copy, or changes nothing. -/
theorem RecordStore.save_cases {store : RecordStore} (h : ∃ registers, store.Holds registers)
    (copy : StoredRecord) (expected : UInt64) :
    (∃ store', store.save copy expected =
        (.ok true, { copy with revision := expected + 1 }, store') ∧
      (∃ registers, store'.Holds registers) ∧
      ∀ id, store'.get id = if id = copy.id then
        .ok (some { copy with revision := expected + 1 }) else store.get id) ∨
    ∃ outcome, outcome ≠ .ok true ∧ store.save copy expected = (outcome, copy, store) := by
  obtain ⟨registers, hholds⟩ := h
  by_cases hadmits : registers.Admits store.capacity copy expected
  · have hsave := hholds.save_of_admits hadmits
    have hstored := (hholds.linearizes copy expected).stored (by rw [hsave])
    rw [hsave] at hstored
    exact Or.inl ⟨_, hsave, ⟨_, hholds.insert hadmits⟩, hstored⟩
  · exact Or.inr (hholds.save_of_not_admits hadmits)

variable {last : Option ProgressMessage} {s s' : ProgressService} {p : ProgressMessage}

/-- A report that follows the last one is never below the record. -/
theorem Behind.le_completed (h : Behind last s) (hcurrent : s.current = true) (hp : p.Valid)
    (hfollows : ∀ l ∈ last, Follows l p) {r : StoredRecord}
    (hget : s.tasks.get s.id = .ok (some r)) (hsame : ¬Changed r p) :
    r.completed ≤ p.completed := by
  rcases h.behind hcurrent r hget with hempty | ⟨l, hl, hkey, hle⟩
  · rw [Changed, not_or, not_not, hempty] at hsame
    exact absurd hsame.1.symm (ne_nil_of_valid hp.phase)
  · rw [Changed, not_or, not_or, not_not, not_not, not_not] at hsame hkey
    exact UInt64.le_trans hle (hfollows l hl (hkey.1.symm.trans hsame.1)
      (hkey.2.1.symm.trans hsame.2.1) (hkey.2.2.symm.trans hsame.2.2))

/-- What becomes of a report that follows the last one. -/
theorem Behind.takeReport (h : Behind last s) (hcurrent : s.current = true) (hp : p.Valid)
    (hfollows : ∀ l ∈ last, Follows l p) (moment : Moment) :
    (∃ s', Web.takeReport moment p s = (.ok (), s') ∧ Behind (some p) s') ∨
      ∃ e s', Web.takeReport moment p s = (.error e, s') ∧ e ≠ .backwards ∧ s'.Bounded := by
  rw [Web.takeReport]
  cases hget : s.tasks.get s.id with
  | error message => exact Or.inr ⟨_, _, rfl, by simp, h.bounded⟩
  | ok record =>
    cases record with
    | none => exact Or.inr ⟨_, _, rfl, by simp, h.bounded⟩
    | some r =>
      have hle := h.le_completed hcurrent hp hfollows hget
      have hkept : ¬Changed r p → Behind (some p) s := fun hsame =>
        ⟨h.holds, h.bounded, fun _ r' hget' => by
          obtain rfl := Option.some.inj (Except.ok.inj (hget.symm.trans hget'))
          exact Or.inr ⟨p, rfl, hsame, hle hsame⟩⟩
      dsimp only
      split
      · rename_i hback
        exact absurd hback.2 (UInt64.not_lt.2 (hle hback.1))
      split
      · rename_i hequal
        exact Or.inl ⟨s, rfl, hkept hequal.1⟩
      split
      · rename_i hthrottled
        exact Or.inl ⟨s, rfl, hkept hthrottled.1⟩
      rcases RecordStore.save_cases h.holds (withProgress r p moment.wallMs) r.revision with
        ⟨tasks, hsave, hholds, hstored⟩ | ⟨outcome, houtcome, hsave⟩
      · rw [hsave]
        have hid : s.id = (withProgress r p moment.wallMs).id :=
          (RecordStore.id_of_get hget).symm
        have hget' := hstored s.id
        rw [if_pos hid] at hget'
        have hbounded : { s with tasks }.Bounded := by
          intro r' hr'
          obtain rfl := Option.some.inj (Except.ok.inj (hget'.symm.trans hr'))
          exact hp.bounded
        dsimp only
        split
        · refine Or.inl ⟨_, rfl, hholds, hbounded, fun _ r' hr' => ?_⟩
          obtain rfl := Option.some.inj (Except.ok.inj (hget'.symm.trans hr'))
          exact Or.inr ⟨p, rfl, by simp [Changed, withProgress], UInt64.le_refl _⟩
        · exact Or.inr ⟨_, _, rfl, by simp, hbounded⟩
        · exact Or.inr ⟨_, _, rfl, by simp, h.bounded⟩
      · rw [hsave]
        cases outcome with
        | error e => exact Or.inr ⟨_, _, rfl, by simp, h.bounded⟩
        | ok stored =>
          cases stored with
          | true => exact absurd rfl houtcome
          | false => exact Or.inr ⟨_, _, rfl, by simp, h.bounded⟩

/-- **The record stays behind the last report that was read.** -/
theorem Behind.observe (h : Behind last s) (hp : p.Valid) (hfollows : ∀ l ∈ last, Follows l p)
    (moment : Moment) :
    (∃ s', observeProgress moment p.text s = (.ok (), s') ∧ Behind (some p) s') ∨
      ∃ e s', observeProgress moment p.text s = (.error e, s') ∧ e ≠ .backwards ∧
        s'.Bounded := by
  rw [observeProgress, parse_text hp]
  dsimp only
  split
  · exact Or.inr ⟨_, _, rfl, by simp, h.bounded⟩
  split
  · rename_i hcurrent
    exact Or.inl ⟨s, rfl, h.holds, h.bounded, fun htrue => by
      rw [hcurrent] at htrue
      cases htrue⟩
  split
  · exact Or.inr ⟨_, _, rfl, by simp, h.bounded⟩
  rename_i hcurrent _
  rw [Bool.not_eq_false] at hcurrent
  rcases h.takeReport hcurrent hp hfollows moment with
    ⟨s', htake, hbehind⟩ | ⟨e, s', htake, hne, hbounded⟩
  · rw [htake]
    exact Or.inl ⟨s', rfl, hbehind⟩
  · rw [htake]
    exact Or.inr ⟨e, _, rfl, hne, hbounded⟩

/-- Other callers do not change the progress. -/
theorem Behind.save (h : Behind last s) {copy : StoredRecord} (hkeeps : KeepsProgress s copy)
    (expected : UInt64) (failed : Bool) :
    Behind last
      { s with tasks := s.tasks.after (.save copy expected), storageFailed := failed } := by
  rcases RecordStore.save_cases h.holds copy expected with
    ⟨tasks, hsave, hholds, hstored⟩ | ⟨outcome, -, hsave⟩
  · have hafter : s.tasks.after (.save copy expected) = tasks := by
      rw [RecordStore.after, hsave]
    rw [hafter]
    have hget := hstored s.id
    by_cases hid : s.id = copy.id
    · obtain ⟨r, hr, hphase, hunit, hcompleted, htotal⟩ := hkeeps hid.symm
      rw [if_pos hid] at hget
      refine ⟨hholds, fun r' hr' => ?_, fun hcurrent r' hr' => ?_⟩
      · obtain rfl := Option.some.inj (Except.ok.inj (hget.symm.trans hr'))
        have hbounded := h.bounded r hr
        rw [← hcompleted, ← htotal] at hbounded
        exact hbounded
      · obtain rfl := Option.some.inj (Except.ok.inj (hget.symm.trans hr'))
        have hbehind := h.behind hcurrent r hr
        simp only [Changed, ← hphase, ← hunit, ← htotal, ← hcompleted] at hbehind
        exact hbehind
    · rw [if_neg hid] at hget
      refine ⟨hholds, fun r' hr' => h.bounded r' ?_, fun hcurrent r' hr' =>
        h.behind hcurrent r' ?_⟩
      · rw [← hget]
        exact hr'
      · rw [← hget]
        exact hr'
  · have hafter : s.tasks.after (.save copy expected) = s.tasks := by
      rw [RecordStore.after, hsave]
    rw [hafter]
    exact ⟨h.holds, h.bounded, h.behind⟩

theorem follows_of_chain {messages : List ProgressMessage}
    (h : (last.toList ++ p :: messages).IsChain Follows) :
    (∀ l ∈ last, Follows l p) ∧ ((some p).toList ++ messages).IsChain Follows := by
  rw [List.isChain_append] at h
  exact ⟨fun l hl => h.2.2 l (by rw [hl]; rfl) p rfl, h.2.1⟩

/-- **Reports that follow each other are accepted.** -/
theorem Feeds.spec {lines : List Bytes} {outcome : Except ObserveError Unit × ProgressService}
    (hfeeds : Feeds s lines outcome) {messages : List ProgressMessage}
    (hlines : lines = messages.map ProgressMessage.text) (hvalid : ∀ p ∈ messages, p.Valid)
    (hchain : (last.toList ++ messages).IsChain Follows) (h : Behind last s) :
    outcome.1 ≠ .error .backwards ∧ outcome.2.Bounded ∧ outcome.2.id = s.id := by
  induction hfeeds generalizing messages last with
  | stop s lines => exact ⟨by simp, h.bounded, rfl⟩
  | @line moment line lines s s₁ outcome hline hrest ih =>
    obtain ⟨p, messages, rfl, rfl, rfl⟩ := List.map_eq_cons_iff.1 hlines.symm
    rw [List.forall_mem_cons] at hvalid
    obtain ⟨hfollows, hchain⟩ := follows_of_chain hchain
    rcases h.observe hvalid.1 hfollows moment with
      ⟨s', hobserve, hbehind⟩ | ⟨e, s', hobserve, -, -⟩
    · rw [hline] at hobserve
      obtain ⟨-, rfl⟩ := Prod.mk.inj hobserve
      obtain ⟨hnever, hbounded, hid⟩ := ih rfl hvalid.2 hchain hbehind
      refine ⟨hnever, hbounded, hid.trans ?_⟩
      have hline' := id_observeProgress moment p.text s
      rw [hline] at hline'
      exact hline'
    · rw [hline] at hobserve
      cases (Prod.mk.inj hobserve).1
  | @fail moment line lines s s₁ e hline =>
    obtain ⟨p, messages, rfl, rfl, rfl⟩ := List.map_eq_cons_iff.1 hlines.symm
    rw [List.forall_mem_cons] at hvalid
    rcases h.observe hvalid.1 (follows_of_chain hchain).1 moment with
      ⟨s', hobserve, -⟩ | ⟨e', s', hobserve, hne, hbounded⟩
    · rw [hline] at hobserve
      cases (Prod.mk.inj hobserve).1
    · rw [hline] at hobserve
      obtain ⟨he, rfl⟩ := Prod.mk.inj hobserve
      obtain rfl := Except.error.inj he
      have hline' := id_observeProgress moment p.text s
      rw [hline] at hline'
      exact ⟨fun hback => hne (Except.error.inj hback), hbounded, hline'⟩
  | save copy expected failed hkeeps hrest ih =>
    exact ih hlines hvalid hchain (h.save hkeeps expected failed)
  | finish hrest ih =>
    exact ih hlines hvalid hchain ⟨h.holds, h.bounded, fun hfalse => by cases hfalse⟩

/-! ### Preprocessing runs -/

/-- An execution of a stored task enters a stage: the record has no progress yet. -/
structure Enters (s : ProgressService) : Prop where
  reached : ∃ capacity calls, s.tasks = RecordStore.run { capacity } calls
  cleared : ∀ r, s.tasks.get s.id = .ok (some r) →
    r.phase = [] ∧ r.unit = [] ∧ r.completed = 0 ∧ r.total = 0

/-- **A preprocessing run never moves backwards.** Every line that it writes is read back to its
report; and whatever the clocks and the other callers do, a service that reads the lines does not
find that the progress moved backwards, and leaves a record whose counter is within its total. -/
theorem preprocess_never_moves_backwards (o : VcPreprocessOptions) (input : PreprocessInput)
    (fault : ℕ → Option Stop) {s : ProgressService} (henters : Enters s)
    {outcome : Except ObserveError Unit × ProgressService}
    (hfeeds : Feeds s ((runVcPreprocess o input { fault }).2.written.map Prod.snd) outcome) :
    (∀ entry ∈ (runVcPreprocess o input { fault }).2.written,
      parseProgressMessage entry.2 = .ok (some entry.1)) ∧
      outcome.1 ≠ .error .backwards ∧
      ∀ r, outcome.2.tasks.get s.id = .ok (some r) → r.completed ≤ r.total := by
  obtain ⟨hlines, hsteps⟩ := sound_runVcPreprocess o input fault
  generalize (runVcPreprocess o input { fault }).2.written = written at hfeeds hlines hsteps ⊢
  obtain ⟨capacity, calls, htasks⟩ := henters.reached
  have hbehind : Behind none s := by
    refine ⟨⟨_, htasks ▸ (RecordStore.holds_run capacity calls).1⟩, fun r hr => ?_,
      fun _ r hr => Or.inl (henters.cleared r hr).1⟩
    obtain ⟨-, -, hcompleted, htotal⟩ := henters.cleared r hr
    rw [hcompleted, htotal]
    exact UInt64.le_refl 0
  have htexts : written.map Prod.snd = (written.map Prod.fst).map ProgressMessage.text := by
    rw [List.map_map]
    exact List.map_congr_left fun entry hentry => (hlines entry hentry).2
  have hvalid : ∀ p ∈ written.map Prod.fst, p.Valid := by
    intro p hp
    obtain ⟨entry, hentry, rfl⟩ := List.mem_map.1 hp
    exact (hlines entry hentry).1
  have hchain : ((none : Option ProgressMessage).toList ++ written.map Prod.fst).IsChain Follows :=
    hsteps
  obtain ⟨hnever, hbounded, hid⟩ := hfeeds.spec htexts hvalid hchain hbehind
  refine ⟨fun entry hentry => ?_, hnever, fun r hr => hbounded r ?_⟩
  · rw [(hlines entry hentry).2]
    exact parse_text (hlines entry hentry).1
  · rw [hid]
    exact hr

/-- A task that was stored. -/
def queuedTask : StoredRecord where
  id := bytes "task-0001"
  kind := bytes "preprocess"
  name := bytes "take"

def queuedService : ProgressService where
  tasks := RecordStore.run { capacity := 1 } [.save queuedTask 0]
  id := queuedTask.id

/-- One readable file, of which a stage makes four chunks. -/
def oneFile : PreprocessInput where
  files := [bytes "take.wav"]
  frames _ := some 441
  samples _ _ := 40
  speech _ := true
  model _ := ⟨16, 4, 0, by decide⟩
  files_lt := by decide
  frames_lt _ n h := by
    obtain rfl := Option.some.inj h
    decide
  samples_lt _ _ := by decide

theorem Feeds.line_of_isOk {moment : Moment} {lines : List Bytes} {line : Bytes}
    {outcome : Except ObserveError Unit × ProgressService}
    (hok : (observeProgress moment line s).1.isOk = true)
    (hrest : Feeds (observeProgress moment line s).2 lines outcome) :
    Feeds s (line :: lines) outcome := by
  obtain ⟨result, s', hline⟩ : ∃ result s', observeProgress moment line s = (result, s') :=
    ⟨_, _, rfl⟩
  rw [hline] at hok hrest
  cases result with
  | ok => exact Feeds.line moment hline hrest
  | error e => cases hok

def noon : Moment := { now := 43200000, wallMs := 0 }

/-- Denoising only. -/
def denoising : VcPreprocessOptions where
  progress := true
  enabled stage := stage = .denoise

/-- The lines that are written for one file. -/
def oneFileLines : List Bytes :=
  [bytes "RESONANTIA_PROGRESS 1 loading-models 0 0 unknown",
    bytes "RESONANTIA_PROGRESS 1 files 0 1 files",
    bytes "RESONANTIA_PROGRESS 1 denoise 0 4 chunks", bytes "RESONANTIA_PROGRESS 1 denoise 1 4 chunks",
    bytes "RESONANTIA_PROGRESS 1 denoise 2 4 chunks", bytes "RESONANTIA_PROGRESS 1 denoise 3 4 chunks",
    bytes "RESONANTIA_PROGRESS 1 denoise 4 4 chunks", bytes "RESONANTIA_PROGRESS 1 files 1 1 files"]

/-- The service after the first `n` lines. -/
def afterLines (n : ℕ) : ProgressService :=
  (oneFileLines.take n).foldl (fun s line => (observeProgress noon line s).2) queuedService

/-- A record that is there and satisfies a test. -/
def storedSatisfies (result : Except String (Option StoredRecord)) (test : StoredRecord → Bool) :
    Bool :=
  match result with
  | .ok (some r) => test r
  | _ => false

theorem exists_of_storedSatisfies {result : Except String (Option StoredRecord)}
    {test : StoredRecord → Bool} (h : storedSatisfies result test = true) :
    ∃ r, result = .ok (some r) ∧ test r = true := by
  rcases result with _ | _ | r
  · cases h
  · cases h
  · exact ⟨r, rfl, h⟩

theorem preprocess_never_moves_backwards_oneFile :
    (∀ line ∈ oneFileLines, ∃ p, parseProgressMessage line = .ok (some p)) ∧
      (∃ r, (afterLines 8).tasks.get queuedService.id = .ok (some r) ∧ r.phase = bytes "files") ∧
      ∀ r, (afterLines 8).tasks.get queuedService.id = .ok (some r) → r.completed ≤ r.total := by
  have henters : Enters queuedService := by
    refine ⟨⟨1, [.save queuedTask 0], rfl⟩, fun r hr => ?_⟩
    have hcleared : storedSatisfies (queuedService.tasks.get queuedService.id) (fun r =>
        r.phase = [] && r.unit = [] && r.completed = 0 && r.total = 0) = true := by decide +kernel
    rw [hr] at hcleared
    simpa [storedSatisfies, and_assoc] using hcleared
  have hwritten : (runVcPreprocess denoising oneFile
      { fault := fun _ => none }).2.written.map Prod.snd = oneFileLines := by decide +kernel
  have hfeeds : Feeds queuedService ((runVcPreprocess denoising oneFile
      { fault := fun _ => none }).2.written.map Prod.snd) (.ok (), afterLines 8) := by
    rw [hwritten]
    have hok : ∀ n < 8, (observeProgress noon (oneFileLines.getD n []) (afterLines n)).1.isOk =
        true := by decide +kernel
    have hfrom : ∀ n ≤ 8, Feeds (afterLines n) (oneFileLines.drop n) (.ok (), afterLines 8) := by
      intro n hn
      induction hn using Nat.decreasingInduction with
      | self => exact Feeds.stop _ _
      | of_succ n hn ih =>
        have hlength : n < oneFileLines.length := hn
        rw [List.drop_eq_getElem_cons hlength]
        have hline := hok n hn
        rw [List.getD_eq_getElem?_getD, List.getElem?_eq_getElem hlength, Option.getD_some] at hline
        refine Feeds.line_of_isOk hline ?_
        have hnext : afterLines (n + 1) = (observeProgress noon oneFileLines[n] (afterLines n)).2 := by
          rw [afterLines, List.take_succ_eq_append_getElem hlength, List.foldl_append]
          rfl
        exact hnext ▸ ih
    exact hfrom 0 (by decide)
  obtain ⟨hparse, -, hbounded⟩ :=
    preprocess_never_moves_backwards denoising oneFile (fun _ => none) henters hfeeds
  refine ⟨fun line hline => ?_, ?_, hbounded⟩
  · rw [← hwritten] at hline
    obtain ⟨entry, hentry, rfl⟩ := List.mem_map.1 hline
    exact ⟨entry.1, hparse entry hentry⟩
  · have hfiles : storedSatisfies ((afterLines 8).tasks.get queuedService.id) (fun r =>
        decide (r.phase = bytes "files")) = true := by decide +kernel
    obtain ⟨r, hr, hphase⟩ := exists_of_storedSatisfies hfiles
    exact ⟨r, hr, of_decide_eq_true hphase⟩

end Resonantia.Web
