import Resonantia.Io.BlockCrash

/-!
# Sessions of operation checkpoints

An operation has a root directory with a checkpoint of its owner, which holds the identity and the
lock, and one checkpoint for every stage. The directories are made one after the other, and every
call may fail or be the last thing that its process does.

## Main definitions

* `AppSupport.OperationSession.OperationRoot`: the root with its directories and the open session.
* `AppSupport.OperationSession.start`, `AppSupport.OperationSession.stage`: the openings.
* `AppSupport.OperationSession.Invariant`: what a sequence of calls keeps.
* `AppSupport.OperationSession.StartupSafe`: what openings do then.

## Main results

* `AppSupport.OperationSession.Invariant.step`: one call keeps the invariant.
* `AppSupport.OperationSession.startupSafe_of_run`: openings after any sequence of calls are safe.
-/

namespace Resonantia.AppSupport.OperationSession

open ByteString Effect FileSystem Io.BlockFiles
open Io (Limits)

/-! ### The root -/

def ownerName : Bytes := bytes "owner"

/-- The root directory: whether it is there, its directories, the latest first, and the identity of
the session that is open. -/
structure OperationRoot where
  present : Bool
  directories : List (Bytes × System)
  session : Option Bytes

namespace OperationRoot

def find? (r : OperationRoot) (key : Bytes) : Option System := r.directories.lookup key

def put (r : OperationRoot) (key : Bytes) (s : System) : OperationRoot :=
  { r with present := true, directories := (key, s) :: r.directories }

/-- The end of the process closes every checkpoint. -/
def halt (r : OperationRoot) : OperationRoot :=
  { r with
    directories := r.directories.map fun d => (d.1, { d.2 with session := none })
    session := none }

/-- The content of `owner/identity`. -/
def ownerIdentity (r : OperationRoot) : Option Bytes :=
  (r.find? ownerName).bind fun s => find s.files identityName

end OperationRoot

/-- What the environment does to the calls of one operation. -/
structure SessionEnvironment where
  files : FileSystem.Environment
  pauseChannel : Option FileSystem.Stop
  makeRoot : Option FileSystem.Stop
  makeDirectory : Option FileSystem.Stop
  boundary : Option FileSystem.Stop

/-- Nothing fails. -/
structure SessionEnvironment.Calm (e : SessionEnvironment) : Prop where
  files : e.files.Calm
  pauseChannel : e.pauseChannel = none
  makeRoot : e.makeRoot = none
  makeDirectory : e.makeDirectory = none
  boundary : e.boundary = none

/-! ### Openings -/

section Calls

variable (sha : Checksum) (e : SessionEnvironment)

/-- The constructor of `BlockCheckpoint` with the default limits, for a directory of the root. -/
def construct (key : Bytes) (mode : Mode) (identity : Bytes) (r : OperationRoot) :
    Reply × OperationRoot :=
  match r.find? key with
  | some s =>
    let done := perform sha e.files (.openDirectory mode identity {}) s
    (done.1, r.put key done.2)
  | none =>
    if validDigest identity = false then
      (.stopped (.failed "invalid checkpoint identity or limits"), r)
    else if mode = .resume then (.stopped (.failed "cannot open checkpoint directory"), r)
    else
      match if r.present then none else e.makeRoot, e.makeDirectory with
      | some stop, _ => (.stopped stop, r)
      | none, some stop => (.stopped stop, { r with present := true })
      | none, none =>
        let done := perform sha e.files (.openDirectory mode identity {}) ⟨[], [], none⟩
        (done.1, r.put key done.2)

/-- The decision of `OperationCheckpointSession` about the owner. -/
def startMode (resume : Bool) (r : OperationRoot) : Except String Mode :=
  if resume = false then .ok .create
  else if r.present = false then .error "checkpoint root missing"
  else if r.ownerIdentity.isSome then .ok .resume
  else if r.directories.any fun d => d.1 != ownerName then
    .error "checkpoint owner identity missing beside stage data"
  else if (r.find? ownerName).isNone then .ok .create
  else .ok .resume

/-- The constructor of `OperationCheckpointSession`; an open session holds the lock of the owner. -/
def start (resume : Bool) (identity : Bytes) (r : OperationRoot) : Reply × OperationRoot :=
  if r.session.isSome then
    (.stopped (.failed "checkpoint directory is already owned or lock is invalid"), r)
  else
    match e.pauseChannel, startMode resume r with
    | some stop, _ => (.stopped stop, r)
    | none, .error message => (.stopped (.failed message), r)
    | none, .ok mode =>
      let done := construct sha e ownerName mode identity r
      if done.1 = .opened then
        match e.boundary with
        | some stop => (.stopped stop, done.2.halt)
        | none => (.opened, { done.2 with session := some identity })
      else (done.1, done.2.halt)

/-- A crash ends the process. -/
def settle (done : Reply × OperationRoot) : Reply × OperationRoot :=
  if done.1 = .stopped .crashed then (done.1, done.2.halt) else done

/-- The identity that a stage is bound to. -/
def stageIdentity (identity key : Bytes) : Bytes := sha.hex (identity ++ bytes ":" ++ key)

/-- `OperationCheckpointSession::stage`. -/
def stage (key : Bytes) (r : OperationRoot) : Reply × OperationRoot :=
  match r.session with
  | none => (.stopped (.failed "no checkpoint is open"), r)
  | some identity =>
    if validKey key = false then (.stopped (.failed "invalid checkpoint stage key"), r)
    else
      settle (construct sha e key (if (r.find? key).isSome then .resume else .create)
        (stageIdentity sha identity key) r)

/-- A call of the checkpoint of a stage; the one of the owner is not handed out. -/
def inStage (key : Bytes) (call : Call) (r : OperationRoot) : Reply × OperationRoot :=
  match if key = ownerName then none else r.find? key with
  | none => (.stopped (.failed "no checkpoint is open"), r)
  | some s =>
    let done := perform sha e.files call s
    settle (done.1, r.put key done.2)

inductive SessionCall
  | start (resume : Bool) (identity : Bytes)
  | stage (key : Bytes)
  | load (stage key : Bytes) (offset : UInt64) (count : ℕ)
  | save (stage key : Bytes) (offset : UInt64) (data : List UInt32)
  | closeStage (stage : Bytes)
  | finish

def performCall (call : SessionCall) (r : OperationRoot) : Reply × OperationRoot :=
  match call with
  | .start resume identity => start sha e resume identity r
  | .stage key => stage sha e key r
  | .load stage key offset count => inStage sha e stage (.load key offset count) r
  | .save stage key offset data => inStage sha e stage (.save key offset data) r
  | .closeStage stage => inStage sha e stage .close r
  | .finish => (.closed, r.halt)

end Calls

/-- A sequence of calls with their replies, the latest first. -/
inductive Run (sha : Checksum) (first : OperationRoot) :
    List (SessionCall × Reply) → OperationRoot → Prop
  | nil : Run sha first [] first
  | cons {history : List (SessionCall × Reply)} {r : OperationRoot} (h : Run sha first history r)
      (e : SessionEnvironment) (call : SessionCall) :
      Run sha first ((call, (performCall sha e call r).1) :: history) (performCall sha e call r).2

/-- No root yet. -/
def absent : OperationRoot := ⟨false, [], none⟩

/-! ### One directory -/

section Tracked

variable {sha : Checksum} {s : System}

theorem mem_of_lastLimits {history : List (Call × Reply)} {limits : Limits}
    (h : lastLimits history = some limits) :
    ∃ mode identity, (Call.openDirectory mode identity limits, Reply.opened) ∈ history := by
  induction history with
  | nil => cases h
  | cons entry history ih =>
    rcases lastLimits_cons entry history with ⟨mode, identity, limits', rfl, heq⟩ | ⟨-, heq⟩
    · obtain rfl := Option.some.inj (heq.symm.trans h)
      exact ⟨mode, identity, List.mem_cons_self⟩
    · obtain ⟨mode, identity, hmem⟩ := ih (heq.symm.trans h)
      exact ⟨mode, identity, List.mem_cons_of_mem _ hmem⟩

/-- A directory that was opened with identities of this kind and the default limits, and to which
these blocks were saved. -/
def Tracked (sha : Checksum) (identities : Bytes → Prop)
    (saved : Bytes → UInt64 → List UInt32 → Prop) (s : System) : Prop :=
  ∃ history catalog?, Io.BlockFiles.Invariant sha history catalog? s ∧
    (∀ mode identity limits reply, (Call.openDirectory mode identity limits, reply) ∈ history →
      identities identity ∧ limits = {}) ∧
    ∀ key offset data, saved key offset data → (Call.save key offset data, Reply.saved) ∈ history

variable {identities : Bytes → Prop} {saved saved' : Bytes → UInt64 → List UInt32 → Prop}

theorem Tracked.empty : Tracked sha identities (fun _ _ _ => False) ⟨[], [], none⟩ := by
  refine ⟨[], none, .fresh .empty (fun _ _ _ => List.not_mem_nil) rfl, ?_, ?_⟩
  · intro mode identity limits reply hmem
    cases hmem
  · intro key offset data hsaved
    cases hsaved

theorem Tracked.perform (h : Tracked sha identities saved s) (e : FileSystem.Environment)
    (call : Call)
    (hopen : ∀ mode identity limits, call = .openDirectory mode identity limits →
      identities identity ∧ limits = {})
    (hsaved : ∀ key offset data, saved' key offset data → saved key offset data ∨
      call = .save key offset data ∧ (Io.BlockFiles.perform sha e call s).1 = .saved) :
    Tracked sha identities saved' (Io.BlockFiles.perform sha e call s).2 := by
  obtain ⟨history, catalog?, hinvariant, hopened, hsaves⟩ := h
  obtain ⟨catalog?', -, hinvariant'⟩ := hinvariant.step e call
  refine ⟨_, _, hinvariant', ?_, ?_⟩
  · intro mode identity limits reply hmem
    rcases List.mem_cons.1 hmem with heq | hmem
    · exact hopen _ _ _ (Prod.mk.inj heq).1.symm
    · exact hopened _ _ _ _ hmem
  · intro key offset data hsave
    rcases hsaved _ _ _ hsave with hsave | ⟨rfl, hreply⟩
    · exact List.mem_cons_of_mem _ (hsaves _ _ _ hsave)
    · rw [hreply]
      exact List.mem_cons_self

theorem Tracked.mono (h : Tracked sha identities saved s)
    (hsaved : ∀ key offset data, saved' key offset data → saved key offset data) :
    Tracked sha identities saved' s := by
  obtain ⟨history, catalog?, hinvariant, hopened, hsaves⟩ := h
  exact ⟨history, catalog?, hinvariant, hopened, fun key offset data hsave =>
    hsaves _ _ _ (hsaved _ _ _ hsave)⟩

theorem Tracked.halt (h : Tracked sha identities saved s) :
    Tracked sha identities saved { s with session := none } := by
  obtain ⟨history, catalog?, hinvariant, hopened, hsaves⟩ := h
  have hclosed := (Tracked.perform ⟨history, catalog?, hinvariant, hopened, hsaves⟩
    ⟨fun _ => .none, id, fun _ => List.Perm.refl _⟩ .close
    (fun mode identity limits heq => (by cases heq)) fun key offset data hsave => Or.inl hsave)
  exact hclosed

/-- The identity file is written once. -/
theorem Tracked.kept (h : Tracked sha identities saved s) (e : FileSystem.Environment) (call : Call)
    {content : Bytes} (hfind : find s.files identityName = some content) :
    find (Io.BlockFiles.perform sha e call s).2.files identityName = some content := by
  obtain ⟨history, catalog?, hinvariant, -, -⟩ := h
  obtain ⟨catalog?', hgrows, hstep⟩ := hinvariant.step e call
  cases hinvariant with
  | fresh hfiles =>
    rw [hfiles.find_of_none fun stem h => pendingName_ne_identityName stem h.symm] at hfind
    cases hfind
  | @known catalog _ hfiles _ _ =>
    obtain ⟨catalog', rfl, hidentity, -⟩ := hgrows catalog rfl
    cases hstep with
    | known hfiles' _ _ =>
      rw [hfiles.find_identityName] at hfind
      rw [hfiles'.find_identityName, hidentity]
      exact hfind

/-- An identity file holds a valid identity that the directory was opened with. -/
theorem Tracked.identified (h : Tracked sha identities saved s) {content : Bytes}
    (hfind : find s.files identityName = some content) :
    ∃ identity, content = manifest identity ∧ identities identity ∧
      validDigest identity = true := by
  obtain ⟨history, catalog?, hinvariant, hopened, -⟩ := h
  obtain ⟨mode, identity, limits, reply, rfl, hmem⟩ := hinvariant.identified hfind
  refine ⟨identity, rfl, (hopened _ _ _ _ hmem).1, ?_⟩
  cases hinvariant with
  | fresh hfiles =>
    rw [hfiles.find_of_none fun stem h => pendingName_ne_identityName stem h.symm] at hfind
    cases hfind
  | @known catalog _ hfiles _ _ =>
    rw [hfiles.find_identityName] at hfind
    rw [← manifest_injective (Option.some.inj hfind)]
    exact catalog.validDigest_identity

theorem Tracked.resumes (h : Tracked sha identities saved s) {e : FileSystem.Environment}
    (hcalm : e.Calm) (hsession : s.session = none) {identity : Bytes}
    (hvalid : validDigest identity = true)
    (hidentity : ∀ content, find s.files identityName = some content →
      content = manifest identity) :
    (Io.BlockFiles.perform sha e (.openDirectory .resume identity {}) s).1 = .opened ∧
      ∃ c, (Io.BlockFiles.perform sha e (.openDirectory .resume identity {}) s).2.session = some c ∧
        c.healthy = true := by
  obtain ⟨history, catalog?, hinvariant, hopened, -⟩ := h
  have hlimits : validLimits {} = true := by decide
  obtain ⟨hreply, c, hc, hhealthy, -⟩ := hinvariant.resumes e hcalm hsession hvalid hlimits
    hidentity fun limits' hlast => by
      obtain ⟨mode, identity, hmem⟩ := mem_of_lastLimits hlast
      exact (hopened _ _ _ _ hmem).2.symm
  exact ⟨hreply, c, hc, hhealthy⟩

/-- A directory that blocks were saved to has a valid identity. -/
theorem Tracked.identity_of_saved (h : Tracked sha identities saved s) {key : Bytes}
    {offset : UInt64} {data : List UInt32} (hsave : saved key offset data) :
    ∃ identity, find s.files identityName = some (manifest identity) ∧ identities identity ∧
      validDigest identity = true := by
  have hcontent : ∃ content, find s.files identityName = some content := by
    obtain ⟨history, catalog?, hinvariant, -, hsaves⟩ := h
    cases hinvariant with
    | fresh _ hnone => exact absurd (hsaves _ _ _ hsave) (hnone _ _ _)
    | known hfiles _ _ => exact ⟨_, hfiles.find_identityName⟩
  obtain ⟨content, hfind⟩ := hcontent
  obtain ⟨identity, rfl, hidentity, hvalid⟩ := h.identified hfind
  exact ⟨identity, hfind, hidentity, hvalid⟩

/-- A block that was saved is loaded. -/
theorem Tracked.loads (h : Tracked sha identities saved s) {key : Bytes} {offset : UInt64}
    {data : List UInt32} (hsave : saved key offset data) {c : Impl} (hsession : s.session = some c)
    (hhealthy : c.healthy = true) {e : FileSystem.Environment} (hcalm : e.Calm) :
    (Io.BlockFiles.perform sha e (.load key offset data.length) s).1 = .loaded (some data) := by
  obtain ⟨history, catalog?, hinvariant, -, hsaves⟩ := h
  exact (hinvariant.loads (hsaves _ _ _ hsave) e hsession hhealthy).2 hcalm

/-- An opened directory has the identity that it was opened with. -/
theorem find_identityName_of_opened {history : List (Call × Reply)} {catalog? : Option Catalog}
    (h : Io.BlockFiles.Invariant sha history catalog? s) {e : FileSystem.Environment} {mode : Mode}
    {identity : Bytes} {limits : Limits}
    (hopened : (perform sha e (.openDirectory mode identity limits) s).1 = .opened) :
    find (perform sha e (.openDirectory mode identity limits) s).2.files identityName =
      some (manifest identity) := by
  obtain ⟨files, ren, session⟩ := s
  cases session with
  | some c => cases hopened
  | none =>
    rcases hexec : exec (openCheckpoint mode identity limits)
      (System.world ⟨files, ren, none⟩ e ()) with ⟨r, w⟩
    have hstart : At files ren () e (System.world ⟨files, ren, none⟩ e ()) := ⟨rfl, rfl, rfl, rfl⟩
    rw [perform.eq_def] at hopened ⊢
    dsimp only at hopened ⊢
    rw [hexec] at hopened ⊢
    cases h with
    | fresh hfiles =>
      rcases triple_elim (openCheckpoint_fresh_spec mode hfiles) hstart hexec with
        ⟨c, rfl, -, rfl, hvalid, hw⟩ | ⟨stop, rfl, -⟩
      · dsimp only
        rw [hw.files]
        exact (Directory.settled (List.Perm.refl _)).find_identityName
      · cases hopened
    | @known catalog _ hfiles _ _ =>
      rcases triple_elim (openCheckpoint_known_spec mode hfiles) hstart hexec with
        ⟨c, rfl, ⟨hidentity, -, -⟩, rfl, files', hperm, hw⟩ | ⟨stop, rfl, -⟩
      · dsimp only
        rw [hw.files, hidentity]
        exact (Directory.settled hperm).find_identityName
      · cases hopened

theorem Tracked.find_identityName_of_opened (h : Tracked sha identities saved s)
    {e : FileSystem.Environment} {mode : Mode} {identity : Bytes} {limits : Limits}
    (hopened : (Io.BlockFiles.perform sha e (.openDirectory mode identity limits) s).1 = .opened) :
    find (Io.BlockFiles.perform sha e (.openDirectory mode identity limits) s).2.files
      identityName = some (manifest identity) := by
  obtain ⟨history, catalog?, hinvariant, -, -⟩ := h
  exact OperationSession.find_identityName_of_opened hinvariant hopened

end Tracked

/-! ### The root -/

namespace OperationRoot

variable {r : OperationRoot} {key key' : Bytes} {s : System} {identity identity' : Bytes}

theorem find?_put : (r.put key s).find? key' = if key' = key then some s else r.find? key' := by
  rw [find?, put, List.lookup_cons]
  by_cases h : key' = key
  · rw [if_pos h, h, beq_self_eq_true]
  · rw [if_neg h, beq_false_of_ne h]
    rfl

theorem find?_halt :
    r.halt.find? key = (r.find? key).map fun s => { s with session := none } := by
  rw [find?, find?, halt]
  dsimp only
  induction r.directories with
  | nil => rfl
  | cons d directories ih =>
    rw [List.map_cons, List.lookup_cons, List.lookup_cons, ih]
    cases key == d.1 <;> rfl

theorem ownerIdentity_halt : r.halt.ownerIdentity = r.ownerIdentity := by
  rw [ownerIdentity, ownerIdentity, find?_halt]
  cases r.find? ownerName <;> rfl

theorem ownerIdentity_put_of_ne (h : key ≠ ownerName) :
    (r.put key s).ownerIdentity = r.ownerIdentity := by
  rw [ownerIdentity, ownerIdentity, find?_put, if_neg h.symm]

theorem ownerIdentity_put : (r.put ownerName s).ownerIdentity = find s.files identityName := by
  rw [ownerIdentity, find?_put, if_pos rfl]
  rfl

end OperationRoot

/-- The blocks that were saved to a stage. -/
abbrev Saves := Bytes → Bytes → UInt64 → List UInt32 → Prop

/-- What holds of the directories. -/
structure Core (sha : Checksum) (saved : Saves) (r : OperationRoot) : Prop where
  present : ∀ key s, r.find? key = some s → r.present = true
  owner : ∀ s, r.find? ownerName = some s →
    Tracked sha (fun _ => True) (fun _ _ _ => False) s
  /-- A stage is bound to the identity of the owner. -/
  stage : ∀ key s, key ≠ ownerName → r.find? key = some s → validKey key = true ∧ ∃ identity,
    r.ownerIdentity = some (manifest identity) ∧
      Tracked sha (· = stageIdentity sha identity key) (saved key) s
  saved : ∀ stage key offset data, saved stage key offset data →
    stage ≠ ownerName ∧ (r.find? stage).isSome = true

/-- What a sequence of calls keeps. -/
structure Invariant (sha : Checksum) (saved : Saves) (r : OperationRoot) : Prop where
  core : Core sha saved r
  closed : r.session = none → ∀ key s, r.find? key = some s → s.session = none
  identity : ∀ identity, r.session = some identity → r.ownerIdentity = some (manifest identity)

section Step

variable {sha : Checksum} {saved saved' : Saves} {r : OperationRoot} {key identity : Bytes}
  {s : System}

theorem Core.halt (h : Core sha saved r) : Core sha saved r.halt := by
  refine ⟨fun key s hfind => ?_, fun s hfind => ?_, fun key s hkey hfind => ?_,
    fun stage key offset data hsave => ?_⟩
  · rw [OperationRoot.find?_halt, Option.map_eq_some_iff] at hfind
    obtain ⟨s, hs, -⟩ := hfind
    exact h.present _ _ hs
  · rw [OperationRoot.find?_halt, Option.map_eq_some_iff] at hfind
    obtain ⟨s, hs, rfl⟩ := hfind
    exact (h.owner _ hs).halt
  · rw [OperationRoot.find?_halt, Option.map_eq_some_iff] at hfind
    obtain ⟨s, hs, rfl⟩ := hfind
    obtain ⟨hvalid, identity, hidentity, htracked⟩ := h.stage _ _ hkey hs
    exact ⟨hvalid, identity, OperationRoot.ownerIdentity_halt.trans hidentity, htracked.halt⟩
  · obtain ⟨hne, hsome⟩ := h.saved _ _ _ _ hsave
    refine ⟨hne, ?_⟩
    rw [OperationRoot.find?_halt, Option.isSome_map]
    exact hsome

theorem Core.invariant_halt (h : Core sha saved r) : Invariant sha saved r.halt := by
  refine ⟨h.halt, fun _ key s hfind => ?_, fun identity hsession => ?_⟩
  · rw [OperationRoot.find?_halt, Option.map_eq_some_iff] at hfind
    obtain ⟨s, -, rfl⟩ := hfind
    rfl
  · cases hsession

/-- A call of the owner. -/
theorem Core.put_owner (h : Core sha saved r)
    (hs : Tracked sha (fun _ => True) (fun _ _ _ => False) s)
    (hkept : ∀ content, r.ownerIdentity = some content → find s.files identityName = some content) :
    Core sha saved (r.put ownerName s) := by
  refine ⟨fun _ _ _ => rfl, fun s' hfind => ?_, fun key s' hkey hfind => ?_,
    fun stage key offset data hsave => ?_⟩
  · rw [OperationRoot.find?_put, if_pos rfl] at hfind
    obtain rfl := Option.some.inj hfind
    exact hs
  · rw [OperationRoot.find?_put, if_neg hkey] at hfind
    obtain ⟨hvalid, identity, hidentity, htracked⟩ := h.stage _ _ hkey hfind
    exact ⟨hvalid, identity, OperationRoot.ownerIdentity_put.trans (hkept _ hidentity), htracked⟩
  · obtain ⟨hne, hsome⟩ := h.saved _ _ _ _ hsave
    rw [OperationRoot.find?_put, if_neg hne]
    exact ⟨hne, hsome⟩

/-- A call of a stage. -/
theorem Core.put_stage (h : Core sha saved r) (hkey : key ≠ ownerName)
    (hvalid : validKey key = true) (hidentity : r.ownerIdentity = some (manifest identity))
    (hs : Tracked sha (· = stageIdentity sha identity key) (saved' key) s)
    (hsaved : ∀ stage key' offset data, stage ≠ key → saved' stage key' offset data →
      saved stage key' offset data) : Core sha saved' (r.put key s) := by
  refine ⟨fun _ _ _ => rfl, fun s' hfind => ?_, fun key' s' hkey' hfind => ?_,
    fun stage key' offset data hsave => ?_⟩
  · rw [OperationRoot.find?_put, if_neg hkey.symm] at hfind
    exact h.owner _ hfind
  · rw [OperationRoot.ownerIdentity_put_of_ne hkey]
    rw [OperationRoot.find?_put] at hfind
    by_cases heq : key' = key
    · rw [if_pos heq] at hfind
      obtain rfl := Option.some.inj hfind
      rw [heq]
      exact ⟨hvalid, identity, hidentity, hs⟩
    · rw [if_neg heq] at hfind
      obtain ⟨hvalid', identity', hidentity', htracked⟩ := h.stage _ _ hkey' hfind
      exact ⟨hvalid', identity', hidentity', htracked.mono fun _ _ _ => hsaved _ _ _ _ heq⟩
  · rw [OperationRoot.find?_put]
    by_cases heq : stage = key
    · rw [if_pos heq, heq]
      exact ⟨hkey, rfl⟩
    · rw [if_neg heq]
      exact h.saved _ _ _ _ (hsaved _ _ _ _ heq hsave)

theorem Core.make (h : Core sha saved r) : Core sha saved { r with present := true } :=
  ⟨fun _ _ _ => rfl, h.owner, h.stage, h.saved⟩

/-- A constructor opens a directory that is there or an empty one, or stops before that. -/
theorem construct_cases (sha : Checksum) (e : SessionEnvironment) (key : Bytes) (mode : Mode)
    (identity : Bytes) (r : OperationRoot) :
    (∃ s, (r.find? key = some s ∨ r.find? key = none ∧ s = ⟨[], [], none⟩) ∧
        construct sha e key mode identity r =
          ((perform sha e.files (.openDirectory mode identity {}) s).1,
            r.put key (perform sha e.files (.openDirectory mode identity {}) s).2)) ∨
      ∃ stop, construct sha e key mode identity r = (.stopped stop, r) ∨
        construct sha e key mode identity r = (.stopped stop, { r with present := true }) := by
  rw [construct]
  cases hfind : r.find? key with
  | some s => exact Or.inl ⟨s, Or.inl rfl, rfl⟩
  | none =>
    dsimp only
    split_ifs with hvalid hmode hpresent
    · exact Or.inr ⟨_, Or.inl rfl⟩
    · exact Or.inr ⟨_, Or.inl rfl⟩
    · cases e.makeDirectory with
      | some stop => exact Or.inr ⟨_, Or.inr rfl⟩
      | none => exact Or.inl ⟨_, Or.inr ⟨rfl, rfl⟩, rfl⟩
    · cases e.makeRoot with
      | some stop => exact Or.inr ⟨_, Or.inl rfl⟩
      | none =>
        cases e.makeDirectory with
        | some stop => exact Or.inr ⟨_, Or.inr rfl⟩
        | none => exact Or.inl ⟨_, Or.inr ⟨rfl, rfl⟩, rfl⟩

theorem settle_fst (done : Reply × OperationRoot) : (settle done).1 = done.1 := by
  rw [settle]
  split_ifs <;> rfl

/-- The end of the process after a crash keeps the invariant. -/
theorem invariant_settle {done : Reply × OperationRoot} (h : Invariant sha saved done.2) :
    Invariant sha saved (settle done).2 := by
  rw [settle]
  split_ifs
  · exact h.core.invariant_halt
  · exact h

theorem ownerIdentity_settle (done : Reply × OperationRoot) :
    (settle done).2.ownerIdentity = done.2.ownerIdentity := by
  rw [settle]
  split_ifs
  · exact OperationRoot.ownerIdentity_halt
  · rfl

theorem Core.mono (h : Core sha saved r) (hsaved : ∀ stage key offset data,
    saved' stage key offset data → saved stage key offset data) : Core sha saved' r := by
  refine ⟨h.present, h.owner, fun key s hkey hfind => ?_, fun stage key offset data hsave =>
    h.saved _ _ _ _ (hsaved _ _ _ _ hsave)⟩
  obtain ⟨hvalid, identity, hidentity, htracked⟩ := h.stage _ _ hkey hfind
  exact ⟨hvalid, identity, hidentity, htracked.mono fun _ _ _ => hsaved _ _ _ _⟩

theorem Invariant.mono (h : Invariant sha saved r) (hsaved : ∀ stage key offset data,
    saved' stage key offset data → saved stage key offset data) : Invariant sha saved' r :=
  ⟨h.core.mono hsaved, h.closed, h.identity⟩

theorem session_construct (sha : Checksum) (e : SessionEnvironment) (key : Bytes) (mode : Mode)
    (identity : Bytes) (r : OperationRoot) :
    (construct sha e key mode identity r).2.session = r.session := by
  rcases construct_cases sha e key mode identity r with ⟨s, -, heq⟩ | ⟨stop, heq | heq⟩
  · rw [heq]
    rfl
  · rw [heq]
  · rw [heq]

/-- The owner after an opening. -/
theorem Core.construct_owner (h : Core sha saved r) (e : SessionEnvironment) (mode : Mode)
    (identity : Bytes) :
    Core sha saved (construct sha e ownerName mode identity r).2 ∧
      ∀ content, r.ownerIdentity = some content →
        (construct sha e ownerName mode identity r).2.ownerIdentity = some content := by
  rcases construct_cases sha e ownerName mode identity r with
    ⟨s, hs, heq⟩ | ⟨stop, heq | heq⟩
  · rw [heq]
    have htracked : Tracked sha (fun _ => True) (fun _ _ _ => False) s := by
      rcases hs with hfind | ⟨-, rfl⟩
      · exact h.owner _ hfind
      · exact .empty
    have hkept : ∀ content, r.ownerIdentity = some content →
        find (perform sha e.files (.openDirectory mode identity {}) s).2.files identityName =
          some content := by
      intro content hcontent
      rcases hs with hfind | ⟨hfind, -⟩
      · rw [OperationRoot.ownerIdentity, hfind] at hcontent
        exact htracked.kept e.files _ hcontent
      · rw [OperationRoot.ownerIdentity, hfind] at hcontent
        cases hcontent
    refine ⟨h.put_owner (htracked.perform e.files _ ?_ fun _ _ _ hsave => Or.inl hsave) hkept,
      fun content hcontent => OperationRoot.ownerIdentity_put.trans (hkept content hcontent)⟩
    intro mode' identity' limits hcall
    exact ⟨trivial, (Call.openDirectory.inj hcall).2.2.symm⟩
  · rw [heq]
    exact ⟨h, fun content hcontent => hcontent⟩
  · rw [heq]
    exact ⟨h.make, fun content hcontent => hcontent⟩

/-- An owner that was opened has the identity that it was opened with. -/
theorem Core.identity_of_opened (h : Core sha saved r) {e : SessionEnvironment} {mode : Mode}
    (hopened : (construct sha e ownerName mode identity r).1 = .opened) :
    (construct sha e ownerName mode identity r).2.ownerIdentity = some (manifest identity) := by
  rcases construct_cases sha e ownerName mode identity r with
    ⟨s, hs, heq⟩ | ⟨stop, heq | heq⟩
  · rw [heq] at hopened ⊢
    have htracked : Tracked sha (fun _ => True) (fun _ _ _ => False) s := by
      rcases hs with hfind | ⟨-, rfl⟩
      · exact h.owner _ hfind
      · exact .empty
    rw [OperationRoot.ownerIdentity_put]
    exact htracked.find_identityName_of_opened hopened
  · rw [heq] at hopened
    cases hopened
  · rw [heq] at hopened
    cases hopened

/-- An opening keeps the identity of the owner. -/
theorem Invariant.start (h : Invariant sha saved r) (e : SessionEnvironment) (resume : Bool)
    (identity : Bytes) :
    Invariant sha saved (start sha e resume identity r).2 ∧
      ∀ content, r.ownerIdentity = some content →
        (OperationSession.start sha e resume identity r).2.ownerIdentity = some content := by
  have hsame : Invariant sha saved r ∧ ∀ content, r.ownerIdentity = some content →
      r.ownerIdentity = some content := ⟨h, fun content hcontent => hcontent⟩
  rw [OperationSession.start]
  split_ifs with hsession
  · exact hsame
  cases e.pauseChannel with
  | some stop => exact hsame
  | none =>
    cases startMode resume r with
    | error message => exact hsame
    | ok mode =>
      dsimp only
      obtain ⟨hcore, hkept⟩ := h.core.construct_owner e mode identity
      have hhalt : Invariant sha saved (construct sha e ownerName mode identity r).2.halt ∧
          ∀ content, r.ownerIdentity = some content →
            (construct sha e ownerName mode identity r).2.halt.ownerIdentity = some content :=
        ⟨hcore.invariant_halt, fun content hcontent =>
          OperationRoot.ownerIdentity_halt.trans (hkept content hcontent)⟩
      split_ifs with hopened
      · cases e.boundary with
        | some stop => exact hhalt
        | none =>
          refine ⟨⟨⟨hcore.present, hcore.owner, hcore.stage, hcore.saved⟩, ?_, ?_⟩, hkept⟩
          · intro hnone
            cases hnone
          · intro identity' hidentity
            obtain rfl := Option.some.inj hidentity
            exact h.core.identity_of_opened hopened
      · exact hhalt

/-- A stage after an opening. -/
theorem Core.construct_stage (h : Core sha saved r) (e : SessionEnvironment) (mode : Mode)
    (hkey : key ≠ ownerName) (hvalid : validKey key = true)
    (hidentity : r.ownerIdentity = some (manifest identity)) :
    Core sha saved (construct sha e key mode (stageIdentity sha identity key) r).2 ∧
      (construct sha e key mode (stageIdentity sha identity key) r).2.ownerIdentity =
        r.ownerIdentity := by
  rcases construct_cases sha e key mode (stageIdentity sha identity key) r with
    ⟨s, hs, heq⟩ | ⟨stop, heq | heq⟩
  · rw [heq]
    have htracked : Tracked sha (· = stageIdentity sha identity key) (saved key) s := by
      rcases hs with hfind | ⟨hfind, rfl⟩
      · obtain ⟨-, identity', hidentity', htracked⟩ := h.stage _ _ hkey hfind
        rw [manifest_injective (Option.some.inj (hidentity.symm.trans hidentity'))]
        exact htracked
      · refine Tracked.empty.mono fun key' offset data hsave => ?_
        have hsome := (h.saved _ _ _ _ hsave).2
        rw [hfind] at hsome
        cases hsome
    refine ⟨h.put_stage hkey hvalid hidentity (htracked.perform e.files _ ?_ fun _ _ _ hsave =>
      Or.inl hsave) fun _ _ _ _ _ hsave => hsave, OperationRoot.ownerIdentity_put_of_ne hkey⟩
    intro mode' identity' limits hcall
    obtain ⟨-, hid, hlimits⟩ := Call.openDirectory.inj hcall
    exact ⟨hid.symm, hlimits.symm⟩
  · rw [heq]
    exact ⟨h, rfl⟩
  · rw [heq]
    exact ⟨h.make, rfl⟩

/-- A stage is opened with the identity that belongs to the one of the owner. -/
theorem Invariant.stage (h : Invariant sha saved r) (e : SessionEnvironment) (key : Bytes) :
    Invariant sha saved (stage sha e key r).2 ∧
      (OperationSession.stage sha e key r).2.ownerIdentity = r.ownerIdentity := by
  rw [OperationSession.stage]
  cases hsession : r.session with
  | none => exact ⟨h, rfl⟩
  | some identity =>
    dsimp only
    by_cases hvalid : validKey key = false
    · rw [if_pos hvalid]
      exact ⟨h, rfl⟩
    rw [if_neg hvalid]
    generalize (if (r.find? key).isSome = true then Mode.resume else Mode.create) = mode
    have hidentity := h.identity _ hsession
    have hdone : Core sha saved (construct sha e key mode (stageIdentity sha identity key) r).2 ∧
        (construct sha e key mode (stageIdentity sha identity key) r).2.ownerIdentity =
          r.ownerIdentity := by
      by_cases hkey : key = ownerName
      · obtain ⟨hcore, hkept⟩ :=
          h.core.construct_owner e mode (stageIdentity sha identity ownerName)
        rw [hkey]
        exact ⟨hcore, (hkept _ hidentity).trans hidentity.symm⟩
      · exact h.core.construct_stage e mode hkey (eq_true_of_ne_false hvalid) hidentity
    have hrunning : Invariant sha saved
        (construct sha e key mode (stageIdentity sha identity key) r).2 := by
      refine ⟨hdone.1, fun hnone => ?_, fun identity' hsession' => ?_⟩
      · rw [session_construct, hsession] at hnone
        cases hnone
      · rw [session_construct] at hsession'
        rw [hdone.2]
        exact h.identity _ hsession'
    exact ⟨invariant_settle hrunning, (ownerIdentity_settle _).trans hdone.2⟩

/-- A closed directory stays closed. -/
theorem session_perform {call : Call}
    (hcall : ∀ mode identity limits, call ≠ .openDirectory mode identity limits)
    (hsession : s.session = none) (e : FileSystem.Environment) :
    (perform sha e call s).2.session = none := by
  obtain ⟨files, ren, session⟩ := s
  obtain rfl : session = none := hsession
  cases call with
  | openDirectory mode identity limits => exact absurd rfl (hcall mode identity limits)
  | load key offset count => rfl
  | save key offset data => rfl
  | close => rfl

/-- A call of a stage. -/
theorem Invariant.inStage (h : Invariant sha saved r) (e : SessionEnvironment) (stage : Bytes)
    (call : Call) (hcall : ∀ mode identity limits, call ≠ .openDirectory mode identity limits)
    (hsaved : ∀ stage' key offset data, saved' stage' key offset data →
      saved stage' key offset data ∨ stage' = stage ∧ call = .save key offset data ∧
        (inStage sha e stage call r).1 = .saved) :
    Invariant sha saved' (inStage sha e stage call r).2 ∧
      (OperationSession.inStage sha e stage call r).2.ownerIdentity = r.ownerIdentity := by
  rw [OperationSession.inStage] at hsaved ⊢
  cases hfind : if stage = ownerName then none else r.find? stage with
  | none =>
    rw [hfind] at hsaved
    refine ⟨h.mono fun stage' key offset data hsave => ?_, rfl⟩
    rcases hsaved _ _ _ _ hsave with hsave | ⟨-, -, hreply⟩
    · exact hsave
    · cases hreply
  | some s =>
    rw [hfind] at hsaved
    dsimp only at hsaved ⊢
    rw [settle_fst] at hsaved
    split_ifs at hfind with hkey
    obtain ⟨hvalid, identity, hidentity, htracked⟩ := h.core.stage _ _ hkey hfind
    have howner := OperationRoot.ownerIdentity_put_of_ne (r := r)
      (s := (perform sha e.files call s).2) hkey
    have hcore : Core sha saved' (r.put stage (perform sha e.files call s).2) := by
      refine h.core.put_stage hkey hvalid hidentity (htracked.perform e.files call ?_ ?_) ?_
      · exact fun mode identity limits heq => absurd heq (hcall mode identity limits)
      · intro key offset data hsave
        rcases hsaved _ _ _ _ hsave with hsave | ⟨-, hsave⟩
        · exact Or.inl hsave
        · exact Or.inr hsave
      · intro stage' key offset data hne hsave
        rcases hsaved _ _ _ _ hsave with hsave | ⟨heq, -⟩
        · exact hsave
        · exact absurd heq hne
    have hrunning : Invariant sha saved' (r.put stage (perform sha e.files call s).2) := by
      refine ⟨hcore, fun hnone key s' hfind' => ?_, fun identity' hsession => ?_⟩
      · rw [OperationRoot.find?_put] at hfind'
        split_ifs at hfind' with heq
        · obtain rfl := Option.some.inj hfind'
          exact session_perform hcall (h.closed hnone _ _ hfind) _
        · exact h.closed hnone _ _ hfind'
      · exact howner.trans (h.identity _ hsession)
    exact ⟨invariant_settle hrunning, (ownerIdentity_settle _).trans howner⟩

/-- The blocks that a sequence of calls has saved. -/
def savedIn (history : List (SessionCall × Reply)) : Saves := fun stage key offset data =>
  (SessionCall.save stage key offset data, Reply.saved) ∈ history

/-- **One call keeps the invariant.** -/
theorem Invariant.step {history : List (SessionCall × Reply)}
    (h : Invariant sha (savedIn history) r) (e : SessionEnvironment) (call : SessionCall) :
    Invariant sha (savedIn ((call, (performCall sha e call r).1) :: history))
      (performCall sha e call r).2 := by
  have hsame : ∀ {reply : Reply} {r' : OperationRoot},
      (∀ stage key offset data, call ≠ .save stage key offset data) →
      Invariant sha (savedIn history) r' →
        Invariant sha (savedIn ((call, reply) :: history)) r' := by
    intro reply r' hcall hinvariant
    refine hinvariant.mono fun stage key offset data hsave => ?_
    rcases List.mem_cons.1 hsave with heq | hsave
    · exact absurd (Prod.mk.inj heq).1.symm (hcall _ _ _ _)
    · exact hsave
  cases call with
  | start resume identity =>
    exact hsame (fun _ _ _ _ heq => by cases heq) (h.start e resume identity).1
  | stage key => exact hsame (fun _ _ _ _ heq => by cases heq) (h.stage e key).1
  | load stage key offset count =>
    exact hsame (fun _ _ _ _ heq => by cases heq)
      (h.inStage e stage _ (fun _ _ _ heq => by cases heq) fun _ _ _ _ hsave => Or.inl hsave).1
  | save stage key offset data =>
    refine (h.inStage e stage _ (fun _ _ _ heq => by cases heq)
      fun stage' key' offset' data' hsave => ?_).1
    rcases List.mem_cons.1 hsave with heq | hsave
    · obtain ⟨hcall, hreply⟩ := Prod.mk.inj heq
      obtain ⟨rfl, rfl, rfl, rfl⟩ := SessionCall.save.inj hcall
      exact Or.inr ⟨rfl, rfl, hreply.symm⟩
    · exact Or.inl hsave
  | closeStage stage =>
    exact hsame (fun _ _ _ _ heq => by cases heq)
      (h.inStage e stage _ (fun _ _ _ heq => by cases heq) fun _ _ _ _ hsave => Or.inl hsave).1
  | finish => exact hsame (fun _ _ _ _ heq => by cases heq) h.core.invariant_halt

theorem invariant_absent : Invariant sha (savedIn []) absent := by
  refine ⟨⟨?_, ?_, ?_, ?_⟩, ?_, ?_⟩
  · intro key s hfind
    cases hfind
  · intro s hfind
    cases hfind
  · intro key s _ hfind
    cases hfind
  · intro stage key offset data hsave
    cases hsave
  · intro _ key s hfind
    cases hfind
  · intro identity hsession
    cases hsession

theorem invariant_of_run {history : List (SessionCall × Reply)} (h : Run sha absent history r) :
    Invariant sha (savedIn history) r := by
  induction h with
  | nil => exact invariant_absent
  | cons _ e call ih => exact ih.step e call

/-! ### Openings after any sequence of calls -/

theorem construct_of_find? {e : SessionEnvironment} {mode : Mode} (hfind : r.find? key = some s) :
    construct sha e key mode identity r =
      ((perform sha e.files (.openDirectory mode identity {}) s).1,
        r.put key (perform sha e.files (.openDirectory mode identity {}) s).2) := by
  rw [construct, hfind]

/-- The recorded identity opens a session. -/
theorem Invariant.start_resume (h : Invariant sha saved r) {e : SessionEnvironment} (he : e.Calm)
    (hsession : r.session = none) (hidentity : r.ownerIdentity = some (manifest identity)) :
    ∃ s, OperationSession.start sha e true identity r =
      (.opened, { r.put ownerName s with session := some identity }) := by
  cases hfind : r.find? ownerName with
  | none =>
    rw [OperationRoot.ownerIdentity, hfind] at hidentity
    cases hidentity
  | some s =>
    have htracked := h.core.owner s hfind
    have hfile : find s.files identityName = some (manifest identity) := by
      rw [OperationRoot.ownerIdentity, hfind] at hidentity
      exact hidentity
    obtain ⟨identity', hmanifest, -, hvalid⟩ := htracked.identified hfile
    rw [← manifest_injective hmanifest] at hvalid
    obtain ⟨hopened, -⟩ := htracked.resumes he.files (h.closed hsession _ _ hfind) hvalid
      fun content hcontent => (Option.some.inj (hfile.symm.trans hcontent)).symm
    have hmode : startMode true r = .ok .resume := by
      rw [startMode, if_neg Bool.noConfusion, h.core.present _ _ hfind, if_neg Bool.noConfusion,
        hidentity]
      rfl
    refine ⟨(perform sha e.files (.openDirectory .resume identity {}) s).2, ?_⟩
    rw [OperationSession.start, hsession, if_neg Bool.noConfusion, he.pauseChannel, hmode]
    dsimp only
    rw [construct_of_find? hfind, if_pos hopened, he.boundary]

/-- The session has every block that was saved. -/
theorem Invariant.loads (h : Invariant sha saved r) (hsession : r.session = none)
    (hidentity : r.ownerIdentity = some (manifest identity)) {stage : Bytes} {offset : UInt64}
    {data : List UInt32} (hsave : saved stage key offset data) {e e' : SessionEnvironment}
    (he : e.Calm) (he' : e'.Calm) (s : System) :
    (OperationSession.stage sha e stage
        { r.put ownerName s with session := some identity }).1 = .opened ∧
      (OperationSession.inStage sha e' stage (.load key offset data.length)
        (OperationSession.stage sha e stage
          { r.put ownerName s with session := some identity }).2).1 = .loaded (some data) := by
  obtain ⟨hne, hsome⟩ := h.core.saved _ _ _ _ hsave
  obtain ⟨t, hfind⟩ := Option.isSome_iff_exists.1 hsome
  obtain ⟨hvalid, identity', hidentity', htracked⟩ := h.core.stage _ _ hne hfind
  obtain rfl := manifest_injective (Option.some.inj (hidentity'.symm.trans hidentity))
  obtain ⟨bound, hfile, rfl, hdigest⟩ := htracked.identity_of_saved hsave
  obtain ⟨hopened, c, hc, hhealthy⟩ := htracked.resumes he.files (h.closed hsession _ _ hfind)
    hdigest fun content hcontent => (Option.some.inj (hfile.symm.trans hcontent)).symm
  have hfind' : OperationRoot.find? { r.put ownerName s with session := some identity' } stage =
      some t := by
    have hput : (r.put ownerName s).find? stage =
        if stage = ownerName then some s else r.find? stage := OperationRoot.find?_put
    rw [if_neg hne, hfind] at hput
    exact hput
  have hstage : OperationSession.stage sha e stage
      { r.put ownerName s with session := some identity' } =
        (.opened, OperationRoot.put { r.put ownerName s with session := some identity' } stage
          (perform sha e.files
            (.openDirectory .resume (stageIdentity sha identity' stage) {}) t).2) := by
    rw [OperationSession.stage]
    dsimp only
    rw [if_neg (by rw [hvalid]; exact Bool.noConfusion), hfind', Option.isSome_some, if_pos rfl,
      construct_of_find? hfind', settle, hopened]
    rfl
  rw [hstage]
  refine ⟨rfl, ?_⟩
  rw [OperationSession.inStage, if_neg hne, OperationRoot.find?_put, if_pos rfl]
  dsimp only
  rw [settle_fst]
  refine (htracked.perform e.files _ ?_ fun _ _ _ h => Or.inl h).loads hsave hc hhealthy he'.files
  intro mode identity limits hcall
  obtain ⟨-, hid, hlimits⟩ := Call.openDirectory.inj hcall
  exact ⟨hid.symm, hlimits.symm⟩

/-- Another identity than the recorded one does not open a session. -/
theorem Invariant.start_refuses (h : Invariant sha saved r)
    (hrecorded : r.ownerIdentity.isSome = true)
    (hne : r.ownerIdentity ≠ some (manifest identity)) (e : SessionEnvironment) (resume : Bool) :
    (OperationSession.start sha e resume identity r).1 ≠ .opened := by
  obtain ⟨content, hcontent⟩ := Option.isSome_iff_exists.1 hrecorded
  intro hopened
  rw [OperationSession.start] at hopened
  split_ifs at hopened
  cases hpause : e.pauseChannel with
  | some stop =>
    rw [hpause] at hopened
    cases hopened
  | none =>
    cases hmode : startMode resume r with
    | error message =>
      rw [hpause, hmode] at hopened
      cases hopened
    | ok mode =>
      rw [hpause, hmode] at hopened
      dsimp only at hopened
      by_cases hconstruct : (construct sha e ownerName mode identity r).1 = .opened
      · have hkept := (h.core.construct_owner e mode identity).2 content hcontent
        rw [h.core.identity_of_opened hconstruct] at hkept
        exact hne (hcontent.trans hkept.symm)
      · rw [if_neg hconstruct] at hopened
        exact hconstruct hopened

/-- A stage is there only after the identity of the owner. -/
theorem Invariant.isSome_ownerIdentity (h : Invariant sha saved r) (hkey : key ≠ ownerName)
    (hfind : r.find? key = some s) : r.ownerIdentity.isSome = true := by
  obtain ⟨-, identity, hidentity, -⟩ := h.core.stage _ _ hkey hfind
  rw [hidentity]
  rfl

end Step

/-- What the openings of sessions do in a state of the directories. -/
structure StartupSafe (sha : Checksum) (history : List (SessionCall × Reply)) (r : OperationRoot) :
    Prop where
  /-- A session resumes with the recorded identity and loads every block that was saved. -/
  resumes : ∀ (e : SessionEnvironment) (identity : Bytes), e.Calm → r.session = none →
    r.ownerIdentity = some (manifest identity) →
      (performCall sha e (.start true identity) r).1 = .opened ∧
        ∀ stage key offset data, (SessionCall.save stage key offset data, Reply.saved) ∈ history →
          ∀ e' e'' : SessionEnvironment, e'.Calm → e''.Calm →
            let opened := (performCall sha e (.start true identity) r).2
            (performCall sha e' (.stage stage) opened).1 = .opened ∧
              (performCall sha e'' (.load stage key offset data.length)
                (performCall sha e' (.stage stage) opened).2).1 = .loaded (some data)
  /-- No session opens with another identity where one is recorded or a stage is there. -/
  refuses : ∀ (e : SessionEnvironment) (resume : Bool) (identity : Bytes),
    r.ownerIdentity ≠ some (manifest identity) →
    (r.ownerIdentity.isSome = true ∨ ∃ key s, key ≠ ownerName ∧ r.find? key = some s) →
      (performCall sha e (.start resume identity) r).1 ≠ .opened
  /-- The recorded identity stays. -/
  keeps : ∀ (e : SessionEnvironment) (call : SessionCall) (content : Bytes),
    r.ownerIdentity = some content → (performCall sha e call r).2.ownerIdentity = some content
  /-- Where a stage is there, an identity is recorded, and the stage is bound to it. -/
  bound : ∀ key s, key ≠ ownerName → r.find? key = some s → ∃ identity,
    r.ownerIdentity = some (manifest identity) ∧
      ∀ content, find s.files identityName = some content →
        content = manifest (stageIdentity sha identity key)

/-- No call changes a recorded identity. -/
theorem Invariant.keeps {sha : Checksum} {saved : Saves} {r : OperationRoot}
    (h : Invariant sha saved r) (e : SessionEnvironment) (call : SessionCall) {content : Bytes}
    (hcontent : r.ownerIdentity = some content) :
    (performCall sha e call r).2.ownerIdentity = some content := by
  have hsame : ∀ stage (c : Call),
      (∀ mode identity limits, c ≠ .openDirectory mode identity limits) →
      (OperationSession.inStage sha e stage c r).2.ownerIdentity = some content := by
    intro stage c hc
    have hcall : Invariant sha (fun _ _ _ _ => False) (OperationSession.inStage sha e stage c r).2 ∧
        (OperationSession.inStage sha e stage c r).2.ownerIdentity = r.ownerIdentity :=
      h.inStage e stage c hc fun _ _ _ _ hfalse => hfalse.elim
    exact hcall.2.trans hcontent
  cases call with
  | start resume identity => exact (h.start e resume identity).2 content hcontent
  | stage key => exact (h.stage e key).2.trans hcontent
  | load stage key offset count =>
    exact hsame stage (.load key offset count) fun _ _ _ heq => by cases heq
  | save stage key offset data =>
    exact hsame stage (.save key offset data) fun _ _ _ heq => by cases heq
  | closeStage stage => exact hsame stage .close fun _ _ _ heq => by cases heq
  | finish => exact OperationRoot.ownerIdentity_halt.trans hcontent

/-- **Openings are safe.** After any sequence of calls from no root on, each of which may fail or
end its process, a session resumes with the recorded identity and has every block that was saved, no
other identity opens one, and no opening records an identity next to stages of another one. -/
theorem startupSafe_of_run {sha : Checksum} {history : List (SessionCall × Reply)}
    {r : OperationRoot} (h : Run sha absent history r) : StartupSafe sha history r := by
  have hinvariant := invariant_of_run h
  refine ⟨fun e identity he hsession hidentity => ?_, fun e resume identity hne hdata => ?_,
    fun e call content hcontent => hinvariant.keeps e call hcontent, fun key s hkey hfind => ?_⟩
  · obtain ⟨s, hstart⟩ := hinvariant.start_resume he hsession hidentity
    have hperform : performCall sha e (.start true identity) r =
        (.opened, { r.put ownerName s with session := some identity }) := hstart
    rw [hperform]
    exact ⟨rfl, fun stage key offset data hsave e' e'' he' he'' =>
      hinvariant.loads hsession hidentity hsave he' he'' s⟩
  · refine hinvariant.start_refuses ?_ hne e resume
    rcases hdata with hrecorded | ⟨key, s, hkey, hfind⟩
    · exact hrecorded
    · exact hinvariant.isSome_ownerIdentity hkey hfind
  · obtain ⟨-, identity, hidentity, htracked⟩ := hinvariant.core.stage _ _ hkey hfind
    refine ⟨identity, hidentity, fun content hcontent => ?_⟩
    obtain ⟨bound, rfl, rfl, -⟩ := htracked.identified hcontent
    rfl

/-- Only the files are touched. -/
def sampleEnvironment (files : FileSystem.Environment) : SessionEnvironment :=
  ⟨files, none, none, none, none⟩

/-- An opening that dies before the owner is there, one that dies while it records the identity, and
one that resumes and saves a block. -/
theorem startupSafe_of_run_sample : ∃ history r,
    history.map Prod.snd = [.stopped .crashed, .saved, .opened, .opened, .stopped .crashed,
      .stopped .crashed] ∧
    StartupSafe sampleChecksum history r := by
  let identity : Bytes := List.replicate 64 48
  let calm := sampleEnvironment calmEnvironment
  have hnil : Run sampleChecksum absent [] absent := .nil
  have hrun := (((((hnil.cons
    { calm with makeDirectory := some .crashed } (.start false identity)).cons
    (sampleEnvironment (crashAt 3)) (.start true identity)).cons
    calm (.start true identity)).cons
    calm (.stage [97])).cons
    calm (.save [97] [97] 0 [0x3f800000])).cons
    (sampleEnvironment (crashAt 3)) (.save [97] [98] 0 [0x3f800000])
  exact ⟨_, _, by decide, startupSafe_of_run hrun⟩

end Resonantia.AppSupport.OperationSession
