import Resonantia.Index.CudaFlatIndex
import Resonantia.Library.FileSystem
import Resonantia.Library.FloatWord

/-!
# Writing a flat index

The file of an index has a header of two 64-bit numbers, the vectors and their dimension, and then
the vectors row by row. `build_index` writes it under a staging name beside its target, in transfers
that may move fewer bytes than they were asked for, and renames it when it is complete. The
environment may let every call fail or kill the process.

## Main definitions

* `Index.indexBytes`: the content of an index file.
* `Index.writeIndexAtomically`: the writer.
* `Index.Ready`: nothing prevents the writer from its work.

## Main results

* `Index.writeIndexAtomically_spec`: the target is the old file or the complete new one.
-/

namespace Resonantia.Index

open ByteString Effect FileSystem FloatWord

/-! ### The format -/

def kHeaderSize : ℕ := 16

/-- The header and the rows. -/
def indexBytes (rows dimensions : UInt64) (features : List UInt32) : Bytes :=
  (littleEndian 8 rows.toNat ++ littleEndian 8 dimensions.toNat) ++ features.flatMap toBytes

/-! ### The writer -/

section Writer

variable {μ : Type}

/-- `return false`. -/
def refuse {α : Type} : FileM μ α := throw (.failed "")

/-- A call that changes no file. -/
def call : FileM μ Unit := FileSystem.check ""

/-- A file that grows at its end. -/
def extend (name : FileName) (content : Bytes) (w : World μ) : World μ :=
  { w with files := put w.files name ((find w.files name).getD [] ++ content) }

/-- The largest request of `write_all`. -/
def kWriteChunkBytes : ℕ := 2 ^ 20

/-- The loop of `write_all`; `accepts` tells how many bytes a call of `write` moves. A call that
`EINTR` interrupts is repeated, so that it tells the first result that is none. -/
def writeLoop (accepts : ℕ → ℕ) (name : FileName) : ℕ → Bytes → FileM μ Unit
  | 0, _ => pure ()
  | turns + 1, data =>
    if data = [] then pure ()
    else do
      let w ← get
      let count := min (accepts w.ticks) (min data.length kWriteChunkBytes)
      syscall "" (extend name (data.take count)) fun part => extend name (data.take part)
      if count = 0 then refuse else writeLoop accepts name turns (data.drop count)

/-- `write_all`. -/
def writeAll (accepts : ℕ → ℕ) (name : FileName) (data : Bytes) : FileM μ Unit :=
  writeLoop accepts name data.length data

def stageName (target : FileName) (pid attempt : ℕ) : FileName :=
  bytes "." ++ target ++ bytes ".stage." ++ bytes (toString pid) ++ bytes "." ++
    bytes (toString attempt)

def kStageAttempts : ℕ := 128

/-- The loop over the staging names. Opening one that is taken gives `EEXIST`, if it does not fail
otherwise. -/
def createLoop (target : FileName) (pid : ℕ) : ℕ → ℕ → FileM μ FileName
  | 0, _ => refuse
  | attempts + 1, attempt => do
    let w ← get
    if (find w.files (stageName target pid attempt)).isSome then
      call
      createLoop target pid attempts (attempt + 1)
    else
      syscall "" (fun w => { w with files := put w.files (stageName target pid attempt) [] })
        fun _ => id
      pure (stageName target pid attempt)

/-- `StagedIndexFile::create`. -/
def create (target : FileName) (pid : ℕ) : FileM μ FileName := do
  call
  if target = [] then refuse
  else
    call
    createLoop target pid kStageAttempts 0

/-- `StagedIndexFile::publish`: what becomes of the directory entry after the rename is ignored. -/
def publish (staged target : FileName) : FileM μ Unit := do
  call
  call
  syscall ""
    (fun w => { w with files := rename w.files staged target, renamed := target :: w.renamed })
    fun _ => id
  if ← succeeds call then
    let _ ← succeeds call

/-- `~StagedIndexFile` of a file that is not published; it does not run in a crash. -/
def discard (staged : FileName) : Stop → FileM μ Unit
  | .crashed => throw .crashed
  | .failed message => do
    let _ ← succeeds (syscall "" (fun w => { w with files := erase w.files staged }) fun _ => id)
    throw (.failed message)

/-- The checks of `write_index_atomically`. -/
def validShape (rows dimensions : UInt64) (features : List UInt32) : Bool :=
  rows ≠ 0 && dimensions ≠ 0 && rows.toNat ≤ (2 ^ 64 - 1) / dimensions.toNat &&
    rows.toNat * dimensions.toNat = features.length && features.length ≤ (2 ^ 64 - 1) / 4

/-- `write_index_atomically`. -/
def writeIndexAtomically (accepts : ℕ → ℕ) (pid : ℕ) (target : FileName) (rows dimensions : UInt64)
    (features : List UInt32) : FileM μ Unit :=
  if validShape rows dimensions features = false then refuse
  else do
    let staged ← create target pid
    tryCatch
      (do
        writeAll accepts staged (littleEndian 8 rows.toNat ++ littleEndian 8 dimensions.toNat)
        writeAll accepts staged (features.flatMap toBytes)
        publish staged target)
      (discard staged)

/-- Nothing prevents the writer from its work: no call fails, every `write` moves something, and a
staging name is free. -/
structure Ready (accepts : ℕ → ℕ) (pid : ℕ) (target : FileName) (rows dimensions : UInt64)
    (features : List UInt32) (files : Files) (e : FileSystem.Environment) : Prop where
  calm : e.Calm
  accepts_pos : ∀ i, 0 < accepts i
  target_ne : target ≠ []
  shape : validShape rows dimensions features = true
  free : ∃ attempt < kStageAttempts, find files (stageName target pid attempt) = none

end Writer

/-! ### What the writer does -/

section Spec

variable {μ : Type} {files : Files} {e : FileSystem.Environment} {staged target : FileName}
  {accepts : ℕ → ℕ} {pid : ℕ} {rows dimensions : UInt64} {features : List UInt32}

theorem length_stageName_lt (target : FileName) (pid attempt : ℕ) :
    target.length < (stageName target pid attempt).length := by
  simp only [stageName, List.length_append]
  have h : (bytes ".").length = 1 := rfl
  omega

theorem stageName_ne (target : FileName) (pid attempt : ℕ) : stageName target pid attempt ≠ target :=
  fun h => absurd (length_stageName_lt target pid attempt) (by rw [h]; exact lt_irrefl _)

/-- The files other than the staged one are as they were. -/
structure Aside (files : Files) (e : FileSystem.Environment) (staged : FileName) (w : World μ) :
    Prop where
  others : ∀ name, name ≠ staged → find w.files name = find files name
  environment : w.environment = e

theorem Aside.put {w : World μ} (h : Aside files e staged w) (content : Bytes) :
    Aside files e staged { w with files := put w.files staged content } := by
  refine ⟨fun name hname => ?_, h.environment⟩
  rw [find_put, if_neg hname]
  exact h.others name hname

theorem Aside.next {w : World μ} (h : Aside files e staged w) : Aside files e staged w.next :=
  ⟨h.others, h.environment⟩

theorem Aside.erase {w : World μ} (h : Aside files e staged w) :
    Aside files e staged { w with files := erase w.files staged } := by
  refine ⟨fun name hname => ?_, h.environment⟩
  rw [find_erase, if_neg hname]
  exact h.others name hname

/-- The staged file holds this content. -/
structure Holding (files : Files) (e : FileSystem.Environment) (staged : FileName)
    (content : Bytes) (w : World μ) : Prop where
  aside : Aside files e staged w
  content : find w.files staged = some content

theorem Holding.next {content : Bytes} {w : World μ} (h : Holding files e staged content w) :
    Holding files e staged content w.next := ⟨h.aside.next, h.content⟩

theorem Holding.extend {content : Bytes} {w : World μ} (h : Holding files e staged content w)
    (data : Bytes) : Holding files e staged (content ++ data) (extend staged data w) := by
  refine ⟨h.aside.put _, ?_⟩
  change find (FileSystem.put w.files staged _) staged = _
  rw [find_put, if_pos rfl, h.content]
  rfl

/-- The turns of a write add up. -/
theorem writeLoop_spec {turns : ℕ} {content data : Bytes} (hturns : data.length ≤ turns) :
    Triple (Holding (μ := μ) files e staged content) (writeLoop accepts staged turns data)
      (fun _ => Holding files e staged (content ++ data))
      (fun _ w => ¬(e.Calm ∧ ∀ i, 0 < accepts i) ∧ Aside files e staged w) := by
  induction turns generalizing content data with
  | zero =>
    obtain rfl := List.length_eq_zero_iff.1 (Nat.le_zero.1 hturns)
    rw [List.append_nil]
    exact triple_pure fun w hw => hw
  | succ turns ih =>
    rw [writeLoop]
    by_cases hnil : data = []
    · rw [if_pos hnil, hnil, List.append_nil]
      exact triple_pure fun w hw => hw
    rw [if_neg hnil]
    have hpos := List.length_pos_iff.2 hnil
    refine triple_get_bind fun w₀ hw₀ => ?_
    dsimp only
    have haccepts : (∀ i, 0 < accepts i) →
        min (accepts w₀.ticks) (min data.length kWriteChunkBytes) ≠ 0 := by
      intro h
      have := h w₀.ticks
      have hchunk : 0 < kWriteChunkBytes := by decide
      omega
    generalize min (accepts w₀.ticks) (min data.length kWriteChunkBytes) = count at haccepts ⊢
    refine triple_bind (Q := fun _ => Holding files e staged (content ++ data.take count))
      (triple_syscall ?_ ?_) fun _ => ?_
    · rintro w rfl
      exact hw₀.next.extend _
    · rintro w rfl hcalm stop part
      exact ⟨fun h => hcalm (hw₀.aside.environment ▸ h.1), (hw₀.next.extend _).aside⟩
    by_cases hzero : count = 0
    · rw [if_pos hzero]
      exact triple_throw fun w hw => ⟨fun h => haccepts h.2 hzero, hw.aside⟩
    · rw [if_neg hzero]
      have hrest := @ih (content ++ data.take count) (data.drop count) (by
        rw [List.length_drop]
        omega)
      rwa [List.append_assoc, List.take_append_drop] at hrest

/-- The directory before the staged file is created. -/
structure Initial (files : Files) (e : FileSystem.Environment) (w : World μ) : Prop where
  files : w.files = files
  environment : w.environment = e

theorem triple_call {P : World μ → Prop} {E : Stop → World μ → Prop} (hnext : ∀ w, P w → P w.next)
    (hstop : ∀ w stop, P w → ¬w.environment.Calm → E stop w.next) :
    Triple P call (fun _ => P) E :=
  triple_syscall hnext fun w hw hcalm stop _ => hstop w stop hw hcalm

theorem Initial.next {w : World μ} (h : Initial files e w) : Initial files e w.next :=
  ⟨h.files, h.environment⟩

/-- The staged file has a name that was free. -/
theorem createLoop_spec {attempts attempt : ℕ} :
    Triple (Initial (μ := μ) files e) (createLoop target pid attempts attempt)
      (fun staged w => (staged ≠ target ∧ find files staged = none) ∧
        Holding files e staged [] w)
      (fun _ w => ¬(e.Calm ∧ ∃ i, attempt ≤ i ∧ i < attempt + attempts ∧
        find files (stageName target pid i) = none) ∧ Initial files e w) := by
  induction attempts generalizing attempt with
  | zero =>
    refine triple_throw fun w hw => ⟨?_, hw⟩
    rintro ⟨-, i, hle, hlt, -⟩
    omega
  | succ attempts ih =>
    refine triple_get_bind fun w₀ hw₀ => ?_
    by_cases htaken : (find w₀.files (stageName target pid attempt)).isSome = true
    · rw [if_pos htaken]
      refine triple_bind (Q := fun _ => Initial files e) (triple_pre (triple_call
        (fun w hw => hw.next) fun w stop hw hcalm => ⟨?_, hw.next⟩) ?_) fun _ => ?_
      · exact fun h => hcalm (hw.environment ▸ h.1)
      · rintro w rfl
        exact hw₀
      refine triple_raise ih fun _ w ⟨hnone, hw⟩ => ⟨?_, hw⟩
      rintro ⟨hcalm, i, hle, hlt, hfree⟩
      have hne : i ≠ attempt := by
        rintro rfl
        rw [hw₀.files, hfree] at htaken
        cases htaken
      exact hnone ⟨hcalm, i, by omega, by omega, hfree⟩
    · rw [if_neg htaken]
      have hfree : find files (stageName target pid attempt) = none := by
        rw [← hw₀.files]
        exact Option.not_isSome_iff_eq_none.1 htaken
      refine triple_bind
        (Q := fun _ => Holding files e (stageName target pid attempt) [])
        (triple_syscall ?_ ?_) fun _ =>
          triple_pure fun w hw => ⟨⟨stageName_ne target pid attempt, hfree⟩, hw⟩
      · rintro w rfl
        have haside : Aside files e (stageName target pid attempt) w.next :=
          ⟨fun name _ => congrArg (find · name) hw₀.files, hw₀.environment⟩
        exact ⟨haside.put [], by rw [find_put, if_pos rfl]⟩
      · rintro w rfl hcalm stop part
        exact ⟨fun h => hcalm (hw₀.environment ▸ h.1), hw₀.next⟩

theorem create_spec :
    Triple (Initial (μ := μ) files e) (create target pid)
      (fun staged w => (staged ≠ target ∧ find files staged = none) ∧
        Holding files e staged [] w)
      (fun _ w => ¬Ready accepts pid target rows dimensions features files e ∧
        Initial files e w) := by
  have hstop : ∀ (w : World μ) (stop : Stop), Initial files e w → ¬w.environment.Calm →
      ¬Ready accepts pid target rows dimensions features files e ∧ Initial files e w.next :=
    fun w _ hw hcalm => ⟨fun h => hcalm (hw.environment ▸ h.calm), hw.next⟩
  refine triple_bind (triple_call (fun w hw => hw.next) hstop) fun _ => ?_
  by_cases htarget : target = []
  · rw [if_pos htarget]
    exact triple_throw fun w hw => ⟨fun h => h.target_ne htarget, hw⟩
  · rw [if_neg htarget]
    refine triple_bind (triple_call (fun w hw => hw.next) hstop) fun _ => ?_
    refine triple_raise createLoop_spec fun _ w ⟨hnone, hw⟩ => ⟨fun h => hnone ⟨h.calm, ?_⟩, hw⟩
    obtain ⟨i, hlt, hfree⟩ := h.free
    exact ⟨i, Nat.zero_le i, by omega, hfree⟩

/-- The target holds this content and the other files are as they were. -/
def Published (files : Files) (target : FileName) (content : Bytes) (w : World μ) : Prop :=
  ∀ name, find w.files name = if name = target then some content else find files name

/-- The files that were there are as they were, and a target that was not is still missing. -/
def Untouched (files : Files) (target : FileName) (w : World μ) : Prop :=
  ∀ name, name = target ∨ (find files name).isSome → find w.files name = find files name

theorem Aside.untouched {w : World μ} (h : Aside files e staged w) (hne : staged ≠ target)
    (hfree : find files staged = none) : Untouched files target w := by
  intro name hname
  refine h.others name ?_
  rintro rfl
  rcases hname with heq | hsome
  · exact hne heq
  · rw [hfree] at hsome
    cases hsome

theorem publish_spec {content : Bytes} (hfree : find files staged = none) :
    Triple (Holding (μ := μ) files e staged content) (publish staged target)
      (fun _ => Published files target content)
      (fun stop w => ¬e.Calm ∧
        (Aside files e staged w ∨ stop = .crashed ∧ Published files target content w)) := by
  have hstop : ∀ (w : World μ) (stop : Stop), Holding files e staged content w →
      ¬w.environment.Calm → ¬e.Calm ∧ (Aside files e staged w.next ∨
        stop = .crashed ∧ Published files target content w.next) :=
    fun w _ hw hcalm => ⟨hw.aside.environment ▸ hcalm, Or.inl hw.next.aside⟩
  refine triple_bind (triple_call (fun w hw => hw.next) hstop) fun _ => ?_
  refine triple_bind (triple_call (fun w hw => hw.next) hstop) fun _ => ?_
  refine triple_bind (Q := fun _ w => Published files target content w ∧ w.environment = e)
    (triple_syscall ?_ ?_) fun _ => ?_
  · refine fun w hw => ⟨fun name => ?_, hw.aside.environment⟩
    change find (rename w.files staged target) name = _
    rw [find_rename hw.content]
    by_cases htarget : name = target
    · rw [if_pos htarget, if_pos htarget]
    · rw [if_neg htarget, if_neg htarget]
      by_cases hstaged : name = staged
      · rw [if_pos hstaged, hstaged, hfree]
      · rw [if_neg hstaged, hw.aside.others name hstaged]
  · exact fun w hw hcalm stop _ => hstop w stop hw hcalm
  -- the new file is there, whatever becomes of the directory entry
  have hdone : Triple (fun w : World μ => Published files target content w ∧ w.environment = e)
      (pure ()) (fun _ => Published files target content)
      (fun (stop : Stop) w => ¬e.Calm ∧
        (Aside files e staged w ∨ stop = Stop.crashed ∧ Published files target content w)) :=
    triple_pure fun w hw => hw.1
  have hignored : Triple (fun w : World μ => Published files target content w ∧ w.environment = e)
      (FileSystem.succeeds call)
      (fun _ w => Published files target content w ∧ w.environment = e)
      (fun (stop : Stop) w => ¬e.Calm ∧
        (Aside files e staged w ∨ stop = Stop.crashed ∧ Published files target content w)) :=
    triple_succeeds_of_not_calm (fun w hw => hw) fun w hw hcalm _ =>
      ⟨hw, hw.2 ▸ hcalm, Or.inr ⟨rfl, hw.1⟩⟩
  refine triple_bind hignored fun synced => ?_
  cases synced with
  | false => exact hdone
  | true => exact triple_bind hignored fun _ => hdone

theorem discard_spec {P : Prop} {content : Bytes} (hne : staged ≠ target)
    (hfree : find files staged = none) (stop : Stop) {Q : Unit → World μ → Prop} :
    Triple (fun w : World μ => P ∧ (Aside files e staged w ∨
        stop = .crashed ∧ Published files target content w)) (discard staged stop) Q
      (fun stop w => P ∧ (Untouched files target w ∨
        stop = .crashed ∧ Published files target content w)) := by
  cases stop with
  | crashed =>
    refine triple_throw fun w ⟨hP, hw⟩ => ⟨hP, ?_⟩
    exact hw.imp (fun haside => haside.untouched hne hfree) id
  | failed message =>
    refine triple_bind (Q := fun _ w => P ∧ Aside files e staged w)
      (triple_pre (P := fun w => P ∧ Aside files e staged w) (triple_succeeds ?_ ?_) ?_) fun _ => ?_
    · exact fun w hw => ⟨hw.1, hw.2.next.erase⟩
    · exact fun w hw part =>
        ⟨⟨hw.1, hw.2.next⟩, hw.1, Or.inl (hw.2.next.untouched hne hfree)⟩
    · rintro w ⟨hP, haside | ⟨hstop, -⟩⟩
      · exact ⟨hP, haside⟩
      · cases hstop
    · exact triple_throw fun w hw => ⟨hw.1, Or.inl (hw.2.untouched hne hfree)⟩

/-- **The target is the old file or the complete new one.** The writer publishes the index, which it
does unless something prevents it, or it leaves all files as they were; only a process that dies
after the rename does not learn of its success. -/
theorem writeIndexAtomically_spec :
    Triple (Initial (μ := μ) files e)
      (writeIndexAtomically accepts pid target rows dimensions features)
      (fun _ w => validShape rows dimensions features = true ∧
        Published files target (indexBytes rows dimensions features) w)
      (fun stop w => ¬Ready accepts pid target rows dimensions features files e ∧
        (Untouched files target w ∨
          stop = .crashed ∧ Published files target (indexBytes rows dimensions features) w)) := by
  have hinitial : ∀ w : World μ, Initial files e w → Untouched files target w :=
    fun w hw name _ => congrArg (find · name) hw.files
  rw [writeIndexAtomically]
  by_cases hshape : validShape rows dimensions features = false
  · rw [if_pos hshape]
    exact triple_throw fun w hw =>
      ⟨fun h => Bool.false_ne_true (hshape.symm.trans h.shape), Or.inl (hinitial w hw)⟩
  rw [if_neg hshape]
  refine triple_bind (triple_raise create_spec fun _ w hw => ⟨hw.1, Or.inl (hinitial w hw.2)⟩)
    fun staged => triple_of_fact fun ⟨hne, hfree⟩ => ?_
  refine @triple_tryCatch _ _ _ _ _ _ (fun stop w =>
    ¬Ready accepts pid target rows dimensions features files e ∧ (Aside files e staged w ∨
      stop = .crashed ∧ Published files target (indexBytes rows dimensions features) w)) _ _ ?_
    fun stop => discard_spec hne hfree stop
  have hwrite : ∀ content data : Bytes, Triple (Holding (μ := μ) files e staged content)
      (writeAll accepts staged data) (fun _ => Holding files e staged (content ++ data))
      (fun stop w => ¬Ready accepts pid target rows dimensions features files e ∧
        (Aside files e staged w ∨
          stop = .crashed ∧ Published files target (indexBytes rows dimensions features) w)) :=
    fun content data => triple_raise (writeLoop_spec le_rfl) fun _ w hw =>
      ⟨fun h => hw.1 ⟨h.calm, h.accepts_pos⟩, Or.inl hw.2⟩
  refine triple_bind (hwrite [] _) fun _ => ?_
  refine triple_bind (hwrite _ _) fun _ => ?_
  rw [List.nil_append, ← indexBytes]
  refine triple_conseq (publish_spec hfree) (fun w hw => hw) (fun _ w hw => ?_)
    fun stop w hw => ⟨fun h => hw.1 h.calm, hw.2⟩
  exact ⟨Bool.eq_true_of_not_eq_false hshape, hw⟩

end Spec

end Resonantia.Index
