import Resonantia.Pipeline.Synthesis

/-!
# Resumed conversions

A conversion with a checkpoint may be paused at a boundary, may fail and may die anywhere; the next
attempt opens the directory that the earlier ones left and goes on from the saved blocks, some of
which may be lost. The attempt that completes ends with the spools of one uninterrupted run without
a checkpoint (`convertFileBounded_eq_uninterrupted`).

The two loops of a conversion share one directory. Their blocks have different names, so that each
loop sees the saved blocks of its own jobs; every saved block holds the samples that its job
computes, whatever the earlier attempts did (`Saved.consistent`).

## Main definitions

* `Pipeline.coreLoop`: the synthesis loop as jobs of a cached loop.
* `Pipeline.Saved`: the directories that sequences of attempts leave.
* `Pipeline.Reproducible`: every saved block holds what its job computes.

## Main results

* `Pipeline.synthesisLoop_drives`: the synthesis loop runs the jobs of `coreLoop`.
* `Pipeline.convertFileBounded_reproducible`: an attempt keeps the directory reproducible.
* `Pipeline.convertFileBounded_eq_uninterrupted`: the completing attempt ends like one
  uninterrupted run.
-/

namespace Resonantia.Pipeline

open Slices Effect Io CachedLoop

variable {α : Type} [Sample α] [Zero α] [LE α] [DecidableLE α] [FrameEnergy α]

/-! ### The synthesis loop as a cached loop -/

section Loop

variable (conversion : BoundedConversion α) (layout : ChunkLayout)
  (processedF0 rawF0 : RawFloatSpool α)

/-- The loop over cores as jobs of a cached loop: the job is the next core with the planner behind
it, its result the output samples of the core. -/
def coreLoop : Loop (SynthState α) ((ℕ × ℕ) × QuietCorePlanner) String (List α) String where
  next s := s.planner.next conversion.filtered
  key job := synthBlockKey job.1.1
  compute job := do
    let piece ← corePiece conversion layout processedF0 rawF0 job.1.1 job.1.2
    return coreSamples piece (leftOutputContext layout) (outputIndex job.1.2 - outputIndex job.1.1)
  advance s job samples :=
    if s.rawOutput.sampleCount ≠ outputIndex job.1.1 ∨
        outputIndex job.1.2 < outputIndex job.1.1 then
      .error "bounded synthesis lost absolute output alignment"
    else (appendOr s.rawOutput samples "raw synthesis spool append failed").map fun rawOutput =>
      { planner := job.2, rawOutput }

variable {conversion layout processedF0 rawF0}

theorem coreLoop_compute {job : (ℕ × ℕ) × QuietCorePlanner} {samples : List α} :
    (coreLoop conversion layout processedF0 rawF0).compute job = .ok samples ↔
      ∃ piece, corePiece conversion layout processedF0 rawF0 job.1.1 job.1.2 = .ok piece ∧
        coreSamples piece (leftOutputContext layout)
          (outputIndex job.1.2 - outputIndex job.1.1) = samples := by
  simp only [coreLoop]
  rcases corePiece conversion layout processedF0 rawF0 job.1.1 job.1.2 with message | piece
  · exact iff_of_false (fun h => by cases h) (fun ⟨_, h, _⟩ => by cases h)
  · simp only [Except.ok.injEq, exists_eq_left']
    exact iff_of_eq (Except.ok.injEq _ _)

theorem coreLoop_advance {s t : SynthState α} {job : (ℕ × ℕ) × QuietCorePlanner}
    {samples : List α} :
    (coreLoop conversion layout processedF0 rawF0).advance s job samples = .ok t ↔
      (s.rawOutput.sampleCount = outputIndex job.1.1 ∧
        outputIndex job.1.1 ≤ outputIndex job.1.2) ∧
      ∃ rawOutput, s.rawOutput.append samples = some rawOutput ∧ t = ⟨job.2, rawOutput⟩ := by
  simp only [coreLoop]
  by_cases h : s.rawOutput.sampleCount ≠ outputIndex job.1.1 ∨
      outputIndex job.1.2 < outputIndex job.1.1
  · rw [if_pos h]
    exact iff_of_false (fun hc => by cases hc) (fun hc => by omega)
  · rw [if_neg h, appendOr]
    have haligned : s.rawOutput.sampleCount = outputIndex job.1.1 ∧
        outputIndex job.1.1 ≤ outputIndex job.1.2 := by omega
    rcases s.rawOutput.append samples with _ | rawOutput <;>
      simp [Except.map, haligned, eq_comm]

/-- Every core has a block of its own. -/
theorem coreLoop_keysDistinct (s₀ : SynthState α) :
    (coreLoop conversion layout processedF0 rawF0).KeysDistinct s₀ := by
  apply Loop.keysDistinct_of_strictMono (fun s => s.planner.previous) synthBlockKey
  · intro a b hab
    exact Nat.repr_injective (String.append_right_inj _ |>.mp hab)
  · rintro s t ⟨⟨⟨coreStart, coreEnd⟩, planner⟩, samples, hnext, -, hadvance⟩
    obtain ⟨-, rawOutput, -, rfl⟩ := coreLoop_advance.mp hadvance
    have hspec := QuietCorePlanner.next_spec hnext
    simp only
    omega
  · rintro s ⟨⟨coreStart, coreEnd⟩, planner⟩ hnext
    exact congrArg synthBlockKey (QuietCorePlanner.next_spec hnext).2.1

variable [BlockDigest α] [DecidableEq α]
variable (conversion layout processedF0 rawF0)

/-- One iteration behind the choice of its core. -/
def coreStep (s : SynthState α) (job : (ℕ × ℕ) × QuietCorePlanner) :
    CheckpointM α (SynthState α) := do
  let rawOutput ← coreBlock conversion layout processedF0 rawF0 job.1.1 job.1.2 s.rawOutput
  return { planner := job.2, rawOutput }

/-- The synthesis loop runs the jobs of `coreLoop`. -/
theorem synthesisLoop_drives :
    Drives (coreLoop conversion layout processedF0 rawF0)
      (coreStep conversion layout processedF0 rawF0)
      (synthesisLoop conversion layout processedF0 rawF0) where
  unfold s := by
    rw [synthesisLoop]
    simp only [coreLoop]
    split <;> rename_i h <;> rw [h]
    simp only [coreStep, bind_assoc, pure_bind]
  decreasing := by
    refine ⟨fun s => s.planner.samples - s.planner.previous, ?_⟩
    rintro s ⟨⟨coreStart, coreEnd⟩, planner⟩ samples t hnext hadvance
    obtain ⟨-, rawOutput, -, rfl⟩ := coreLoop_advance.mp hadvance
    have hspec := QuietCorePlanner.next_spec hnext
    simp only
    omega
  compute s job samples t _ hcompute hadvance := by
    obtain ⟨piece, hpiece, rfl⟩ := coreLoop_compute.mp hcompute
    obtain ⟨haligned, rawOutput, happend, rfl⟩ := coreLoop_advance.mp hadvance
    have hcore : exec (coreBlock conversion layout processedF0 rawF0 job.1.1 job.1.2 s.rawOutput)
        none = (.ok rawOutput, none) := exec_cachedBlock_none
      (coreCompute_eq_ok.mpr ⟨piece, hpiece, haligned, happend, rfl⟩)
    rw [coreStep, exec_bind_of_ok hcore, exec_pure]
  cache s job c hnext := by
    refine blockTriple_cachedBlock _ hnext rfl ?_ ?_ c
    · intro hcheck samples rawOutput htake
      have haligned : s.rawOutput.sampleCount = outputIndex job.1.1 ∧
          outputIndex job.1.1 ≤ outputIndex job.1.2 := by
        rw [checkAlignment] at hcheck
        split at hcheck
        · cases hcheck
        · omega
      exact coreLoop_advance.mpr ⟨haligned, rawOutput, appendOr_eq_ok.mp htake, rfl⟩
    · intro committed rawOutput hcompute
      obtain ⟨piece, hpiece, haligned, happend, rfl⟩ := coreCompute_eq_ok.mp hcompute
      exact ⟨_, rfl, coreLoop_compute.mpr ⟨piece, hpiece, rfl⟩,
        coreLoop_advance.mpr ⟨haligned, rawOutput, happend, rfl⟩⟩

end Loop

/-! ### Attempts of one conversion -/

variable [BlockDigest α] [DecidableEq α] {conversion : BoundedConversion α} {layout : ChunkLayout}

/-- The loop over F0 windows of a conversion. -/
def windowLoop (conversion : BoundedConversion α) (layout : ChunkLayout) :
    Loop (F0State α) F0WindowPlan String (List α) String :=
  f0Loop conversion.filtered conversion.filtered.sampleCount layout.pad
    (f0ContextSamples conversion.f0Method)
    (conversion.filtered.sampleCount + u64 (2 * layout.pad)) conversion.extractF0

/-- Every saved block holds the samples that its job computes in the run without a checkpoint. -/
structure Reproducible (conversion : BoundedConversion α) (layout : ChunkLayout)
    (c : String → Option (List α)) : Prop where
  windows : (windowLoop conversion layout).Consistent f0Start c
  cores : ∀ t processedF0, (windowLoop conversion layout).Completes f0Start t →
    conversion.processF0 t.rawF0 layout.pad conversion.filtered.sampleCount = .ok processedF0 →
    (coreLoop conversion layout processedF0 t.rawF0).Consistent
      (synthStart conversion.filtered.sampleCount layout) c

/-- The blocks of windows and cores have different names. -/
theorem f0BlockKey_ne_synthBlockKey (firstFrame coreStart : ℕ) :
    f0BlockKey firstFrame ≠ synthBlockKey coreStart := by
  intro h
  have hhead := congrArg (fun s => s.toList.head?) h
  simp [f0BlockKey, synthBlockKey] at hhead

omit [BlockDigest α] [DecidableEq α] in
/-- New blocks of windows keep a directory reproducible. -/
theorem Reproducible.windows_added {c c' : String → Option (List α)}
    (h : Reproducible conversion layout c)
    (hwindows : (windowLoop conversion layout).Consistent f0Start c')
    (hnew : ∀ i v, c' i = some v → c i = some v ∨ ∃ k, i = (windowLoop conversion layout).key k) :
    Reproducible conversion layout c' where
  windows := hwindows
  cores t processedF0 ht hprocess s job samples hs hnext hcached := by
    rcases hnew _ _ hcached with hold | ⟨plan, hkey⟩
    · exact h.cores t processedF0 ht hprocess s job samples hs hnext hold
    · exact absurd hkey.symm (f0BlockKey_ne_synthBlockKey _ _)

omit [BlockDigest α] [DecidableEq α] in
/-- New blocks of cores keep a directory reproducible. -/
theorem Reproducible.cores_added {c c' : String → Option (List α)}
    (h : Reproducible conversion layout c) {t : F0State α} {processedF0 : RawFloatSpool α}
    (ht : (windowLoop conversion layout).Completes f0Start t)
    (hprocess : conversion.processF0 t.rawF0 layout.pad conversion.filtered.sampleCount =
      .ok processedF0)
    (hcores : (coreLoop conversion layout processedF0 t.rawF0).Consistent
      (synthStart conversion.filtered.sampleCount layout) c')
    (hnew : ∀ i v, c' i = some v → c i = some v ∨
      ∃ k, i = (coreLoop conversion layout processedF0 t.rawF0).key k) :
    Reproducible conversion layout c' where
  windows s plan crop hs hnext hcached := by
    rcases hnew _ _ hcached with hold | ⟨job, hkey⟩
    · exact h.windows s plan crop hs hnext hold
    · exact absurd hkey (f0BlockKey_ne_synthBlockKey _ _)
  cores t' processedF0' ht' hprocess' := by
    cases ht.unique ht'
    rw [hprocess] at hprocess'
    cases hprocess'
    exact hcores

/-- The extraction of raw F0 keeps the directory reproducible and ends like the extraction without
a checkpoint. -/
theorem buildRawF0_spec {c : String → Option (List α)} (h : Reproducible conversion layout c) :
    Triple (fun s => cached s = c)
      (buildRawF0 conversion.filtered conversion.filtered.sampleCount layout.pad
        (f0ContextSamples conversion.f0Method) conversion.extractF0)
      (fun out s =>
        (exec (buildRawF0 conversion.filtered conversion.filtered.sampleCount layout.pad
            (f0ContextSamples conversion.f0Method) conversion.extractF0) none = (.ok out, none) ∧
          ∃ t, (windowLoop conversion layout).Completes f0Start t ∧ t.rawF0 = out.1) ∧
        Reproducible conversion layout (cached s))
      (fun _ s => Reproducible conversion layout (cached s)) := by
  rw [buildRawF0]
  split
  · exact triple_throw fun s hs => hs ▸ h
  · rename_i virtualSamples hvirtual
    cases eq_add_of_checkedAdd hvirtual
    have hdrives := buildRawF0Loop_drives conversion.filtered conversion.filtered.sampleCount
      layout.pad (f0ContextSamples conversion.f0Method)
      (conversion.filtered.sampleCount + u64 (2 * layout.pad)) conversion.extractF0
    refine triple_bind (triple_conseq (hdrives.spec (f0Loop_keysDistinct _) h.windows)
      (fun _ hs => hs) (fun t s hs => ⟨hs.1, h.windows_added hs.2.1 hs.2.2⟩)
      (fun _ s hs => h.windows_added hs.1 hs.2)) fun t => triple_of_fact fun ht => ?_
    have hnone := hdrives.exec_of_completes ht
    split
    · rename_i hcount
      refine triple_pure fun s hs => ⟨⟨?_, t, ht, rfl⟩, hs⟩
      rw [exec_bind_of_ok hnone, if_pos hcount, exec_pure]
    · exact triple_throw fun s hs => hs

/-- **One attempt.** An attempt over a reproducible directory leaves a reproducible directory, and
when it completes, it ends like the conversion without a checkpoint. -/
theorem convertFileBounded_reproducible (conversion : BoundedConversion α)
    {c : String → Option (List α)}
    (h : ∀ layout, conversion.layout = .ok layout → Reproducible conversion layout c) :
    Triple (fun s => cached s = c) (convertFileBounded conversion)
      (fun out s => exec (convertFileBounded conversion) none = (.ok out, none) ∧
        ∀ layout, conversion.layout = .ok layout → Reproducible conversion layout (cached s))
      (fun _ s =>
        ∀ layout, conversion.layout = .ok layout → Reproducible conversion layout (cached s)) := by
  have hpure {β : Type} (x : Except String β) := triple_conseq
    (ofExcept_spec x fun s => cached s = c) (fun _ hs => hs) (fun _ _ hs => hs)
    (fun _ s (hs : cached s = c) layout hlayout => hs ▸ h layout hlayout)
  rw [convertFileBounded]
  refine triple_bind (hpure _) fun _ => triple_of_fact fun hsource => ?_
  refine triple_bind (hpure _) fun scaledOutput => triple_of_fact fun hscaled => ?_
  refine triple_bind (hpure _) fun layout => triple_of_fact fun hlayout => ?_
  have hall : ∀ s : Option (Session α), Reproducible conversion layout (cached s) →
      ∀ layout', conversion.layout = .ok layout' → Reproducible conversion layout' (cached s) := by
    intro s hs layout' hlayout'
    rw [hlayout] at hlayout'
    cases hlayout'
    exact hs
  have hlater {β : Type} (x : Except String β) := triple_conseq
    (ofExcept_spec x fun s => Reproducible conversion layout (cached s)) (fun _ hs => hs)
    (fun _ _ hs => hs) (fun _ s hs => hall s hs)
  refine triple_bind (triple_conseq (buildRawF0_spec (h layout hlayout)) (fun _ hs => hs)
    (fun _ _ hs => hs) (fun _ s hs => hall s hs)) ?_
  rintro ⟨rawF0, maximumF0Input⟩
  refine triple_of_fact fun ⟨hraw, t, ht, hrawF0⟩ => ?_
  refine triple_bind (hlater _) fun processedF0 => triple_of_fact fun hprocess => ?_
  refine triple_bind (hlater _) fun _ => triple_of_fact fun hobserved => ?_
  have hdrives := synthesisLoop_drives conversion layout processedF0 rawF0
  simp only at hrawF0
  subst hrawF0
  have hcores : Triple (fun s => Reproducible conversion layout (cached s))
      (synthesisLoop conversion layout processedF0 t.rawF0
        (synthStart conversion.filtered.sampleCount layout))
      (fun u s => (coreLoop conversion layout processedF0 t.rawF0).Completes
        (synthStart conversion.filtered.sampleCount layout) u ∧
        Reproducible conversion layout (cached s))
      (fun _ s => ∀ layout, conversion.layout = .ok layout →
        Reproducible conversion layout (cached s)) := by
    intro session hs
    exact triple_conseq (hdrives.spec (coreLoop_keysDistinct _) (hs.cores t processedF0 ht hprocess))
      (fun _ hc => hc) (fun u s hu => ⟨hu.1, hs.cores_added ht hprocess hu.2.1 hu.2.2⟩)
      (fun _ s hu => hall s (hs.cores_added ht hprocess hu.1 hu.2)) session rfl
  refine triple_bind hcores fun u => triple_of_fact fun hu => ?_
  refine triple_bind (hlater _) fun _ => triple_of_fact fun hcount => ?_
  refine triple_pure fun s hs => ⟨?_, hall s hs⟩
  have hok {β : Type} {x : Except String β} {b : β} (hx : x = .ok b) :
      exec (CheckpointM.ofExcept x : CheckpointM α β) none = (.ok b, none) :=
    CheckpointM.exec_ofExcept_ok.mpr ⟨hx, rfl⟩
  rw [exec_bind_of_ok (hok hsource), exec_bind_of_ok (hok hscaled), exec_bind_of_ok (hok hlayout),
    exec_bind_of_ok hraw]
  dsimp only
  rw [exec_bind_of_ok (hok hprocess), exec_bind_of_ok (hok hobserved),
    exec_bind_of_ok (hdrives.exec_of_completes hu), exec_bind_of_ok (hok hcount), exec_pure]

/-! ### Sequences of attempts -/

/-- What is left of a directory when blocks are lost. -/
def Remnant (reopened directory : BlockDirectory α) : Prop :=
  ∀ (key : String) (block : Block α), reopened[key]? = some block → directory[key]? = some block

/-- The directories that sequences of attempts leave: each attempt opens what the earlier ones left,
less any blocks that were lost, with any limits, in any environment, and ends in any way. -/
inductive Saved (conversion : BoundedConversion α) (identity : String) : BlockDirectory α → Prop
  | empty : Saved conversion identity ∅
  | attempt {directory reopened : BlockDirectory α} {limits : Limits}
      {checkpoint : BlockCheckpoint α} {environment : Environment}
      {outcome : Except Halt (Converted α)} {session : Option (Session α)}
      (hsaved : Saved conversion identity directory)
      (hlost : Remnant reopened directory)
      (hopen : BlockCheckpoint.resume identity limits reopened = .ok checkpoint)
      (hrun : exec (convertFileBounded conversion) (some ⟨checkpoint, environment, 0⟩) =
        (outcome, session)) : Saved conversion identity (published session)

omit [Sample α] [Zero α] [LE α] [DecidableLE α] [FrameEnergy α] [BlockDigest α] [DecidableEq α] in
/-- The cached samples of an opened directory. -/
theorem cached_of_resume {identity : String} {limits : Limits} {directory : BlockDirectory α}
    {checkpoint : BlockCheckpoint α}
    (hopen : BlockCheckpoint.resume identity limits directory = .ok checkpoint)
    (environment : Environment) (key : String) :
    cached (some ⟨checkpoint, environment, 0⟩) key = (directory[key]?).map Block.data := by
  rw [cached, published, (BlockCheckpoint.directory_of_resume hopen).1]

omit [BlockDigest α] [DecidableEq α] in
/-- A reproducible directory that lost blocks stays reproducible. -/
theorem Reproducible.mono {c c' : String → Option (List α)} (h : Reproducible conversion layout c)
    (hsub : ∀ i v, c' i = some v → c i = some v) : Reproducible conversion layout c' where
  windows := h.windows.mono hsub
  cores t processedF0 ht hprocess := (h.cores t processedF0 ht hprocess).mono hsub

omit [BlockDigest α] [DecidableEq α] in
/-- Opening a reproducible directory, less any lost blocks. -/
theorem Reproducible.reopen {identity : String} {limits : Limits}
    {directory reopened : BlockDirectory α} {checkpoint : BlockCheckpoint α}
    (h : Reproducible conversion layout fun key => (directory[key]?).map Block.data)
    (hlost : Remnant reopened directory)
    (hopen : BlockCheckpoint.resume identity limits reopened = .ok checkpoint)
    (environment : Environment) :
    Reproducible conversion layout (cached (some ⟨checkpoint, environment, 0⟩)) := by
  refine h.mono fun i v hv => ?_
  rw [cached_of_resume hopen] at hv
  obtain ⟨block, hblock, rfl⟩ := Option.map_eq_some_iff.mp hv
  rw [hlost i block hblock, Option.map_some]

/-- Every directory that attempts leave is reproducible. -/
theorem Saved.reproducible {identity : String} {directory : BlockDirectory α}
    (h : Saved conversion identity directory) (hlayout : conversion.layout = .ok layout) :
    Reproducible conversion layout fun key => (directory[key]?).map Block.data := by
  induction h generalizing layout with
  | empty =>
    have hnone : Reproducible conversion layout fun _ => none :=
      ⟨Loop.consistent_empty _, fun _ _ _ _ => Loop.consistent_empty _⟩
    exact hnone.mono fun i v hv => by simp at hv
  | attempt hsaved hlost hopen hrun ih =>
    rcases triple_elim (convertFileBounded_reproducible conversion
      fun layout hlayout => (ih hlayout).reopen hlost hopen _) rfl hrun with
      ⟨_, _, hpost⟩ | ⟨_, _, hpost⟩
    · exact hpost.2 layout hlayout
    · exact hpost layout hlayout

/-- **Resumed conversions.** After any sequence of attempts, each stopped anywhere and with any
blocks saved or lost, an attempt that completes ends with exactly the raw F0 and the raw output
samples of one uninterrupted run without a checkpoint. -/
theorem convertFileBounded_eq_uninterrupted (conversion : BoundedConversion α) {identity : String}
    {directory reopened : BlockDirectory α} {limits : Limits} {checkpoint : BlockCheckpoint α}
    {environment : Environment} {out : Converted α} {session : Option (Session α)}
    (hsaved : Saved conversion identity directory)
    (hlost : Remnant reopened directory)
    (hopen : BlockCheckpoint.resume identity limits reopened = .ok checkpoint)
    (hrun : exec (convertFileBounded conversion) (some ⟨checkpoint, environment, 0⟩) =
      (.ok out, session)) :
    exec (convertFileBounded conversion) none = (.ok out, none) := by
  rcases triple_elim (convertFileBounded_reproducible conversion
    fun layout hlayout => (hsaved.reproducible hlayout).reopen hlost hopen _) rfl hrun with
    ⟨out', hout, hpost⟩ | ⟨_, hout, _⟩
  · cases hout
    exact hpost.1
  · cases hout

/-! ### A resumed conversion of integer samples -/

/-- A conversion of a short clip, in one window and one core. -/
def rampConversion : BoundedConversion ℤ where
  filtered := ⟨(List.range 81).map Int.ofNat, by decide, by decide⟩
  maxChunkSec := some 1
  chunkQuerySec := some 0
  chunkPadSec := some 0
  f0Method := .rmvpe
  extractF0 := hopSamples
  processF0 rawF0 _ _ := .ok rawF0
  synthSegment segment f0 uv _ := segment ++ f0 ++ segment ++ uv.map fun b => (b.toNat : ℤ)

/-- A digest, as the identity of the checkpoint of the short clip. -/
def rampIdentity : String := "".pushn 'a' 64

/-- The first attempt at the short clip: the boundary behind the first saved block pauses. -/
def rampPaused : Except Halt (Converted ℤ) × Option (Session ℤ) :=
  exec (convertFileBounded rampConversion) (some ⟨⟨rampIdentity, {}, ∅, 0, 0, 0, true, false⟩,
    ⟨fun tick => if tick = 2 then .pause else .proceed, fun _ => .committed⟩, 0⟩)

/-- The second attempt, which goes on to the end. -/
def rampCompleted (checkpoint : BlockCheckpoint ℤ) :
    Except Halt (Converted ℤ) × Option (Session ℤ) :=
  exec (convertFileBounded rampConversion)
    (some ⟨checkpoint, ⟨fun _ => .proceed, fun _ => .committed⟩, 0⟩)

/-- The short clip, paused behind its first block and resumed: the window is loaded, the core is
computed, and the result is that of the conversion without a checkpoint. -/
theorem convertFileBounded_eq_uninterrupted_ramp :
    ∃ checkpoint out, (published rampPaused.2).keys = ["f0_0"] ∧
      BlockCheckpoint.resume rampIdentity {} (published rampPaused.2) = .ok checkpoint ∧
      (rampCompleted checkpoint).1 = .ok out ∧
      exec (convertFileBounded rampConversion) none = (.ok out, none) := by
  have hruns : (do
      let checkpoint ← (BlockCheckpoint.resume rampIdentity {} (published rampPaused.2)).toOption
      (rampCompleted checkpoint).1.toOption).isSome := by decide +kernel
  obtain ⟨out, hout⟩ := Option.isSome_iff_exists.mp hruns
  obtain ⟨checkpoint, hopen, hcompleted⟩ := Option.bind_eq_some_iff.mp hout
  have hok {ε β : Type} {x : Except ε β} {b : β} (h : x.toOption = some b) : x = .ok b := by
    cases x with
    | error => cases h
    | ok b' =>
      cases h
      rfl
  replace hopen := hok hopen
  replace hcompleted := hok hcompleted
  have hfirst : BlockCheckpoint.resume rampIdentity {} (∅ : BlockDirectory ℤ) =
      .ok ⟨rampIdentity, {}, ∅, 0, 0, 0, true, false⟩ := by
    have hvalid : validDigest rampIdentity = true := by decide
    rw [BlockCheckpoint.resume, hvalid]
    rfl
  have hsaved : Saved rampConversion rampIdentity (published rampPaused.2) :=
    .attempt .empty (fun _ _ h => h) hfirst rfl
  exact ⟨checkpoint, out, by decide +kernel, hopen, hcompleted,
    convertFileBounded_eq_uninterrupted rampConversion hsaved (fun _ _ h => h) hopen
      (Prod.ext hcompleted rfl)⟩

end Resonantia.Pipeline
