import Resonantia.Pipeline.ResumableLoop
import Resonantia.Pipeline.F0Window
import Resonantia.Pipeline.Reflected
import Std.Data.String.ToNat

/-!
# Windowed extraction of raw F0

`build_raw_f0` computes the raw F0 of the reflected clip window by window, from the padded range
that the plan of the window names, and keeps of each window the frames of its core. With a
checkpoint a window that was saved before is loaded in place of being computed.

For an extractor that is local with the given context the spool ends with exactly the frames of the
extractor on the whole reflected clip (`buildRawF0_eq_whole`). The loop with a checkpoint is an
attempt of the cached loop `f0Loop`, so that a completing run over the blocks of earlier runs ends
with the same spool as a run without a checkpoint (`buildRawF0Loop_drives`).

## Main definitions

* `Pipeline.f0Window`: one window, from the padded range to the frames of its core.
* `Pipeline.buildRawF0`: `build_raw_f0`.
* `Pipeline.f0Loop`: the loop over windows as jobs of a cached loop.
* `Pipeline.LocalExtractor`: extractors whose frames depend on a bounded context.

## Main results

* `Pipeline.f0Window_eq_slice`: the frames of a core are those of the whole clip.
* `Pipeline.buildRawF0_eq_whole`: windowed extraction equals whole-clip extraction.
* `Pipeline.buildRawF0Loop_drives`: the loop with a checkpoint is an attempt of `f0Loop`.
-/

namespace Resonantia.Pipeline

open Slices Effect Io CachedLoop

variable {α : Type} [Sample α]

/-! ### One window -/

/-- The computed branch of a window: the padded range, the extractor, and the crop to the core. -/
def f0Window (filtered : RawFloatSpool α) (sourceSamples pad : ℕ) (infer : List α → List α)
    (plan : F0WindowPlan) : Except String (List α) := do
  let window ← readReflected filtered sourceSamples pad plan.inputStart plan.inputSamples
  let localF0 := infer window
  if localF0.length ≠ plan.expectedLocalFrames then
    .error "bounded F0 extraction returned an unexpected frame count"
  else if plan.cropFirstFrame > localF0.length ∨
      plan.cropFrameCount > localF0.length - plan.cropFirstFrame then
    .error "bounded F0 crop exceeded its window"
  else
    return slice localF0 plan.cropFirstFrame (plan.cropFirstFrame + plan.cropFrameCount)

/-- The name of the checkpoint block of a window. -/
def f0BlockKey (firstFrame : ℕ) : String := "f0_" ++ toString firstFrame

/-- A step of the spool. -/
def appendOr (spool : RawFloatSpool α) (xs : List α) (message : String) :
    Except String (RawFloatSpool α) :=
  match spool.append xs with
  | some spool => .ok spool
  | none => .error message

/-- The checks of a plan before its window is computed or loaded. -/
def checkF0Plan (contextSamples : ℕ) (plan : F0WindowPlan) : Except String Unit :=
  if plan.inputSamples > u64 (kF0CoreSamples + u64 (2 * contextSamples)) then
    .error "F0 window exceeded the profile hard bound"
  else match narrowSize plan.inputSamples, narrowInt plan.inputSamples with
    | some _, some _ => .ok ()
    | _, _ => .error "F0 window exceeds the extractor range"

theorem appendOr_eq_ok {spool t : RawFloatSpool α} {xs : List α} {message : String} :
    appendOr spool xs message = .ok t ↔ spool.append xs = some t := by
  rw [appendOr]
  split <;> rename_i h <;> simp [h]

/-- The computed branch of a window with its append: the crop and the longer spool. -/
def f0Compute (filtered : RawFloatSpool α) (sourceSamples pad : ℕ) (infer : List α → List α)
    (plan : F0WindowPlan) (rawF0 : RawFloatSpool α) : Except String (Except String (List α) × RawFloatSpool α) := do
  let crop ← f0Window filtered sourceSamples pad infer plan
  let rawF0 ← appendOr rawF0 crop "raw F0 spool append failed"
  return (.ok crop, rawF0)

theorem f0Compute_eq_ok {filtered : RawFloatSpool α} {sourceSamples pad : ℕ}
    {infer : List α → List α} {plan : F0WindowPlan} {rawF0 rawF0' : RawFloatSpool α}
    {committed : Except String (List α)} :
    f0Compute filtered sourceSamples pad infer plan rawF0 = .ok (committed, rawF0') ↔
      ∃ crop, f0Window filtered sourceSamples pad infer plan = .ok crop ∧
        rawF0.append crop = some rawF0' ∧ committed = .ok crop := by
  rw [f0Compute]
  rcases hcrop : f0Window filtered sourceSamples pad infer plan with message | crop
  · exact iff_of_false (fun h => by cases h) (fun ⟨_, h, _⟩ => by cases h)
  · change (do
      let rawF0 ← appendOr rawF0 crop "raw F0 spool append failed"
      return (Except.ok crop, rawF0)) = _ ↔ _
    rw [appendOr]
    rcases happend : rawF0.append crop with _ | rawF0''
    · refine iff_of_false (fun h => by cases h) ?_
      rintro ⟨crop', hcrop', happend', -⟩
      cases hcrop'
      rw [happend] at happend'
      cases happend'
    · constructor
      · intro h
        cases h
        exact ⟨crop, rfl, happend, rfl⟩
      · rintro ⟨crop', hcrop', happend', rfl⟩
        cases hcrop'
        rw [happend] at happend'
        cases happend'
        rfl

/-! ### The windows as a cached loop -/

/-- The state of the loop: the next frame, the spool and `maximum_input_samples`. -/
structure F0State (α : Type) [Sample α] where
  firstFrame : ℕ
  rawF0 : RawFloatSpool α
  maximumInputSamples : ℕ

/-- The state before the first window. -/
def f0Start : F0State α where
  firstFrame := 0
  rawF0 := .create
  maximumInputSamples := 0

section Loop

variable (filtered : RawFloatSpool α) (sourceSamples pad contextSamples virtualSamples : ℕ)
  (infer : List α → List α)

/-- The loop over windows as jobs of a cached loop: the job is the plan of the next window, its
result the frames of the core. -/
def f0Loop : Loop (F0State α) F0WindowPlan String (List α) String where
  next s :=
    if s.firstFrame < totalFrames virtualSamples then
      match planF0Window virtualSamples s.firstFrame contextSamples with
      | none => .error "F0 window is not aligned to the global lattice"
      | some plan => (checkF0Plan contextSamples plan).map fun _ => some plan
    else .ok none
  key plan := f0BlockKey plan.firstFrame
  compute := f0Window filtered sourceSamples pad infer
  advance s plan crop :=
    (appendOr s.rawF0 crop "raw F0 spool append failed").map fun rawF0 =>
      { firstFrame := plan.endFrame, rawF0
        maximumInputSamples := max s.maximumInputSamples plan.inputSamples }

variable {filtered sourceSamples pad contextSamples virtualSamples infer}

theorem f0Loop_next {s : F0State α} {plan : F0WindowPlan}
    (h : (f0Loop filtered sourceSamples pad contextSamples virtualSamples infer).next s =
      .ok (some plan)) :
    s.firstFrame < totalFrames virtualSamples ∧
      planF0Window virtualSamples s.firstFrame contextSamples = some plan ∧
      checkF0Plan contextSamples plan = .ok () := by
  simp only [f0Loop] at h
  split at h
  · rename_i hlt
    split at h
    · cases h
    · rename_i plan' hplan
      rcases hcheck : checkF0Plan contextSamples plan' with message | _
      · rw [hcheck] at h
        cases h
      · rw [hcheck] at h
        cases h
        exact ⟨hlt, hplan, hcheck⟩
  · cases h

theorem f0Loop_advance {s t : F0State α} {plan : F0WindowPlan} {crop : List α} :
    (f0Loop filtered sourceSamples pad contextSamples virtualSamples infer).advance s plan crop =
      .ok t ↔ ∃ rawF0, s.rawF0.append crop = some rawF0 ∧
        t = ⟨plan.endFrame, rawF0, max s.maximumInputSamples plan.inputSamples⟩ := by
  simp only [f0Loop, appendOr]
  rcases s.rawF0.append crop with _ | rawF0 <;> simp [Except.map, eq_comm]

/-- Every window has a block of its own. -/
theorem f0Loop_keysDistinct (s₀ : F0State α) :
    (f0Loop filtered sourceSamples pad contextSamples virtualSamples infer).KeysDistinct s₀ := by
  apply Loop.keysDistinct_of_strictMono F0State.firstFrame f0BlockKey
  · intro a b hab
    exact Nat.repr_injective (String.append_right_inj _ |>.mp hab)
  · rintro s t ⟨plan, crop, hnext, -, hadvance⟩
    obtain ⟨rawF0, -, rfl⟩ := f0Loop_advance.mp hadvance
    exact (planF0Window_spec (f0Loop_next hnext).2.1).firstFrame_lt
  · intro s plan hnext
    have hfirst := (planF0Window_spec (f0Loop_next hnext).2.1).firstFrame_eq
    exact congrArg f0BlockKey hfirst

end Loop

/-! ### The loop -/

variable [BlockDigest α] [DecidableEq α]

/-- The cached and computed branches of one window: the frames of its core join the spool. -/
def f0Block (filtered : RawFloatSpool α) (sourceSamples pad : ℕ) (infer : List α → List α)
    (plan : F0WindowPlan) (rawF0 : RawFloatSpool α) : CheckpointM α (RawFloatSpool α) :=
  cachedBlock (f0BlockKey plan.firstFrame) plan.firstFrame plan.cropFrameCount (.ok ())
    (fun cached => appendOr rawF0 cached "cached F0 spool append failed")
    (f0Compute filtered sourceSamples pad infer plan rawF0)

/-- The loop of `build_raw_f0`. -/
def buildRawF0Loop (filtered : RawFloatSpool α) (sourceSamples pad contextSamples virtualSamples : ℕ)
    (infer : List α → List α) (s : F0State α) : CheckpointM α (F0State α) :=
  if s.firstFrame < totalFrames virtualSamples then
    match _hplan : planF0Window virtualSamples s.firstFrame contextSamples with
    | none => throw (.failed "F0 window is not aligned to the global lattice")
    | some plan => do
      CheckpointM.ofExcept (checkF0Plan contextSamples plan)
      let rawF0 ← f0Block filtered sourceSamples pad infer plan s.rawF0
      buildRawF0Loop filtered sourceSamples pad contextSamples virtualSamples infer
        { firstFrame := plan.endFrame, rawF0
          maximumInputSamples := max s.maximumInputSamples plan.inputSamples }
  else return s
termination_by totalFrames virtualSamples - s.firstFrame
decreasing_by
  have hlt := (planF0Window_spec _hplan).firstFrame_lt
  omega

/-- `build_raw_f0`: the raw F0 spool and `maximum_input_samples`. -/
def buildRawF0 (filtered : RawFloatSpool α) (sourceSamples pad contextSamples : ℕ)
    (infer : List α → List α) : CheckpointM α (RawFloatSpool α × ℕ) :=
  match checkedAdd sourceSamples (u64 (2 * pad)) with
  | none => throw (.failed "F0 virtual input length overflow")
  | some virtualSamples => do
    let s ← buildRawF0Loop filtered sourceSamples pad contextSamples virtualSamples infer
      f0Start
    if s.rawF0.sampleCount = totalFrames virtualSamples then
      return (s.rawF0, s.maximumInputSamples)
    else throw (.failed "raw F0 spool length mismatch")

/-- Without a checkpoint a window is computed and its frames join the spool. -/
theorem exec_f0Block_none {filtered : RawFloatSpool α} {sourceSamples pad : ℕ}
    {infer : List α → List α} {plan : F0WindowPlan} {rawF0 rawF0' : RawFloatSpool α} {crop : List α}
    (hcrop : f0Window filtered sourceSamples pad infer plan = .ok crop)
    (happend : rawF0.append crop = some rawF0') :
    exec (f0Block filtered sourceSamples pad infer plan rawF0) none = (.ok rawF0', none) := by
  exact exec_cachedBlock_none (f0Compute_eq_ok.mpr ⟨crop, hcrop, happend, rfl⟩)

section Drives

variable (filtered : RawFloatSpool α) (sourceSamples pad contextSamples virtualSamples : ℕ)
  (infer : List α → List α)

/-- One iteration behind the plan of its window. -/
def f0Step (s : F0State α) (plan : F0WindowPlan) : CheckpointM α (F0State α) := do
  let rawF0 ← f0Block filtered sourceSamples pad infer plan s.rawF0
  return { firstFrame := plan.endFrame, rawF0
           maximumInputSamples := max s.maximumInputSamples plan.inputSamples }

/-- The loop over windows runs the jobs of `f0Loop`. -/
theorem buildRawF0Loop_drives :
    Drives (f0Loop filtered sourceSamples pad contextSamples virtualSamples infer)
      (f0Step filtered sourceSamples pad infer)
      (buildRawF0Loop filtered sourceSamples pad contextSamples virtualSamples infer) where
  unfold s := by
    rw [buildRawF0Loop]
    by_cases hlt : s.firstFrame < totalFrames virtualSamples
    · simp only [f0Loop, if_pos hlt]
      split
      · rename_i hplan
        simp only [hplan]
      · rename_i plan hplan
        simp only [hplan]
        rcases checkF0Plan contextSamples plan with message | _
        · rfl
        · simp only [Except.map, f0Step, bind_assoc, pure_bind]
          rfl
    · simp only [f0Loop, if_neg hlt]
  decreasing := by
    refine ⟨fun s => totalFrames virtualSamples - s.firstFrame, ?_⟩
    intro s plan crop t hnext hadvance
    obtain ⟨hlt, hplan, -⟩ := f0Loop_next hnext
    obtain ⟨rawF0, -, rfl⟩ := f0Loop_advance.mp hadvance
    have hlater := (planF0Window_spec hplan).firstFrame_lt
    simp only
    omega
  compute s plan crop t _ hcompute hadvance := by
    obtain ⟨rawF0, happend, rfl⟩ := f0Loop_advance.mp hadvance
    rw [f0Step, exec_bind_of_ok (exec_f0Block_none hcompute happend), exec_pure]
  cache s plan c hnext := by
    refine blockTriple_cachedBlock _ hnext rfl ?_ ?_ c
    · intro _ crop rawF0 htake
      exact f0Loop_advance.mpr ⟨rawF0, appendOr_eq_ok.mp htake, rfl⟩
    · intro committed rawF0 hcompute
      obtain ⟨crop, hwindow, happend, rfl⟩ := f0Compute_eq_ok.mp hcompute
      exact ⟨crop, rfl, hwindow, f0Loop_advance.mpr ⟨rawF0, happend, rfl⟩⟩

end Drives

/-! ### Windowed extraction equals whole-clip extraction -/

section Whole

variable [Inhabited α] {filtered : RawFloatSpool α} {pad contextSamples : ℕ}
  {infer infer' : List α → List α}

/-- An extractor that is local on the signal `v`: a window `[s, e)` on the lattice gives one frame
per 160 samples, and a frame with the whole context inside the window, up to the true ends of the
signal, is the frame of the whole signal. -/
structure LocalExtractor (infer : List α → List α) (v : List α) (contextSamples : ℕ) : Prop where
  finite : ∀ s e, ∀ x ∈ infer (slice v s e), Sample.isFinite x = true
  length : ∀ s e, kPitchHop ∣ s → s < e → e ≤ v.length →
    (infer (slice v s e)).length = (e - s) / kPitchHop + 1
  frame : ∀ s e f, kPitchHop ∣ s → s < e → e ≤ v.length →
    s / kPitchHop ≤ f → f ≤ s / kPitchHop + (e - s) / kPitchHop →
    (s = 0 ∨ s + contextSamples ≤ kPitchHop * f) →
    (e = v.length ∨ kPitchHop * f + contextSamples ≤ e) →
    (infer (slice v s e))[f - s / kPitchHop]? = (infer v)[f]?

omit [BlockDigest α] [DecidableEq α] in
theorem LocalExtractor.length_whole
    (h : LocalExtractor infer (reflectPad filtered.samples pad) contextSamples)
    (hn : 2 ≤ filtered.samples.length) (hpad : pad < filtered.samples.length) :
    (infer (reflectPad filtered.samples pad)).length =
      totalFrames (filtered.samples.length + 2 * pad) := by
  have hlen := length_reflectPad hn hpad
  have hwhole := h.length 0 _ ⟨0, rfl⟩ (by omega) (Nat.le_refl _)
  rw [slice_zero_length, Nat.sub_zero, hlen] at hwhole
  exact hwhole

omit [BlockDigest α] [DecidableEq α] in
/-- The frames that a window keeps are the frames of its core in the whole clip. The extractor is
asked for this window only, so that it may do anything on longer ones. -/
theorem f0Window_eq_slice (hn : 2 ≤ filtered.samples.length) (hpad : pad < filtered.samples.length)
    (hlocal : LocalExtractor infer (reflectPad filtered.samples pad) contextSamples)
    {firstFrame : ℕ} {plan : F0WindowPlan}
    (hvalid : plan.Valid (filtered.samples.length + 2 * pad) firstFrame contextSamples)
    (hagree : ∀ w, w.length ≤ plan.inputSamples → infer' w = infer w) :
    f0Window filtered filtered.samples.length pad infer' plan =
      .ok (slice (infer (reflectPad filtered.samples pad)) firstFrame plan.endFrame) := by
  obtain ⟨-, hend, hcount, hlt, hdvd, hstart, hle, hleft, hright, hcrop, hinput, hexpected, hcrop_le,
    -⟩ := hvalid
  have hv := length_reflectPad hn hpad
  have hwhole := hlocal.length_whole hn hpad
  have hwindow : (slice (reflectPad filtered.samples pad) plan.inputStart
      (plan.inputStart + plan.inputSamples)).length = plan.inputSamples := by
    rw [length_slice (by omega)]
    omega
  have hlocalLength : (infer (slice (reflectPad filtered.samples pad) plan.inputStart
      (plan.inputStart + plan.inputSamples))).length = plan.expectedLocalFrames := by
    rw [hlocal.length _ _ hdvd hstart (by omega), hexpected]
    congr 2
    omega
  rw [f0Window, readReflected_eq_slice hn hpad hle]
  change (if (infer' _).length ≠ _ then _ else _) = _
  rw [hagree _ (by omega), if_neg (by omega)]
  rw [if_neg (by omega)]
  refine congrArg Except.ok (eq_slice_of_getElem? ?_ ?_)
  · rw [length_slice (by omega)]
    omega
  · intro i hi
    rw [getElem?_slice, if_pos (by omega)]
    obtain ⟨c, hc⟩ := hdvd
    have hindex : plan.cropFirstFrame + i = firstFrame + i - plan.inputStart / kPitchHop := by
      simp only [kPitchHop] at *
      omega
    rw [hindex]
    simp only [kPitchHop] at *
    apply hlocal.frame _ _ _ ⟨c, hc⟩ hstart (by omega) <;> simp only [kPitchHop] <;> omega

/-- From every frame of the clip on, the loop appends the remaining frames of the whole clip. -/
theorem buildRawF0Loop_eq_whole (hn : 2 ≤ filtered.samples.length)
    (hpad : pad < filtered.samples.length) (hcontext : 0 < contextSamples)
    (hdvd : kPitchHop ∣ contextSamples) (hbound : kF0CoreSamples + 2 * contextSamples < 2 ^ 31)
    (hlocal : LocalExtractor infer (reflectPad filtered.samples pad) contextSamples)
    (hagree : ∀ w, w.length ≤ kF0CoreSamples + 2 * contextSamples → infer' w = infer w)
    (s : F0State α) (hfirst : s.firstFrame ≤ totalFrames (filtered.samples.length + 2 * pad))
    (hraw : s.rawF0.samples = slice (infer (reflectPad filtered.samples pad)) 0 s.firstFrame)
    (hmax : s.maximumInputSamples ≤ kF0CoreSamples + 2 * contextSamples) :
    ∃ t, exec (buildRawF0Loop filtered filtered.samples.length pad contextSamples
        (filtered.samples.length + 2 * pad) infer' s) none = (.ok t, none) ∧
      t.rawF0.samples = infer (reflectPad filtered.samples pad) ∧
      t.maximumInputSamples ≤ kF0CoreSamples + 2 * contextSamples := by
  have hlen := filtered.length_le
  have hwhole := hlocal.length_whole hn hpad
  induction hd : totalFrames (filtered.samples.length + 2 * pad) - s.firstFrame
    using Nat.strongRecOn generalizing s with
  | ind d ih =>
    rw [buildRawF0Loop]
    by_cases hlt : s.firstFrame < totalFrames (filtered.samples.length + 2 * pad)
    · rw [if_pos hlt]
      obtain ⟨plan, hplan⟩ :=
        planF0Window_isSome (by omega) (by omega) hcontext hdvd hbound hlt
      have hvalid := planF0Window_spec hplan
      have hinput : plan.inputSamples ≤ kF0CoreSamples + 2 * contextSamples := by
        have hle := hvalid.inputSamples_le
        rwa [u64_of_lt (n := 2 * contextSamples) (by omega), u64_of_lt (by omega)] at hle
      have hcheck : checkF0Plan contextSamples plan = .ok () := by
        rw [checkF0Plan, if_neg (Nat.not_lt.mpr hvalid.inputSamples_le),
          narrowSize_of_lt (by omega), narrowInt_of_lt (by omega)]
      have hwindow := f0Window_eq_slice hn hpad hlocal hvalid
        (fun w hw => hagree w (hw.trans hinput))
      have hend := hvalid.endFrame_eq
      have hstart := hvalid.firstFrame_lt
      obtain ⟨rawF0, happend, hsamples⟩ := s.rawF0.append_of_finite
        (slice (infer (reflectPad filtered.samples pad)) s.firstFrame plan.endFrame)
        (by
          intro x hx
          have hmem := mem_of_mem_slice hx
          rw [← slice_zero_length (reflectPad filtered.samples pad)] at hmem
          exact hlocal.finite 0 _ x hmem)
        (by
          rw [hraw, length_slice (by omega), length_slice (by omega)]
          simp only [offMax, totalFrames, kPitchHop] at *
          omega)
      split
      · rename_i hnone
        rw [hnone] at hplan
        cases hplan
      · rename_i plan' hplan'
        rw [hplan] at hplan'
        cases hplan'
        have hblock := exec_f0Block_none hwindow happend
        simp only [hcheck, CheckpointM.ofExcept, exec_bind, exec_pure, hblock]
        refine ih _ ?_ _ ?_ ?_ ?_ rfl
        · simp only
          omega
        · simp only
          omega
        · simp only [hsamples, hraw]
          exact slice_append_slice _ (Nat.zero_le _) hstart.le
        · exact max_le hmax hinput
    · rw [if_neg hlt]
      have hall : s.firstFrame = (infer (reflectPad filtered.samples pad)).length := by omega
      exact ⟨s, rfl, by rw [hraw, hall, slice_zero_length], hmax⟩

/-- **Windowed extraction equals whole-clip extraction.** For every source of at least two samples,
every reflection pad shorter than it and every context on the lattice, raw F0 extraction with a
local extractor returns, its windows have at most `kF0CoreSamples + 2 * contextSamples` samples, and
its spool holds exactly the frames of the extractor on the whole reflected clip. No longer window is
ever requested: the run is the same with every extractor `infer'` that agrees on windows of that
size. -/
theorem buildRawF0_eq_whole (filtered : RawFloatSpool α) (pad contextSamples : ℕ)
    (infer infer' : List α → List α) (hn : 2 ≤ filtered.samples.length)
    (hpad : pad < filtered.samples.length) (hcontext : 0 < contextSamples)
    (hdvd : kPitchHop ∣ contextSamples) (hbound : kF0CoreSamples + 2 * contextSamples < 2 ^ 31)
    (hlocal : LocalExtractor infer (reflectPad filtered.samples pad) contextSamples)
    (hagree : ∀ w, w.length ≤ kF0CoreSamples + 2 * contextSamples → infer' w = infer w) :
    ∃ rawF0 maximum,
      exec (buildRawF0 filtered filtered.samples.length pad contextSamples infer') none =
        (.ok (rawF0, maximum), none) ∧
      rawF0.samples = infer (reflectPad filtered.samples pad) ∧
      maximum ≤ kF0CoreSamples + 2 * contextSamples := by
  have hlen := filtered.length_le
  obtain ⟨t, ht, hsamples, hmax⟩ := buildRawF0Loop_eq_whole hn hpad hcontext hdvd hbound hlocal
    hagree f0Start (Nat.zero_le _)
    (slice_self _ _).symm (Nat.zero_le _)
  have hcount : t.rawF0.sampleCount = totalFrames (filtered.samples.length + 2 * pad) := by
    rw [RawSampleSpool.sampleCount, hsamples, hlocal.length_whole hn hpad]
  refine ⟨t.rawF0, t.maximumInputSamples, ?_, hsamples, hmax⟩
  rw [buildRawF0, u64_of_lt (by omega), checkedAdd_of_lt (by omega)]
  simp only [exec_bind, ht]
  rw [if_pos hcount, exec_pure]

end Whole

/-! ### A local extractor -/

/-- The extractor that returns the sample at every hop. -/
def hopSamples (w : List ℤ) : List ℤ :=
  (List.range (w.length / kPitchHop + 1)).map fun f => w.getD (kPitchHop * f) 0

theorem hopSamples_local (v : List ℤ) {contextSamples : ℕ} (h : 0 < contextSamples) :
    LocalExtractor hopSamples v contextSamples where
  finite _ _ _ _ := rfl
  length s e hdvd hlt he := by
    rw [hopSamples, List.length_map, List.length_range, length_slice he]
  frame s e f hdvd hlt he hfirst hlast hleft hright := by
    obtain ⟨c, rfl⟩ := hdvd
    have hlen := length_slice (s := kPitchHop * c) he
    simp only [kPitchHop] at *
    rw [Nat.mul_div_cancel_left c (by omega)] at *
    simp only [hopSamples, hlen, List.getElem?_map, kPitchHop]
    rw [List.getElem?_range (by omega), List.getElem?_range (by omega), Option.map_some,
      Option.map_some, List.getD_eq_getElem?_getD, List.getD_eq_getElem?_getD, getElem?_slice]
    have hindex : 160 * c + 160 * (f - c) = 160 * f := by omega
    rw [hindex]
    by_cases hinside : 160 * f < e
    · rw [if_pos hinside]
    · rw [if_neg hinside, List.getElem?_eq_none (by omega)]

/-- A rising clip of three windows. -/
def risingClip : RawFloatSpool ℤ where
  samples := (List.range 300000).map fun k : ℕ => (k : ℤ)
  finite := fun _ _ => rfl
  bounded := by
    rw [List.length_map, List.length_range]
    decide

theorem buildRawF0_eq_whole_hopSamples :
    ∃ rawF0 maximum,
      exec (buildRawF0 risingClip 300000 1000 160 hopSamples) none =
        (.ok (rawF0, maximum), none) ∧
      rawF0.samples = hopSamples (reflectPad risingClip.samples 1000) ∧
      rawF0.samples.length = 1888 ∧ maximum ≤ kF0CoreSamples + 2 * 160 := by
  have hlength : risingClip.samples.length = 300000 := by
    rw [risingClip, List.length_map, List.length_range]
  obtain ⟨rawF0, maximum, hrun, hsamples, hmaximum⟩ :=
    buildRawF0_eq_whole risingClip 1000 160 hopSamples hopSamples (by rw [hlength]; decide)
      (by rw [hlength]; decide) (by decide) ⟨1, rfl⟩ (by decide)
      (hopSamples_local _ (by decide)) fun _ _ => rfl
  rw [hlength] at hrun
  refine ⟨rawF0, maximum, hrun, hsamples, ?_, hmaximum⟩
  rw [hsamples, hopSamples, List.length_map, List.length_range,
    length_reflectPad (by rw [hlength]; decide) (by rw [hlength]; decide), hlength]
  rfl

end Resonantia.Pipeline
