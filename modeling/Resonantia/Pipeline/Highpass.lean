import Mathlib.Data.List.GetD
import Mathlib.Data.Rat.Defs
import Resonantia.Pipeline.SpoolLoops
import Resonantia.Pipeline.Stitching

/-!
# The zero-phase high-pass

The legacy pipeline extends the whole signal by odd reflection, filters it, reverses it, filters it
again and reverses it back. `build_filtered_source` carries the state of the filter over the blocks
of spools: a forward spool, a backward spool that is written from the end of the forward one, and
the filtered spool that is written from the end of the backward one.

The arithmetic is that of a carrier of doubles, with conversions from and to the samples, and every
operation is where the source has it. At the start the legacy filter leaves out the terms in front of
the signal, where the bounded one has terms of zeros.

## Main definitions

* `Pipeline.highpassFiltfilt`: `highpass_filtfilt`.
* `Pipeline.IirState`, `Pipeline.buildFilteredSource`: the bounded functions.
* `Pipeline.Precision.ZeroTerms`: terms of zeros change nothing.
* `Pipeline.FiniteFiltfilt`: all values of the filter are finite.

## Main results

* `Pipeline.run_eq_iir`: the state of the filter stands for the samples before.
* `Pipeline.buildFilteredSource_eq_highpassFiltfilt`: both produce the same samples.
-/

namespace Resonantia.Pipeline

open Slices Io BlockLoop

/-- A carrier of doubles over a type of samples: literals and conversions. -/
structure Precision (F D : Type) where
  literal : ℚ → D
  widen : F → D
  narrow : D → F

/-- `kHighpassB`, the same numbers in both functions. -/
def kHighpassB : List ℚ :=
  [9.6996064518e-01, -4.8498032259e+00, 9.6996064518e+00,
    -9.6996064518e+00, 4.8498032259e+00, -9.6996064518e-01]

/-- `kHighpassA`, the same numbers in both functions. -/
def kHighpassA : List ℚ :=
  [1.0, -4.9390018192e+00, 9.7578635267e+00,
    -9.6395448494e+00, 4.7615067974e+00, -9.4082365321e-01]

/-- `kFilterOrder`. -/
def kFilterOrder : ℕ := 5

variable {F D : Type} [Add D] [Sub D] [Mul D] (p : Precision F D)

namespace Precision

/-- A coefficient of the input. -/
def b (j : ℕ) : D := p.literal (kHighpassB.getD j 0)

/-- A coefficient of the output. -/
def a (j : ℕ) : D := p.literal (kHighpassA.getD j 0)

/-- The term of the order `j`. -/
def term (j : ℕ) (input output : D) : D := p.b j * input - p.a j * output

/-- The sample of an odd reflection at `edge`. -/
def oddReflection (edge x : F) : D := p.literal 2 * p.widen edge - p.widen x

end Precision

/-! ### The legacy function -/

/-- A step of `iir`: the output sample `i`. -/
def iirStep (input out : List D) (i : ℕ) : List D :=
  let zero := p.literal 0
  let acc := (List.range' 1 5).foldl
    (fun acc j =>
      if j ≤ i then acc + p.term j (input.getD (i - j) zero) (out.getD (i - j) zero) else acc)
    (p.b 0 * input.getD i zero)
  out.set i acc

/-- `iir`. -/
def iir (input : List D) : List D :=
  (List.range input.length).foldl (iirStep p input) (List.replicate input.length (p.literal 0))

/-- The samples in front of the signal. -/
def reflectedStart [Inhabited F] (x : List F) : List D :=
  (List.range 18).map fun i => p.oddReflection (x.getD 0 default) (x.getD (18 - i) default)

/-- The samples behind the signal. -/
def reflectedEnd [Inhabited F] (x : List F) : List D :=
  (List.range 18).map fun i =>
    p.oddReflection (x.getD (x.length - 1) default) (x.getD (x.length - 2 - i) default)

/-- `ext`, the extended signal. -/
def oddExtension [Inhabited F] (x : List F) : List D :=
  reflectedStart p x ++ x.map p.widen ++ reflectedEnd p x

/-- `highpass_filtfilt`. -/
def highpassFiltfilt [Inhabited F] (x : List F) : List F :=
  let n := toInt x.length
  if n < 40 then x
  else
    let bwd := (iir p (iir p (oddExtension p x)).reverse).reverse
    (List.range n.toNat).map fun i => p.narrow (bwd.getD (18 + i) (p.literal 0))

/-! ### The bounded functions -/

/-- `IirState`. -/
structure IirState (D : Type) where
  inputHistory : List D
  outputHistory : List D

namespace IirState

/-- The histories of zeros. -/
def initial : IirState D where
  inputHistory := List.replicate kFilterOrder (p.literal 0)
  outputHistory := List.replicate kFilterOrder (p.literal 0)

/-- `IirState::process`. -/
def process (state : IirState D) (input : D) : D × IirState D :=
  let output := (List.range' 1 kFilterOrder).foldl
    (fun output order => output + p.term order
      (state.inputHistory.getD (order - 1) (p.literal 0))
      (state.outputHistory.getD (order - 1) (p.literal 0)))
    (p.b 0 * input)
  (output, {
    inputHistory := input :: state.inputHistory.take (kFilterOrder - 1)
    outputHistory := output :: state.outputHistory.take (kFilterOrder - 1) })

end IirState

/-! ### The state of the filter -/

namespace IirState

/-- The outputs over a signal. -/
def run (state : IirState D) : List D → List D
  | [] => []
  | x :: xs => (state.process p x).1 :: run (state.process p x).2 xs

/-- The state after a signal. -/
def after (state : IirState D) (xs : List D) : IirState D :=
  xs.foldl (fun state x => (state.process p x).2) state

@[simp] theorem length_run (state : IirState D) (xs : List D) :
    (state.run p xs).length = xs.length := by
  induction xs generalizing state with
  | nil => rfl
  | cons x xs ih => exact congrArg Nat.succ (ih _)

theorem run_append (state : IirState D) (xs ys : List D) :
    state.run p (xs ++ ys) = state.run p xs ++ (state.after p xs).run p ys := by
  induction xs generalizing state with
  | nil => rfl
  | cons x xs ih => exact congrArg _ (ih _)

theorem run_concat (state : IirState D) (xs : List D) (x : D) :
    state.run p (xs ++ [x]) = state.run p xs ++ [((state.after p xs).process p x).1] :=
  state.run_append p xs [x]

theorem after_concat (state : IirState D) (xs : List D) (x : D) :
    state.after p (xs ++ [x]) = ((state.after p xs).process p x).2 := by
  rw [after, List.foldl_append]
  rfl

/-- The histories hold the last five inputs and outputs, the newest first. -/
theorem after_initial (xs : List D) :
    ((initial p).after p xs).inputHistory =
        (xs.reverse ++ List.replicate 5 (p.literal 0)).take 5 ∧
      ((initial p).after p xs).outputHistory =
        (((initial p).run p xs).reverse ++ List.replicate 5 (p.literal 0)).take 5 := by
  induction xs using List.reverseRecOn with
  | nil => exact ⟨rfl, rfl⟩
  | append_singleton xs x ih =>
    rw [after_concat, run_concat, List.reverse_append, List.reverse_append]
    have hinputs : ((initial p).after p xs).inputHistory.take 4 =
        (xs.reverse ++ List.replicate 5 (p.literal 0)).take 4 := by
      rw [ih.1, List.take_take]
      rfl
    have houtputs : ((initial p).after p xs).outputHistory.take 4 =
        (((initial p).run p xs).reverse ++ List.replicate 5 (p.literal 0)).take 4 := by
      rw [ih.2, List.take_take]
      rfl
    exact ⟨congrArg (x :: ·) hinputs, congrArg (_ :: ·) houtputs⟩

end IirState

/-- A term of zeros, in front of the signal, changes no sum. -/
def Precision.ZeroTerms : Prop :=
  ∀ (x : D) (j : ℕ), 1 ≤ j → j ≤ 5 → x + p.term j (p.literal 0) (p.literal 0) = x

omit [Add D] [Sub D] [Mul D] in
theorem getD_history (z : D) (l : List D) {j : ℕ} (hj : 1 ≤ j) (hj' : j ≤ 5) :
    ((l.reverse ++ List.replicate 5 z).take 5).getD (j - 1) z =
      if j ≤ l.length then l.getD (l.length - j) z else z := by
  rw [List.getD_eq_getElem?_getD, List.getElem?_take, if_pos (by omega)]
  split
  · rename_i hle
    rw [List.getElem?_append_left (by rw [List.length_reverse]; omega),
      List.getElem?_reverse (by omega), List.getD_eq_getElem?_getD]
    congr 2
    omega
  · rename_i hgt
    rw [List.getElem?_append_right (by rw [List.length_reverse]; omega), List.getElem?_replicate]
    split <;> rfl

/-- The output behind a signal, from the samples before. -/
theorem process_after_initial (hzero : p.ZeroTerms) (xs : List D) (x : D) :
    (((IirState.initial p).after p xs).process p x).1 =
      (List.range' 1 5).foldl (fun acc j =>
        if j ≤ xs.length then
          acc + p.term j (xs.getD (xs.length - j) (p.literal 0))
            (((IirState.initial p).run p xs).getD (xs.length - j) (p.literal 0))
        else acc) (p.b 0 * x) := by
  obtain ⟨hinputs, houtputs⟩ := IirState.after_initial p xs
  refine List.foldl_ext _ _ _ fun acc j hj => ?_
  obtain ⟨hlower, hupper⟩ := List.mem_range'_1.1 hj
  have hj' : j ≤ 5 := Nat.le_of_lt_succ hupper
  rw [hinputs, houtputs, getD_history _ _ hlower hj', getD_history _ _ hlower hj',
    IirState.length_run]
  split
  · rfl
  · exact hzero acc j hlower hj'

/-- A step of `iir` appends the next output. -/
theorem iirStep_append_replicate (hzero : p.ZeroTerms) {xs : List D} {k : ℕ} (hk : k < xs.length) :
    iirStep p xs ((IirState.initial p).run p (xs.take k) ++
        List.replicate (xs.length - k) (p.literal 0)) k =
      (IirState.initial p).run p (xs.take (k + 1)) ++
        List.replicate (xs.length - (k + 1)) (p.literal 0) := by
  have htake : (xs.take k).length = k := List.length_take_of_le hk.le
  have hlength : ((IirState.initial p).run p (xs.take k)).length = k := by
    rw [IirState.length_run, htake]
  have hnext : xs.take (k + 1) = xs.take k ++ [xs.getD k (p.literal 0)] := by
    rw [List.take_succ_eq_append_getElem hk, List.getD_eq_getElem _ _ hk]
  have hrest : xs.length - k = xs.length - (k + 1) + 1 := by omega
  rw [hnext, IirState.run_concat, process_after_initial p hzero, htake, List.append_assoc, iirStep]
  rw [List.set_append_right _ _ hlength.le, hlength, Nat.sub_self, hrest, List.replicate_succ]
  refine congrArg (_ ++ · :: _) (List.foldl_ext _ _ _ fun acc j hj => ?_)
  have hlower := (List.mem_range'_1.1 hj).1
  split
  · have hlt : k - j < k := by omega
    have hinput : (xs.take k).getD (k - j) (p.literal 0) = xs.getD (k - j) (p.literal 0) := by
      rw [List.getD_eq_getElem?_getD, List.getElem?_take, if_pos hlt, List.getD_eq_getElem?_getD]
    rw [hinput, List.getD_append _ _ _ _ (hlt.trans_eq hlength.symm)]
  · rfl

theorem length_iir (xs : List D) : (iir p xs).length = xs.length := by
  have hfold (l : List ℕ) (out : List D) :
      (l.foldl (iirStep p xs) out).length = out.length := by
    induction l generalizing out with
    | nil => rfl
    | cons i l ih => exact (ih _).trans List.length_set
  rw [iir, hfold, List.length_replicate]

/-- **The state of the filter stands for the samples before.** -/
theorem run_eq_iir (hzero : p.ZeroTerms) (xs : List D) :
    (IirState.initial p).run p xs = iir p xs := by
  have hfirst (k : ℕ) (hk : k ≤ xs.length) :
      (List.range k).foldl (iirStep p xs) (List.replicate xs.length (p.literal 0)) =
        (IirState.initial p).run p (xs.take k) ++
          List.replicate (xs.length - k) (p.literal 0) := by
    induction k with
    | zero => rfl
    | succ k ih =>
      rw [List.range_succ, List.foldl_append, ih (by omega)]
      exact iirStep_append_replicate p hzero hk
  have hall := hfirst xs.length le_rfl
  rw [List.take_length, Nat.sub_self, List.replicate_zero, List.append_nil] at hall
  exact hall.symm

section Bounded

variable [Sample F] [Sample D]

/-- A filter that writes to a spool block by block. -/
structure FilterWriter (D : Type) [Sample D] where
  state : IirState D
  block : List D
  spool : RawSampleSpool 8 D

/-- The next output of a filter goes to the block, and a full block to the spool. -/
def FilterWriter.push (nonFinite append : String) (writer : FilterWriter D) (input : D) :
    Except String (FilterWriter D) := do
  let (output, state) := writer.state.process p input
  require (Sample.isFinite output = true) nonFinite
  let block := writer.block ++ [output]
  if block.length = kIoBlockSamples then do
    let spool ← appendSpool writer.spool block append
    return { state, block := [], spool }
  else return { state, block, spool := writer.spool }

/-- The rest of the last block. -/
def FilterWriter.flush (writer : FilterWriter D) (append : String) :
    Except String (RawSampleSpool 8 D) :=
  if writer.block ≠ [] then appendSpool writer.spool writer.block append else .ok writer.spool

/-- `push_forward`. -/
def pushForward (writer : FilterWriter D) (input : D) : Except String (FilterWriter D) :=
  writer.push p "high-pass forward pass failed" "high-pass forward pass failed" input

/-- A block of the source. -/
def forwardBlock (source : RawFloatSpool F) (offset count : ℕ) (writer : FilterWriter D) :
    Except String (FilterWriter D) := do
  let sourceBlock ← readSpool source offset count "high-pass source read failed"
  sourceBlock.foldlM (fun writer value => pushForward p writer (p.widen value)) writer

/-- A block of the forward spool, from its end. -/
def backwardBlock (forward : RawSampleSpool 8 D) (total done count : ℕ) (writer : FilterWriter D) :
    Except String (FilterWriter D) := do
  let remaining := total - done
  let inputBlock ← readSpool forward (remaining - count) count "high-pass reverse read failed"
  inputBlock.reverse.foldlM (fun writer value => writer.push p
    "high-pass reverse pass produced non-finite audio" "high-pass reverse spool append failed" value)
    writer

/-- The converted samples are checked and appended. -/
def appendConverted (converted : List F) (filtered : RawFloatSpool F) :
    Except String (RawFloatSpool F) := do
  require (∀ value ∈ converted, Sample.isFinite value = true) "high-pass output is not finite"
  appendSpool filtered converted "filtered-audio spool append failed"

/-- A block of the output. -/
def filteredBlock [Inhabited F] (backward : RawSampleSpool 8 D) (samples outputOffset count : ℕ)
    (filtered : RawFloatSpool F) : Except String (RawFloatSpool F) := do
  let highest := samples + 18 - 1 - outputOffset
  let lowest := highest - (count - 1)
  let reversed ← readSpool backward lowest count "high-pass output read failed"
  appendConverted ((List.range count).map fun index =>
    p.narrow (reversed.getD (count - 1 - index) (p.literal 0))) filtered

/-- The forward pass. -/
def forwardPass [Inhabited F] (source : RawFloatSpool F) (extendedSamples : ℕ) :
    Except String (RawSampleSpool 8 D) := do
  let samples := source.sampleCount
  let first ← readSpool source 0 (18 + 1) "failed to read high-pass reflection samples"
  let last ← readSpool source (samples - (18 + 1)) (18 + 1)
    "failed to read high-pass reflection samples"
  let writer ← (List.range 18).foldlM (fun writer index =>
      pushForward p writer
        (p.oddReflection (first.getD 0 default) (first.getD (18 - index) default)))
    { state := IirState.initial p, block := [], spool := .create }
  let writer ← overBlocks kIoBlockSamples samples (forwardBlock p source) 0 writer
  let writer ← (List.range 18).foldlM (fun writer index =>
      pushForward p writer
        (p.oddReflection (last.getD 18 default) (last.getD (18 - 1 - index) default))) writer
  let forward ← writer.flush "high-pass forward spool append failed"
  require (forward.sampleCount = extendedSamples) "high-pass forward length mismatch"
  return forward

/-- The backward pass. -/
def backwardPass (forward : RawSampleSpool 8 D) (extendedSamples : ℕ) :
    Except String (RawSampleSpool 8 D) := do
  let writer ← overBlocks kIoBlockSamples extendedSamples (backwardBlock p forward extendedSamples) 0
    { state := IirState.initial p, block := [], spool := .create }
  let backward ← writer.flush "high-pass reverse spool append failed"
  require (backward.sampleCount = extendedSamples) "high-pass reverse length mismatch"
  return backward

/-- `build_filtered_source`. -/
def buildFilteredSource [Inhabited F] (source : RawFloatSpool F) (applyHighpass : Bool) :
    Except String (RawFloatSpool F) :=
  let samples := source.sampleCount
  if applyHighpass = false ∨ samples < 40 then .ok source
  else do
    let extendedSamples ← orFail (checkedAdd samples (2 * 18)) "high-pass padded length overflow"
    let forward ← forwardPass p source extendedSamples
    let backward ← backwardPass p forward extendedSamples
    let filtered ← overBlocks kIoBlockSamples samples (filteredBlock p backward samples) 0 .create
    require (filtered.sampleCount = samples) "filtered-audio length mismatch"
    return filtered

end Bounded

/-! ### The writer -/

section Writer

variable [Sample D]

/-- A writer after the inputs `xs`. -/
structure FilterWriter.After (xs : List D) (writer : FilterWriter D) : Prop where
  state : writer.state = (IirState.initial p).after p xs
  samples : writer.spool.samples ++ writer.block = (IirState.initial p).run p xs
  finite : ∀ x ∈ writer.block, Sample.isFinite x = true

/-- An output over `xs` is not finite. -/
def NotFinite (xs : List D) : Prop :=
  ∃ y ∈ (IirState.initial p).run p xs, Sample.isFinite y = false

variable {p}

theorem NotFinite.append {xs : List D} (h : NotFinite p xs) (ys : List D) :
    NotFinite p (xs ++ ys) := by
  obtain ⟨y, hy, hnot⟩ := h
  refine ⟨y, ?_, hnot⟩
  rw [IirState.run_append]
  exact List.mem_append_left _ hy

/-- The step of a writer. -/
theorem outcome_push {xs : List D} {writer : FilterWriter D} (h : writer.After p xs)
    (nonFinite append : String) (x : D) (hbound : (xs.length + 1) * 8 ≤ offMax) :
    Outcome (FilterWriter.After p (xs ++ [x])) (fun _ => NotFinite p (xs ++ [x]))
      (writer.push p nonFinite append x) := by
  have hrun : (IirState.initial p).run p (xs ++ [x]) =
      (IirState.initial p).run p xs ++ [(writer.state.process p x).1] := by
    rw [IirState.run_concat, h.state]
  have hstate : (IirState.initial p).after p (xs ++ [x]) = (writer.state.process p x).2 := by
    rw [IirState.after_concat, h.state]
  rw [FilterWriter.push]
  rcases hprocess : writer.state.process p x with ⟨output, state⟩
  rw [hprocess] at hrun hstate
  change Outcome _ _ (require (Sample.isFinite output = true) nonFinite >>= fun _ => _)
  by_cases hfinite : Sample.isFinite output = true
  · have hblock (y : D) (hy : y ∈ writer.block ++ [output]) : Sample.isFinite y = true := by
      rcases List.mem_append.1 hy with hy | hy
      · exact h.finite y hy
      · exact List.mem_singleton.1 hy ▸ hfinite
    rw [require, if_pos hfinite]
    change Outcome _ _ (if _ then _ else _)
    split
    · have hlength : (writer.spool.samples.length + (writer.block ++ [output]).length) * 8 ≤
          offMax := by
        have hsamples := congrArg List.length h.samples
        rw [List.length_append, IirState.length_run] at hsamples
        rw [List.length_append, List.length_singleton, ← Nat.add_assoc, hsamples]
        exact hbound
      obtain ⟨spool, happend, hsamples⟩ :=
        RawSampleSpool.append_of_finite writer.spool _ hblock hlength
      rw [appendSpool_eq_ok.2 happend]
      refine ⟨hstate.symm, ?_, fun y hy => absurd hy List.not_mem_nil⟩
      rw [List.append_nil, hsamples, ← List.append_assoc, h.samples, hrun]
    · refine ⟨hstate.symm, ?_, hblock⟩
      rw [← List.append_assoc, h.samples, hrun]
  · rw [require, if_neg hfinite]
    exact ⟨output, hrun ▸ List.mem_append_right _ (List.mem_singleton.2 rfl),
      Bool.eq_false_of_not_eq_true hfinite⟩

/-- The run of a writer. -/
theorem outcome_foldlM_push {xs ys : List D} {writer : FilterWriter D} (h : writer.After p xs)
    (nonFinite append : String) (hbound : (xs.length + ys.length) * 8 ≤ offMax) :
    Outcome (FilterWriter.After p (xs ++ ys)) (fun _ => NotFinite p (xs ++ ys))
      (ys.foldlM (fun writer x => writer.push p nonFinite append x) writer) := by
  induction ys generalizing xs writer with
  | nil =>
    rw [List.append_nil]
    exact h
  | cons y ys ih =>
    rw [List.length_cons] at hbound
    have hsplit : xs ++ y :: ys = (xs ++ [y]) ++ ys := (List.append_assoc xs [y] ys).symm
    rw [List.foldlM_cons, hsplit]
    refine outcome_bind (outcome_conseq (outcome_push h nonFinite append y (by omega))
      (fun _ h => h) fun _ h => h.append ys) fun next hnext => ih hnext ?_
    rw [List.length_append, List.length_singleton]
    omega

/-- The run of a writer over a list that is converted. -/
theorem outcome_foldlM_map {β : Type} {xs : List D} {writer : FilterWriter D}
    (h : writer.After p xs) (nonFinite append : String) (f : β → D) (l : List β)
    (hbound : (xs.length + l.length) * 8 ≤ offMax) :
    Outcome (FilterWriter.After p (xs ++ l.map f)) (fun _ => NotFinite p (xs ++ l.map f))
      (l.foldlM (fun writer y => writer.push p nonFinite append (f y)) writer) := by
  have hmap : (xs.length + (l.map f).length) * 8 ≤ offMax := by
    rw [List.length_map]
    exact hbound
  have hrun := outcome_foldlM_push h nonFinite append hmap
  rw [List.foldlM_map] at hrun
  exact hrun

/-- The spool of a writer that is flushed. -/
theorem exists_flush {xs : List D} {writer : FilterWriter D} (h : writer.After p xs)
    (append : String) (hbound : xs.length * 8 ≤ offMax) :
    ∃ spool, writer.flush append = .ok spool ∧ spool.samples = (IirState.initial p).run p xs := by
  have hlength := congrArg List.length h.samples
  rw [List.length_append, IirState.length_run] at hlength
  obtain ⟨spool, happend, hsamples⟩ := RawSampleSpool.append_of_finite writer.spool writer.block
    h.finite (hlength ▸ hbound)
  rw [FilterWriter.flush]
  split
  · exact ⟨spool, appendSpool_eq_ok.2 happend, hsamples.trans h.samples⟩
  · rename_i hempty
    refine ⟨writer.spool, rfl, ?_⟩
    rw [← h.samples, not_not.1 hempty, List.append_nil]

/-- A pass ends with the length that is expected. -/
theorem outcome_flushed {E : String → Prop} {xs : List D} {writer : FilterWriter D}
    (h : writer.After p xs) (append mismatch : String) {n : ℕ} (hn : xs.length = n)
    (hbound : xs.length * 8 ≤ offMax) :
    Outcome (fun spool : RawSampleSpool 8 D => spool.samples = (IirState.initial p).run p xs) E
      (writer.flush append >>= fun spool =>
        require (spool.sampleCount = n) mismatch >>= fun _ => pure spool) := by
  obtain ⟨spool, hflush, hsamples⟩ := exists_flush h append hbound
  have hcount : spool.sampleCount = n := by
    rw [RawSampleSpool.sampleCount, hsamples, IirState.length_run, hn]
  rw [hflush]
  change Outcome _ _ (require (spool.sampleCount = n) mismatch >>= fun _ => _)
  rw [require, if_pos hcount]
  exact hsamples

end Writer

/-! ### The passes -/

section Passes

variable [Sample F] [Sample D] [Inhabited F] {p}

omit [Add D] [Sample F] [Sample D] in
theorem length_oddExtension (x : List F) : (oddExtension p x).length = x.length + 36 := by
  simp only [oddExtension, reflectedStart, reflectedEnd, List.length_append, List.length_map,
    List.length_range]
  omega

omit [Add D] [Sample F] [Sample D] in
/-- The start is reflected from the first samples. -/
theorem reflectedStart_slice (x : List F) :
    (List.range 18).map (fun i => p.oddReflection ((slice x 0 19).getD 0 default)
      ((slice x 0 19).getD (18 - i) default)) = reflectedStart p x := by
  refine List.map_congr_left fun i _ => ?_
  rw [getD_slice _ _ (by omega), getD_slice _ _ (by omega), Nat.zero_add, Nat.zero_add]

omit [Add D] [Sample F] [Sample D] in
/-- The end is reflected from the last samples. -/
theorem reflectedEnd_slice {x : List F} (h : 19 ≤ x.length) :
    (List.range 18).map (fun i => p.oddReflection
      ((slice x (x.length - 19) (x.length - 19 + 19)).getD 18 default)
      ((slice x (x.length - 19) (x.length - 19 + 19)).getD (18 - 1 - i) default)) =
        reflectedEnd p x := by
  refine List.map_congr_left fun i hi => ?_
  have hi := List.mem_range.1 hi
  have hedge : x.length - 19 + 18 = x.length - 1 := by omega
  have hinner : x.length - 19 + (18 - 1 - i) = x.length - 2 - i := by omega
  rw [getD_slice _ _ (by omega), getD_slice _ _ (by omega), hedge, hinner]

omit [Inhabited F] in
/-- The blocks of the source. -/
theorem outcome_forwardBlocks {source : RawFloatSpool F} {xs : List D} {writer : FilterWriter D}
    (h : writer.After p xs) (hbound : (xs.length + source.samples.length) * 8 ≤ offMax) :
    Outcome (FilterWriter.After p (xs ++ source.samples.map p.widen))
      (fun _ => NotFinite p (xs ++ source.samples.map p.widen))
      (overBlocks kIoBlockSamples source.sampleCount (forwardBlock p source) 0 writer) := by
  have hfull : slice source.samples 0 source.samples.length = source.samples :=
    slice_zero_length source.samples
  rw [← hfull]
  refine overBlocks_outcome
    (fun offset => FilterWriter.After p (xs ++ (slice source.samples 0 offset).map p.widen))
    (show 0 < kIoBlockSamples by decide) ?_ (Nat.zero_le _) ?_
  · rw [hfull]
    intro offset count writer _ _ hle hwriter
    rw [forwardBlock, readSpool_of_le _ (by decide) hle]
    change Outcome _ _ ((slice source.samples offset (offset + count)).foldlM _ writer)
    have hsplit : xs ++ (slice source.samples 0 (offset + count)).map p.widen =
        (xs ++ (slice source.samples 0 offset).map p.widen) ++
          (slice source.samples offset (offset + count)).map p.widen := by
      rw [← slice_append_slice source.samples (Nat.zero_le offset) (Nat.le_add_right _ count),
        List.map_append, List.append_assoc]
    have hrest : xs ++ source.samples.map p.widen =
        (xs ++ (slice source.samples 0 (offset + count)).map p.widen) ++
          (slice source.samples (offset + count) source.samples.length).map p.widen := by
      rw [List.append_assoc, ← List.map_append, slice_append_slice _ (Nat.zero_le _) hle,
        slice_zero_length]
    rw [hsplit, hrest, hsplit]
    refine outcome_conseq (outcome_foldlM_map hwriter _ _ p.widen _ ?_) (fun _ h => h)
      fun _ h => h.append _
    rw [List.length_append, List.length_map, length_slice (by omega), length_slice hle]
    omega
  · rw [slice_self, List.map_nil, List.append_nil]
    exact h

/-- The forward spool holds the filtered extension. -/
theorem outcome_forwardPass {source : RawFloatSpool F} (hlower : 40 ≤ source.samples.length)
    (hupper : source.samples.length + 36 ≤ intMax) :
    Outcome
      (fun forward : RawSampleSpool 8 D => forward.samples =
        (IirState.initial p).run p (oddExtension p source.samples))
      (fun _ => NotFinite p (oddExtension p source.samples))
      (forwardPass p source (source.samples.length + 36)) := by
  have hbound : (source.samples.length + 36) * 8 ≤ offMax := by
    rw [intMax] at hupper
    rw [offMax]
    omega
  have hfirst : readSpool source 0 (18 + 1) "failed to read high-pass reflection samples" =
      .ok (slice source.samples 0 19) :=
    readSpool_of_le _ (by decide) (by omega)
  have hlast : readSpool source (source.samples.length - (18 + 1)) (18 + 1)
      "failed to read high-pass reflection samples" =
        .ok (slice source.samples (source.samples.length - 19)
          (source.samples.length - 19 + 19)) :=
    readSpool_of_le _ (by decide) (by omega)
  have hcount : 18 + source.samples.length + 18 = source.samples.length + 36 := by omega
  have hstart : (reflectedStart p source.samples).length = 18 := by
    rw [reflectedStart, List.length_map, List.length_range]
  have hinitial : FilterWriter.After p [] (⟨IirState.initial p, [], .create⟩ : FilterWriter D) :=
    ⟨rfl, rfl, fun y hy => absurd hy List.not_mem_nil⟩
  rw [forwardPass]
  dsimp only [RawSampleSpool.sampleCount]
  rw [hfirst, hlast, oddExtension]
  change Outcome _ _ ((List.range 18).foldlM _ _ >>= fun _ => _)
  have hpushStart := outcome_foldlM_map hinitial "high-pass forward pass failed"
    "high-pass forward pass failed" (fun i => p.oddReflection
      ((slice source.samples 0 19).getD 0 default)
      ((slice source.samples 0 19).getD (18 - i) default)) (List.range 18) (by
        rw [List.length_range]
        exact show (0 + 18) * 8 ≤ offMax by decide)
  rw [reflectedStart_slice, List.nil_append] at hpushStart
  refine outcome_bind (outcome_conseq hpushStart (fun _ h => h) fun _ h =>
    (h.append (source.samples.map p.widen)).append (reflectedEnd p source.samples))
    fun writer hwriter => ?_
  refine outcome_bind (outcome_conseq (outcome_forwardBlocks hwriter (by omega)) (fun _ h => h)
    fun _ h => h.append (reflectedEnd p source.samples)) fun writer hwriter => ?_
  have hpushEnd := outcome_foldlM_map hwriter "high-pass forward pass failed"
    "high-pass forward pass failed" (fun i => p.oddReflection
      ((slice source.samples (source.samples.length - 19)
        (source.samples.length - 19 + 19)).getD 18 default)
      ((slice source.samples (source.samples.length - 19)
        (source.samples.length - 19 + 19)).getD (18 - 1 - i) default)) (List.range 18) (by
          rw [List.length_append, List.length_map, List.length_range, hstart, hcount]
          exact hbound)
  rw [reflectedEnd_slice (by omega)] at hpushEnd
  refine outcome_bind hpushEnd fun writer hwriter => ?_
  refine outcome_flushed hwriter _ _ ?_ ?_
  · exact length_oddExtension source.samples
  · rw [← oddExtension, length_oddExtension]
    exact hbound

omit [Sample F] [Inhabited F] in
/-- The backward spool holds the filtered reversal of the forward one. -/
theorem outcome_backwardPass (forward : RawSampleSpool 8 D) :
    Outcome
      (fun backward : RawSampleSpool 8 D => backward.samples =
        (IirState.initial p).run p forward.samples.reverse)
      (fun _ => NotFinite p forward.samples.reverse)
      (backwardPass p forward forward.samples.length) := by
  have hbound := forward.bounded
  have hinitial : FilterWriter.After p
      (slice forward.samples (forward.samples.length - 0) forward.samples.length).reverse
      (⟨IirState.initial p, [], .create⟩ : FilterWriter D) := by
    rw [Nat.sub_zero, slice_self]
    exact ⟨rfl, rfl, fun y hy => absurd hy List.not_mem_nil⟩
  have hloop : Outcome (FilterWriter.After p (slice forward.samples
      (forward.samples.length - forward.samples.length) forward.samples.length).reverse)
      (fun _ => NotFinite p forward.samples.reverse)
      (overBlocks kIoBlockSamples forward.samples.length
        (backwardBlock p forward forward.samples.length) 0
        ⟨IirState.initial p, [], .create⟩) := by
    refine overBlocks_outcome (fun done => FilterWriter.After p
      (slice forward.samples (forward.samples.length - done) forward.samples.length).reverse)
      (show 0 < kIoBlockSamples by decide) ?_ (Nat.zero_le _) hinitial
    intro done count writer _ _ hle hwriter
    have hrange : forward.samples.length - done - count + count =
        forward.samples.length - done := by omega
    have hread : readSpool forward (forward.samples.length - done - count) count
        "high-pass reverse read failed" = .ok (slice forward.samples
          (forward.samples.length - done - count)
          (forward.samples.length - done - count + count)) :=
      readSpool_of_le _ (by decide) (by omega)
    rw [backwardBlock, hread, hrange, Nat.sub_sub]
    change Outcome _ _ (List.foldlM _ writer (slice forward.samples _ _).reverse)
    have hsplit :
        (slice forward.samples (forward.samples.length - (done + count))
          forward.samples.length).reverse =
        (slice forward.samples (forward.samples.length - done) forward.samples.length).reverse ++
          (slice forward.samples (forward.samples.length - (done + count))
            (forward.samples.length - done)).reverse := by
      rw [← List.reverse_append, slice_append_slice _ (by omega) (by omega)]
    have hrest : forward.samples.reverse =
        (slice forward.samples (forward.samples.length - (done + count))
          forward.samples.length).reverse ++
          (slice forward.samples 0 (forward.samples.length - (done + count))).reverse := by
      rw [← List.reverse_append, slice_append_slice _ (by omega) (by omega), slice_zero_length]
    rw [hsplit, hrest, hsplit]
    refine outcome_conseq (outcome_foldlM_push hwriter _ _ ?_) (fun _ h => h)
      fun _ h => h.append _
    have hcount : (slice forward.samples (forward.samples.length - done)
          forward.samples.length).length +
        (slice forward.samples (forward.samples.length - (done + count))
          (forward.samples.length - done)).length = done + count := by
      rw [length_slice le_rfl, length_slice (Nat.sub_le _ _)]
      omega
    rw [List.length_reverse, List.length_reverse, hcount]
    exact (Nat.mul_le_mul_right 8 hle).trans hbound
  rw [Nat.sub_self, slice_zero_length] at hloop
  rw [backwardPass]
  refine outcome_bind hloop fun writer hwriter => ?_
  exact outcome_flushed hwriter _ _ List.length_reverse (by rwa [List.length_reverse])

omit [Add D] [Sub D] [Mul D] in
/-- The filtered spool holds the middle of the backward one, reversed and converted. -/
theorem outcome_filteredBlocks {backward : RawSampleSpool 8 D} {samples : ℕ}
    (hbackward : backward.samples.length = samples + 36) (hupper : samples * 4 ≤ offMax) :
    Outcome
      (fun filtered : RawFloatSpool F => filtered.samples = (List.range samples).map fun i =>
        p.narrow (backward.samples.getD (samples + 17 - i) (p.literal 0)))
      (fun _ => ∃ i < samples,
        Sample.isFinite (p.narrow (backward.samples.getD (samples + 17 - i) (p.literal 0))) = false)
      (overBlocks kIoBlockSamples samples (filteredBlock p backward samples) 0 .create) := by
  refine overBlocks_outcome (fun offset (filtered : RawFloatSpool F) =>
    filtered.samples = (List.range offset).map fun i =>
      p.narrow (backward.samples.getD (samples + 17 - i) (p.literal 0))) (by decide) ?_
    (Nat.zero_le _) rfl
  intro offset count filtered hpos _ hle hfiltered
  have hlowest : samples + 18 - 1 - offset - (count - 1) + count = samples + 18 - offset := by omega
  have hread : readSpool backward (samples + 18 - 1 - offset - (count - 1)) count
      "high-pass output read failed" = .ok (slice backward.samples
        (samples + 18 - 1 - offset - (count - 1))
        (samples + 18 - 1 - offset - (count - 1) + count)) :=
    readSpool_of_le _ (by decide) (by omega)
  have hconverted : (List.range count).map (fun index =>
      p.narrow ((slice backward.samples (samples + 18 - 1 - offset - (count - 1))
        (samples + 18 - 1 - offset - (count - 1) + count)).getD (count - 1 - index)
          (p.literal 0))) =
      (List.range' offset count).map fun i =>
        p.narrow (backward.samples.getD (samples + 17 - i) (p.literal 0)) := by
    rw [List.range'_eq_map_range, List.map_map]
    refine List.map_congr_left fun index hindex => ?_
    have hindex := List.mem_range.1 hindex
    have hposition : samples + 18 - 1 - offset - (count - 1) + (count - 1 - index) =
        samples + 17 - (offset + index) := by omega
    rw [getD_slice _ _ (by omega), hposition]
    rfl
  rw [filteredBlock, hread]
  change Outcome _ _ (appendConverted ((List.range count).map _) filtered)
  rw [hconverted, appendConverted]
  have hnext : (List.range (offset + count)).map (fun i =>
      p.narrow (backward.samples.getD (samples + 17 - i) (p.literal 0))) =
      filtered.samples ++ (List.range' offset count).map fun i =>
        p.narrow (backward.samples.getD (samples + 17 - i) (p.literal 0)) := by
    have hrange : List.range' 0 offset ++ List.range' (0 + offset) count =
        List.range' 0 (offset + count) := List.range'_append_1
    rw [Nat.zero_add] at hrange
    rw [hfiltered, ← List.map_append, List.range_eq_range', List.range_eq_range', ← hrange]
  by_cases hfinite : ∀ value ∈ (List.range' offset count).map (fun i =>
      p.narrow (backward.samples.getD (samples + 17 - i) (p.literal 0))),
      Sample.isFinite value = true
  · have hfits : (filtered.samples.length + ((List.range' offset count).map fun i =>
        p.narrow (backward.samples.getD (samples + 17 - i) (p.literal 0))).length) * 4 ≤
          offMax := by
      rw [← List.length_append, ← hnext, List.length_map, List.length_range]
      exact (Nat.mul_le_mul_right 4 hle).trans hupper
    obtain ⟨t, happend, hsamples⟩ := RawSampleSpool.append_of_finite filtered _ hfinite hfits
    rw [require, if_pos hfinite]
    change Outcome _ _ (appendSpool filtered _ _)
    rw [appendSpool_eq_ok.2 happend]
    exact hsamples.trans hnext.symm
  · rw [require, if_neg hfinite]
    obtain ⟨value, hvalue⟩ := not_forall.1 hfinite
    obtain ⟨hmem, hnot⟩ := Classical.not_imp.1 hvalue
    obtain ⟨i, hi, rfl⟩ := List.mem_map.1 hmem
    exact ⟨i, by rw [List.mem_range'_1] at hi; omega, Bool.eq_false_of_not_eq_true hnot⟩

variable (p)

/-- All values of the legacy filter are finite. -/
structure FiniteFiltfilt (x : List F) : Prop where
  forward : ∀ v ∈ iir p (oddExtension p x), Sample.isFinite v = true
  backward : ∀ v ∈ iir p (iir p (oddExtension p x)).reverse, Sample.isFinite v = true
  output : ∀ v ∈ highpassFiltfilt p x, Sample.isFinite v = true

variable {p}

omit [Sample F] [Sample D] in
/-- The output of the legacy filter is the middle of its backward pass, reversed and converted. -/
theorem highpassFiltfilt_eq {x : List F} (hlower : 40 ≤ x.length) (hupper : x.length ≤ intMax) :
    highpassFiltfilt p x = (List.range x.length).map fun i =>
      p.narrow ((iir p (iir p (oddExtension p x)).reverse).getD (x.length + 17 - i)
        (p.literal 0)) := by
  have hn : toInt x.length = x.length := toInt_of_lt (by rw [intMax] at hupper; omega)
  have hlength : (iir p (iir p (oddExtension p x)).reverse).length = x.length + 36 := by
    rw [length_iir, List.length_reverse, length_iir, length_oddExtension]
  rw [highpassFiltfilt, hn]
  dsimp only
  rw [if_neg (by omega), Int.toNat_natCast]
  refine List.map_congr_left fun i hi => ?_
  have hi := List.mem_range.1 hi
  have hposition : x.length + 36 - 1 - (18 + i) = x.length + 17 - i := by omega
  rw [List.getD_reverse _ (by omega), hlength, hposition]

/-- **The passes and the output.** -/
theorem outcome_buildFilteredSource (hzero : p.ZeroTerms) {source : RawFloatSpool F}
    (hlower : 40 ≤ source.samples.length) (hupper : source.samples.length + 36 ≤ intMax) :
    Outcome
      (fun filtered : RawFloatSpool F =>
        filtered.samples = highpassFiltfilt p source.samples ∧ FiniteFiltfilt p source.samples)
      (fun _ => ¬FiniteFiltfilt p source.samples) (buildFilteredSource p source true) := by
  have hrun := run_eq_iir p hzero
  have hlegacy := highpassFiltfilt_eq (p := p) hlower (by omega)
  have hadd : checkedAdd source.samples.length (2 * 18) = some (source.samples.length + 36) :=
    checkedAdd_of_lt (by rw [intMax] at hupper; omega)
  have hlong : ¬(true = false ∨ source.sampleCount < 40) := by
    rintro (h | h)
    · cases h
    · exact absurd h (not_lt.2 hlower)
  rw [buildFilteredSource, if_neg hlong]
  change Outcome _ _ (orFail (checkedAdd source.samples.length (2 * 18)) _ >>= fun _ => _)
  rw [hadd]
  change Outcome _ _ (forwardPass p source _ >>= fun _ => _)
  refine outcome_bind (outcome_conseq (outcome_forwardPass hlower hupper) (fun _ h => h) ?_)
    fun forward hforward => ?_
  · rintro _ ⟨v, hv, hnot⟩ hfinite
    rw [hrun] at hv
    rw [hfinite.forward v hv] at hnot
    cases hnot
  rw [hrun] at hforward
  have hcount : forward.samples.length = source.samples.length + 36 := by
    rw [hforward, length_iir, length_oddExtension]
  rw [← hcount]
  refine outcome_bind (outcome_conseq (outcome_backwardPass forward) (fun _ h => h) ?_)
    fun backward hbackward => ?_
  · rintro _ ⟨v, hv, hnot⟩ hfinite
    rw [hrun, hforward] at hv
    rw [hfinite.backward v hv] at hnot
    cases hnot
  rw [hrun, hforward] at hbackward
  have hlength : backward.samples.length = source.samples.length + 36 := by
    rw [hbackward, length_iir, List.length_reverse, length_iir, length_oddExtension]
  refine outcome_bind (outcome_conseq (outcome_filteredBlocks hlength source.bounded)
    (fun _ h => h) ?_) fun filtered hfiltered => ?_
  · rintro _ ⟨i, hi, hnot⟩ hfinite
    rw [hbackward] at hnot
    rw [hfinite.output _ (hlegacy ▸ List.mem_map_of_mem (List.mem_range.2 hi))] at hnot
    cases hnot
  have hsamples : filtered.samples = highpassFiltfilt p source.samples := by
    rw [hfiltered, hbackward, hlegacy]
    rfl
  rw [require, if_pos (by rw [RawSampleSpool.sampleCount, hfiltered, List.length_map,
    List.length_range])]
  refine ⟨hsamples, ⟨fun v hv => ?_, fun v hv => ?_, fun v hv => ?_⟩⟩
  · exact forward.finite v (hforward ▸ hv)
  · exact backward.finite v (hbackward ▸ hv)
  · exact filtered.finite v (hsamples ▸ hv)

/-- **Both produce the same samples.** A short signal is passed through; a longer one is filtered to
the same samples if all values of the filter are finite, and refused otherwise. -/
theorem buildFilteredSource_eq_highpassFiltfilt (hzero : p.ZeroTerms) {source : RawFloatSpool F}
    (hupper : source.samples.length + 36 ≤ intMax) :
    buildFilteredSource p source false = .ok source ∧
      (source.samples.length < 40 → buildFilteredSource p source true = .ok source ∧
        highpassFiltfilt p source.samples = source.samples) ∧
      (40 ≤ source.samples.length →
        (FiniteFiltfilt p source.samples → ∃ filtered,
          buildFilteredSource p source true = .ok filtered ∧
            filtered.samples = highpassFiltfilt p source.samples) ∧
        (¬FiniteFiltfilt p source.samples → ∃ message,
          buildFilteredSource p source true = .error message)) := by
  refine ⟨rfl, fun hshort => ⟨?_, ?_⟩, fun hlower => ?_⟩
  · exact if_pos (Or.inr hshort)
  · have hn : toInt source.samples.length = source.samples.length :=
      toInt_of_lt (by rw [intMax] at hupper; omega)
    rw [highpassFiltfilt, hn, if_pos (by omega)]
  · have houtcome := outcome_buildFilteredSource hzero hlower hupper
    cases hbuild : buildFilteredSource p source true with
    | ok filtered =>
      rw [hbuild] at houtcome
      exact ⟨fun _ => ⟨filtered, rfl, houtcome.1⟩, fun hnot => absurd houtcome.2 hnot⟩
    | error message =>
      rw [hbuild] at houtcome
      exact ⟨fun hfinite => absurd hfinite houtcome, fun _ => ⟨message, rfl⟩⟩

end Passes

/-! ### Carriers -/

/-- Exact arithmetic. -/
def exactPrecision : Precision ℚ ℚ where
  literal x := x
  widen x := x
  narrow x := x

theorem zeroTerms_exactPrecision : exactPrecision.ZeroTerms := by
  intro x j _ _
  change x + (_ * 0 - _ * 0) = x
  rw [mul_zero, mul_zero, sub_zero, add_zero]

/-- Forty samples of one. -/
def fortyOnes : RawFloatSpool ℚ where
  samples := List.replicate 40 1
  finite := fun _ _ => rfl
  bounded := by decide

/-- Forty samples in exact arithmetic. -/
theorem buildFilteredSource_eq_highpassFiltfilt_fortyOnes : ∃ filtered,
    buildFilteredSource exactPrecision fortyOnes true = .ok filtered ∧
      filtered.samples = highpassFiltfilt exactPrecision fortyOnes.samples :=
  ((buildFilteredSource_eq_highpassFiltfilt zeroTerms_exactPrecision (by decide)).2.2
    (by decide)).1 ⟨fun _ _ => rfl, fun _ _ => rfl, fun _ _ => rfl⟩

/-- The depth of the expression that computes a value. -/
def Depth : Type := ℕ

namespace Depth

instance : DecidableEq Depth := inferInstanceAs (DecidableEq ℕ)

instance : Inhabited Depth := ⟨Nat.zero⟩

instance : Sample Depth where
  isFinite _ := true

instance : Add Depth where
  add x y := Nat.succ (Nat.max x y)

instance : Sub Depth where
  sub x y := Nat.succ (Nat.max x y)

instance : Mul Depth where
  mul x y := Nat.succ (Nat.max x y)

/-- Literals and conversions have no depth. -/
def precision : Precision Depth Depth where
  literal _ := Nat.zero
  widen x := x
  narrow x := x

/-- Forty samples. -/
def fortySamples : RawFloatSpool Depth where
  samples := List.replicate 40 Nat.zero
  finite := fun _ _ => rfl
  bounded := by decide

end Depth

/-- A rational number in the range of single precision or outside. -/
structure SingleRange where
  value : ℚ
deriving DecidableEq, Inhabited

namespace SingleRange

instance : Sample SingleRange where
  isFinite x := decide (-2 ^ 128 < x.value ∧ x.value < 2 ^ 128)

/-- Samples are in a range, values of the filter are exact. -/
def precision : Precision SingleRange ℚ where
  literal x := x
  widen x := x.value
  narrow x := ⟨x⟩

/-- A loud pulse. -/
def pulse : RawFloatSpool SingleRange where
  samples := List.replicate 20 ⟨-(2 ^ 128 - 1)⟩ ++ ⟨2 ^ 128 - 1⟩ ::
    List.replicate 19 ⟨-(2 ^ 128 - 1)⟩
  finite := by decide +kernel
  bounded := by decide

end SingleRange

/-- The depth of the last sample, in the bounded function. -/
theorem getLast_buildFilteredSource :
    ((buildFilteredSource Depth.precision Depth.fortySamples true).toOption.map
      fun filtered => decide (filtered.samples.getLast? = some (show Depth from Nat.succ 664))) =
        some true := by
  decide +kernel

/-- The depth of the last sample, in the legacy function. -/
theorem getLast_highpassFiltfilt :
    (highpassFiltfilt Depth.precision Depth.fortySamples.samples).getLast? =
      some (show Depth from Nat.succ 634) := by
  decide +kernel

/-- The two functions compute different expressions, and the bounded one refuses a loud pulse that
the legacy one filters out of the range of single precision. -/
theorem buildFilteredSource_depth_pulse :
    ((buildFilteredSource Depth.precision Depth.fortySamples true).toOption.map
        fun filtered => decide (filtered.samples =
          highpassFiltfilt Depth.precision Depth.fortySamples.samples)) = some false ∧
      (buildFilteredSource SingleRange.precision SingleRange.pulse true).toOption.isNone = true ∧
      (highpassFiltfilt SingleRange.precision SingleRange.pulse.samples).length = 40 := by
  refine ⟨?_, ?_, ?_⟩
  · obtain ⟨filtered, hfiltered, hlast⟩ := Option.map_eq_some_iff.1 getLast_buildFilteredSource
    rw [hfiltered, Option.map_some]
    refine congrArg some (decide_eq_false fun heq => ?_)
    have hdepths := (of_decide_eq_true hlast).symm.trans
      ((congrArg List.getLast? heq).trans getLast_highpassFiltfilt)
    exact absurd hdepths (by decide)
  · decide +kernel
  · decide +kernel

end Resonantia.Pipeline
