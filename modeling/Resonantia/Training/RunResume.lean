import Resonantia.Training.RunState

/-!
# Resuming a training

A run takes the operations of a run state in any order, and at any point it may serialize the state
and go on with what it parses. Such checkpoints make no difference to the clips, crops and learning
rates of the run.

## Main definitions

* `Training.RunState.run`: the outputs of a run and the state after it.
* `Training.RunState.visited`: the clips that a run trains on.
* `Training.RunState.preflight`: the check before a training.

## Main results

* `Training.RunState.Reached.run`: a run with checkpoints goes like the run without them.
* `Training.RunState.Visits.each`: every epoch goes through all clips.
* `Training.RunState.Reached.exists_run`: after the preflight check no checkpoint fails.
* `Training.RunState.resume_reproduces`: all of it for a training from its beginning.
-/

namespace Resonantia.Training

open ByteString InputStream BinaryFloat

namespace RunState

/-! ### Runs -/

/-- What a training does with its state. A checkpoint serializes it and goes on with what is
parsed. -/
inductive Op
  | clip
  | rate
  | crop (frames : ℤ)
  | advance
  | checkpoint
deriving DecidableEq

/-- What an operation returns or throws. -/
inductive Output
  | clip (result : Except String ℤ)
  | rate (result : Except String Single)
  | crop (result : Except String ℤ)
  | advanced (result : Except String Unit)

section

variable (dice : Dice) (floats : FloatText)

def perform (s : RunState) : Op → Except String (List Output × RunState)
  | .clip => .ok ([.clip s.currentClip], s)
  | .rate => .ok ([.rate s.learningRate], s)
  | .crop frames => .ok ([.crop (s.crop dice frames).1], (s.crop dice frames).2)
  | .advance => .ok ([.advanced (s.advance dice).1], (s.advance dice).2)
  | .checkpoint => (s.serialize floats).bind fun text => (parse floats text).map fun s => ([], s)

/-- The outputs of a run and the state after it; only a checkpoint can end it. -/
def run : List Op → RunState → Except String (List Output × RunState)
  | [], s => .ok ([], s)
  | op :: ops, s =>
    (perform dice floats s op).bind fun r => (run ops r.2).map fun r' => (r.1 ++ r'.1, r'.2)

/-- The clips that a run trains on: those that were current when it advanced. -/
def visited : List Op → RunState → List ℤ
  | [], _ => []
  | op :: ops, s =>
    (if op = .advance then s.currentClip.toOption.toList else []) ++
      match perform dice floats s op with
      | .error _ => []
      | .ok r => visited ops r.2

/-- `sha256("preflight")`. -/
def preflightIdentity : Bytes :=
  bytes "6f851dc660025ec06e880e895c7210798b0ab9df426c8de40d378291775bc317"

/-- The check before a training: the state at the end of the schedule is valid. -/
def preflight (clips epochCount : ℤ) (seed : UInt32) (lr lrDecay : Number binary32) :
    Except String Unit :=
  (begin dice preflightIdentity clips epochCount seed lr lrDecay).bind fun s =>
    { s with step := s.epochs * s.order.length }.validate

end

/-! ### What the operations keep -/

/-- A valid state of the same training. -/
structure Reached (s₀ s : RunState) : Prop where
  regular : s.Regular
  epochs : s.epochs = s₀.epochs
  initialLr : s.initialLr = s₀.initialLr
  decay : s.decay = s₀.decay
  clips : s.order.length = s₀.order.length

theorem begin_eq_ok {dice : Dice} (hshuffle : dice.Shuffles) {id : Bytes} {clips epochCount : ℤ}
    {seed : UInt32} {lr lrDecay : Number binary32} {s : RunState}
    (h : begin dice id clips epochCount seed lr lrDecay = .ok s) :
    s.Regular ∧ s.epochs = epochCount ∧ s.step = 0 ∧ s.initialLr = lr ∧ s.decay = lrDecay ∧
      s.order.length = clips.toNat := by
  rw [begin] at h
  split_ifs at h
  dsimp only at h
  rw [Except.map.eq_def] at h
  split at h
  · cases h
  · rename_i hvalid
    obtain rfl := Except.ok.inj h
    refine ⟨(validate_eq_ok_iff.1 hvalid).1, rfl, rfl, rfl, rfl, ?_⟩
    rw [(hshuffle _ _).length_eq, List.length_map, List.length_range]

variable {dice : Dice} {floats : FloatText} {s₀ s : RunState}

theorem Reached.crop (h : Reached s₀ s) (frames : ℤ) : Reached s₀ (s.crop dice frames).2 := by
  rw [RunState.crop]
  split_ifs
  · exact h
  · obtain ⟨⟨hidentity, hclips, hepochs, hstep, hrates, horder⟩, h₁, h₂, h₃, h₄⟩ := h
    exact ⟨⟨hidentity, hclips, hepochs, hstep, hrates, horder⟩, h₁, h₂, h₃, h₄⟩

/-- A state with another step and another order of the clips. -/
theorem Reached.withOrder (h : Reached s₀ s) {step : ℤ} {order : List ℤ} {random : Mt19937}
    (hstep : 0 ≤ step ∧ step ≤ s.epochs * s.order.length) (horder : order.Perm s.order) :
    Reached s₀ { s with step, order, random } := by
  obtain ⟨⟨hidentity, hclips, hepochs, -, hrates, hperm⟩, h₁, h₂, h₃, h₄⟩ := h
  have hlength := horder.length_eq
  refine ⟨⟨hidentity, ⟨fun hnil => ?_, ?_⟩, hepochs, ?_, hrates, ?_⟩, h₁, h₂, h₃, hlength.trans h₄⟩
  · have hnil' : order = [] := hnil
    rw [hnil'] at horder
    exact hclips.1 horder.symm.eq_nil
  · exact hlength.trans_le hclips.2
  · rw [hlength]
    exact hstep
  · rw [hlength]
    exact horder.trans hperm

theorem Reached.advance (hshuffle : dice.Shuffles) (h : Reached s₀ s) :
    Reached s₀ (s.advance dice).2 := by
  have hstep := h.regular.step
  rw [RunState.advance]
  by_cases hdone : s.done = true
  · rw [if_pos hdone]
    exact h
  · rw [if_neg hdone]
    rw [done, decide_eq_true_eq] at hdone
    dsimp only
    split_ifs
    · exact h.withOrder (by omega) (hshuffle _ _)
    · exact h.withOrder (by omega) (List.Perm.refl _)

/-- A checkpoint that succeeds changes nothing. -/
theorem Reached.checkpoint (h : Reached s₀ s) (hlr : floats.Lossless s₀.initialLr)
    (hdecay : floats.Lossless s₀.decay) {text : Bytes} (hserialize : s.serialize floats = .ok text) :
    parse floats text = .ok s := by
  obtain ⟨hvalid, hlength, rfl⟩ := serialize_eq_ok_iff.1 hserialize
  exact parse_text h.regular (h.initialLr ▸ hlr) (h.decay ▸ hdecay) hvalid hlength

/-- **One operation.** -/
theorem Reached.perform (hshuffle : dice.Shuffles) (hlr : floats.Lossless s₀.initialLr)
    (hdecay : floats.Lossless s₀.decay) (h : Reached s₀ s) {op : Op} {r : List Output × RunState}
    (hop : perform dice floats s op = .ok r) :
    Reached s₀ r.2 ∧ (op = .checkpoint → r = ([], s)) := by
  cases op with
  | clip =>
    obtain rfl := Except.ok.inj hop
    exact ⟨h, fun hcheckpoint => nomatch hcheckpoint⟩
  | rate =>
    obtain rfl := Except.ok.inj hop
    exact ⟨h, fun hcheckpoint => nomatch hcheckpoint⟩
  | crop frames =>
    obtain rfl := Except.ok.inj hop
    exact ⟨h.crop frames, fun hcheckpoint => nomatch hcheckpoint⟩
  | advance =>
    obtain rfl := Except.ok.inj hop
    exact ⟨h.advance hshuffle, fun hcheckpoint => nomatch hcheckpoint⟩
  | checkpoint =>
    rw [RunState.perform] at hop
    cases hserialize : s.serialize floats with
    | error message =>
      rw [hserialize] at hop
      cases hop
    | ok text =>
      rw [hserialize, Except.bind, h.checkpoint hlr hdecay hserialize] at hop
      obtain rfl := Except.ok.inj hop
      exact ⟨h, fun _ => rfl⟩

theorem run_cons_eq_ok {op : Op} {ops : List Op} {outputs : List Output} {t : RunState}
    (h : run dice floats (op :: ops) s = .ok (outputs, t)) :
    ∃ r outputs', perform dice floats s op = .ok r ∧ run dice floats ops r.2 = .ok (outputs', t) ∧
      outputs = r.1 ++ outputs' := by
  rw [run] at h
  cases hop : perform dice floats s op with
  | error message =>
    rw [hop] at h
    cases h
  | ok r =>
    rw [hop, Except.bind] at h
    cases hrest : run dice floats ops r.2 with
    | error message =>
      rw [hrest] at h
      cases h
    | ok r' =>
      rw [hrest] at h
      obtain ⟨rfl, rfl⟩ := Prod.mk.inj (Except.ok.inj h)
      exact ⟨r, r'.1, rfl, hrest, rfl⟩

/-- **A run goes like the run without its checkpoints.** -/
theorem Reached.run (hshuffle : dice.Shuffles) (hlr : floats.Lossless s₀.initialLr)
    (hdecay : floats.Lossless s₀.decay) (h : Reached s₀ s) {ops : List Op} {outputs : List Output}
    {t : RunState} (hrun : run dice floats ops s = .ok (outputs, t)) :
    Reached s₀ t ∧
      RunState.run dice floats (ops.filter fun op => op ≠ .checkpoint) s = .ok (outputs, t) := by
  induction ops generalizing s outputs with
  | nil =>
    obtain ⟨-, rfl⟩ := Prod.mk.inj (Except.ok.inj hrun)
    exact ⟨h, hrun⟩
  | cons op ops ih =>
    obtain ⟨r, outputs', hop, hrest, rfl⟩ := run_cons_eq_ok hrun
    obtain ⟨hreached, hcheckpoint⟩ := h.perform hshuffle hlr hdecay hop
    obtain ⟨ht, hfiltered⟩ := ih hreached hrest
    refine ⟨ht, ?_⟩
    by_cases hop' : op = .checkpoint
    · obtain rfl := hcheckpoint hop'
      rw [List.filter_cons_of_neg (by simp [hop'])]
      exact hfiltered
    · rw [List.filter_cons_of_pos (by simp [hop']), RunState.run, hop, Except.bind, hfiltered]
      rfl

/-! ### The preflight check -/

theorem length_decimalText_natAbs {z : ℤ} (hlow : 0 ≤ z) (hhigh : z < 10 ^ 10) :
    (intText z).length ≤ 10 := by
  rw [intText, if_neg (by omega)]
  exact Json.length_decimalText_le (by decide) (by omega)

theorem length_flatMap_le {α : Type} {f : α → Bytes} {l : List α} {k : ℕ}
    (h : ∀ a ∈ l, (f a).length ≤ k) : (l.flatMap f).length ≤ l.length * k := by
  induction l with
  | nil => simp
  | cons a l ih =>
    rw [List.forall_mem_cons] at h
    have hrest := ih h.2
    rw [List.flatMap_cons, List.length_append, List.length_cons, Nat.succ_mul]
    omega

/-- **A state fits into its bound.** -/
theorem Regular.length_text (h : s.Regular) (hlr : floats.Lossless s.initialLr)
    (hdecay : floats.Lossless s.decay) : (s.text floats).length ≤ 65536 := by
  obtain ⟨hepochs, hstep, -, hclips⟩ := h.header
  have hepochs₀ := h.epochs.1
  have hstep₀ := h.step.1
  have hidentity : s.identity.length = 64 := by
    have hdigest := h.identity
    rw [Io.BlockFiles.validDigest, Bool.and_eq_true, beq_iff_eq] at hdigest
    exact hdigest.1
  have horder : (s.order.flatMap fun i => intText i ++ [32]).length ≤ s.order.length * 5 := by
    refine length_flatMap_le fun i hi => ?_
    obtain ⟨hlow, hhigh⟩ := h.mem_order hi
    have hlength : (Json.decimalText i.natAbs).length ≤ 4 :=
      Json.length_decimalText_le (by decide) (by omega)
    rw [intText, if_neg (by omega), List.length_append, List.length_singleton]
    omega
  have hword : ∀ word : UInt64, (Mt19937.wordText word).length ≤ 20 := fun word =>
    Json.length_decimalText_le (by decide) (by have := word.toNat_lt; omega)
  have hrandom : s.random.text.length ≤ 624 * 21 + 20 := by
    have hwords : (s.random.words.flatMap fun word => Mt19937.wordText word ++ [32]).length ≤
        s.random.words.length * 21 := by
      refine length_flatMap_le fun word _ => ?_
      have hlength := hword word
      rw [List.length_append, List.length_singleton]
      omega
    have hposition := hword s.random.position
    rw [s.random.length_words] at hwords
    rw [Mt19937.text, List.length_append]
    omega
  have h₁ := length_decimalText_natAbs (z := s.epochs) (by omega) (by omega)
  have h₂ := length_decimalText_natAbs (z := s.step) (by omega) (by omega)
  have h₃ := length_decimalText_natAbs (z := s.order.length) (by omega) (by omega)
  have h₄ := hlr.short
  have h₅ := hdecay.short
  have hmagic : (bytes "RESONANTIA_JOINT_RUN 1\n").length = 23 := by decide
  have hlength := h.clips.2
  simp only [text, List.length_append, List.length_singleton, hmagic, hidentity]
  omega

/-- The epoch of a state is one of the schedule. -/
theorem Regular.epoch_le (h : s.Regular) : s.epoch.toNat ≤ s.epochs.toNat := by
  obtain ⟨hstep₀, hstep⟩ := h.step
  have hlength := List.length_pos_iff.2 h.clips.1
  have hle : s.epoch ≤ s.epochs := by
    rw [epoch, Int.tdiv_eq_ediv_of_nonneg hstep₀]
    exact Int.ediv_le_of_le_mul (by omega) hstep
  exact Int.toNat_le_toNat hle

/-- After the preflight check, serializing never fails. -/
theorem Reached.exists_serialize (h : Reached s₀ s)
    (hpositive : (rateAfter s₀.initialLr s₀.decay s₀.epochs.toNat).IsPositive)
    (hlr : floats.Lossless s₀.initialLr) (hdecay : floats.Lossless s₀.decay) :
    ∃ text, s.serialize floats = .ok text := by
  have hle := h.regular.epoch_le
  rw [h.epochs] at hle
  have hdecayPositive : s₀.decay.IsPositive :=
    h.decay ▸ isPositive_of_isRate h.regular.rates.2
  obtain ⟨value, hvalue, hpos⟩ := isPositive_rateAfter_of_le hdecayPositive hle hpositive
  have hvalid : s.validate = .ok () := by
    refine validate_eq_ok_iff.2 ⟨h.regular, value, learningRate_eq_ok_iff.2 ⟨?_, hpos⟩⟩
    rw [h.initialLr, h.decay]
    exact hvalue
  exact ⟨_, serialize_eq_ok_iff.2
    ⟨hvalid, h.regular.length_text (h.initialLr ▸ hlr) (h.decay ▸ hdecay), rfl⟩⟩

theorem isPositive_of_preflight (hshuffle : dice.Shuffles) {clips epochCount : ℤ} {seed : UInt32}
    {lr lrDecay : Number binary32}
    (h : preflight dice clips epochCount seed lr lrDecay = .ok ()) :
    (rateAfter lr lrDecay epochCount.toNat).IsPositive := by
  rw [preflight] at h
  cases hbegin : begin dice preflightIdentity clips epochCount seed lr lrDecay with
  | error message =>
    rw [hbegin] at h
    cases h
  | ok s =>
    rw [hbegin, Except.bind] at h
    obtain ⟨-, hepochs, -, hlr, hdecay, -⟩ := begin_eq_ok hshuffle hbegin
    obtain ⟨hregular, value, hvalue⟩ := validate_eq_ok_iff.1 h
    rw [learningRate_eq_ok_iff] at hvalue
    have hlength : 0 < s.order.length := List.length_pos_iff.2 hregular.clips.1
    have hepoch : ({ s with step := s.epochs * s.order.length } : RunState).epoch = s.epochs := by
      rw [epoch]
      exact Int.mul_tdiv_cancel _ (by omega)
    rw [hepoch, hepochs] at hvalue
    simp only [hlr, hdecay] at hvalue
    exact ⟨value, hvalue.1, hvalue.2⟩

/-- **After the preflight check, no run fails.** -/
theorem Reached.exists_run (hshuffle : dice.Shuffles) (hlr : floats.Lossless s₀.initialLr)
    (hdecay : floats.Lossless s₀.decay)
    (hpositive : (rateAfter s₀.initialLr s₀.decay s₀.epochs.toNat).IsPositive)
    (h : Reached s₀ s) (ops : List Op) :
    ∃ outputs t, RunState.run dice floats ops s = .ok (outputs, t) := by
  induction ops generalizing s with
  | nil => exact ⟨[], s, rfl⟩
  | cons op ops ih =>
    have hop : ∃ r, RunState.perform dice floats s op = .ok r := by
      cases op with
      | clip => exact ⟨_, rfl⟩
      | rate => exact ⟨_, rfl⟩
      | crop frames => exact ⟨_, rfl⟩
      | advance => exact ⟨_, rfl⟩
      | checkpoint =>
        obtain ⟨text, htext⟩ := h.exists_serialize hpositive hlr hdecay
        exact ⟨([], s), by
          rw [RunState.perform, htext, Except.bind, h.checkpoint hlr hdecay htext]; rfl⟩
    obtain ⟨r, hr⟩ := hop
    obtain ⟨outputs, t, hrest⟩ := ih (h.perform hshuffle hlr hdecay hr).1
    exact ⟨r.1 ++ outputs, t, by rw [RunState.run, hr, Except.bind, hrest]; rfl⟩

/-! ### Visited clips -/

theorem slot_eq {n k : ℕ} (hlength : s.order.length = n) (hstep : s.step = k) :
    s.slot.toNat = k % n ∧ s.epoch = ((k / n : ℕ) : ℤ) ∧ (s.slot = 0 ↔ k % n = 0) := by
  rw [slot, epoch, hlength, hstep, Int.tmod_eq_emod_of_nonneg (by omega),
    Int.tdiv_eq_ediv_of_nonneg (by omega)]
  omega

/-- The finished epochs went through orders of all clips, and the current one through a part of its
order. -/
structure Visits (s : RunState) (past : List ℤ) (orders : List (List ℤ)) : Prop where
  perm : ∀ order ∈ orders, order.Perm ((List.range s.order.length).map Int.ofNat)
  past : past = orders.flatten ++ s.order.take s.slot.toNat
  epoch : (orders.length : ℤ) = s.epoch

/-- **Advancing visits the current clip.** -/
theorem Visits.advance (hshuffle : dice.Shuffles) (hregular : s.Regular) {past : List ℤ}
    {orders : List (List ℤ)} (h : s.Visits past orders) :
    ∃ orders', (s.advance dice).2.Visits (past ++ s.currentClip.toOption.toList) orders' := by
  obtain ⟨hperm, hpast, hepoch⟩ := h
  by_cases hdone : s.done = true
  · have hclip : s.currentClip = .error "training already complete" := if_pos hdone
    rw [RunState.advance, if_pos hdone, hclip]
    exact ⟨orders, hperm, by rw [hpast]; exact List.append_nil _, hepoch⟩
  obtain ⟨k, hk⟩ := Int.eq_ofNat_of_zero_le hregular.step.1
  have hn : 0 < s.order.length := List.length_pos_iff.2 hregular.clips.1
  obtain ⟨hslot, hepoch', -⟩ := slot_eq (n := s.order.length) rfl hk
  have hlt : k % s.order.length < s.order.length := Nat.mod_lt k hn
  have hclip : s.currentClip = .ok (s.order[k % s.order.length]) := by
    rw [currentClip, if_neg hdone, hslot, List.getElem?_eq_getElem hlt]
    rfl
  have htake : s.order.take (k % s.order.length) ++ [s.order[k % s.order.length]] =
      s.order.take (k % s.order.length + 1) := List.take_concat_get' _ _ hlt
  rw [RunState.advance, if_neg hdone, hclip]
  dsimp only [Except.toOption, Option.toList_some]
  rw [hpast, hslot, List.append_assoc, htake]
  have hnext := slot_eq (s := { s with step := s.step + 1 }) (n := s.order.length) (k := k + 1) rfl
    (by rw [hk]; rfl)
  obtain ⟨hslot', hepoch'', hzero⟩ := hnext
  have hmod : (k + 1) % s.order.length = (k % s.order.length + 1) % s.order.length :=
    (Nat.mod_add_mod k s.order.length 1).symm
  by_cases hwrap : (k + 1) % s.order.length = 0
  · -- the epoch ends, and its order joins the finished ones
    have hfull : k % s.order.length + 1 = s.order.length := by
      refine Nat.le_antisymm (Nat.succ_le_of_lt hlt) (Nat.not_lt.1 fun hlast => ?_)
      rw [hmod, Nat.mod_eq_of_lt hlast] at hwrap
      omega
    rw [Nat.succ_div_of_mod_eq_zero hwrap] at hepoch''
    have horders : ∀ order ∈ orders ++ [s.order],
        order.Perm ((List.range s.order.length).map Int.ofNat) := by
      intro order horder
      rcases List.mem_append.1 horder with horder | horder
      · exact hperm order horder
      · rw [List.mem_singleton.1 horder]
        exact hregular.order
    have hlength : ((orders ++ [s.order]).length : ℤ) = ((k / s.order.length + 1 : ℕ) : ℤ) := by
      rw [List.length_append, List.length_singleton]
      omega
    have hflatten : orders.flatten ++ s.order.take (k % s.order.length + 1) =
        (orders ++ [s.order]).flatten := by
      rw [hfull, List.take_length, List.flatten_append, List.flatten_singleton]
    refine ⟨orders ++ [s.order], ?_⟩
    rw [hflatten]
    split_ifs with hand
    · have hshuffled := (hshuffle s.order s.random).length_eq
      have hnext := slot_eq
        (s := { s with
          step := s.step + 1
          order := (dice.shuffle s.order s.random).1
          random := (dice.shuffle s.order s.random).2 })
        (n := s.order.length) (k := k + 1) hshuffled (by rw [hk]; rfl)
      obtain ⟨hslot₂, hepoch₂, -⟩ := hnext
      refine ⟨fun order horder => ?_, ?_, ?_⟩
      · rw [show ({ s with
            step := s.step + 1
            order := (dice.shuffle s.order s.random).1
            random := (dice.shuffle s.order s.random).2 } : RunState).order.length =
          s.order.length from hshuffled]
        exact horders order horder
      · rw [hslot₂, hwrap, List.take_zero, List.append_nil]
      · rw [hepoch₂, Nat.succ_div_of_mod_eq_zero hwrap]
        exact hlength
    · refine ⟨horders, ?_, ?_⟩
      · rw [hslot', hwrap, List.take_zero, List.append_nil]
      · rw [hepoch'']
        exact hlength
  · have hinside : (k + 1) % s.order.length = k % s.order.length + 1 := by
      rw [hmod]
      refine Nat.mod_eq_of_lt (Nat.lt_of_le_of_ne (Nat.succ_le_of_lt hlt) fun hfull => hwrap ?_)
      rw [hmod]
      exact hfull.symm ▸ Nat.mod_self _
    rw [if_neg fun hand => hwrap (hzero.1 hand.1)]
    refine ⟨orders, hperm, ?_, ?_⟩
    · rw [hslot', hinside]
    · rw [hepoch'', Nat.succ_div_of_mod_ne_zero hwrap, hepoch, hepoch']

theorem Visits.crop {past : List ℤ} {orders : List (List ℤ)} (h : s.Visits past orders)
    (frames : ℤ) : (s.crop dice frames).2.Visits past orders := by
  rw [RunState.crop]
  split_ifs
  · exact h
  · exact ⟨h.perm, h.past, h.epoch⟩

/-- What a run visits. -/
theorem Visits.run (hshuffle : dice.Shuffles) (hlr : floats.Lossless s₀.initialLr)
    (hdecay : floats.Lossless s₀.decay) (hreached : Reached s₀ s) {past : List ℤ}
    {orders : List (List ℤ)} (h : s.Visits past orders) {ops : List Op} {outputs : List Output}
    {t : RunState} (hrun : RunState.run dice floats ops s = .ok (outputs, t)) :
    ∃ orders', t.Visits (past ++ visited dice floats ops s) orders' := by
  induction ops generalizing s past orders outputs with
  | nil =>
    obtain ⟨-, rfl⟩ := Prod.mk.inj (Except.ok.inj hrun)
    exact ⟨orders, by rw [visited, List.append_nil]; exact h⟩
  | cons op ops ih =>
    obtain ⟨r, outputs', hop, hrest, rfl⟩ := run_cons_eq_ok hrun
    obtain ⟨hnext, hcheckpoint⟩ := hreached.perform hshuffle hlr hdecay hop
    rw [visited, hop, ← List.append_assoc]
    have hvisits : ∃ orders', r.2.Visits
        (past ++ if op = .advance then s.currentClip.toOption.toList else []) orders' := by
      cases op with
      | advance =>
        obtain rfl := Except.ok.inj hop
        rw [if_pos rfl]
        exact h.advance hshuffle hreached.regular
      | clip =>
        obtain rfl := Except.ok.inj hop
        exact ⟨orders, by rw [if_neg (by simp), List.append_nil]; exact h⟩
      | rate =>
        obtain rfl := Except.ok.inj hop
        exact ⟨orders, by rw [if_neg (by simp), List.append_nil]; exact h⟩
      | crop frames =>
        obtain rfl := Except.ok.inj hop
        exact ⟨orders, by rw [if_neg (by simp), List.append_nil]; exact h.crop frames⟩
      | checkpoint =>
        obtain rfl := hcheckpoint rfl
        exact ⟨orders, by rw [if_neg (by simp), List.append_nil]; exact h⟩
    obtain ⟨orders', hvisits⟩ := hvisits
    exact ih hnext hvisits hrest

/-- One epoch out of a list of orders and the start of another. -/
theorem slice_flatten {n : ℕ} {orders : List (List ℤ)} (horders : ∀ order ∈ orders, order.length = n)
    {tail : List ℤ} (htail : tail.length ≤ n) (k : ℕ) :
    ((orders.flatten ++ tail).drop (k * n)).take n ∈ orders ∨
      ((orders.flatten ++ tail).drop (k * n)).take n <+: tail := by
  induction orders generalizing k with
  | nil =>
    rw [List.flatten_nil, List.nil_append]
    cases k with
    | zero =>
      rw [Nat.zero_mul, List.drop_zero]
      exact Or.inr (List.take_prefix n tail)
    | succ k =>
      have hdrop : tail.drop ((k + 1) * n) = [] :=
        List.drop_eq_nil_of_le (htail.trans (Nat.le_mul_of_pos_left n (Nat.succ_pos k)))
      rw [hdrop, List.take_nil]
      exact Or.inr List.nil_prefix
  | cons order orders ih =>
    rw [List.forall_mem_cons] at horders
    rw [List.flatten_cons, List.append_assoc]
    cases k with
    | zero =>
      rw [Nat.zero_mul, List.drop_zero, List.take_append_of_le_length (Nat.le_of_eq horders.1.symm),
        List.take_of_length_le (Nat.le_of_eq horders.1)]
      exact Or.inl List.mem_cons_self
    | succ k =>
      have hdrop : (order ++ (orders.flatten ++ tail)).drop ((k + 1) * n) =
          (orders.flatten ++ tail).drop (k * n) := by
        rw [Nat.succ_mul, Nat.add_comm, ← List.drop_drop, List.drop_left' horders.1]
      rw [hdrop]
      exact (ih horders.2 k).imp_left (List.mem_cons_of_mem order)

theorem length_flatten_orders {n : ℕ} {orders : List (List ℤ)}
    (horders : ∀ order ∈ orders, order.length = n) : orders.flatten.length = orders.length * n := by
  induction orders with
  | nil => simp
  | cons order orders ih =>
    rw [List.forall_mem_cons] at horders
    rw [List.flatten_cons, List.length_append, List.length_cons, Nat.succ_mul, ih horders.2,
      horders.1, Nat.add_comm]

/-- **Each epoch is a start of an order of all clips**, and there are as many visits as steps. -/
theorem Visits.each (hregular : s.Regular) {past : List ℤ} {orders : List (List ℤ)}
    (h : s.Visits past orders) :
    (past.length : ℤ) = s.step ∧
      ∀ k, ∃ order, order.Perm ((List.range s.order.length).map Int.ofNat) ∧
        (past.drop (k * s.order.length)).take s.order.length <+: order := by
  obtain ⟨hperm, rfl, hepoch⟩ := h
  obtain ⟨k, hk⟩ := Int.eq_ofNat_of_zero_le hregular.step.1
  have hn : 0 < s.order.length := List.length_pos_iff.2 hregular.clips.1
  obtain ⟨hslot, hepoch', -⟩ := slot_eq (n := s.order.length) rfl hk
  have horders : ∀ order ∈ orders, order.length = s.order.length := by
    intro order horder
    rw [(hperm order horder).length_eq, List.length_map, List.length_range]
  have hlt : k % s.order.length < s.order.length := Nat.mod_lt k hn
  constructor
  · have hcount : orders.length = k / s.order.length := by omega
    have hdivision := Nat.div_add_mod k s.order.length
    rw [List.length_append, length_flatten_orders horders, List.length_take, hslot, hcount, hk,
      Nat.min_eq_left (Nat.le_of_lt hlt), Nat.mul_comm]
    rw [hdivision]
  · intro k'
    have htail : (s.order.take s.slot.toNat).length ≤ s.order.length := by
      rw [List.length_take]
      exact Nat.min_le_right _ _
    rcases slice_flatten horders htail k' with hmem | hstart
    · exact ⟨_, hperm _ hmem, List.prefix_refl _⟩
    · exact ⟨s.order, hregular.order, hstart.trans (List.take_prefix _ _)⟩

/-! ### Resuming -/

/-- **Resuming reproduces the training.** A run of any operations has the same outputs and ends in
the same state as the run without its checkpoints; every epoch goes through the clips in an order of
all of them; and what is serialized is parsed to the same state. When the schedule passed the
preflight check, no checkpoint fails. -/
theorem resume_reproduces (hshuffle : dice.Shuffles) {id : Bytes} {clips epochCount : ℤ}
    {seed : UInt32} {lr lrDecay : Number binary32}
    (hbegin : begin dice id clips epochCount seed lr lrDecay = .ok s₀)
    (hlr : floats.Lossless lr) (hdecay : floats.Lossless lrDecay) (ops : List Op) :
    (∀ outputs s, RunState.run dice floats ops s₀ = .ok (outputs, s) →
      RunState.run dice floats (ops.filter fun op => op ≠ .checkpoint) s₀ = .ok (outputs, s) ∧
      ((visited dice floats ops s₀).length : ℤ) = s.step ∧
      (∀ k, ∃ order, order.Perm ((List.range clips.toNat).map Int.ofNat) ∧
        ((visited dice floats ops s₀).drop (k * clips.toNat)).take clips.toNat <+: order) ∧
      ∀ text, s.serialize floats = .ok text → parse floats text = .ok s) ∧
    (preflight dice clips epochCount seed lr lrDecay = .ok () →
      ∃ outputs s text, RunState.run dice floats ops s₀ = .ok (outputs, s) ∧
        s.serialize floats = .ok text) := by
  obtain ⟨hregular, hepochs, hstep, hlr₀, hdecay₀, hclips⟩ := begin_eq_ok hshuffle hbegin
  have hreached : Reached s₀ s₀ := ⟨hregular, rfl, rfl, rfl, rfl⟩
  rw [← hlr₀] at hlr
  rw [← hdecay₀] at hdecay
  refine ⟨fun outputs s hrun => ?_, fun hpreflight => ?_⟩
  · obtain ⟨hs, hfiltered⟩ := hreached.run hshuffle hlr hdecay hrun
    have hstart : s₀.Visits [] [] := by
      obtain ⟨hslot, hepoch, -⟩ := slot_eq (s := s₀) (n := s₀.order.length) (k := 0) rfl hstep
      refine ⟨by simp, ?_, ?_⟩
      · rw [hslot, Nat.zero_mod]
        rfl
      · rw [hepoch, Nat.zero_div]
        rfl
    obtain ⟨orders, hvisits⟩ := hstart.run hshuffle hlr hdecay hreached hrun
    obtain ⟨hlength, heach⟩ := hvisits.each hs.regular
    rw [List.nil_append] at hlength heach
    rw [hs.clips, hclips] at heach
    exact ⟨hfiltered, hlength, heach, fun text htext => hs.checkpoint hlr hdecay htext⟩
  · have hpositive := isPositive_of_preflight hshuffle hpreflight
    rw [← hlr₀, ← hdecay₀, ← hepochs] at hpositive
    obtain ⟨outputs, s, hrun⟩ := hreached.exists_run hshuffle hlr hdecay hpositive ops
    obtain ⟨text, htext⟩ :=
      (hreached.run hshuffle hlr hdecay hrun).1.exists_serialize hpositive hlr hdecay
    exact ⟨outputs, s, text, hrun, htext⟩

/-! ### Two clips and two epochs -/

/-- A new word from one, its neighbour and a distant one. -/
def twist (word neighbour distant : UInt64) : UInt64 :=
  let y := (word &&& 0x80000000) ||| (neighbour &&& 0x7fffffff)
  distant ^^^ (y >>> 1) ^^^ (if y &&& 1 = 1 then 0x9908b0df else 0)

/-- `_M_gen_rand`: the words one after the other. -/
def regenerate (words : List UInt64) : List UInt64 :=
  (List.range 624).foldl (fun words k => words.set k
    (twist (words.getD k 0) (words.getD ((k + 1) % 624) 0) (words.getD ((k + 397) % 624) 0))) words

theorem length_regenerate (words : List UInt64) : (regenerate words).length = words.length := by
  rw [regenerate]
  induction List.range 624 generalizing words with
  | nil => rfl
  | cons k rest ih => rw [List.foldl_cons, ih, List.length_set]

def temper (word : UInt64) : UInt64 :=
  let z := word ^^^ (word >>> 11)
  let z := z ^^^ ((z <<< 7) &&& 0x9d2c5680)
  let z := z ^^^ ((z <<< 15) &&& 0xefc60000)
  z ^^^ (z >>> 18)

/-- A call of the engine. -/
def draw (engine : Mt19937) : UInt64 × Mt19937 :=
  let engine : Mt19937 :=
    if engine.position < 624 then engine
    else ⟨regenerate engine.words, 0, (length_regenerate _).trans engine.length_words⟩
  (temper (engine.words.getD engine.position.toNat 0),
    { engine with position := engine.position + 1 })

/-- `std::shuffle` of two elements: the highest bit of a word says where the second one goes. Other
ranges and numbers are not drawn below. -/
def pairDice : Dice where
  shuffle
    | [a, b], engine =>
      let (word, engine) := draw engine
      (if word < 0x80000000 then [b, a] else [a, b], engine)
    | l, engine => (l, engine)
  uniformInt low _ engine := (low, engine)

theorem shuffles_pairDice : pairDice.Shuffles := by
  intro l engine
  rcases l with _ | ⟨a, _ | ⟨b, _ | ⟨c, l⟩⟩⟩
  · exact List.Perm.refl _
  · exact List.Perm.refl _
  · change (if (draw engine).1 < 0x80000000 then [b, a] else [a, b]).Perm [a, b]
    split_ifs
    · exact List.Perm.swap a b []
    · exact List.Perm.refl _
  · exact List.Perm.refl _

def one : Single where
  negative := false
  magnitude := 1
  representable := by
    simpa using Format.representable_natCast (F := binary32) (n := 1) (by decide) (by decide)
  bounded := by norm_num [binary32]

/-- The text of one. -/
def oneText : FloatText where
  write _ := bytes "1"
  read s := (readToken s).map fun v => (some one, v.2)

theorem lossless_one : oneText.Lossless (some one) where
  readsBack w rest hw hrest := by
    have hread := readsBack_token (t := bytes "1") (by decide)
      (forall_mem_of_all (by decide)) w rest hw hrest
    change (readToken (w ++ (bytes "1" ++ rest))).map _ = _
    rw [hread, Option.map_some]
  short := by decide

/-- Two clips in some order. -/
def twoClips (shuffled : List ℤ × Mt19937) : RunState where
  identity := preflightIdentity
  epochs := 2
  initialLr := some one
  decay := some one
  order := shuffled.1
  random := shuffled.2

theorem isRate_one : isRate (some one) = true := by
  rw [isRate, Bool.and_eq_true, decide_eq_true_eq, decide_eq_true_eq]
  exact ⟨show (0 : ℚ) < 1 by norm_num, show (1 : ℚ) ≤ 1 from le_rfl⟩

theorem mul_one_one : Number.mul (some one) (some one) = some one := by
  have hrepresentable : binary32.Representable |1 * 1| := by
    rw [mul_one, abs_one]
    exact one.representable
  obtain ⟨x, hx, hsign, hmagnitude⟩ :=
    exists_ofMagnitude_eq false hrepresentable (by norm_num [binary32])
  rw [mul_one, abs_one] at hmagnitude
  exact hx.trans (congrArg some (Finite.ext hsign hmagnitude))

theorem rateAfter_one (epochs : ℕ) : rateAfter (some one) (some one) epochs = some one := by
  induction epochs with
  | zero => rfl
  | succ epochs ih => rw [rateAfter, ih, mul_one_one]

theorem validate_twoClips {shuffled : List ℤ × Mt19937} (hperm : shuffled.1.Perm [0, 1]) {step : ℤ}
    (hstep : 0 ≤ step ∧ step ≤ 4) : { twoClips shuffled with step }.validate = .ok () := by
  have hlength : shuffled.1.length = 2 := hperm.length_eq
  have hregular : { twoClips shuffled with step }.Regular := by
    refine ⟨show Io.BlockFiles.validDigest preflightIdentity = true by decide, ⟨?_, ?_⟩,
      ⟨show (1 : ℤ) ≤ 2 by decide, show (2 : ℤ) ≤ 2000 by decide⟩, ⟨hstep.1, ?_⟩,
      ⟨isRate_one, isRate_one⟩, ?_⟩
    · exact List.ne_nil_of_length_pos (hlength ▸ Nat.two_pos)
    · exact hlength.trans_le (by decide)
    · change step ≤ 2 * (shuffled.1.length : ℤ)
      rw [hlength]
      exact hstep.2
    · change shuffled.1.Perm ((List.range shuffled.1.length).map Int.ofNat)
      rw [hlength]
      exact hperm
  exact validate_eq_ok_iff.2 ⟨hregular, one,
    learningRate_eq_ok_iff.2 ⟨rateAfter_one _, show (0 : ℚ) < 1 by norm_num⟩⟩

theorem begin_twoClips {shuffled : List ℤ × Mt19937}
    (h : pairDice.shuffle [0, 1] (Mt19937.seed 7) = shuffled) (hperm : shuffled.1.Perm [0, 1]) :
    begin pairDice preflightIdentity 2 2 7 (some one) (some one) = .ok (twoClips shuffled) := by
  have hvalid : { twoClips shuffled with step := 0 }.validate = .ok () :=
    validate_twoClips hperm (by decide)
  have hrange : (List.range (2 : ℤ).toNat).map Int.ofNat = [0, 1] := rfl
  rw [begin, if_neg (by decide), hrange, h]
  change (RunState.validate (twoClips shuffled)).map _ = _
  rw [show (twoClips shuffled).validate = .ok () from hvalid]
  rfl

theorem preflight_twoClips {shuffled : List ℤ × Mt19937}
    (h : pairDice.shuffle [0, 1] (Mt19937.seed 7) = shuffled) (hperm : shuffled.1.Perm [0, 1]) :
    preflight pairDice 2 2 7 (some one) (some one) = .ok () := by
  rw [preflight, begin_twoClips h hperm]
  change { twoClips shuffled with step := 2 * (shuffled.1.length : ℤ) }.validate = .ok ()
  rw [hperm.length_eq]
  exact validate_twoClips hperm (by decide)

/-- The operations of a training with a checkpoint in each epoch. -/
def twoEpochs : List Op :=
  [.clip, .advance, .checkpoint, .clip, .advance, .rate, .clip, .checkpoint, .advance, .clip, .advance]

theorem resume_reproduces_twoClips :
    ∃ shuffled outputs s text, shuffled = pairDice.shuffle [0, 1] (Mt19937.seed 7) ∧
      RunState.run pairDice oneText twoEpochs (twoClips shuffled) = .ok (outputs, s) ∧
      RunState.run pairDice oneText (twoEpochs.filter fun op => op ≠ .checkpoint)
        (twoClips shuffled) = .ok (outputs, s) ∧
      s.step = (visited pairDice oneText twoEpochs (twoClips shuffled)).length ∧
      s.serialize oneText = .ok text ∧ parse oneText text = .ok s := by
  have hperm := shuffles_pairDice [0, 1] (Mt19937.seed 7)
  generalize hshuffled : pairDice.shuffle [0, 1] (Mt19937.seed 7) = shuffled at hperm
  obtain ⟨hruns, hcompletes⟩ := resume_reproduces shuffles_pairDice
    (begin_twoClips hshuffled hperm) lossless_one lossless_one twoEpochs
  obtain ⟨outputs, s, text, hrun, htext⟩ := hcompletes (preflight_twoClips hshuffled hperm)
  obtain ⟨hfiltered, hvisited, -, hparse⟩ := hruns outputs s hrun
  exact ⟨shuffled, outputs, s, text, rfl, hrun, hfiltered, hvisited.symm, htext,
    hparse text htext⟩

end RunState

end Resonantia.Training
