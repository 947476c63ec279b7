import Mathlib.Data.List.Sort
import Mathlib.Order.Lattice
import Mathlib.Order.Defs.LinearOrder
import Resonantia.Library.Slice

/-!
# F0 processing in memory

The legacy pipeline processes the F0 of a whole clip in memory: `interp_unvoiced_f0` fills unvoiced
frames in place, `median_filter` smooths the curve, and `convert_long` shifts the voiced frames.

What the interpolation leaves is described by `fillGaps`, a recursion over the frames: it keeps the
last voiced value and the length of the gap since, and fills the gap when the next voiced frame
comes.

## Main definitions

* `Pipeline.interpUnvoicedF0`, `Pipeline.medianFilter`, `Pipeline.legacyF0`: the legacy processing.
* `Pipeline.fillFrom`, `Pipeline.fillGaps`: the filled frames.

## Main results

* `Pipeline.interpUnvoicedF0_eq_fillGaps`: the loops in place fill the gaps.
-/

namespace Resonantia.Pipeline

open Slices

variable {α : Type} [LinearOrder α] [Zero α]

/-! ### Filled gaps -/

/-- The frames behind a voiced frame of value `left` and `gap` unvoiced ones: a gap is filled by
`line` when it ends, and with the last voiced value at the end of the frames. -/
def fillFrom (line : α → α → ℕ → ℕ → α) (left : α) (gap : ℕ) : List α → List α
  | [] => List.replicate gap left
  | x :: f0 =>
    if 0 < x then
      (List.range' 1 gap).map (fun k => line left x k (gap + 1)) ++ x :: fillFrom line x 0 f0
    else fillFrom line left (gap + 1) f0

/-- The filled frames; frames in front of the first voiced one take its value. -/
def fillGaps (line : α → α → ℕ → ℕ → α) (f0 : List α) : List α :=
  match f0.findIdx? (fun x => decide (0 < x)) with
  | none => f0
  | some first =>
    List.replicate (first + 1) (f0.getD first 0) ++
      fillFrom line (f0.getD first 0) 0 (f0.drop (first + 1))

section Fill

variable (line : α → α → ℕ → ℕ → α)

/-- Unvoiced frames make the gap longer. -/
theorem fillFrom_append_of_unvoiced {left : α} {gap : ℕ} {quiet : List α}
    (h : ∀ x ∈ quiet, ¬0 < x) (f0 : List α) :
    fillFrom line left gap (quiet ++ f0) = fillFrom line left (gap + quiet.length) f0 := by
  induction quiet generalizing gap with
  | nil => rfl
  | cons x quiet ih =>
    rw [List.cons_append, fillFrom, if_neg (h x List.mem_cons_self),
      ih fun y hy => h y (List.mem_cons_of_mem _ hy), List.length_cons, Nat.add_right_comm,
      Nat.add_assoc]

/-- Unvoiced frames behind the last voiced one take its value. -/
theorem fillFrom_append_tail {left y : α} {gap : ℕ} {f0 quiet : List α} (hy : 0 < y)
    (h : ∀ x ∈ quiet, ¬0 < x) :
    fillFrom line left gap (f0 ++ y :: quiet) =
      fillFrom line left gap (f0 ++ [y]) ++ List.replicate quiet.length y := by
  induction f0 generalizing left gap with
  | nil =>
    have hquiet := @fillFrom_append_of_unvoiced α _ _ line y 0 quiet h []
    rw [List.append_nil, Nat.zero_add] at hquiet
    simp only [List.nil_append, fillFrom, if_pos hy, hquiet, List.append_assoc, List.cons_append]
    rfl
  | cons x f0 ih =>
    rw [List.cons_append, List.cons_append, fillFrom, fillFrom]
    split
    · rw [ih, List.append_assoc, List.cons_append]
    · exact ih

end Fill

/-! ### The legacy functions -/

/-- `first` and `last`: the first and the last voiced frame, if there is one. -/
def voicedBounds (f0 : List α) : Option (ℕ × ℕ) :=
  f0.zipIdx.foldl
    (fun bounds frame =>
      if 0 < frame.1 then some ((bounds.map Prod.fst).getD frame.2, frame.2) else bounds) none

/-- A loop that assigns `value k` to the elements `k` of `[start, start + count)`. -/
def setRange (f0 : List α) (start count : ℕ) (value : ℕ → α) : List α :=
  (List.range' start count).foldl (fun f0 k => f0.set k (value k)) f0

/-- The inner `while`: the first frame from `b` on that is voiced, or behind the last voiced one. -/
def nextVoiced (f0 : List α) (last b : ℕ) : ℕ :=
  if b ≤ last ∧ f0.getD b 0 ≤ 0 then nextVoiced f0 last (b + 1) else b
termination_by last + 1 - b

theorem le_nextVoiced (f0 : List α) (last b : ℕ) : b ≤ nextVoiced f0 last b := by
  induction hd : last + 1 - b using Nat.strongRecOn generalizing b with
  | ind d ih =>
    rw [nextVoiced]
    split
    · have hrec := ih (last + 1 - (b + 1)) (by omega) (b + 1) rfl
      omega
    · exact Nat.le_refl b

theorem lt_nextVoiced {f0 : List α} {last i : ℕ} (hi : i ≤ last) (h : ¬0 < f0.getD i 0) :
    i < nextVoiced f0 last i := by
  rw [nextVoiced, if_pos ⟨hi, not_lt.1 h⟩]
  exact le_nextVoiced f0 last (i + 1)

section Legacy

variable [Add α] [Sub α] [Mul α] [Div α] [NatCast α]

/-- The value in a gap of `interp_unvoiced_f0`. -/
def legacyLine (fa fb : α) (k distance : ℕ) : α := fa + (fb - fa) * (k : α) / (distance : α)

/-- The loop of `interp_unvoiced_f0` between the first and the last voiced frame. -/
def interpLoop (f0 : List α) (last i : ℕ) : List α :=
  if _hi : i ≤ last then
    if _hvoiced : 0 < f0.getD i 0 then interpLoop f0 last (i + 1)
    else
      let a := i - 1
      let b := nextVoiced f0 last i
      let fa := f0.getD a 0
      let fb := f0.getD b 0
      interpLoop (setRange f0 (a + 1) (b - (a + 1)) fun k => legacyLine fa fb (k - a) (b - a))
        last b
  else f0
termination_by last + 1 - i
decreasing_by
  · omega
  · have hlt := lt_nextVoiced _hi _hvoiced
    omega

/-- `interp_unvoiced_f0`. -/
def interpUnvoicedF0 (f0 : List α) : List α :=
  match voicedBounds f0 with
  | none => f0
  | some (first, last) =>
    let n := f0.length
    let f0 := setRange f0 0 first fun _ => f0.getD first 0
    let f0 := setRange f0 (last + 1) (n - (last + 1)) fun _ => f0.getD last 0
    interpLoop f0 last first

/-- `std::clamp` of an index to the frames. -/
def clampIndex (n : ℕ) (i : ℤ) : ℕ := (max 0 (min i ((n : ℤ) - 1))).toNat

/-- `std::sort`, ascending. -/
def sorted (window : List α) : List α := window.insertionSort (· ≤ ·)

/-- `median_filter`. -/
def medianFilter (f0 : List α) (kernel : ℕ) : List α :=
  if kernel < 3 then f0
  else
    let r := (kernel - 1) / 2
    (List.range f0.length).map fun (i : ℕ) =>
      let window := (List.range (2 * r + 1)).map fun (j : ℕ) =>
        f0.getD (clampIndex f0.length ((i : ℤ) + ((j : ℤ) - r))) 0
      (sorted window).getD (window.length / 2) 0

/-- The F0 processing of `convert_long`; `pitchFactor` is `std::pow(2.0f, shift / 12.0f)`. -/
def legacyF0 (pitchFactor : ℤ → α) (interpUnvoiced : Bool) (filterRadius f0UpKey : ℤ)
    (f0 : List α) : List α :=
  let f0 := if interpUnvoiced then interpUnvoicedF0 f0 else f0
  let f0 := if filterRadius ≥ 3 then medianFilter f0 (filterRadius.toNat ||| 1) else f0
  if f0UpKey ≠ 0 then f0.map fun v => if 0 < v then v * pitchFactor f0UpKey else v else f0

end Legacy

/-! ### The loops in place -/

omit [LinearOrder α] [Zero α] in
/-- A loop of assignments replaces a part of the list. -/
theorem setRange_append (before part after : List α) (value : ℕ → α) :
    setRange (before ++ part ++ after) before.length part.length value =
      before ++ (List.range' before.length part.length).map value ++ after := by
  induction part generalizing before with
  | nil => simp [setRange]
  | cons x part ih =>
    have hset : (before ++ x :: part ++ after).set before.length (value before.length) =
        (before ++ [value before.length]) ++ part ++ after := by
      rw [List.append_assoc, List.set_append_right _ _ (Nat.le_refl _), Nat.sub_self,
        List.cons_append, List.set_cons_zero]
      simp
    have hrec := ih (before ++ [value before.length])
    rw [List.length_append, List.length_singleton] at hrec
    rw [setRange] at hrec ⊢
    rw [List.length_cons, List.range'_succ, List.foldl_cons, hset, hrec, List.map_cons]
    simp

/-- The search stops at the next voiced frame. -/
theorem nextVoiced_eq {f0 before quiet after : List α} {y : α} {last : ℕ}
    (hf0 : f0 = before ++ quiet ++ y :: after) (hquiet : ∀ x ∈ quiet, ¬0 < x) (hy : 0 < y)
    (hlast : before.length + quiet.length ≤ last) :
    nextVoiced f0 last before.length = before.length + quiet.length := by
  induction quiet generalizing before with
  | nil =>
    have hget : f0.getD before.length 0 = y := by
      rw [hf0, List.append_nil, List.getD_eq_getElem?_getD, List.getElem?_append_right (le_refl _),
        Nat.sub_self]
      rfl
    rw [nextVoiced, hget, if_neg fun h => not_lt.2 h.2 hy]
    rfl
  | cons x quiet ih =>
    have hget : f0.getD before.length 0 = x := by
      rw [hf0, List.append_assoc, List.getD_eq_getElem?_getD,
        List.getElem?_append_right (le_refl _), Nat.sub_self]
      rfl
    have hx := not_lt.1 (hquiet x List.mem_cons_self)
    have hrec := @ih (before ++ [x]) (by rw [hf0]; simp)
      (fun z hz => hquiet z (List.mem_cons_of_mem _ hz))
      (by rw [List.length_append, List.length_singleton]; rw [List.length_cons] at hlast; omega)
    rw [List.length_append, List.length_singleton] at hrec
    rw [List.length_cons] at hlast ⊢
    rw [nextVoiced, hget, if_pos ⟨by omega, hx⟩, hrec]
    omega

/-- The voiced part behind a voiced frame splits at its next voiced frame. -/
theorem exists_quiet_append (f0 : List α) (z : α) (hz : 0 < z) :
    ∃ quiet y after, f0 ++ [z] = quiet ++ y :: after ∧ (∀ x ∈ quiet, ¬0 < x) ∧ 0 < y ∧
      (after = [] ∨ ∃ f0', after = f0' ++ [z]) := by
  induction f0 with
  | nil => exact ⟨[], z, [], rfl, fun x hx => absurd hx List.not_mem_nil, hz, Or.inl rfl⟩
  | cons x f0 ih =>
    by_cases hx : 0 < x
    · exact ⟨[], x, f0 ++ [z], rfl, fun x hx => absurd hx List.not_mem_nil, hx, Or.inr ⟨f0, rfl⟩⟩
    · obtain ⟨quiet, y, after, heq, hquiet, hy, hafter⟩ := ih
      refine ⟨x :: quiet, y, after, by rw [List.cons_append, heq, List.cons_append], ?_, hy, hafter⟩
      intro w hw
      rcases List.mem_cons.1 hw with rfl | hw
      · exact hx
      · exact hquiet w hw

omit [LinearOrder α] in
theorem getD_append_cons (before after : List α) (y : α) :
    (before ++ y :: after).getD before.length 0 = y := by
  rw [List.getD_eq_getElem?_getD, List.getElem?_append_right (le_refl _), Nat.sub_self]
  rfl

section Loop

variable [Add α] [Sub α] [Mul α] [Div α] [NatCast α]

/-- The loop passes a voiced frame. -/
theorem interpLoop_of_voiced (before after : List α) {y : α} {last : ℕ} (hy : 0 < y)
    (hlast : before.length ≤ last) :
    interpLoop (before ++ y :: after) last before.length =
      interpLoop (before ++ y :: after) last (before.length + 1) := by
  rw [interpLoop, dif_pos hlast, dif_pos (by rw [getD_append_cons]; exact hy)]

/-- The loop fills a gap behind a voiced frame. -/
theorem interpLoop_of_quiet (before after : List α) (left : α) {quiet : List α} {y : α} {last : ℕ}
    (hquiet : ∀ x ∈ quiet, ¬0 < x) (hne : quiet ≠ []) (hy : 0 < y)
    (hlast : before.length + 1 + quiet.length ≤ last) :
    interpLoop (before ++ [left] ++ quiet ++ y :: after) last (before.length + 1) =
      interpLoop (before ++ [left] ++
        (List.range' 1 quiet.length).map (fun k => legacyLine left y k (quiet.length + 1)) ++
          y :: after) last (before.length + 1 + quiet.length) := by
  have hlength : (before ++ [left]).length = before.length + 1 := by
    rw [List.length_append, List.length_singleton]
  have hnext : nextVoiced (before ++ [left] ++ quiet ++ y :: after) last (before.length + 1) =
      before.length + 1 + quiet.length := by
    rw [← hlength] at hlast ⊢
    exact nextVoiced_eq rfl hquiet hy hlast
  have hquiet' : ¬0 < (before ++ [left] ++ quiet ++ y :: after).getD (before.length + 1) 0 := by
    cases quiet with
    | nil => exact absurd rfl hne
    | cons x quiet =>
      have hget := getD_append_cons (before ++ [left]) (quiet ++ y :: after) x
      rw [hlength] at hget
      rw [List.append_assoc _ (x :: quiet), List.cons_append, hget]
      exact hquiet x List.mem_cons_self
  have hfa : (before ++ [left] ++ quiet ++ y :: after).getD before.length 0 = left := by
    rw [List.append_assoc, List.append_assoc]
    exact getD_append_cons before _ left
  have hfb : (before ++ [left] ++ quiet ++ y :: after).getD
      (before.length + 1 + quiet.length) 0 = y := by
    rw [← hlength, ← List.length_append]
    exact getD_append_cons _ after y
  have hset := setRange_append (before ++ [left]) quiet (y :: after)
    fun k => legacyLine left y (k - before.length) (quiet.length + 1)
  have hcount : before.length + 1 + quiet.length - (before.length + 1) = quiet.length := by omega
  have hdistance : before.length + 1 + quiet.length - before.length = quiet.length + 1 := by omega
  have hline : (List.range' (before.length + 1) quiet.length).map
      (fun k => legacyLine left y (k - before.length) (quiet.length + 1)) =
        (List.range' 1 quiet.length).map fun k => legacyLine left y k (quiet.length + 1) := by
    rw [List.range'_eq_map_range, List.range'_eq_map_range, List.map_map, List.map_map]
    refine List.map_congr_left fun k _ => ?_
    have hindex : before.length + 1 + k - before.length = 1 + k := by omega
    simp only [Function.comp_apply, hindex]
  rw [hlength, hline] at hset
  rw [interpLoop, dif_pos (by omega), dif_neg hquiet']
  dsimp only
  rw [Nat.add_sub_cancel, hnext, hfa, hfb, hcount, hdistance, hset]

/-- From behind a voiced frame on, the loop fills the gaps up to the last voiced frame. -/
theorem interpLoop_eq (before : List α) (left : α) {middle : List α} (tail : List α) {last : ℕ}
    (hmiddle : middle = [] ∨ ∃ f0 z, middle = f0 ++ [z] ∧ 0 < z)
    (hlast : before.length + 1 + middle.length = last + 1) :
    interpLoop (before ++ [left] ++ middle ++ tail) last (before.length + 1) =
      before ++ [left] ++ fillFrom legacyLine left 0 middle ++ tail := by
  -- The induction is on the number of frames up to the last voiced one.
  induction hd : middle.length using Nat.strongRecOn generalizing before left middle with
  | ind d ih =>
    rcases hmiddle with rfl | ⟨f0, z, rfl, hz⟩
    · rw [interpLoop, dif_neg (by rw [List.length_nil] at hlast; omega)]
      simp [fillFrom]
    · obtain ⟨quiet, y, after, heq, hquiet, hy, hafter⟩ := exists_quiet_append f0 z hz
      rw [heq] at hlast hd ⊢
      rw [List.length_append, List.length_cons] at hlast hd
      have hafter' : after = [] ∨ ∃ f0 z, after = f0 ++ [z] ∧ 0 < z :=
        hafter.imp_right fun ⟨f0', hf0'⟩ => ⟨f0', z, hf0', hz⟩
      have hfill : fillFrom legacyLine left 0 (quiet ++ y :: after) =
          (List.range' 1 quiet.length).map (fun k => legacyLine left y k (quiet.length + 1)) ++
            y :: fillFrom legacyLine y 0 after := by
        rw [fillFrom_append_of_unvoiced _ hquiet, fillFrom, if_pos hy, Nat.zero_add]
      have hpass (filled : List α) (hfilled : filled.length = quiet.length) :
          interpLoop (before ++ [left] ++ filled ++ y :: after ++ tail) last
              (before.length + 1 + quiet.length) =
            before ++ [left] ++ filled ++ y :: fillFrom legacyLine y 0 after ++ tail := by
        have hlength : (before ++ [left] ++ filled).length =
            before.length + 1 + quiet.length := by
          rw [List.length_append, List.length_append, List.length_singleton, hfilled]
        have hrec := @ih after.length (by omega) (before ++ [left] ++ filled) y after hafter'
          (by rw [hlength]; omega) rfl
        have hcons (rest : List α) : before ++ [left] ++ filled ++ y :: rest =
            before ++ [left] ++ filled ++ [y] ++ rest := by simp
        have hstep := interpLoop_of_voiced (before ++ [left] ++ filled) (after ++ tail) hy
          (show (before ++ [left] ++ filled).length ≤ last by rw [hlength]; omega)
        rw [hlength] at hstep hrec
        rw [hcons (fillFrom legacyLine y 0 after), ← hrec, ← hcons after,
          List.append_assoc _ (y :: after), List.cons_append]
        exact hstep
      by_cases hne : quiet = []
      · subst hne
        have hnone := hpass [] rfl
        rw [hfill]
        simpa using hnone
      · have hgap := interpLoop_of_quiet before (after ++ tail) left hquiet hne hy
          (show before.length + 1 + quiet.length ≤ last by omega)
        have hfilled := hpass
          ((List.range' 1 quiet.length).map fun k => legacyLine left y k (quiet.length + 1))
          (by rw [List.length_map, List.length_range'])
        rw [hfill]
        simp only [List.append_assoc, List.cons_append] at hgap hfilled ⊢
        rw [hgap, hfilled]

end Loop

/-! ### The first and the last voiced frame -/

theorem exists_first_voiced (f0 : List α) :
    (∀ x ∈ f0, ¬0 < x) ∨
      ∃ quiet v rest, f0 = quiet ++ v :: rest ∧ (∀ x ∈ quiet, ¬0 < x) ∧ 0 < v := by
  induction f0 with
  | nil => exact Or.inl fun x hx => absurd hx List.not_mem_nil
  | cons x f0 ih =>
    by_cases hx : 0 < x
    · exact Or.inr ⟨[], x, f0, rfl, fun x hx => absurd hx List.not_mem_nil, hx⟩
    · rcases ih with hnone | ⟨quiet, v, rest, rfl, hquiet, hv⟩
      · exact Or.inl (List.forall_mem_cons.2 ⟨hx, hnone⟩)
      · exact Or.inr ⟨x :: quiet, v, rest, rfl, List.forall_mem_cons.2 ⟨hx, hquiet⟩, hv⟩

theorem exists_last_voiced (f0 : List α) :
    ∃ middle quiet, f0 = middle ++ quiet ∧ (∀ x ∈ quiet, ¬0 < x) ∧
      (middle = [] ∨ ∃ f0' z, middle = f0' ++ [z] ∧ 0 < z) := by
  induction f0 with
  | nil => exact ⟨[], [], rfl, fun x hx => absurd hx List.not_mem_nil, Or.inl rfl⟩
  | cons x f0 ih =>
    obtain ⟨middle, quiet, rfl, hquiet, rfl | ⟨f0', z, rfl, hz⟩⟩ := ih
    · by_cases hx : 0 < x
      · exact ⟨[x], quiet, rfl, hquiet, Or.inr ⟨[], x, rfl, hx⟩⟩
      · exact ⟨[], x :: quiet, rfl, List.forall_mem_cons.2 ⟨hx, hquiet⟩, Or.inl rfl⟩
    · exact ⟨x :: (f0' ++ [z]), quiet, rfl, hquiet, Or.inr ⟨x :: f0', z, rfl, hz⟩⟩

/-- The search of `voicedBounds` on a part of the frames. -/
def voicedStep (bounds : Option (ℕ × ℕ)) (frame : α × ℕ) : Option (ℕ × ℕ) :=
  if 0 < frame.1 then some ((bounds.map Prod.fst).getD frame.2, frame.2) else bounds

theorem foldl_voicedStep_of_quiet {quiet : List α} (h : ∀ x ∈ quiet, ¬0 < x) (n : ℕ)
    (bounds : Option (ℕ × ℕ)) : (quiet.zipIdx n).foldl voicedStep bounds = bounds := by
  induction quiet generalizing n with
  | nil => rfl
  | cons x quiet ih =>
    rw [List.zipIdx_cons, List.foldl_cons, voicedStep, if_neg (h x List.mem_cons_self)]
    exact ih (fun y hy => h y (List.mem_cons_of_mem _ hy)) (n + 1)

theorem foldl_voicedStep_of_some (f0 : List α) (n first last : ℕ) :
    ∃ last', (f0.zipIdx n).foldl voicedStep (some (first, last)) = some (first, last') := by
  induction f0 generalizing n last with
  | nil => exact ⟨last, rfl⟩
  | cons x f0 ih =>
    rw [List.zipIdx_cons, List.foldl_cons, voicedStep]
    split
    · exact ih (n + 1) n
    · exact ih (n + 1) last

theorem voicedBounds_of_quiet {f0 : List α} (h : ∀ x ∈ f0, ¬0 < x) : voicedBounds f0 = none :=
  foldl_voicedStep_of_quiet h 0 none

theorem voicedBounds_eq {quiet middle tail : List α} {v : α} (hquiet : ∀ x ∈ quiet, ¬0 < x)
    (hv : 0 < v) (hmiddle : middle = [] ∨ ∃ f0 z, middle = f0 ++ [z] ∧ 0 < z)
    (htail : ∀ x ∈ tail, ¬0 < x) :
    voicedBounds (quiet ++ v :: (middle ++ tail)) =
      some (quiet.length, quiet.length + middle.length) := by
  change List.foldl voicedStep none _ = _
  rw [List.zipIdx_append, List.foldl_append, foldl_voicedStep_of_quiet hquiet, List.zipIdx_cons,
    List.foldl_cons, voicedStep, if_pos hv, List.zipIdx_append, List.foldl_append,
    foldl_voicedStep_of_quiet htail, Nat.zero_add]
  rcases hmiddle with rfl | ⟨f0, z, rfl, hz⟩
  · rfl
  · obtain ⟨last, hlast⟩ := foldl_voicedStep_of_some f0 (quiet.length + 1) quiet.length quiet.length
    rw [List.zipIdx_append, List.foldl_append]
    change List.foldl voicedStep
      (List.foldl voicedStep (some (quiet.length, quiet.length)) _) _ = _
    rw [hlast, List.zipIdx_cons, List.zipIdx_nil, List.foldl_cons, List.foldl_nil, voicedStep,
      if_pos hz, List.length_append, List.length_singleton]
    simp only [Option.map_some, Option.getD_some]
    congr 2
    omega

/-- The first voiced frame of `fillGaps`. -/
theorem fillGaps_eq (line : α → α → ℕ → ℕ → α) {quiet : List α} {v : α}
    (hquiet : ∀ x ∈ quiet, ¬0 < x) (hv : 0 < v) (rest : List α) :
    fillGaps line (quiet ++ v :: rest) =
      List.replicate (quiet.length + 1) v ++ fillFrom line v 0 rest := by
  have hindex : (quiet ++ v :: rest).findIdx? (fun x => decide (0 < x)) = some quiet.length := by
    induction quiet with
    | nil => rw [List.nil_append, List.findIdx?_cons, decide_eq_true hv, if_pos rfl]; rfl
    | cons x quiet ih =>
      rw [List.cons_append, List.findIdx?_cons,
        decide_eq_false (hquiet x List.mem_cons_self), if_neg Bool.false_ne_true,
        ih fun y hy => hquiet y (List.mem_cons_of_mem _ hy)]
      rfl
  have hdrop : (quiet ++ v :: rest).drop (quiet.length + 1) = rest := by
    rw [← List.drop_drop, List.drop_left]
    rfl
  rw [fillGaps, hindex]
  dsimp only
  rw [getD_append_cons, hdrop]

/-- Behind a voiced frame and a part that ends with a voiced frame, unvoiced frames take the last
voiced value. -/
theorem fillFrom_append_quiet (line : α → α → ℕ → ℕ → α) {v : α} {middle tail : List α}
    (hmiddle : middle = [] ∨ ∃ f0 z, middle = f0 ++ [z] ∧ 0 < z) (htail : ∀ x ∈ tail, ¬0 < x) :
    fillFrom line v 0 (middle ++ tail) =
      fillFrom line v 0 middle ++ List.replicate tail.length ((v :: middle).getD middle.length 0) := by
  rcases hmiddle with rfl | ⟨f0, z, rfl, hz⟩
  · have hquiet := @fillFrom_append_of_unvoiced α _ _ line v 0 tail htail []
    rw [List.append_nil, Nat.zero_add] at hquiet
    rw [List.nil_append, hquiet]
    rfl
  · have hlast : (v :: (f0 ++ [z])).getD (f0 ++ [z]).length 0 = z := by
      rw [List.length_append, List.length_singleton, ← List.cons_append,
        ← List.length_cons (a := v)]
      exact getD_append_cons (v :: f0) [] z
    rw [hlast, List.append_assoc]
    exact fillFrom_append_tail line hz htail

theorem fillGaps_of_quiet (line : α → α → ℕ → ℕ → α) {f0 : List α} (h : ∀ x ∈ f0, ¬0 < x) :
    fillGaps line f0 = f0 := by
  have hnone : f0.findIdx? (fun x => decide (0 < x)) = none :=
    List.findIdx?_eq_none_iff.2 fun x hx => decide_eq_false (h x hx)
  rw [fillGaps, hnone]

/-- **The loops in place fill the gaps.** -/
theorem interpUnvoicedF0_eq_fillGaps [Add α] [Sub α] [Mul α] [Div α] [NatCast α] (f0 : List α) :
    interpUnvoicedF0 f0 = fillGaps legacyLine f0 := by
  rcases exists_first_voiced f0 with hquiet | ⟨quiet, v, rest, rfl, hquiet, hv⟩
  · rw [interpUnvoicedF0, voicedBounds_of_quiet hquiet, fillGaps_of_quiet _ hquiet]
  · obtain ⟨middle, tail, rfl, htail, hmiddle⟩ := exists_last_voiced rest
    rw [fillGaps_eq _ hquiet hv, interpUnvoicedF0, voicedBounds_eq hquiet hv hmiddle htail]
    have hfirst : setRange (quiet ++ v :: (middle ++ tail)) 0 quiet.length
        (fun _ => (quiet ++ v :: (middle ++ tail)).getD quiet.length 0) =
          List.replicate quiet.length v ++ v :: (middle ++ tail) := by
      have hset := setRange_append [] quiet (v :: (middle ++ tail)) fun _ => v
      rw [List.length_nil, List.map_const', List.length_range', List.nil_append,
        List.nil_append] at hset
      rw [getD_append_cons, hset]
    have hlast : (List.replicate quiet.length v ++ v :: (middle ++ tail)).getD
        (quiet.length + middle.length) 0 = (v :: middle).getD middle.length 0 := by
      rw [List.getD_eq_getElem?_getD, List.getD_eq_getElem?_getD,
        List.getElem?_append_right (by rw [List.length_replicate]; omega), List.length_replicate,
        Nat.add_sub_cancel_left, ← List.cons_append,
        List.getElem?_append_left (by rw [List.length_cons]; omega)]
    have hsecond : setRange (List.replicate quiet.length v ++ v :: (middle ++ tail))
        (quiet.length + middle.length + 1) tail.length
        (fun _ => (v :: middle).getD middle.length 0) =
          List.replicate quiet.length v ++ [v] ++ middle ++
            List.replicate tail.length ((v :: middle).getD middle.length 0) := by
      have hset := setRange_append (List.replicate quiet.length v ++ v :: middle) tail []
        fun _ => (v :: middle).getD middle.length 0
      rw [List.map_const', List.length_range', List.append_nil, List.append_nil,
        List.length_append, List.length_replicate, List.length_cons] at hset
      simpa [List.append_assoc, Nat.add_assoc] using hset
    have hcount : (quiet ++ v :: (middle ++ tail)).length - (quiet.length + middle.length + 1) =
        tail.length := by
      simp only [List.length_append, List.length_cons]
      omega
    dsimp only
    rw [hcount, hfirst, hlast, hsecond, fillFrom_append_quiet _ hmiddle htail]
    generalize (v :: middle).getD middle.length 0 = value
    have hloop := interpLoop_eq (List.replicate quiet.length v) v
      (List.replicate tail.length value) hmiddle
      (show (List.replicate quiet.length v).length + 1 + middle.length =
        quiet.length + middle.length + 1 by rw [List.length_replicate]; omega)
    have hpass := interpLoop_of_voiced (List.replicate quiet.length v)
      (middle ++ List.replicate tail.length value) hv
      (show (List.replicate quiet.length v).length ≤ quiet.length + middle.length by
        rw [List.length_replicate]; omega)
    rw [List.length_replicate] at hloop hpass
    simp only [List.append_assoc, List.cons_append, List.nil_append] at hloop hpass ⊢
    rw [hpass, hloop, List.replicate_succ', List.append_assoc]
    rfl

end Resonantia.Pipeline
