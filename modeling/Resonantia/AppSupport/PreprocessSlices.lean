import Mathlib.Algebra.Order.Floor.Ring
import Mathlib.Data.Rat.Floor
import Mathlib.Tactic.Linarith
import Mathlib.Tactic.NormNum
import Mathlib.Tactic.Ring

/-!
# Slices of preprocessed audio

The preprocessing program cuts every region of a clip into slices. The length of a slice and the step
from one slice to the next come from seconds that the user gives, and may be as large as an `int`; a
step that leaves the range of `int` is a fault of the model.

## Main definitions

* `AppSupport.slicing`: the checks of the options, and the length and the step in samples.
* `AppSupport.sliceRegions`: the loops over the regions and over the starts in a region.
* `AppSupport.Steps`: no start is advanced beyond the range of `int`.

## Main results

* `AppSupport.sliceRegions_safe_iff`: when the loops are safe.
-/

namespace Resonantia.AppSupport

/-! ### The options -/

/-- The largest `int`. -/
def kIntMax : ℤ := 2147483647

/-- The options that decide how a clip is cut. -/
structure SliceOptions where
  sampleRate : ℤ
  segmentSeconds : ℚ
  hopSeconds : ℚ
  vad : Bool

/-- The length of a slice, the step between two slices and the length that is kept at the end of a
region, in samples. -/
structure Slicing where
  segment : ℤ
  hop : ℤ
  minimumKeep : ℤ
  vad : Bool
deriving DecidableEq

/-- The checks of `parse_vc_preprocess_options` and the conversions of `run_vc_preprocess`. Products
are rounded to `long double`, whose precision depends on the platform. -/
def slicing (longDouble : ℚ → ℚ) (o : SliceOptions) : Option Slicing :=
  if o.sampleRate < 8000 ∨ 192000 < o.sampleRate ∨ o.segmentSeconds < 0 ∨ o.hopSeconds < 0 then none
  else
    let segmentSamples := longDouble (o.segmentSeconds * o.sampleRate)
    let hopSamples := longDouble (o.hopSeconds * o.sampleRate)
    if segmentSamples ≤ 0 ∨ kIntMax < segmentSamples then none
    else if kIntMax < hopSamples then none
    else
      let segment := max 1 ⌊segmentSamples⌋
      some ⟨segment, if 0 < o.hopSeconds then max 1 ⌊hopSamples⌋ else segment, max 1 o.sampleRate,
        o.vad⟩

/-- The ranges of a slicing. -/
structure Slicing.Valid (o : Slicing) : Prop where
  segment_pos : 0 < o.segment
  segment_le : o.segment ≤ kIntMax
  hop_pos : 0 < o.hop
  hop_le : o.hop ≤ kIntMax

theorem max_floor_bounds {q : ℚ} (h : q ≤ kIntMax) : 0 < max 1 ⌊q⌋ ∧ max 1 ⌊q⌋ ≤ kIntMax := by
  have hfloor : ⌊q⌋ ≤ kIntMax := by
    have hle := (Int.floor_le q).trans h
    exact_mod_cast hle
  rw [kIntMax] at *
  omega

theorem valid_of_slicing {longDouble : ℚ → ℚ} {o : SliceOptions} {s : Slicing}
    (h : slicing longDouble o = some s) : s.Valid := by
  rw [slicing] at h
  by_cases hranges : o.sampleRate < 8000 ∨ 192000 < o.sampleRate ∨ o.segmentSeconds < 0 ∨
      o.hopSeconds < 0
  · rw [if_pos hranges] at h
    cases h
  rw [if_neg hranges] at h
  dsimp only at h
  by_cases hsegment : longDouble (o.segmentSeconds * o.sampleRate) ≤ 0 ∨
      kIntMax < longDouble (o.segmentSeconds * o.sampleRate)
  · rw [if_pos hsegment] at h
    cases h
  by_cases hhop : kIntMax < longDouble (o.hopSeconds * o.sampleRate)
  · rw [if_neg hsegment, if_pos hhop] at h
    cases h
  rw [if_neg hsegment, if_neg hhop] at h
  rw [not_or, not_lt] at hsegment
  obtain ⟨hpos, hle⟩ := max_floor_bounds hsegment.2
  obtain ⟨hpos', hle'⟩ := max_floor_bounds (not_lt.1 hhop)
  rw [← Option.some.inj h]
  refine ⟨hpos, hle, ?_, ?_⟩
  · dsimp only
    split_ifs
    · exact hpos'
    · exact hpos
  · dsimp only
    split_ifs
    · exact hle'
    · exact hle

/-! ### The loops -/

/-- The positions from `first` up to `last`. -/
structure Region where
  first : ℤ
  last : ℤ

/-- The region lies inside a clip. -/
def Region.InClip (region : Region) : Prop := 0 ≤ region.first ∧ region.last ≤ kIntMax

/-- A slice that is written, with its region. -/
structure Slice where
  region : Region
  start : ℤ
  length : ℤ

/-- What must not happen: an `int` that overflows, or a loop that does not end in time. -/
inductive Fault
  | overflow
  | outOfTurns

/-- The variables of the loops; `going` is false after a write that failed. -/
structure Cut where
  going : Bool
  index : ℕ
  slices : List Slice

/-- The samples and the file system as the loops see them: which slices are below the smallest
effective value, and which files can be written. -/
structure Surroundings where
  silent : ℤ → ℤ → Bool
  written : ℕ → Bool

/-- The loop over the starts in a region. -/
def sliceLoop (o : Slicing) (e : Surroundings) (region : Region) :
    ℕ → ℤ → Cut → Except Fault Cut
  | 0, _, _ => .error .outOfTurns
  | turns + 1, start, s =>
    if region.last ≤ start then .ok s
    else if kIntMax < region.last - start then .error .overflow
    else
      let length := min o.segment (region.last - start)
      if length < o.minimumKeep ∧ start ≠ region.first then .ok s
      else if o.vad = false ∧ e.silent start length = true then
        if kIntMax < start + o.hop then .error .overflow
        else sliceLoop o e region turns (start + o.hop) s
      else if e.written s.index = false then
        .ok ⟨false, s.index + 1, s.slices ++ [⟨region, start, length⟩]⟩
      else if length < o.segment then
        .ok ⟨s.going, s.index + 1, s.slices ++ [⟨region, start, length⟩]⟩
      else if kIntMax < start + o.hop then .error .overflow
      else
        sliceLoop o e region turns (start + o.hop)
          ⟨s.going, s.index + 1, s.slices ++ [⟨region, start, length⟩]⟩

/-- The loop over the regions; a failed write ends the program. -/
def sliceRegions (o : Slicing) (e : Surroundings) : List Region → Cut → Except Fault Cut
  | [], s => .ok s
  | region :: regions, s =>
    if s.going = false then .ok s
    else
      match sliceLoop o e region ((region.last - region.first).toNat + 1) region.first s with
      | .error fault => .error fault
      | .ok s => sliceRegions o e regions s

/-! ### When the loops are safe -/

section Region

variable (o : Slicing) (silent : ℤ → ℤ → Bool) (region : Region)

/-- The loop ends at this start: the rest of the region is too short to be kept, or it is a slice
that is shorter than a segment. -/
def Ends (start : ℤ) : Prop :=
  (min o.segment (region.last - start) < o.minimumKeep ∧ start ≠ region.first) ∨
    (¬(o.vad = false ∧ silent start (min o.segment (region.last - start)) = true) ∧
      region.last - start < o.segment)

/-- Every start in the region can be advanced, or the loop ends at it or before. -/
def Steps : Prop :=
  ∀ k : ℕ, region.first + k * o.hop < region.last →
    region.first + (k + 1) * o.hop ≤ kIntMax ∨
      ∃ j ≤ k, Ends o silent region (region.first + j * o.hop)

end Region

/-- A slice is not empty and lies in its region. -/
def Slice.Inside (slice : Slice) : Prop :=
  0 < slice.length ∧ slice.region.first ≤ slice.start ∧
    slice.start + slice.length ≤ slice.region.last

/-- The loops end without a fault, whatever can be written, and every slice lies in its region. -/
def SliceRegionsSafe (o : Slicing) (silent : ℤ → ℤ → Bool) (regions : List Region) : Prop :=
  ∀ written : ℕ → Bool, ∃ s, sliceRegions o ⟨silent, written⟩ regions ⟨true, 0, []⟩ = .ok s ∧
    ∀ slice ∈ s.slices, slice.Inside ∧ slice.region ∈ regions

variable {o : Slicing} {e : Surroundings} {region : Region} {s : Cut}

/-- What one turn of the loop does within the region. -/
theorem sliceLoop_succ {turns : ℕ} {start : ℤ} (hclip : region.InClip)
    (hfirst : region.first ≤ start) (hstart : start < region.last) :
    (Ends o e.silent region start ∧ ∃ slices, (∀ slice ∈ slices, slice =
        ⟨region, start, min o.segment (region.last - start)⟩) ∧ ∃ going index,
      sliceLoop o e region (turns + 1) start s = .ok ⟨going, index, s.slices ++ slices⟩) ∨
    (¬Ends o e.silent region start ∧ ((∃ index, e.written s.index = false ∧
      sliceLoop o e region (turns + 1) start s = .ok ⟨false, index, s.slices ++
        [⟨region, start, min o.segment (region.last - start)⟩]⟩) ∨
      ∃ slices, (∀ slice ∈ slices, slice =
          ⟨region, start, min o.segment (region.last - start)⟩) ∧ ∃ index,
        sliceLoop o e region (turns + 1) start s =
          if kIntMax < start + o.hop then .error .overflow
          else sliceLoop o e region turns (start + o.hop) ⟨s.going, index, s.slices ++ slices⟩)) := by
  have hone : ∀ slice ∈ [(⟨region, start, min o.segment (region.last - start)⟩ : Slice)],
      slice = ⟨region, start, min o.segment (region.last - start)⟩ := fun slice h =>
    List.mem_singleton.1 h
  have hnone : ∀ slice ∈ ([] : List Slice),
      slice = ⟨region, start, min o.segment (region.last - start)⟩ := by
    intro slice h
    cases h
  have hfits : ¬kIntMax < region.last - start := by
    obtain ⟨hlow, hhigh⟩ := hclip
    omega
  rw [sliceLoop, if_neg (not_le.2 hstart), if_neg hfits]
  dsimp only
  by_cases hshort : min o.segment (region.last - start) < o.minimumKeep ∧ start ≠ region.first
  · refine Or.inl ⟨Or.inl hshort, [], hnone, s.going, s.index, ?_⟩
    rw [if_pos hshort, List.append_nil]
  rw [if_neg hshort]
  by_cases hsilent : o.vad = false ∧ e.silent start (min o.segment (region.last - start)) = true
  · refine Or.inr ⟨?_, Or.inr ⟨[], hnone, s.index, ?_⟩⟩
    · rintro (h | h)
      · exact hshort h
      · exact h.1 hsilent
    · rw [if_pos hsilent, List.append_nil]
  rw [if_neg hsilent]
  have hmin : min o.segment (region.last - start) < o.segment ↔ region.last - start < o.segment := by
    omega
  by_cases hlast : region.last - start < o.segment
  · refine Or.inl ⟨Or.inr ⟨hsilent, hlast⟩, _, hone, ?_⟩
    by_cases hwritten : e.written s.index = false
    · exact ⟨false, s.index + 1, by rw [if_pos hwritten]⟩
    · exact ⟨s.going, s.index + 1, by rw [if_neg hwritten, if_pos (hmin.2 hlast)]⟩
  · refine Or.inr ⟨?_, ?_⟩
    · rintro (h | h)
      · exact hshort h
      · exact hlast h.2
    by_cases hwritten : e.written s.index = false
    · exact Or.inl ⟨s.index + 1, hwritten, by rw [if_pos hwritten]⟩
    · refine Or.inr ⟨_, hone, s.index + 1, ?_⟩
      rw [if_neg hwritten, if_neg fun h => hlast (hmin.1 h)]

/-- A slice that starts in its region lies in it. -/
theorem inside_of_start (hvalid : o.Valid) {start : ℤ} (hfirst : region.first ≤ start)
    (hlast : start < region.last) :
    (⟨region, start, min o.segment (region.last - start)⟩ : Slice).Inside := by
  have hpos := hvalid.segment_pos
  refine ⟨?_, hfirst, ?_⟩
  · show 0 < min o.segment (region.last - start)
    omega
  · show start + min o.segment (region.last - start) ≤ region.last
    omega

/-- **The loop over the starts is safe** from a start on at which it arrives. -/
theorem sliceLoop_eq_ok (hvalid : o.Valid) (hclip : region.InClip)
    (hsteps : Steps o e.silent region) {turns j : ℕ}
    (hturns : (region.last - (region.first + j * o.hop)).toNat < turns)
    (hreached : ∀ i < j, ¬Ends o e.silent region (region.first + i * o.hop)) :
    ∃ t slices, sliceLoop o e region turns (region.first + j * o.hop) s = .ok t ∧
      t.slices = s.slices ++ slices ∧ ∀ slice ∈ slices, slice.Inside ∧ slice.region = region := by
  induction turns generalizing j s with
  | zero => exact absurd hturns (Nat.not_lt_zero _)
  | succ turns ih =>
    have hhop := hvalid.hop_pos
    by_cases hstart : region.first + j * o.hop < region.last
    · have hfirst : region.first ≤ region.first + j * o.hop := by
        have : 0 ≤ (j : ℤ) * o.hop := mul_nonneg (Int.natCast_nonneg j) hhop.le
        omega
      have hinside : ∀ slices : List Slice, (∀ slice ∈ slices, slice = ⟨region,
          region.first + j * o.hop, min o.segment (region.last - (region.first + j * o.hop))⟩) →
          ∀ slice ∈ slices, slice.Inside ∧ slice.region = region := by
        intro slices hslices slice hmem
        rw [hslices slice hmem]
        exact ⟨inside_of_start hvalid hfirst hstart, rfl⟩
      rcases @sliceLoop_succ o e region s turns _ hclip hfirst hstart with
        ⟨-, slices, hslices, going, index, heq⟩ | ⟨hnot, ⟨index, -, heq⟩ | ⟨slices, hslices, index, heq⟩⟩
      · exact ⟨_, slices, heq, rfl, hinside slices hslices⟩
      · exact ⟨_, _, heq, rfl, hinside _ fun slice h => List.mem_singleton.1 h⟩
      · have hreached' : ∀ i < j + 1, ¬Ends o e.silent region (region.first + i * o.hop) := by
          intro i hi
          rcases (Nat.le_of_lt_succ hi).eq_or_lt with rfl | hi
          · exact hnot
          · exact hreached i hi
        have hnext : region.first + j * o.hop + o.hop = region.first + ((j + 1 : ℕ) : ℤ) * o.hop := by
          push_cast
          ring
        have hle : region.first + j * o.hop + o.hop ≤ kIntMax := by
          rcases hsteps j hstart with hle | ⟨i, hi, hends⟩
          · rw [hnext]
            push_cast
            exact hle
          · exact absurd hends (hreached' i (Nat.lt_succ_of_le hi))
        rw [heq, if_neg (not_lt.2 hle), hnext]
        obtain ⟨t, rest, ht, happend, hrest⟩ := @ih ⟨s.going, index, s.slices ++ slices⟩ (j + 1)
          (by rw [← hnext]; omega) hreached'
        refine ⟨t, slices ++ rest, ht, by rw [happend, List.append_assoc], fun slice hmem => ?_⟩
        rcases List.mem_append.1 hmem with hmem | hmem
        · exact hinside slices hslices slice hmem
        · exact hrest slice hmem
    · refine ⟨s, [], ?_, (List.append_nil _).symm, fun slice h => (by cases h)⟩
      rw [sliceLoop, if_pos (not_lt.1 hstart)]

/-- Where a start is advanced too far, the loop runs into an overflow if all files can be
written. -/
theorem sliceLoop_overflow (hvalid : o.Valid) (hclip : region.InClip)
    (hwritten : ∀ i, e.written i = true) {k turns j : ℕ}
    (hk : region.first + k * o.hop < region.last)
    (hlarge : kIntMax < region.first + (k + 1) * o.hop)
    (hnot : ∀ i ≤ k, ¬Ends o e.silent region (region.first + i * o.hop)) (hj : j ≤ k)
    (hturns : (region.last - (region.first + j * o.hop)).toNat < turns) :
    sliceLoop o e region turns (region.first + j * o.hop) s = .error .overflow := by
  induction turns generalizing j s with
  | zero => exact absurd hturns (Nat.not_lt_zero _)
  | succ turns ih =>
    have hhop := hvalid.hop_pos
    have hmono : (j : ℤ) * o.hop ≤ k * o.hop :=
      mul_le_mul_of_nonneg_right (by exact_mod_cast hj) hhop.le
    have hstart : region.first + j * o.hop < region.last := by omega
    have hnext : region.first + j * o.hop + o.hop = region.first + ((j + 1 : ℕ) : ℤ) * o.hop := by
      push_cast
      ring
    have hfirst : region.first ≤ region.first + j * o.hop := by
      have : 0 ≤ (j : ℤ) * o.hop := mul_nonneg (Int.natCast_nonneg j) hhop.le
      omega
    rcases @sliceLoop_succ o e region s turns _ hclip hfirst hstart with
      ⟨hends, -⟩ | ⟨-, ⟨index, hfailed, -⟩ | ⟨slices, -, index, heq⟩⟩
    · exact absurd hends (hnot j hj)
    · rw [hwritten] at hfailed
      cases hfailed
    · rw [heq]
      rcases hj.eq_or_lt with rfl | hj
      · rw [if_pos]
        rw [hnext]
        push_cast
        exact hlarge
      · split_ifs
        · rfl
        · rw [hnext]
          exact ih hj (by rw [← hnext]; omega)

/-- The loop over the regions is safe if every region is. -/
theorem sliceRegions_eq_ok (hvalid : o.Valid) {regions : List Region}
    (hclip : ∀ region ∈ regions, region.InClip) (hsteps : ∀ region ∈ regions, Steps o e.silent region) :
    ∃ t slices, sliceRegions o e regions s = .ok t ∧ t.slices = s.slices ++ slices ∧
      ∀ slice ∈ slices, slice.Inside ∧ slice.region ∈ regions := by
  induction regions generalizing s with
  | nil => exact ⟨s, [], rfl, (List.append_nil _).symm, fun slice h => (by cases h)⟩
  | cons region regions ih =>
    rw [sliceRegions]
    split_ifs with hgoing
    · exact ⟨s, [], rfl, (List.append_nil _).symm, fun slice h => (by cases h)⟩
    · obtain ⟨t, slices, ht, happend, hinside⟩ := @sliceLoop_eq_ok o e region s hvalid
        (hclip region List.mem_cons_self) (hsteps region List.mem_cons_self)
        ((region.last - region.first).toNat + 1) 0
        (by rw [Nat.cast_zero, zero_mul, add_zero]; exact Nat.lt_succ_self _)
        (fun i hi => absurd hi (Nat.not_lt_zero i))
      rw [Nat.cast_zero, zero_mul, add_zero] at ht
      rw [ht]
      obtain ⟨u, rest, hu, happend', hinside'⟩ :=
        @ih t (fun region hmem => hclip region (List.mem_cons_of_mem _ hmem))
          fun region hmem => hsteps region (List.mem_cons_of_mem _ hmem)
      refine ⟨u, slices ++ rest, hu, by rw [happend', happend, List.append_assoc],
        fun slice hmem => ?_⟩
      rcases List.mem_append.1 hmem with hmem | hmem
      · exact ⟨(hinside slice hmem).1, by
          rw [(hinside slice hmem).2]; exact List.mem_cons_self⟩
      · exact ⟨(hinside' slice hmem).1, List.mem_cons_of_mem _ (hinside' slice hmem).2⟩

/-- The loops go on while files can be written. -/
theorem going_of_sliceLoop (hwritten : ∀ i, e.written i = true) {turns : ℕ} {start : ℤ}
    (hgoing : s.going = true) {t : Cut} (h : sliceLoop o e region turns start s = .ok t) :
    t.going = true := by
  induction turns generalizing start s with
  | zero => cases h
  | succ turns ih =>
    rw [sliceLoop] at h
    dsimp only at h
    split_ifs at h with hend hfits hshort hsilent hlarge hfailed hlast hlarge
    · exact Except.ok.inj h ▸ hgoing
    · exact Except.ok.inj h ▸ hgoing
    · exact ih hgoing h
    · rw [hwritten] at hfailed
      cases hfailed
    · rw [← Except.ok.inj h]
      exact hgoing
    · exact ih (by exact hgoing) h

/-- If all files can be written, a fault in any region is reached. -/
theorem steps_of_sliceRegions (hvalid : o.Valid) (hwritten : ∀ i, e.written i = true)
    {regions : List Region} (hclip : ∀ region ∈ regions, region.InClip) (hgoing : s.going = true)
    {t : Cut} (h : sliceRegions o e regions s = .ok t) : ∀ region ∈ regions, Steps o e.silent region := by
  induction regions generalizing s with
  | nil =>
    intro region hmem
    cases hmem
  | cons region regions ih =>
    have hsteps : Steps o e.silent region := by
      by_contra hnot
      rw [Steps] at hnot
      push Not at hnot
      obtain ⟨k, hk, hlarge, hends⟩ := hnot
      have hoverflow := @sliceLoop_overflow o e region s hvalid
        (hclip region List.mem_cons_self) hwritten k
        ((region.last - region.first).toNat + 1) 0 hk hlarge hends (Nat.zero_le k)
        (by rw [Nat.cast_zero, zero_mul, add_zero]; exact Nat.lt_succ_self _)
      rw [Nat.cast_zero, zero_mul, add_zero] at hoverflow
      rw [sliceRegions, hgoing, if_neg Bool.true_eq_false.mp, hoverflow] at h
      cases h
    rw [sliceRegions, hgoing, if_neg Bool.true_eq_false.mp] at h
    cases hloop : sliceLoop o e region ((region.last - region.first).toNat + 1) region.first s with
    | error fault =>
      rw [hloop] at h
      cases h
    | ok u =>
      rw [hloop] at h
      intro region' hmem
      rcases List.mem_cons.1 hmem with rfl | hmem
      · exact hsteps
      · exact ih (fun region hmem => hclip region (List.mem_cons_of_mem _ hmem))
          (going_of_sliceLoop hwritten hgoing hloop) h region' hmem

/-- **When the slicing loops are safe.** For accepted options and regions inside a clip, the loops end
without an overflow and write only slices that are not empty and lie in their regions, if and only if
every start that the loops reach and leave can be advanced by a step. -/
theorem sliceRegions_safe_iff {longDouble : ℚ → ℚ} {options : SliceOptions}
    (h : slicing longDouble options = some o) (silent : ℤ → ℤ → Bool) {regions : List Region}
    (hclip : ∀ region ∈ regions, region.InClip) :
    SliceRegionsSafe o silent regions ↔ ∀ region ∈ regions, Steps o silent region := by
  have hvalid := valid_of_slicing h
  constructor
  · intro hsafe
    obtain ⟨t, ht, -⟩ := hsafe fun _ => true
    exact steps_of_sliceRegions (e := ⟨silent, fun _ => true⟩) hvalid (fun _ => rfl) hclip rfl ht
  · intro hsteps written
    obtain ⟨t, slices, ht, happend, hinside⟩ := @sliceRegions_eq_ok o ⟨silent, written⟩
      ⟨true, 0, []⟩ hvalid regions hclip hsteps
    refine ⟨t, ht, ?_⟩
    rw [happend, List.nil_append]
    exact hinside

/-- Slices of one second, one after the other. -/
def oneSecond : SliceOptions := ⟨16000, 1, 0, false⟩

theorem slicing_oneSecond : slicing id oneSecond = some ⟨16000, 16000, 16000, false⟩ := by
  decide +kernel

theorem sliceRegions_safe_iff_oneSecond :
    SliceRegionsSafe ⟨16000, 16000, 16000, false⟩ (fun _ _ => false) [⟨0, 20000⟩] := by
  have hclip : ∀ region ∈ [(⟨0, 20000⟩ : Region)], region.InClip := by
    intro region hmem
    rw [List.mem_singleton.1 hmem]
    exact ⟨by decide, by decide⟩
  refine (sliceRegions_safe_iff slicing_oneSecond _ hclip).2 fun region hmem k hk => ?_
  obtain rfl := List.mem_singleton.1 hmem
  dsimp only at hk ⊢
  rw [kIntMax]
  omega

/-- A step of the largest size. Seconds and products are numbers of `double`, so nothing is rounded. -/
def largestHop : SliceOptions := ⟨8192, 1, 2147483647 / 8192, true⟩

/-- After the first slice of a region that does not start the clip, the start overflows. -/
theorem not_sliceRegionsSafe_largestHop :
    slicing id largestHop = some ⟨8192, 2147483647, 8192, true⟩ ∧
      ¬SliceRegionsSafe ⟨8192, 2147483647, 8192, true⟩ (fun _ _ => false) [⟨1000, 100000⟩] := by
  refine ⟨by decide +kernel, fun h => ?_⟩
  obtain ⟨t, ht, -⟩ := h fun _ => true
  have hoverflow : sliceRegions ⟨8192, 2147483647, 8192, true⟩ ⟨fun _ _ => false, fun _ => true⟩
      [⟨1000, 100000⟩] ⟨true, 0, []⟩ = .error .overflow := by
    rfl
  rw [hoverflow] at ht
  cases ht

end Resonantia.AppSupport
