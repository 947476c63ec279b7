import Mathlib.Algebra.Order.Floor.Ring
import Mathlib.Data.Rat.Floor
import Mathlib.Tactic.Linarith
import Mathlib.Tactic.FieldSimp
import Mathlib.Tactic.Positivity
import Mathlib.Tactic.NormNum
import Resonantia.Library.FloatArithmetic

/-!
# Speech segments

`Vad::segments` turns the speech probability of every chunk of 512 samples into intervals of the
input: a segment opens at a chunk that reaches the threshold, and closes where the chunks have stayed
below the lower threshold for long enough.

## Main definitions

* `Separation.Vad.segments`: the checks, the scan over the chunks, and the padded intervals.
* `Separation.Vad.Rule`: the segments of a sequence of probabilities, without a scan.

## Main results

* `Separation.Vad.rule_unpadded`: the scan finds the segments of the rule.
* `Separation.Vad.segments_spec`: order, bounds and disjointness of the intervals.
-/

namespace Resonantia.Separation.Vad

open BinaryFloat

/-! ### The scan -/

def kChunk : ℕ := 512

/-- The thresholds, and the durations in samples. -/
structure Parameters where
  thresh : ℚ
  lo : ℚ
  minSpeech : ℕ
  minSilence : ℕ

/-- The variables of the scan. -/
structure Scan where
  on : Bool
  start : ℕ
  lastSpeech : ℕ
  segs : List (ℕ × ℕ)

/-- The segment that ends, if it is long enough. -/
def pushed (p : Parameters) (start lastSpeech : ℕ) : List (ℕ × ℕ) :=
  if (p.minSpeech : ℤ) ≤ (lastSpeech : ℤ) - start then [(start, lastSpeech)] else []

/-- One turn of the scan, at chunk `c`. -/
def scanStep (p : Parameters) (c : ℕ) (probability : ℚ) (s : Scan) : Scan :=
  let here := c * kChunk
  if s.on = false ∧ p.thresh ≤ probability then
    { s with on := true, start := here, lastSpeech := here + kChunk }
  else if s.on = true then
    let last := if p.lo ≤ probability then here + kChunk else s.lastSpeech
    if (p.minSilence : ℤ) ≤ (here : ℤ) - last then
      ⟨false, s.start, last, s.segs ++ pushed p s.start last⟩
    else { s with lastSpeech := last }
  else s

def scanFrom (p : Parameters) : ℕ → List ℚ → Scan → Scan
  | _, [], s => s
  | c, probability :: rest, s => scanFrom p (c + 1) rest (scanStep p c probability s)

/-- The segments after the scan; one may still be open. -/
def finish (p : Parameters) (s : Scan) : List (ℕ × ℕ) :=
  if s.on = true then s.segs ++ pushed p s.start s.lastSpeech else s.segs

/-- The segments in samples of the model, without padding. -/
def unpadded (p : Parameters) (pr : List ℚ) : List (ℕ × ℕ) :=
  finish p (scanFrom p 0 pr ⟨false, 0, 0, []⟩)

/-! ### The rule -/

section Rule

variable (p : Parameters) (extra : ℕ) (pr : List ℚ)

/-- A chunk at or above the threshold. -/
def Loud (c : ℕ) : Prop := p.thresh ≤ pr.getD c 0

/-- A chunk at or above the lower threshold. -/
def Speech (c : ℕ) : Prop := p.lo ≤ pr.getD c 0

/-- The chunks after `j` up to `g` are silent for at least the minimum silence and `extra` samples. -/
def Gap (j g : ℕ) : Prop :=
  j < g ∧ (∀ c, j < c → c ≤ g → ¬Speech p pr c) ∧ p.minSilence + extra ≤ kChunk * (g - j)

/-- A segment from chunk `i` to chunk `j`, which the first gap closes at chunk `g`. -/
structure Span (i j g : ℕ) : Prop where
  loud : Loud p pr i
  le : i ≤ j
  speech : j = i ∨ Speech p pr j
  gap : Gap p extra pr j g
  first : ∀ j' g', i ≤ j' → g' < g → ¬Gap p extra pr j' g'
  lt : g < pr.length

/-- A segment from chunk `i` to chunk `j`, which no gap closes. -/
structure OpenSpan (i j : ℕ) : Prop where
  loud : Loud p pr i
  le : i ≤ j
  speech : j = i ∨ Speech p pr j
  silent : ∀ c, j < c → c < pr.length → ¬Speech p pr c
  noGap : ∀ j' g', i ≤ j' → g' < pr.length → ¬Gap p extra pr j' g'
  lt : j < pr.length

/-- A segment is kept if it lasts at least the minimum speech. -/
def kept (i j : ℕ) : List (ℕ × ℕ) :=
  if p.minSpeech ≤ kChunk * (j + 1 - i) then [(kChunk * i, kChunk * (j + 1))] else []

/-- The segments from chunk `first` on: each starts at the first loud chunk after the previous one
was closed. -/
inductive Rule : ℕ → List (ℕ × ℕ) → Prop
  | quiet {first : ℕ} (h : ∀ c, first ≤ c → c < pr.length → ¬Loud p pr c) : Rule first []
  | closed {first i j g : ℕ} {l : List (ℕ × ℕ)} (hfirst : first ≤ i)
      (hquiet : ∀ c, first ≤ c → c < i → ¬Loud p pr c) (hspan : Span p extra pr i j g)
      (h : Rule (g + 1) l) : Rule first (kept p i j ++ l)
  | unclosed {first i j : ℕ} (hfirst : first ≤ i) (hquiet : ∀ c, first ≤ c → c < i → ¬Loud p pr c)
      (hspan : OpenSpan p extra pr i j) : Rule first (kept p i j)

end Rule

variable {p : Parameters} {extra : ℕ} {pr : List ℚ} {first i j g : ℕ} {l l' : List (ℕ × ℕ)}

/-! ### The rule determines the segments -/

theorem Span.unique {j' g' : ℕ} (h : Span p extra pr i j g) (h' : Span p extra pr i j' g') :
    j = j' ∧ g = g' := by
  have hg : g = g' := by
    rcases Nat.lt_trichotomy g g' with hlt | heq | hlt
    · exact absurd h.gap (h'.first j g h.le hlt)
    · exact heq
    · exact absurd h'.gap (h.first j' g' h'.le hlt)
  subst hg
  refine ⟨?_, rfl⟩
  rcases Nat.lt_trichotomy j j' with hlt | heq | hlt
  · rcases h'.speech with rfl | hspeech
    · exact absurd h.le (Nat.not_le.2 hlt)
    · exact absurd hspeech (h.gap.2.1 j' hlt h'.gap.1.le)
  · exact heq
  · rcases h.speech with rfl | hspeech
    · exact absurd h'.le (Nat.not_le.2 hlt)
    · exact absurd hspeech (h'.gap.2.1 j hlt h.gap.1.le)

theorem OpenSpan.unique {j' : ℕ} (h : OpenSpan p extra pr i j) (h' : OpenSpan p extra pr i j') :
    j = j' := by
  rcases Nat.lt_trichotomy j j' with hlt | heq | hlt
  · rcases h'.speech with rfl | hspeech
    · exact absurd h.le (Nat.not_le.2 hlt)
    · exact absurd hspeech (h.silent j' hlt h'.lt)
  · exact heq
  · rcases h.speech with rfl | hspeech
    · exact absurd h'.le (Nat.not_le.2 hlt)
    · exact absurd hspeech (h'.silent j hlt h.lt)

theorem eq_of_first_loud {i' : ℕ} (hi : first ≤ i) (hi' : first ≤ i')
    (hquiet : ∀ c, first ≤ c → c < i → ¬Loud p pr c)
    (hquiet' : ∀ c, first ≤ c → c < i' → ¬Loud p pr c) (h : Loud p pr i) (h' : Loud p pr i') :
    i = i' := by
  rcases Nat.lt_trichotomy i i' with hlt | heq | hlt
  · exact absurd h (hquiet' i hi hlt)
  · exact heq
  · exact absurd h' (hquiet i' hi' hlt)

/-- The rule has one result. -/
theorem Rule.unique (h : Rule p extra pr first l) (h' : Rule p extra pr first l') : l = l' := by
  induction h generalizing l' with
  | quiet h =>
    cases h' with
    | quiet => rfl
    | closed hfirst hquiet hspan _ =>
      exact absurd hspan.loud (h _ hfirst ((hspan.le.trans_lt hspan.gap.1).trans hspan.lt))
    | unclosed hfirst hquiet hspan =>
      exact absurd hspan.loud (h _ hfirst (hspan.le.trans_lt hspan.lt))
  | closed hfirst hquiet hspan _ ih =>
    cases h' with
    | quiet h =>
      exact absurd hspan.loud (h _ hfirst ((hspan.le.trans_lt hspan.gap.1).trans hspan.lt))
    | closed hfirst' hquiet' hspan' hrest' =>
      obtain rfl := eq_of_first_loud hfirst hfirst' hquiet hquiet' hspan.loud hspan'.loud
      obtain ⟨rfl, rfl⟩ := hspan.unique hspan'
      rw [ih hrest']
    | unclosed hfirst' hquiet' hspan' =>
      obtain rfl := eq_of_first_loud hfirst hfirst' hquiet hquiet' hspan.loud hspan'.loud
      exact absurd hspan.gap (hspan'.noGap _ _ hspan.le hspan.lt)
  | unclosed hfirst hquiet hspan =>
    cases h' with
    | quiet h => exact absurd hspan.loud (h _ hfirst (hspan.le.trans_lt hspan.lt))
    | closed hfirst' hquiet' hspan' hrest' =>
      obtain rfl := eq_of_first_loud hfirst hfirst' hquiet hquiet' hspan.loud hspan'.loud
      exact absurd hspan'.gap (hspan.noGap _ _ hspan'.le hspan'.lt)
    | unclosed hfirst' hquiet' hspan' =>
      obtain rfl := eq_of_first_loud hfirst hfirst' hquiet hquiet' hspan.loud hspan'.loud
      rw [hspan.unique hspan']

/-- A chunk that is not loud may come first. -/
theorem Rule.of_succ (h : Rule p extra pr (first + 1) l) (hquiet : ¬Loud p pr first) :
    Rule p extra pr first l := by
  have hmore : ∀ {n : ℕ}, (∀ c, first + 1 ≤ c → c < n → ¬Loud p pr c) →
      ∀ c, first ≤ c → c < n → ¬Loud p pr c := by
    intro n hrest c hc hlt
    rcases hc.eq_or_lt with rfl | hc
    · exact hquiet
    · exact hrest c hc hlt
  cases h with
  | quiet h => exact .quiet (hmore h)
  | closed hfirst hquiet' hspan h => exact .closed (Nat.le_of_succ_le hfirst) (hmore hquiet') hspan h
  | unclosed hfirst hquiet' hspan => exact .unclosed (Nat.le_of_succ_le hfirst) (hmore hquiet') hspan

/-! ### The scan follows the rule -/

/-- The state of the rule before chunk `c` while a segment from chunk `i` is open, with its last
speech in chunk `j`. -/
structure Held (p : Parameters) (pr : List ℚ) (i j c : ℕ) : Prop where
  loud : Loud p pr i
  le : i ≤ j
  speech : j = i ∨ Speech p pr j
  lt : j < c
  silent : ∀ d, j < d → d < c → ¬Speech p pr d
  noGap : ∀ j' g', i ≤ j' → g' < c → ¬Gap p kChunk pr j' g'

theorem Held.start {c : ℕ} (h : Loud p pr c) : Held p pr c c (c + 1) where
  loud := h
  le := le_rfl
  speech := Or.inl rfl
  lt := Nat.lt_succ_self c
  silent := fun _ hd hd' => absurd hd (Nat.not_lt.2 (Nat.le_of_lt_succ hd'))
  noGap := fun _ _ hj hg hgap => absurd (hj.trans_lt hgap.1) (Nat.not_lt.2 (Nat.le_of_lt_succ hg))

/-- Speech extends the segment. -/
theorem Held.extend {c : ℕ} (h : Held p pr i j c) (hspeech : Speech p pr c) :
    Held p pr i c (c + 1) where
  loud := h.loud
  le := h.le.trans h.lt.le
  speech := Or.inr hspeech
  lt := Nat.lt_succ_self c
  silent := fun _ hd hd' => absurd hd (Nat.not_lt.2 (Nat.le_of_lt_succ hd'))
  noGap := by
    intro j' g' hj hg hgap
    rcases (Nat.le_of_lt_succ hg).eq_or_lt with rfl | hg
    · exact hgap.2.1 g' hgap.1 le_rfl hspeech
    · exact h.noGap j' g' hj hg hgap

/-- A gap that ends at a silent chunk starts after the last speech or later. -/
theorem Held.gap_iff {c : ℕ} (h : Held p pr i j c) (hsilent : ¬Speech p pr c) :
    Gap p kChunk pr j c ↔ p.minSilence + kChunk ≤ kChunk * (c - j) := by
  refine ⟨fun hgap => hgap.2.2, fun hlong => ⟨h.lt, fun d hd hd' => ?_, hlong⟩⟩
  rcases hd'.eq_or_lt with rfl | hd'
  · exact hsilent
  · exact h.silent d hd hd'

/-- Silence that is too short leaves the segment open. -/
theorem Held.wait {c : ℕ} (h : Held p pr i j c) (hsilent : ¬Speech p pr c)
    (hgap : ¬Gap p kChunk pr j c) : Held p pr i j (c + 1) where
  loud := h.loud
  le := h.le
  speech := h.speech
  lt := h.lt.trans (Nat.lt_succ_self c)
  silent := by
    intro d hd hd'
    rcases (Nat.le_of_lt_succ hd').eq_or_lt with rfl | hd'
    · exact hsilent
    · exact h.silent d hd hd'
  noGap := by
    intro j' g' hj hg hgap'
    rcases (Nat.le_of_lt_succ hg).eq_or_lt with rfl | hg
    · rcases Nat.lt_or_ge j' j with hlt | hge
      · rcases h.speech with rfl | hspeech
        · exact absurd hj (Nat.not_le.2 hlt)
        · exact hgap'.2.1 j hlt h.lt.le hspeech
      · refine hgap ((h.gap_iff hsilent).2 (hgap'.2.2.trans ?_))
        exact Nat.mul_le_mul_left _ (by omega)
    · exact h.noGap j' g' hj hg hgap'

/-- What the rule adds after an open segment. -/
def Tail (p : Parameters) (pr : List ℚ) (i : ℕ) (l : List (ℕ × ℕ)) : Prop :=
  (∃ j g m, Span p kChunk pr i j g ∧ Rule p kChunk pr (g + 1) m ∧ l = kept p i j ++ m) ∨
    ∃ j, OpenSpan p kChunk pr i j ∧ l = kept p i j

theorem pushed_eq_kept (h : i ≤ j) :
    pushed p (i * kChunk) ((j + 1) * kChunk) = kept p i j := by
  have hlength : (p.minSpeech : ℤ) ≤ (((j + 1) * kChunk : ℕ) : ℤ) - ((i * kChunk : ℕ) : ℤ) ↔
      p.minSpeech ≤ kChunk * (j + 1 - i) := by
    rw [kChunk]
    omega
  rw [pushed, kept, if_congr hlength rfl rfl, Nat.mul_comm i, Nat.mul_comm (j + 1)]

/-- **The scan follows the rule** from every chunk on, whether a segment is open or not. -/
theorem scan_rule (rest : List ℚ) (c : ℕ) (hrest : pr.drop c = rest)
    (s : Scan) :
    (s.on = false → ∃ l, finish p (scanFrom p c rest s) = s.segs ++ l ∧ Rule p kChunk pr c l) ∧
      (s.on = true → ∀ i j, s.start = i * kChunk → s.lastSpeech = (j + 1) * kChunk →
        Held p pr i j c → c ≤ pr.length →
        ∃ l, finish p (scanFrom p c rest s) = s.segs ++ l ∧ Tail p pr i l) := by
  induction rest generalizing c s with
  | nil =>
    have hend : pr.length ≤ c := List.drop_eq_nil_iff.1 hrest
    constructor
    · intro hoff
      refine ⟨[], ?_, .quiet fun d hd hd' => absurd (hd.trans_lt hd') (Nat.not_lt.2 hend)⟩
      rw [scanFrom, finish, hoff, List.append_nil]
      rfl
    · intro hon i j hstart hlast hheld hle
      obtain rfl : c = pr.length := le_antisymm hle hend
      refine ⟨kept p i j, ?_, Or.inr ⟨j, ⟨hheld.loud, hheld.le, hheld.speech, hheld.silent,
        hheld.noGap, hheld.lt⟩, rfl⟩⟩
      rw [scanFrom, finish, if_pos hon, hstart, hlast, pushed_eq_kept hheld.le]
  | cons probability rest ih =>
    have hlt : c < pr.length := by
      by_contra hge
      rw [List.drop_eq_nil_of_le (Nat.le_of_not_lt hge)] at hrest
      cases hrest
    have hget : pr.getD c 0 = probability := by
      rw [List.getD_eq_getElem?_getD, ← Nat.add_zero c, ← List.getElem?_drop, hrest]
      rfl
    have hnext : pr.drop (c + 1) = rest := by
      rw [← List.drop_drop, hrest]
      rfl
    have hloud : Loud p pr c ↔ p.thresh ≤ probability := by rw [Loud, hget]
    have hspeech : Speech p pr c ↔ p.lo ≤ probability := by rw [Speech, hget]
    rw [scanFrom]
    constructor
    · intro hoff
      by_cases hstart : p.thresh ≤ probability
      · have hstep : scanStep p c probability s =
            { s with on := true, start := c * kChunk, lastSpeech := c * kChunk + kChunk } := by
          rw [scanStep]
          exact if_pos ⟨hoff, hstart⟩
        rw [hstep]
        obtain ⟨l, hl, htail⟩ := (ih (c + 1) hnext
          { s with on := true, start := c * kChunk, lastSpeech := c * kChunk + kChunk }).2 rfl c c rfl
            (Nat.succ_mul c kChunk).symm (.start (hloud.2 hstart)) hlt
        refine ⟨l, hl, ?_⟩
        have hquiet : ∀ d, c ≤ d → d < c → ¬Loud p pr d := fun d hd hd' => absurd hd (Nat.not_le.2 hd')
        rcases htail with ⟨j, g, m, hspan, hrule, rfl⟩ | ⟨j, hspan, rfl⟩
        · exact .closed le_rfl hquiet hspan hrule
        · exact .unclosed le_rfl hquiet hspan
      · have hstep : scanStep p c probability s = s := by
          rw [scanStep]
          dsimp only
          rw [if_neg fun h => hstart h.2, if_neg (by rw [hoff]; exact Bool.false_ne_true)]
        rw [hstep]
        obtain ⟨l, hl, hrule⟩ := (ih (c + 1) hnext s).1 hoff
        exact ⟨l, hl, hrule.of_succ fun h => hstart (hloud.1 h)⟩
    · intro hon i j hstart hlast hheld _
      have hnot : ¬(s.on = false ∧ p.thresh ≤ probability) := by
        rw [hon]
        exact fun h => absurd h.1 Bool.true_eq_false.mp
      by_cases hspeaks : p.lo ≤ probability
      · have hstep : scanStep p c probability s = { s with lastSpeech := c * kChunk + kChunk } := by
          rw [scanStep]
          dsimp only
          rw [if_neg hnot, if_pos hon, if_pos hspeaks, if_neg]
          rw [kChunk]
          omega
        rw [hstep]
        exact (ih (c + 1) hnext { s with lastSpeech := c * kChunk + kChunk }).2 hon i c hstart
          (Nat.succ_mul c kChunk).symm (hheld.extend (hspeech.2 hspeaks)) hlt
      · have hsilent : ¬Speech p pr c := fun h => hspeaks (hspeech.1 h)
        have hlong : (p.minSilence : ℤ) ≤ ((c * kChunk : ℕ) : ℤ) - (s.lastSpeech : ℤ) ↔
            Gap p kChunk pr j c := by
          rw [hheld.gap_iff hsilent, hlast, kChunk]
          have := hheld.lt
          omega
        by_cases hgap : Gap p kChunk pr j c
        · have hstep : scanStep p c probability s =
              ⟨false, s.start, s.lastSpeech, s.segs ++ kept p i j⟩ := by
            rw [scanStep]
            dsimp only
            rw [if_neg hnot, if_pos hon, if_neg hspeaks, if_pos (hlong.2 hgap), hstart, hlast,
              pushed_eq_kept hheld.le]
          rw [hstep]
          obtain ⟨l, hl, hrule⟩ := (ih (c + 1) hnext
            ⟨false, s.start, s.lastSpeech, s.segs ++ kept p i j⟩).1 rfl
          refine ⟨kept p i j ++ l, by rw [hl, List.append_assoc], Or.inl ⟨j, c, l, ?_, hrule, rfl⟩⟩
          exact ⟨hheld.loud, hheld.le, hheld.speech, hgap, hheld.noGap, hlt⟩
        · have hstep : scanStep p c probability s = s := by
            rw [scanStep]
            dsimp only
            rw [if_neg hnot, if_pos hon, if_neg hspeaks, if_neg fun h => hgap (hlong.1 h)]
          rw [hstep]
          exact (ih (c + 1) hnext s).2 hon i j hstart hlast (hheld.wait hsilent hgap) hlt

/-- **The segments of the scan are those of the rule**, where a gap is measured up to the start of
the chunk that ends it. -/
theorem rule_unpadded :
    Rule p kChunk pr 0 l ↔ l = unpadded p pr := by
  obtain ⟨m, hm, hrule⟩ := (scan_rule pr 0 rfl ⟨false, 0, 0, []⟩).1 rfl
  rw [unpadded, hm, List.nil_append]
  exact ⟨fun h => h.unique hrule, fun h => h ▸ hrule⟩

/-! ### Where the segments lie -/

theorem mem_kept {s : ℕ × ℕ} (h : s ∈ kept p i j) : s = (kChunk * i, kChunk * (j + 1)) := by
  rw [kept] at h
  split_ifs at h
  · exact List.mem_singleton.1 h
  · cases h

/-- A segment is not empty and lies in the chunks from `first` on. -/
theorem Rule.bounds (h : Rule p kChunk pr first l) :
    ∀ s ∈ l, kChunk * first ≤ s.1 ∧ s.1 < s.2 ∧ s.2 ≤ kChunk * pr.length := by
  induction h with
  | quiet =>
    intro s hs
    cases hs
  | closed hfirst hquiet hspan _ ih =>
    intro s hs
    have hle := hspan.le
    have hgap := hspan.gap.1
    have hlt := hspan.lt
    rcases List.mem_append.1 hs with hs | hs
    · rw [mem_kept hs, kChunk]
      dsimp only
      omega
    · obtain ⟨hlow, hmid, hhigh⟩ := ih s hs
      rw [kChunk] at *
      omega
  | unclosed hfirst hquiet hspan =>
    intro s hs
    have hle := hspan.le
    have hlt := hspan.lt
    rw [mem_kept hs, kChunk]
    dsimp only
    omega

/-- Between two segments there is a gap, and the chunk that ends it. -/
theorem Rule.apart (h : Rule p kChunk pr first l) :
    l.Pairwise fun s t => s.2 + p.minSilence + kChunk ≤ t.1 := by
  have hshort : ∀ i j, (kept p i j).Pairwise fun s t => s.2 + p.minSilence + kChunk ≤ t.1 := by
    intro i j
    rw [kept]
    split_ifs
    · exact List.pairwise_singleton _ _
    · exact List.Pairwise.nil
  induction h with
  | quiet => exact List.Pairwise.nil
  | closed hfirst hquiet hspan hrest ih =>
    refine List.pairwise_append.2 ⟨hshort _ _, ih, fun s hs t ht => ?_⟩
    obtain ⟨hlow, -, -⟩ := hrest.bounds t ht
    have hgap := hspan.gap.2.2
    have hlt := hspan.gap.1
    rw [mem_kept hs]
    rw [kChunk] at *
    dsimp only
    omega
  | unclosed => exact hshort _ _

/-! ### The intervals of the input -/

def kIntMax : ℕ := 2147483647

/-- `checked_chunk_count`: the number of chunks. -/
def checkedChunkCount (samples : ℤ) : Except String ℕ :=
  if samples ≤ 0 then .error "VAD sample count must be positive"
  else if 0 < samples.toNat / kChunk ∧ kIntMax < samples.toNat / kChunk * 129 * 4 then
    .error "VAD chunk tensor exceeds the CUDA int limit"
  else .ok (samples.toNat / kChunk)

/-- `checked_resampled_length` for the rate of the model. -/
def checkedResampledLength (n sr : ℤ) : Except String ℕ :=
  if n ≤ 0 ∨ sr ≤ 0 then .error "VAD input resampling parameters are invalid"
  else if n.toNat * 16000 / sr.toNat = 0 ∨ kIntMax < n.toNat * 16000 / sr.toNat then
    .error "VAD input resampled length is not representable"
  else .ok (n.toNat * 16000 / sr.toNat)

/-- The number of samples of the model. -/
def modelLength (n sr : ℤ) : Except String ℕ :=
  if sr = 16000 then .ok n.toNat else checkedResampledLength n sr

/-- The threshold, the lower threshold, and the durations in samples of the model. -/
def parameters (thresh : Finite binary32) (minSpeechMs minSilenceMs : ℤ) : Parameters where
  thresh := thresh.value
  lo := max 0 (binary32.nearestSigned (thresh.value - binary32.nearest (15 / 100)))
  minSpeech := minSpeechMs.toNat * 16
  minSilence := minSilenceMs.toNat * 16

/-- The ratio of the rates as a double. -/
def ratio (sr : ℤ) : ℚ := binary64.nearest (sr.toNat / 16000)

/-- A position of the model as a position of the input: a product of doubles, cut to an integer. -/
def scaled (sr : ℤ) (a : ℕ) : ℕ := ⌊binary64.nearest (a * ratio sr)⌋₊

/-- A segment with padding, as an interval of the input. -/
def padded (n sr : ℤ) (length pad : ℕ) (s : ℕ × ℕ) : ℕ × ℕ :=
  (scaled sr (s.1 - pad), min n.toNat (scaled sr (min length (s.2 + pad))))

/-- `Vad::segments`; the samples matter only through the probabilities of the chunks. -/
def segments (probs : ℕ → Finite binary32) (n sr : ℤ) (thresh : Number binary32)
    (minSpeechMs minSilenceMs padMs : ℤ) : Except String (List (ℕ × ℕ)) :=
  match thresh with
  | none => .error "VAD segmentation parameters are invalid"
  | some thresh =>
    if n ≤ 0 ∨ sr ≤ 0 ∨ thresh.value < 0 ∨ 1 < thresh.value ∨ minSpeechMs < 0 ∨ minSilenceMs < 0 ∨
        padMs < 0 ∨ 60000 < minSpeechMs ∨ 60000 < minSilenceMs ∨ 60000 < padMs then
      .error "VAD segmentation parameters are invalid"
    else do
      let _ ← checkedChunkCount n
      let length ← modelLength n sr
      let chunks ← checkedChunkCount length
      let pr := (List.range chunks).map fun c => (probs c).value
      if pr.any (fun probability => probability < 0 || 1 < probability) = true then
        .error "VAD produced a probability outside [0, 1]"
      else
        .ok ((unpadded (parameters thresh minSpeechMs minSilenceMs) pr).map
          (padded n sr length (padMs.toNat * 16)))

/-- The ratio is close to that of the rates. -/
theorem abs_ratio_sub_le {sr : ℤ} (hsr : 0 < sr) (hlt : sr < 2 ^ 31) :
    |(sr.toNat : ℚ) / 16000 - ratio sr| ≤ 1 / 2 ^ 36 := by
  have hle : (sr.toNat : ℚ) ≤ 2 ^ 31 := by
    have : sr.toNat ≤ 2 ^ 31 := by omega
    exact_mod_cast this
  have herror := Format.abs_sub_nearest_le (F := binary64) (q := (sr.toNat : ℚ) / 16000) (k := 18)
    (by positivity) (by rw [div_lt_iff₀ (by norm_num)]; norm_num; linarith)
  calc |(sr.toNat : ℚ) / 16000 - ratio sr|
      ≤ 2 ^ (max binary64.minExponent ((18 : ℤ) - binary64.precision)) / 2 := herror
    _ = 1 / 2 ^ 36 := by
      rw [show max binary64.minExponent ((18 : ℤ) - binary64.precision) = -35 by decide]
      norm_num

/-- The exact position and its rounded product. -/
theorem abs_nearest_sub_le {sr : ℤ} {a : ℕ} {n : ℕ} (hsr : 0 < sr) (hlt : sr < 2 ^ 31)
    (ha : a * sr.toNat ≤ n * 16000) (hn : n < 2 ^ 31) (ha' : a < 2 ^ 31) :
    (a : ℚ) * ratio sr ≤ n + 1 / 2 ∧
      |(a : ℚ) * ratio sr - binary64.nearest (a * ratio sr)| ≤ 1 / 2 ^ 22 := by
  have hratio := abs_le.1 (abs_ratio_sub_le hsr hlt)
  have hnonneg : 0 ≤ ratio sr := Format.nearest_nonneg (by positivity)
  have hn' : (n : ℚ) < 2 ^ 31 := by exact_mod_cast hn
  have ha'' : (a : ℚ) < 2 ^ 31 := by exact_mod_cast ha'
  have hexact : (a : ℚ) * (sr.toNat / 16000) ≤ n := by
    rw [← mul_div_assoc, div_le_iff₀ (by norm_num)]
    exact_mod_cast ha
  have hproduct : (a : ℚ) * ratio sr ≤ n + 1 / 2 := by
    have hstep : (a : ℚ) * ratio sr ≤ a * (sr.toNat / 16000 + 1 / 2 ^ 36) :=
      mul_le_mul_of_nonneg_left (by linarith) (Nat.cast_nonneg a)
    have hsmall : (a : ℚ) * (1 / 2 ^ 36) ≤ 1 / 2 := by
      have := mul_le_mul_of_nonneg_right ha''.le (show (0 : ℚ) ≤ 1 / 2 ^ 36 by norm_num)
      refine this.trans ?_
      norm_num
    rw [mul_add] at hstep
    linarith
  refine ⟨hproduct, ?_⟩
  have hbound : (a : ℚ) * ratio sr < 2 ^ (32 : ℤ) :=
    calc (a : ℚ) * ratio sr ≤ n + 1 / 2 := hproduct
      _ < 2 ^ 31 + 1 / 2 := by linarith
      _ < 2 ^ (32 : ℤ) := by norm_num
  have herror := Format.abs_sub_nearest_le (F := binary64) (q := (a : ℚ) * ratio sr) (k := 32)
    (by positivity) hbound
  calc |(a : ℚ) * ratio sr - binary64.nearest (a * ratio sr)|
      ≤ 2 ^ (max binary64.minExponent ((32 : ℤ) - binary64.precision)) / 2 := herror
    _ = 1 / 2 ^ 22 := by
      rw [show max binary64.minExponent ((32 : ℤ) - binary64.precision) = -21 by decide]
      norm_num

/-- Positions keep their order. -/
theorem scaled_mono {sr : ℤ} {a b : ℕ} (hab : a ≤ b) : scaled sr a ≤ scaled sr b := by
  have hnonneg : 0 ≤ ratio sr := Format.nearest_nonneg (by positivity)
  have hcast : (a : ℚ) ≤ b := by exact_mod_cast hab
  refine Nat.floor_mono (Format.nearest_mono (mul_nonneg (Nat.cast_nonneg a) hnonneg) ?_)
  exact mul_le_mul_of_nonneg_right hcast hnonneg

/-- Positions of the model lie in the input. -/
theorem scaled_le {sr : ℤ} {a n : ℕ} (hsr : 0 < sr) (hlt : sr < 2 ^ 31)
    (ha : a * sr.toNat ≤ n * 16000) (hn : n < 2 ^ 31) (ha' : a < 2 ^ 31) : scaled sr a ≤ n := by
  have hnonneg : 0 ≤ ratio sr := Format.nearest_nonneg (by positivity)
  have hrepresentable : binary64.Representable ((n : ℚ) + 1 / 2) := by
    refine ⟨2 * n + 1, -1, ?_, by decide, ?_⟩
    · show 2 * n + 1 < 2 ^ 53
      omega
    · push_cast
      rw [zpow_neg_one]
      ring
  have hnearest := Format.nearest_le (F := binary64) (by positivity)
    (abs_nearest_sub_le hsr hlt ha hn ha').1 hrepresentable
  have hfloor : scaled sr a < n + 1 := by
    rw [scaled, Nat.floor_lt (Format.nearest_nonneg (by positivity))]
    push_cast
    linarith
  exact Nat.le_of_lt_succ hfloor

/-! ### The result -/

/-- What the checks establish about the length of the input of the model. -/
structure Fits (n sr : ℤ) (length : ℕ) : Prop where
  pos : 0 < n
  rate_pos : 0 < sr
  length_mul_le : length * sr.toNat ≤ n.toNat * 16000
  length_le : length ≤ kIntMax

theorem Fits.of_modelLength {n sr : ℤ} {length : ℕ} (hn : 0 < n) (hsr : 0 < sr) (hlt : n < 2 ^ 31)
    (h : modelLength n sr = .ok length) : Fits n sr length := by
  rw [modelLength] at h
  split_ifs at h with hsame
  · obtain rfl := Except.ok.inj h
    refine ⟨hn, hsr, ?_, by rw [kIntMax]; omega⟩
    rw [hsame]
    exact le_rfl
  · rw [checkedResampledLength] at h
    split_ifs at h with hbad hlarge
    obtain rfl := Except.ok.inj h
    exact ⟨hn, hsr, Nat.div_mul_le_self _ _, by omega⟩

/-- The parts of an accepted call. -/
theorem segments_eq_ok {probs : ℕ → Finite binary32} {n sr : ℤ} {thresh : Finite binary32}
    {minSpeechMs minSilenceMs padMs : ℤ} {out : List (ℕ × ℕ)}
    (h : segments probs n sr (some thresh) minSpeechMs minSilenceMs padMs = .ok out) :
    0 < n ∧ 0 < sr ∧ 0 ≤ minSilenceMs ∧ 0 ≤ padMs ∧
      ∃ length, modelLength n sr = .ok length ∧ out =
        (unpadded (parameters thresh minSpeechMs minSilenceMs)
          ((List.range (length / kChunk)).map fun c => (probs c).value)).map
            (padded n sr length (padMs.toNat * 16)) := by
  rw [segments] at h
  dsimp only at h
  split_ifs at h with hbad
  simp only [not_or, not_le, not_lt] at hbad
  cases hcount : checkedChunkCount n with
  | error message =>
    rw [hcount] at h
    cases h
  | ok count =>
    cases hlength : modelLength n sr with
    | error message =>
      rw [hcount, hlength] at h
      cases h
    | ok length =>
      cases hchunks : checkedChunkCount length with
      | error message =>
        rw [hcount, hlength] at h
        simp only [bind, Except.bind, hchunks] at h
        cases h
      | ok chunks =>
        rw [hcount, hlength] at h
        simp only [bind, Except.bind, hchunks] at h
        have hcount' : chunks = length / kChunk := by
          rw [checkedChunkCount] at hchunks
          split_ifs at hchunks
          rw [← Except.ok.inj hchunks, Int.toNat_natCast]
        split_ifs at h with hrange
        refine ⟨hbad.1, hbad.2.1, hbad.2.2.2.2.2.1, hbad.2.2.2.2.2.2.1, length, rfl, ?_⟩
        rw [← hcount', Except.ok.inj h]

/-- **Speech segments.** The segments before padding are those of the rule; the intervals are in
order and in the input; and they do not overlap if the padding on both sides is at most the minimum
silence. -/
theorem segments_spec {probs : ℕ → Finite binary32} {n sr : Int32} {thresh : Finite binary32}
    {minSpeechMs minSilenceMs padMs : ℤ} {out : List (ℕ × ℕ)}
    (h : segments probs n.toInt sr.toInt (some thresh) minSpeechMs minSilenceMs padMs = .ok out) :
    ∃ length pr, modelLength n.toInt sr.toInt = .ok length ∧
      pr = (List.range (length / kChunk)).map (fun c => (probs c).value) ∧
      (∀ l, Rule (parameters thresh minSpeechMs minSilenceMs) kChunk pr 0 l ↔
        l = unpadded (parameters thresh minSpeechMs minSilenceMs) pr) ∧
      out = (unpadded (parameters thresh minSpeechMs minSilenceMs) pr).map
        (padded n.toInt sr.toInt length (padMs.toNat * 16)) ∧
      (∀ s ∈ out, s.1 ≤ s.2 ∧ (s.2 : ℤ) ≤ n.toInt) ∧
      out.Pairwise (fun s t => s.1 ≤ t.1 ∧ s.2 ≤ t.2) ∧
      (2 * padMs ≤ minSilenceMs → out.Pairwise fun s t => s.2 ≤ t.1) := by
  obtain ⟨hn, hsr, hsilence, hpad, length, hlength, hout⟩ := segments_eq_ok h
  refine ⟨length, _, hlength, rfl, fun l => rule_unpadded, hout, ?_⟩
  have hfits := Fits.of_modelLength hn hsr n.toInt_lt hlength
  have hsr' := sr.toInt_lt
  have hn' : n.toInt.toNat < 2 ^ 31 := by
    have := n.toInt_lt
    omega
  generalize hp : parameters thresh minSpeechMs minSilenceMs = p at hout
  generalize hpr : (List.range (length / kChunk)).map (fun c => (probs c).value) = pr at hout
  have hrule : Rule p kChunk pr 0 (unpadded p pr) := rule_unpadded.2 rfl
  have hchunks : kChunk * pr.length ≤ length := by
    rw [← hpr, List.length_map, List.length_range, Nat.mul_comm]
    exact Nat.div_mul_le_self _ _
  have hmul : ∀ a, a ≤ length → a * sr.toInt.toNat ≤ n.toInt.toNat * 16000 := fun a ha =>
    (Nat.mul_le_mul_right _ ha).trans hfits.length_mul_le
  have hlt : ∀ a, a ≤ length → a < 2 ^ 31 := fun a ha =>
    (ha.trans hfits.length_le).trans_lt (by decide)
  have hle : ∀ a, a ≤ length → scaled sr.toInt a ≤ n.toInt.toNat := fun a ha =>
    scaled_le hsr hsr' (hmul a ha) hn' (hlt a ha)
  rw [hout]
  refine ⟨?_, ?_, fun hshort => ?_⟩
  · intro s hs
    obtain ⟨t, ht, rfl⟩ := List.mem_map.1 hs
    obtain ⟨-, hmid, hhigh⟩ := hrule.bounds t ht
    rw [padded]
    dsimp only
    constructor
    · exact le_min (hle _ (by omega)) (scaled_mono (by omega))
    · have := Nat.min_le_left n.toInt.toNat
        (scaled sr.toInt (min length (t.2 + padMs.toNat * 16)))
      omega
  · refine List.Pairwise.map _ (fun s t hst => ?_)
      (List.Pairwise.and_mem.1 hrule.apart)
    obtain ⟨hs, ht, hgap⟩ := hst
    obtain ⟨-, hmid, hhigh⟩ := hrule.bounds s hs
    obtain ⟨-, hmid', hhigh'⟩ := hrule.bounds t ht
    rw [padded, padded]
    dsimp only
    constructor
    · exact scaled_mono (by omega)
    · exact min_le_min le_rfl (scaled_mono (by omega))
  · refine List.Pairwise.map _ (fun s t hst => ?_)
      (List.Pairwise.and_mem.1 hrule.apart)
    obtain ⟨hs, ht, hgap⟩ := hst
    obtain ⟨-, hmid, hhigh⟩ := hrule.bounds s hs
    obtain ⟨-, hmid', hhigh'⟩ := hrule.bounds t ht
    have hminSilence : p.minSilence = minSilenceMs.toNat * 16 := by rw [← hp, parameters]
    rw [padded, padded]
    dsimp only
    exact (Nat.min_le_right _ _).trans (scaled_mono (by omega))

/-! ### Pauses of several lengths -/

def half : Finite binary32 := ⟨false, 1 / 2, ⟨1, -1, by decide, by decide, by norm_num⟩,
  by rw [show binary32.maxExponent = 128 from rfl]; norm_num⟩

theorem representable_one : binary32.Representable 1 := ⟨1, 0, by decide, by decide, by norm_num⟩

theorem one_lt_two_pow_maxExponent : (1 : ℚ) < 2 ^ binary32.maxExponent := by
  rw [show binary32.maxExponent = 128 from rfl]
  norm_num

def one : Finite binary32 := ⟨false, 1, representable_one, one_lt_two_pow_maxExponent⟩

def zero : Finite binary32 := ⟨false, 0, ⟨0, 0, by decide, by decide, by norm_num⟩,
  by rw [show binary32.maxExponent = 128 from rfl]; norm_num⟩

/-- A pause of fourteen chunks. -/
def paused (c : ℕ) : Finite binary32 := if 6 ≤ c ∧ c < 20 then zero else one

/-- Half the rate of the model, and a padding of 50 ms on both sides of the pause. -/
theorem segments_spec_paused :
    ∃ out, segments paused 7680 8000 (some half) 100 100 50 = .ok out ∧
      out = [(0, 1936), (4720, 7680)] ∧ out.Pairwise fun s t => s.2 ≤ t.1 := by
  have hok : (segments paused 7680 8000 (some half) 100 100 50).toOption =
      some [(0, 1936), (4720, 7680)] := by decide +kernel
  cases h : segments paused 7680 8000 (some half) 100 100 50 with
  | error message =>
    rw [h] at hok
    cases hok
  | ok out =>
    rw [h] at hok
    obtain ⟨-, -, -, -, -, -, -, -, hapart⟩ :=
      @segments_spec paused 7680 8000 half 100 100 50 out h
    exact ⟨out, rfl, Option.some.inj hok, hapart (by decide)⟩

/-- Silence in the second chunk. -/
def alternating (c : ℕ) : Finite binary32 := if c = 1 then zero else one

/-- One silent chunk is a gap of 32 ms, and yet the scan does not close the segment there. -/
theorem not_rule_unpadded_alternating :
    (segments alternating 1536 16000 (some half) 0 32 0).isOk = true ∧
      ¬∀ l, Rule (parameters half 0 32) 0 [one.value, zero.value, one.value] 0 l ↔
        l = unpadded (parameters half 0 32) [one.value, zero.value, one.value] := by
  refine ⟨by decide +kernel, fun h => ?_⟩
  have hscan : unpadded (parameters half 0 32) [one.value, zero.value, one.value] = [(0, 1536)] := by
    decide +kernel
  have hpr : ∀ c, [one.value, zero.value, one.value].getD c 0 = if c = 0 ∨ c = 2 then 1 else 0 := by
    intro c
    rcases c with _ | _ | _ | c <;> simp [one, zero, Finite.value]
  have hspeech : ∀ c, c = 0 ∨ c = 2 ↔
      Speech (parameters half 0 32) [one.value, zero.value, one.value] c := by
    intro c
    rw [Speech, hpr]
    split_ifs with hc
    · exact iff_of_true hc (by decide +kernel)
    · exact iff_of_false hc (by decide +kernel)
  have hloud : ∀ c, c = 0 ∨ c = 2 →
      Loud (parameters half 0 32) [one.value, zero.value, one.value] c := by
    intro c hc
    rw [Loud, hpr, if_pos hc]
    decide +kernel
  have hfirst : Span (parameters half 0 32) 0 [one.value, zero.value, one.value] 0 0 1 := by
    refine ⟨hloud 0 (Or.inl rfl), le_rfl, Or.inl rfl, ⟨by decide, ?_, by decide⟩, ?_, by decide⟩
    · intro c hc hc'
      rw [← hspeech]
      omega
    · intro j' g' _ hg hgap
      have := hgap.1
      omega
  have hlast : OpenSpan (parameters half 0 32) 0 [one.value, zero.value, one.value] 2 2 := by
    refine ⟨hloud 2 (Or.inr rfl), le_rfl, Or.inl rfl, ?_, ?_, by decide⟩
    · intro c hc hc'
      simp only [List.length_cons, List.length_nil] at hc'
      omega
    · intro j' g' hj hg hgap
      have := hgap.1
      simp only [List.length_cons, List.length_nil] at hg
      omega
  have hrule : Rule (parameters half 0 32) 0 [one.value, zero.value, one.value] 0
      (kept (parameters half 0 32) 0 0 ++ kept (parameters half 0 32) 2 2) := by
    refine .closed le_rfl (fun c _ hc => absurd hc (Nat.not_lt_zero c)) hfirst
      (.unclosed le_rfl (fun c hc hc' => ?_) hlast)
    omega
  have heq := (h _).1 hrule
  rw [hscan] at heq
  revert heq
  decide

end Resonantia.Separation.Vad
