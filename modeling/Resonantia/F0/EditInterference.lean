import Resonantia.F0.PitchEdit
import Resonantia.Io.AudioExcerpt

/-!
# Interference of pitch edits

`process_f0` applies the pitch edits of a request to the curve one after the other. An edit acts on
rounded frames: a smooth edit joins the values at its two end frames, a shift scales the voiced frames
from its first one up to its last one.

## Main definitions

* `F0.processEdits`: the checks and the edits.
* `F0.Apart`: no frame that one of two edits writes is read or written by the other.
* `F0.Independent`: the edits of a list do not interfere.

## Main results

* `F0.editAll_perm`: edits that are apart may be applied in any order.
* `F0.independent_iff`: when edits that are accepted do not interfere.
-/

namespace Resonantia.F0

open BinaryFloat Io.AudioExcerpt

/-! ### The edits -/

variable {V : Type}

/-- What the edits compute with values: which are voiced, which are finite, the value between two
ends at a part of the way, and a shift by semitones. -/
structure PitchArithmetic (V : Type) where
  voiced : V → Bool
  finite : V → Bool
  joined : V → V → ℕ → ℕ → V
  shifted : Double → V → V

/-- The frame of a time on the padded timeline. -/
def frameAt (pad : Double) (time : Double) : ℕ :=
  (llround (binary64.nearest (binary64.nearest (time.value + pad.value) * 100))).toNat

/-- What one edit writes into a curve; the original curve decides what is voiced. -/
def PitchEdit.effect (a : PitchArithmetic V) (original : ℕ → V) (pad : Double) (e : PitchEdit)
    (values : ℕ → V) (i : ℕ) : V :=
  let first := frameAt pad e.start
  let last := frameAt pad e.stop
  match e.mode with
  | .smooth =>
    if first < i ∧ i < last then
      a.joined (values first) (values last) (i - first) (last - first)
    else values i
  | .shift =>
    if first ≤ i ∧ i < last ∧ a.voiced (original i) = true then a.shifted e.semitones (values i)
    else values i

/-- A turn of the loop over the edits, for curves with this number of frames. -/
def PitchEdit.apply (a : PitchArithmetic V) (original : ℕ → V) (frames : ℕ) (pad duration : Double)
    (e : PitchEdit) (values : ℕ → V) : Except String (ℕ → V) :=
  let first := frameAt pad e.start
  let last := frameAt pad e.stop
  if duration.value < e.stop.value then .error "pitch edit exceeds input duration"
  else if frames ≤ last ∨ last ≤ first then .error "pitch edit outside F0 timeline"
  else if e.mode = .smooth ∧ ((List.range (last + 1 - first)).all fun k =>
      a.voiced (original (first + k)) && a.voiced (values (first + k))) = false then
    .error "smooth pitch edit crosses unvoiced audio; narrow the interval"
  else .ok (e.effect a original pad values)

def editAll (a : PitchArithmetic V) (original : ℕ → V) (frames : ℕ) (pad duration : Double)
    (edits : List PitchEdit) (values : ℕ → V) : Except String (ℕ → V) :=
  edits.foldlM (fun values e => e.apply a original frames pad duration values) values

/-- `process_f0` after the curve is built; the spool of the result takes finite values. -/
def processEdits (a : PitchArithmetic V) (original : ℕ → V) (frames : ℕ) (pad duration : Double)
    (edits : List PitchEdit) (values : ℕ → V) : Except String (ℕ → V) :=
  if validPitchEdits edits = false then .error "invalid pitch edits"
  else if edits = [] then .ok values
  else if duration.value ≤ 0 ∨ 600 < duration.value ∨ pad.value < 0 ∨ 5 < pad.value ∨
      61100 < frames then
    .error "pitch edits require input <=600 seconds"
  else
    match editAll a original frames pad duration edits values with
    | .error message => .error message
    | .ok result =>
      if ((List.range frames).all fun i => a.finite (result i)) = true then .ok result
      else .error "pitch edit write failed or nonfinite result"

/-! ### What an edit reads and writes -/

section Frames

variable (a : PitchArithmetic V) (original : ℕ → V) (pad : Double)

/-- The frames whose value an edit may change. -/
def PitchEdit.Writes (e : PitchEdit) (i : ℕ) : Prop :=
  match e.mode with
  | .smooth => frameAt pad e.start < i ∧ i < frameAt pad e.stop
  | .shift => frameAt pad e.start ≤ i ∧ i < frameAt pad e.stop ∧ a.voiced (original i) = true

/-- The frames whose value an edit depends on. -/
def PitchEdit.Reads (e : PitchEdit) (i : ℕ) : Prop :=
  match e.mode with
  | .smooth => frameAt pad e.start ≤ i ∧ i ≤ frameAt pad e.stop
  | .shift => frameAt pad e.start ≤ i ∧ i < frameAt pad e.stop ∧ a.voiced (original i) = true

/-- No frame that one edit writes is read or written by the other. -/
def Apart (e d : PitchEdit) : Prop :=
  ∀ i, (e.Writes a original pad i → ¬d.Reads a original pad i ∧ ¬d.Writes a original pad i) ∧
    (d.Writes a original pad i → ¬e.Reads a original pad i ∧ ¬e.Writes a original pad i)

end Frames

/-- The edits of a list do not interfere: no edit writes what another one reads or writes, every order
gives the same curve, and every smoothed interval joins the final values at its ends. -/
structure Independent (a : PitchArithmetic V) (original : ℕ → V) (frames : ℕ) (pad duration : Double)
    (edits : List PitchEdit) (values result : ℕ → V) : Prop where
  apart : edits.Pairwise (Apart a original pad)
  order : ∀ edits', edits.Perm edits' →
    editAll a original frames pad duration edits' values = .ok result
  joins : ∀ e ∈ edits, e.mode = .smooth → ∀ i, frameAt pad e.start < i → i < frameAt pad e.stop →
    result i = a.joined (result (frameAt pad e.start)) (result (frameAt pad e.stop))
      (i - frameAt pad e.start) (frameAt pad e.stop - frameAt pad e.start)

variable {a : PitchArithmetic V} {original values values' result : ℕ → V} {frames : ℕ}
  {pad duration : Double} {e d : PitchEdit} {edits edits' : List PitchEdit}

theorem Apart.symm (h : Apart a original pad e d) : Apart a original pad d e := fun i =>
  ⟨(h i).2, (h i).1⟩

/-- Other frames stay as they are. -/
theorem PitchEdit.effect_of_not_writes {i : ℕ} (h : ¬e.Writes a original pad i) :
    e.effect a original pad values i = values i := by
  rw [Writes] at h
  rw [effect]
  cases hmode : e.mode with
  | smooth =>
    rw [hmode] at h
    exact if_neg h
  | shift =>
    rw [hmode] at h
    exact if_neg h

/-- What is written depends on the frames that are read. -/
theorem PitchEdit.effect_congr {i : ℕ} (h : e.Writes a original pad i)
    (hsame : ∀ j, e.Reads a original pad j → values j = values' j) :
    e.effect a original pad values i = e.effect a original pad values' i := by
  rw [Writes] at h
  rw [effect, effect]
  simp only [Reads] at hsame
  cases hmode : e.mode with
  | smooth =>
    rw [hmode] at h hsame
    dsimp only at h hsame ⊢
    have hle : frameAt pad e.start ≤ frameAt pad e.stop := (h.1.trans h.2).le
    rw [if_pos h, if_pos h, hsame _ ⟨le_rfl, hle⟩, hsame _ ⟨hle, le_rfl⟩]
  | shift =>
    rw [hmode] at h hsame
    dsimp only at h hsame ⊢
    rw [if_pos h, if_pos h, hsame i h]

/-- Edits that are apart commute. -/
theorem Apart.effect_comm (h : Apart a original pad e d) :
    d.effect a original pad (e.effect a original pad values) =
      e.effect a original pad (d.effect a original pad values) := by
  funext i
  by_cases he : e.Writes a original pad i
  · have hd := ((h i).1 he).2
    rw [PitchEdit.effect_of_not_writes hd]
    exact PitchEdit.effect_congr he fun j hj =>
      (PitchEdit.effect_of_not_writes fun hw => ((h j).2 hw).1 hj).symm
  · rw [PitchEdit.effect_of_not_writes he]
    by_cases hd : d.Writes a original pad i
    · exact PitchEdit.effect_congr hd fun j hj =>
        PitchEdit.effect_of_not_writes fun hw => ((h j).1 hw).1 hj
    · rw [PitchEdit.effect_of_not_writes hd, PitchEdit.effect_of_not_writes hd,
        PitchEdit.effect_of_not_writes he]

/-- The checks of an edit. -/
structure PitchEdit.Accepted (a : PitchArithmetic V) (original : ℕ → V) (frames : ℕ)
    (pad duration : Double) (e : PitchEdit) (values : ℕ → V) : Prop where
  stop_le : e.stop.value ≤ duration.value
  last_lt : frameAt pad e.stop < frames
  first_lt : frameAt pad e.start < frameAt pad e.stop
  voiced : e.mode = .smooth → ∀ i, frameAt pad e.start ≤ i → i ≤ frameAt pad e.stop →
    a.voiced (original i) = true ∧ a.voiced (values i) = true

theorem PitchEdit.apply_eq_ok_iff :
    e.apply a original frames pad duration values = .ok result ↔
      e.Accepted a original frames pad duration values ∧
        result = e.effect a original pad values := by
  have hall : ((List.range (frameAt pad e.stop + 1 - frameAt pad e.start)).all fun k =>
      a.voiced (original (frameAt pad e.start + k)) &&
        a.voiced (values (frameAt pad e.start + k))) = true ↔
      ∀ i, frameAt pad e.start ≤ i → i ≤ frameAt pad e.stop →
        a.voiced (original i) = true ∧ a.voiced (values i) = true := by
    rw [List.all_eq_true]
    constructor
    · intro h i hlow hhigh
      have hi := h (i - frameAt pad e.start) (List.mem_range.2 (by omega))
      rw [Nat.add_sub_cancel' hlow] at hi
      exact Bool.and_eq_true_iff.1 hi
    · intro h k hk
      have hlt := List.mem_range.1 hk
      exact Bool.and_eq_true_iff.2 (h _ (Nat.le_add_right _ _) (by omega))
  rw [apply]
  constructor
  · intro h
    split_ifs at h with hstop hrange hvoiced
    rw [not_or, not_le, not_le] at hrange
    refine ⟨⟨not_lt.1 hstop, hrange.1, hrange.2, fun hmode => ?_⟩, (Except.ok.inj h).symm⟩
    rw [not_and, Bool.not_eq_false] at hvoiced
    exact hall.1 (hvoiced hmode)
  · rintro ⟨h, rfl⟩
    rw [if_neg (not_lt.2 h.stop_le), if_neg (not_or.2 ⟨not_le.2 h.last_lt, not_le.2 h.first_lt⟩),
      if_neg]
    rintro ⟨hmode, hfalse⟩
    rw [hall.2 (h.voiced hmode)] at hfalse
    cases hfalse

/-- The checks depend on the frames that are read. -/
theorem PitchEdit.Accepted.congr (h : e.Accepted a original frames pad duration values)
    (hsame : ∀ j, e.Reads a original pad j → values j = values' j) :
    e.Accepted a original frames pad duration values' := by
  refine ⟨h.stop_le, h.last_lt, h.first_lt, fun hmode i hlow hhigh => ?_⟩
  have hreads : e.Reads a original pad i := by
    rw [Reads, hmode]
    exact ⟨hlow, hhigh⟩
  rw [← hsame i hreads]
  exact h.voiced hmode i hlow hhigh

theorem editAll_cons :
    editAll a original frames pad duration (e :: edits) values = .ok result ↔
      e.Accepted a original frames pad duration values ∧
        editAll a original frames pad duration edits (e.effect a original pad values) =
          .ok result := by
  rw [editAll, List.foldlM_cons]
  constructor
  · intro h
    cases happly : e.apply a original frames pad duration values with
    | error message =>
      rw [happly] at h
      cases h
    | ok next =>
      obtain ⟨haccepted, rfl⟩ := PitchEdit.apply_eq_ok_iff.1 happly
      rw [happly] at h
      exact ⟨haccepted, h⟩
  · rintro ⟨haccepted, hrest⟩
    rw [PitchEdit.apply_eq_ok_iff.2 ⟨haccepted, rfl⟩]
    exact hrest

/-- **Edits that are apart may be applied in any order.** -/
theorem editAll_perm (hperm : edits.Perm edits') (hapart : edits.Pairwise (Apart a original pad))
    (h : editAll a original frames pad duration edits values = .ok result) :
    editAll a original frames pad duration edits' values = .ok result := by
  induction hperm generalizing values with
  | nil => exact h
  | cons e _ ih =>
    obtain ⟨haccepted, hrest⟩ := editAll_cons.1 h
    exact editAll_cons.2 ⟨haccepted, ih (List.pairwise_cons.1 hapart).2 hrest⟩
  | swap e d edits =>
    obtain ⟨haccepted, hrest⟩ := editAll_cons.1 h
    obtain ⟨haccepted', hrest'⟩ := editAll_cons.1 hrest
    have hcomm : Apart a original pad d e := (List.pairwise_cons.1 hapart).1 e List.mem_cons_self
    have hfirst : e.Accepted a original frames pad duration values :=
      haccepted'.congr fun j hj =>
        PitchEdit.effect_of_not_writes fun hw => ((hcomm j).1 hw).1 hj
    have hsecond : d.Accepted a original frames pad duration (e.effect a original pad values) :=
      haccepted.congr fun j hj =>
        (PitchEdit.effect_of_not_writes fun hw => ((hcomm j).2 hw).1 hj).symm
    refine editAll_cons.2 ⟨hfirst, editAll_cons.2 ⟨hsecond, ?_⟩⟩
    rw [← hcomm.effect_comm]
    exact hrest'
  | trans hperm _ ih ih' =>
    exact ih' (hapart.perm hperm fun h => h.symm) (ih hapart h)

theorem editAll_append : editAll a original frames pad duration (edits ++ edits') values =
    editAll a original frames pad duration edits values >>=
      editAll a original frames pad duration edits' :=
  List.foldlM_append

/-- Every edit is accepted in some state of the curve. -/
theorem exists_accepted (h : editAll a original frames pad duration edits values = .ok result)
    (he : e ∈ edits) : ∃ u, e.Accepted a original frames pad duration u := by
  induction edits generalizing values with
  | nil => cases he
  | cons d edits ih =>
    obtain ⟨haccepted, hrest⟩ := editAll_cons.1 h
    rcases List.mem_cons.1 he with rfl | he
    · exact ⟨values, haccepted⟩
    · exact ih hrest he

/-- A smoothed interval joins the final values at its ends if its edit may come last. -/
theorem joins_of_perm (hapart : edits.Pairwise (Apart a original pad))
    (h : editAll a original frames pad duration edits values = .ok result) (he : e ∈ edits)
    (hmode : e.mode = .smooth) {i : ℕ} (hlow : frameAt pad e.start < i)
    (hhigh : i < frameAt pad e.stop) :
    result i = a.joined (result (frameAt pad e.start)) (result (frameAt pad e.stop))
      (i - frameAt pad e.start) (frameAt pad e.stop - frameAt pad e.start) := by
  obtain ⟨front, back, rfl⟩ := List.append_of_mem he
  have hlast : (front ++ e :: back).Perm ((front ++ back) ++ [e]) :=
    List.perm_middle.trans (List.perm_append_singleton e (front ++ back)).symm
  have hresult := editAll_perm hlast hapart h
  rw [editAll_append] at hresult
  cases hbefore : editAll a original frames pad duration (front ++ back) values with
  | error message =>
    rw [hbefore] at hresult
    cases hresult
  | ok u =>
    rw [hbefore] at hresult
    obtain ⟨-, hrest⟩ := editAll_cons.1 hresult
    obtain rfl := Except.ok.inj hrest
    have hwrites : ∀ j, ¬(frameAt pad e.start < j ∧ j < frameAt pad e.stop) →
        e.effect a original pad u j = u j := by
      intro j hj
      refine PitchEdit.effect_of_not_writes fun hw => hj ?_
      rw [PitchEdit.Writes, hmode] at hw
      exact hw
    rw [hwrites (frameAt pad e.start) fun h => lt_irrefl _ h.1,
      hwrites (frameAt pad e.stop) fun h => lt_irrefl _ h.2, PitchEdit.effect, hmode]
    exact if_pos ⟨hlow, hhigh⟩

/-! ### When edits are apart -/

theorem llround_mono {q r : ℚ} (hq : 0 ≤ q) (h : q ≤ r) : llround q ≤ llround r := by
  rw [llround, llround, if_neg (not_lt.2 hq), if_neg (not_lt.2 (hq.trans h))]
  exact Int.floor_mono (by linarith)

/-- Later times have later frames. -/
theorem frameAt_mono {x y : Double} (hpad : 0 ≤ pad.value) (hx : 0 ≤ x.value)
    (h : x.value ≤ y.value) : frameAt pad x ≤ frameAt pad y := by
  have hsum : 0 ≤ x.value + pad.value := add_nonneg hx hpad
  have hnonneg : 0 ≤ binary64.nearest (x.value + pad.value) := Format.nearest_nonneg hsum
  have hfirst : binary64.nearest (x.value + pad.value) ≤ binary64.nearest (y.value + pad.value) :=
    Format.nearest_mono hsum (by linarith)
  refine Int.toNat_le_toNat (llround_mono (Format.nearest_nonneg (by linarith)) ?_)
  exact Format.nearest_mono (by linarith) (by linarith)

/-- A valid edit ends after it starts. -/
theorem PitchEdit.ValidAfter.start_le_stop {previous : ℚ} (h : e.ValidAfter previous) :
    e.start.value ≤ e.stop.value := by
  rw [PitchEdit.ValidAfter, not_or, not_or, not_or] at h
  have hlength : shortestEdit ≤ e.stop.sub e.start := not_lt.1 h.2.2.1
  have hpos : 0 < shortestEdit := by decide +kernel
  by_contra hlt
  rw [not_le] at hlt
  have hneg : e.stop.value - e.start.value < 0 := by linarith
  have hround : e.stop.sub e.start ≤ 0 := by
    rw [Finite.sub, Format.nearestSigned, if_pos hneg]
    have hnonneg : 0 ≤ binary64.nearest (-(e.stop.value - e.start.value)) :=
      Format.nearest_nonneg (by linarith)
    linarith
  linarith

/-- Valid edits are in order. -/
theorem pairwise_of_validFrom {previous : ℚ} (h : validFrom previous edits = true) :
    (∀ e ∈ edits, previous < e.start.value ∧ 0 ≤ e.start.value ∧ e.start.value ≤ e.stop.value) ∧
      edits.Pairwise fun e d => e.stop.value ≤ d.start.value := by
  induction edits generalizing previous with
  | nil =>
    refine ⟨fun e he => ?_, List.Pairwise.nil⟩
    cases he
  | cons e edits ih =>
    rw [validFrom] at h
    split_ifs at h with hvalid
    obtain ⟨hlater, hpairwise⟩ := ih h
    have hordered := hvalid.start_le_stop
    simp only [PitchEdit.ValidAfter, not_or, not_lt, not_le] at hvalid
    refine ⟨fun d hd => ?_, List.pairwise_cons.2 ⟨fun d hd => (hlater d hd).1.le, hpairwise⟩⟩
    rcases List.mem_cons.1 hd with rfl | hd
    · exact ⟨hvalid.2.2.2.2.1, hvalid.1, hordered⟩
    · obtain ⟨hafter, hnonneg, hle⟩ := hlater d hd
      exact ⟨(hvalid.2.2.2.2.1.trans_le hordered).trans hafter, hnonneg, hle⟩

/-- A smooth edit whose last frame is the first frame of a shift. -/
def Meets (pad : Double) (e d : PitchEdit) : Prop :=
  e.mode = .smooth ∧ d.mode = .shift ∧ frameAt pad e.stop = frameAt pad d.start

/-- An edit that ends before another one starts, or at a frame that the other does not write, is apart
from it. -/
theorem apart_of_not_meets (hle : frameAt pad e.stop ≤ frameAt pad d.start)
    (h : ¬Meets pad e d) : Apart a original pad e d := by
  intro i
  rw [Meets, not_and, not_and] at h
  simp only [PitchEdit.Writes, PitchEdit.Reads]
  cases he : e.mode with
  | smooth =>
    cases hd : d.mode with
    | smooth =>
      dsimp only
      omega
    | shift =>
      have hlt : frameAt pad e.stop < frameAt pad d.start := lt_of_le_of_ne hle (h he hd)
      dsimp only
      omega
  | shift =>
    cases hd : d.mode with
    | smooth =>
      dsimp only
      omega
    | shift =>
      dsimp only
      omega

/-- What a run of `process_f0` with edits has checked. -/
theorem editAll_of_processEdits
    (h : processEdits a original frames pad duration edits values = .ok result) :
    editAll a original frames pad duration edits values = .ok result ∧
      (edits ≠ [] → validPitchEdits edits = true ∧ 0 ≤ pad.value) := by
  rw [processEdits] at h
  split_ifs at h with hvalid hnil hrange
  · obtain rfl := Except.ok.inj h
    rw [hnil]
    exact ⟨rfl, fun hne => absurd rfl hne⟩
  simp only [not_or, not_lt, not_le] at hrange
  refine ⟨?_, fun _ => ⟨by rwa [Bool.not_eq_false] at hvalid, hrange.2.2.1⟩⟩
  cases hedit : editAll a original frames pad duration edits values with
  | error message =>
    rw [hedit] at h
    cases h
  | ok final =>
    rw [hedit] at h
    dsimp only at h
    split_ifs at h with hfinite
    exact h

/-- A shift changes the frame at which it meets a smooth edit. -/
theorem not_meets_of_apart (he : ∃ u, e.Accepted a original frames pad duration u)
    (hd : ∃ u, d.Accepted a original frames pad duration u) (hapart : Apart a original pad e d) :
    ¬Meets pad e d := by
  rintro ⟨hsmooth, hshift, hframe⟩
  obtain ⟨u, haccepted⟩ := he
  obtain ⟨v, haccepted'⟩ := hd
  have hvoiced := (haccepted.voiced hsmooth _ haccepted.first_lt.le le_rfl).1
  have hwrites : d.Writes a original pad (frameAt pad e.stop) := by
    rw [PitchEdit.Writes, hshift]
    exact ⟨hframe.ge, hframe ▸ haccepted'.first_lt, hvoiced⟩
  refine ((hapart _).2 hwrites).1 ?_
  rw [PitchEdit.Reads, hsmooth]
  exact ⟨haccepted.first_lt.le, le_rfl⟩

/-- **When pitch edits do not interfere.** Edits that are accepted do not interfere if and only if no
shift starts at the frame at which a smooth edit before it ends. -/
theorem independent_iff (h : processEdits a original frames pad duration edits values = .ok result) :
    Independent a original frames pad duration edits values result ↔
      edits.Pairwise fun e d => ¬Meets pad e d := by
  obtain ⟨hedit, hchecked⟩ := editAll_of_processEdits h
  constructor
  · intro hindependent
    exact hindependent.apart.imp_of_mem fun he hd hapart =>
      not_meets_of_apart (exists_accepted hedit he) (exists_accepted hedit hd) hapart
  · intro hmeets
    have hapart : edits.Pairwise (Apart a original pad) := by
      rcases eq_or_ne edits [] with rfl | hne
      · exact List.Pairwise.nil
      obtain ⟨hvalid, hpad⟩ := hchecked hne
      rw [validPitchEdits, Bool.and_eq_true] at hvalid
      obtain ⟨hstarts, hordered⟩ := pairwise_of_validFrom hvalid.2
      refine List.Pairwise.imp_of_mem (fun {e d} he _ hboth => ?_) (hordered.and hmeets)
      refine apart_of_not_meets (frameAt_mono hpad ?_ hboth.1) hboth.2
      exact (hstarts e he).2.1.trans (hstarts e he).2.2
    exact ⟨hapart, fun edits' hperm => editAll_perm hperm hapart hedit,
      fun e he hmode i hlow hhigh => joins_of_perm hapart hedit he hmode hlow hhigh⟩

/-! ### Two edits at one frame -/

/-- The binary logarithm of the pitch of a voiced frame; a shift of twelve semitones is one. -/
def logPitch : PitchArithmetic (Option ℚ) where
  voiced := Option.isSome
  finite _ := true
  joined
    | some x, some y, k, n => some (x + (y - x) * k / n)
    | _, _, _, _ => none
  shifted semitones x := x.map (· + semitones.value / 12)

/-- A non-negative decimal in double precision. -/
def seconds (q : ℚ) (hq : 0 ≤ q) (hlt : binary64.nearest q < 2 ^ binary64.maxExponent) : Double :=
  ⟨false, binary64.nearest q, Format.nearest_representable hq, hlt⟩

def half : Double := seconds (1 / 2) (by norm_num) (by decide +kernel)

def octave : Double := seconds 12 (by norm_num) (by decide +kernel)

def noPad : Double := seconds 0 le_rfl (by decide +kernel)

def twoSeconds : Double := seconds 2 (by norm_num) (by decide +kernel)

/-- A smooth edit up to one second. -/
def smoothToOne : PitchEdit :=
  ⟨.smooth, half, seconds 1 (by norm_num) (by decide +kernel), noPad⟩

/-- A shift that starts four milliseconds after one second. -/
def shiftAfterOne : PitchEdit :=
  ⟨.shift, seconds (1004 / 1000) (by norm_num) (by decide +kernel),
    seconds (11 / 10) (by norm_num) (by decide +kernel), octave⟩

def shiftLater : PitchEdit :=
  ⟨.shift, seconds (12 / 10) (by norm_num) (by decide +kernel),
    seconds (13 / 10) (by norm_num) (by decide +kernel), octave⟩

/-- A curve of one hertz. -/
def constant (_ : ℕ) : Option ℚ := some 0

/-- The curve after a shift by an octave from frame `first` up to frame `last`. -/
def raised (first last i : ℕ) : Option ℚ := if first ≤ i ∧ i < last then some 1 else some 0

theorem effect_smoothToOne : smoothToOne.effect logPitch constant noPad constant = constant := by
  funext i
  have hjoined : ∀ k n, logPitch.joined (some 0) (some 0) k n = some 0 := by
    intro k n
    simp [logPitch]
  rw [PitchEdit.effect]
  simp only [smoothToOne, constant, hjoined, ite_self]

theorem effect_octave {first last : ℕ} (hmode : d.mode = .shift) (hoctave : d.semitones = octave)
    (hfirst : frameAt noPad d.start = first) (hlast : frameAt noPad d.stop = last) :
    d.effect logPitch constant noPad constant = raised first last := by
  funext i
  have hshifted : logPitch.shifted octave (some 0) = some 1 := by decide +kernel
  rw [PitchEdit.effect, hmode, raised, hfirst, hlast, hoctave]
  refine if_congr ?_ hshifted rfl
  exact ⟨fun h => ⟨h.1, h.2.1⟩, fun h => ⟨h.1, h.2, rfl⟩⟩

/-- A smooth edit up to frame 100 and a later shift are accepted on a voiced curve of two seconds. -/
theorem processEdits_smoothToOne {first last : ℕ} (hmode : d.mode = .shift)
    (hoctave : d.semitones = octave) (hfirst : frameAt noPad d.start = first)
    (hlast : frameAt noPad d.stop = last) (hlt : first < last) (hframes : last < 201)
    (hstop : d.stop.value ≤ twoSeconds.value) (hvalid : validPitchEdits [smoothToOne, d] = true) :
    processEdits logPitch constant 201 noPad twoSeconds [smoothToOne, d] constant =
      .ok (raised first last) := by
  have hsmooth : smoothToOne.Accepted logPitch constant 201 noPad twoSeconds constant :=
    ⟨by decide +kernel, by decide +kernel, by decide +kernel, fun _ i _ _ => ⟨rfl, rfl⟩⟩
  have hshift : d.Accepted logPitch constant 201 noPad twoSeconds constant :=
    ⟨hstop, hlast ▸ hframes, by rw [hfirst, hlast]; exact hlt, fun _ i _ _ => ⟨rfl, rfl⟩⟩
  have hedit : editAll logPitch constant 201 noPad twoSeconds [smoothToOne, d] constant =
      .ok (raised first last) := by
    refine editAll_cons.2 ⟨hsmooth, ?_⟩
    rw [effect_smoothToOne]
    refine editAll_cons.2 ⟨hshift, ?_⟩
    rw [effect_octave hmode hoctave hfirst hlast]
    rfl
  have hrange : ¬(twoSeconds.value ≤ 0 ∨ 600 < twoSeconds.value ∨ noPad.value < 0 ∨
      5 < noPad.value ∨ 61100 < 201) := by decide +kernel
  rw [processEdits, hvalid, if_neg Bool.noConfusion, if_neg (List.cons_ne_nil _ _),
    if_neg hrange, hedit]
  exact if_pos (List.all_eq_true.2 fun i _ => rfl)

theorem processEdits_shiftLater :
    processEdits logPitch constant 201 noPad twoSeconds [smoothToOne, shiftLater] constant =
      .ok (raised 120 130) := by
  have hfirst : frameAt noPad shiftLater.start = 120 := by decide +kernel
  have hlast : frameAt noPad shiftLater.stop = 130 := by decide +kernel
  exact processEdits_smoothToOne rfl rfl hfirst hlast (by decide) (by decide) (by decide +kernel)
    (by decide +kernel)

theorem independent_iff_shiftLater :
    Independent logPitch constant 201 noPad twoSeconds [smoothToOne, shiftLater] constant
        (raised 120 130) ↔
      [smoothToOne, shiftLater].Pairwise fun e d => ¬Meets noPad e d :=
  independent_iff processEdits_shiftLater

/-- The shift starts at the frame at which the smooth edit ends, and the smoothed interval no longer
joins the values at its ends. -/
theorem not_independent_shiftAfterOne :
    processEdits logPitch constant 201 noPad twoSeconds [smoothToOne, shiftAfterOne] constant =
        .ok (raised 100 110) ∧
      ¬Independent logPitch constant 201 noPad twoSeconds [smoothToOne, shiftAfterOne] constant
        (raised 100 110) ∧
      raised 100 110 75 ≠ logPitch.joined (raised 100 110 50) (raised 100 110 100) 25 50 := by
  have hfirst : frameAt noPad shiftAfterOne.start = 100 := by decide +kernel
  have hlast : frameAt noPad shiftAfterOne.stop = 110 := by decide +kernel
  have hrun := processEdits_smoothToOne rfl rfl hfirst hlast (by decide) (by decide)
    (by decide +kernel) (by decide +kernel)
  obtain ⟨hedit, -⟩ := editAll_of_processEdits hrun
  refine ⟨hrun, fun hindependent => ?_, by decide +kernel⟩
  have hapart := (List.pairwise_cons.1 hindependent.apart).1 shiftAfterOne List.mem_cons_self
  refine not_meets_of_apart (exists_accepted hedit List.mem_cons_self)
    (exists_accepted hedit (List.mem_cons_of_mem _ List.mem_cons_self)) hapart ?_
  exact ⟨rfl, rfl, by decide +kernel⟩

end Resonantia.F0
