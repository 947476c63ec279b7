import Resonantia.Library.Json

/-!
# Framing of byte strings

A text that is preceded by its length and a colon can be told from whatever follows it. Sequences of
such frames can then be told apart too.

## Main definitions

* `FieldFraming.Unambiguous`: encodings that can be told from what follows them.
* `FieldFraming.frame`: a text after its length.
* `FieldFraming.Stops`: what follows the elements of a class.

## Main results

* `FieldFraming.unambiguous_frame`: a frame determines its text.
* `FieldFraming.Unambiguous.flatMap_inj`: a sequence of encodings determines its elements.
-/

namespace FieldFraming

open ByteString Json

variable {α β γ : Type}

/-- An encoding that can be told from whatever follows it. -/
def Unambiguous (encode : α → List γ) : Prop :=
  ∀ a b r s, encode a ++ r = encode b ++ s → a = b ∧ r = s

theorem Unambiguous.injective {encode : α → List γ} (h : Unambiguous encode) :
    Function.Injective encode := by
  intro a b hab
  exact (h a b [] [] (by rw [hab])).1

/-- Two encodings in a row. -/
theorem Unambiguous.prod {encode : α → List γ} {encode' : β → List γ} (h : Unambiguous encode)
    (h' : Unambiguous encode') : Unambiguous fun x : α × β => encode x.1 ++ encode' x.2 := by
  rintro ⟨a, a'⟩ ⟨b, b'⟩ r s heq
  rw [List.append_assoc, List.append_assoc] at heq
  obtain ⟨rfl, hrest⟩ := h _ _ _ _ heq
  obtain ⟨rfl, hrs⟩ := h' _ _ _ _ hrest
  exact ⟨rfl, hrs⟩

/-- **A sequence of encodings determines its elements**, where no encoding is empty. -/
theorem Unambiguous.flatMap_inj {encode : α → List γ} (h : Unambiguous encode)
    (hne : ∀ a, encode a ≠ []) {l m : List α} (heq : l.flatMap encode = m.flatMap encode) :
    l = m := by
  induction l generalizing m with
  | nil =>
    cases m with
    | nil => rfl
    | cons b m =>
      rw [List.flatMap_nil, List.flatMap_cons] at heq
      exact absurd (List.append_eq_nil_iff.1 heq.symm).1 (hne b)
  | cons a l ih =>
    cases m with
    | nil =>
      rw [List.flatMap_nil, List.flatMap_cons] at heq
      exact absurd (List.append_eq_nil_iff.1 heq).1 (hne a)
    | cons b m =>
      rw [List.flatMap_cons, List.flatMap_cons] at heq
      obtain ⟨rfl, hrest⟩ := h _ _ _ _ heq
      rw [ih hrest]

/-! ### Lengths -/

/-- What stands before a separator that does not occur in it. -/
theorem append_cons_inj {c : γ} {u v r s : List γ} (hu : c ∉ u) (hv : c ∉ v)
    (h : u ++ c :: r = v ++ c :: s) : u = v ∧ r = s := by
  induction u generalizing v with
  | nil =>
    cases v with
    | nil => exact ⟨rfl, (List.cons.inj h).2⟩
    | cons b v => exact absurd (List.mem_cons.2 (Or.inl (List.cons.inj h).1)) hv
  | cons a u ih =>
    cases v with
    | nil => exact absurd (List.mem_cons.2 (Or.inl (List.cons.inj h).1.symm)) hu
    | cons b v =>
      obtain ⟨rfl, htail⟩ := List.cons.inj h
      obtain ⟨rfl, hrs⟩ := ih (fun hc => hu (List.mem_cons_of_mem _ hc))
        (fun hc => hv (List.mem_cons_of_mem _ hc)) htail
      exact ⟨rfl, hrs⟩

def colon : UInt8 := 58

/-- The length of a text, before the text itself. -/
def lengthPrefix (text : Bytes) : Bytes := decimalText text.length ++ [colon]

/-- A text after its length. -/
def frame (text : Bytes) : Bytes := lengthPrefix text ++ text

theorem frame_ne_nil (text : Bytes) : frame text ≠ [] := by
  simp [frame, lengthPrefix]

theorem colon_notMem_decimalText (n : ℕ) : colon ∉ decimalText n := by
  intro h
  have hdigit := isDigit_decimalText h
  revert hdigit
  decide

theorem decimalText_injective : Function.Injective decimalText := by
  intro m n h
  rw [← decimal_decimalText m, h, decimal_decimalText]

/-- **A frame determines its text**, whatever bytes the text has. -/
theorem unambiguous_frame : Unambiguous frame := by
  intro a b r s h
  simp only [frame, lengthPrefix, List.append_assoc, List.singleton_append] at h
  obtain ⟨hlength, hrest⟩ :=
    append_cons_inj (colon_notMem_decimalText _) (colon_notMem_decimalText _) h
  exact List.append_inj hrest (decimalText_injective hlength)

/-! ### Where a class of elements stops -/

/-- The first element, if there is one, is not in a class. -/
def Stops (p : γ → Bool) (l : List γ) : Prop := ∀ c, l.head? = some c → p c = false

theorem stops_cons {p : γ → Bool} {c : γ} {l : List γ} (h : p c = false) :
    Stops p (c :: l) := by
  intro d hd
  rw [← Option.some.inj hd]
  exact h

theorem Stops.dropWhile_eq {p : γ → Bool} {l : List γ} (h : Stops p l) : l.dropWhile p = l := by
  cases l with
  | nil => rfl
  | cons c l => rw [List.dropWhile_cons_of_neg (by rw [h c rfl]; exact Bool.false_ne_true)]

theorem Stops.takeWhile_eq {p : γ → Bool} {l : List γ} (h : Stops p l) : l.takeWhile p = [] := by
  cases l with
  | nil => rfl
  | cons c l => rw [List.takeWhile_cons_of_neg (by rw [h c rfl]; exact Bool.false_ne_true)]

theorem dropWhile_append {p : γ → Bool} {a l : List γ} (ha : ∀ c ∈ a, p c = true)
    (hl : Stops p l) : (a ++ l).dropWhile p = l := by
  rw [List.dropWhile_append_of_pos ha, hl.dropWhile_eq]

theorem takeWhile_append {p : γ → Bool} {a l : List γ} (ha : ∀ c ∈ a, p c = true)
    (hl : Stops p l) : (a ++ l).takeWhile p = a := by
  rw [List.takeWhile_append_of_pos ha, hl.takeWhile_eq, List.append_nil]

theorem stops_append {p : γ → Bool} {a l : List γ} (hne : a ≠ []) (ha : ∀ c ∈ a, p c = false) :
    Stops p (a ++ l) := by
  cases a with
  | nil => exact absurd rfl hne
  | cons c a => exact stops_cons (ha c List.mem_cons_self)

end FieldFraming
