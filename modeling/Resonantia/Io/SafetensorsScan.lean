import Mathlib.Tactic.SplitIfs
import Resonantia.Io.SafetensorsHeader

/-!
# The header scanner against the grammar

Each reader of the scanner takes off the front exactly what the JSON grammar derives there, as long
as a number is followed by something that cannot belong to it.

## Main definitions

* `Io.Safetensors.Reads`: a reader and the relation that it decides.

## Main results

* `Io.Safetensors.loop_sound`, `Io.Safetensors.loop_complete`: the loops over items.
* `Io.Safetensors.reads_value`: `skip_value` decides values nested up to the limit.
-/

namespace Resonantia.Io.Safetensors

open ByteString Json

/-! ### Strings -/

theorem parseHex4_cases {l r : Bytes} {n : ℕ} (h : parseHex4 l = some (n, r)) :
    ∃ a b c d, l = a :: b :: c :: d :: r ∧ hex4 a b c d = some n := by
  rw [parseHex4.eq_def] at h
  split at h
  · rename_i a b c d l
    obtain ⟨n', hn, heq⟩ := Option.map_eq_some_iff.1 h
    obtain ⟨rfl, rfl⟩ := Prod.mk.inj heq
    exact ⟨a, b, c, d, rfl, hn⟩
  · cases h

theorem parseHex4_cons {a b c d : UInt8} {l : Bytes} {n : ℕ} (h : hex4 a b c d = some n) :
    parseHex4 (a :: b :: c :: d :: l) = some (n, l) := by
  rw [parseHex4, h, Option.map_some]

theorem parseLowSurrogate_cases {l r : Bytes} {n : ℕ} (h : parseLowSurrogate l = some (n, r)) :
    ∃ a b c d, l = 92 :: 117 :: a :: b :: c :: d :: r ∧ hex4 a b c d = some n ∧
      LowSurrogate n := by
  rw [parseLowSurrogate.eq_def] at h
  split at h
  · rename_i x y l
    split_ifs at h with hxy
    obtain ⟨rfl, rfl⟩ := hxy
    split at h
    · cases h
    · rename_i hhex
      split_ifs at h with hlow
      obtain ⟨rfl, rfl⟩ := Prod.mk.inj (Option.some.inj h)
      obtain ⟨a, b, c, d, rfl, hn⟩ := parseHex4_cases hhex
      exact ⟨a, b, c, d, rfl, hn, hlow⟩
  · cases h

/-- An escape extends a string by the bytes that it denotes. -/
theorem strBody_of_parseEscape {l u r v r' : Bytes} (h : parseEscape l = some (u, r))
    (hrest : StrBody r v r') : StrBody (92 :: l) (u ++ v) r' := by
  cases l with
  | nil => cases h
  | cons escaped l =>
    rw [parseEscape] at h
    split_ifs at h with hescaped
    · subst hescaped
      split at h
      · cases h
      · rename_i n l₁ hpoint
        obtain ⟨u', hu, heq⟩ := Option.map_eq_some_iff.1 h
        obtain ⟨rfl, rfl⟩ := Prod.mk.inj heq
        rw [parseCodePoint] at hpoint
        split at hpoint
        · cases hpoint
        · rename_i n₂ l₂ hhex
          obtain ⟨a, b, c, d, rfl, hn⟩ := parseHex4_cases hhex
          split_ifs at hpoint with hhigh hlow
          · obtain ⟨⟨low, l₃⟩, hlow, heq⟩ := Option.map_eq_some_iff.1 hpoint
            obtain ⟨rfl, rfl⟩ := Prod.mk.inj heq
            obtain ⟨a', b', c', d', rfl, hn', hlow⟩ := parseLowSurrogate_cases hlow
            exact .pair hn hn' ⟨hhigh, hlow⟩ hu hrest
          · obtain ⟨rfl, rfl⟩ := Prod.mk.inj (Option.some.inj hpoint)
            exact .codePoint hn ⟨hhigh, hlow⟩ hu hrest
    · obtain ⟨b, hb, heq⟩ := Option.map_eq_some_iff.1 h
      obtain ⟨rfl, rfl⟩ := Prod.mk.inj heq
      exact .escape hb hrest

theorem strBody_of_parseBody {l v r : Bytes} (h : parseBody l = some (v, r)) : StrBody l v r := by
  fun_induction parseBody l generalizing v with
  | case1 => cases h
  | case2 l =>
    obtain ⟨rfl, rfl⟩ := Prod.mk.inj (Option.some.inj h)
    exact .close _
  | case3 => cases h
  | case4 c l hquote hlow hslash ih =>
    obtain ⟨⟨v', r'⟩, hrest, heq⟩ := Option.map_eq_some_iff.1 h
    obtain ⟨rfl, rfl⟩ := Prod.mk.inj heq
    exact .plain ⟨UInt8.not_lt.1 hlow, hquote, hslash⟩ (ih hrest)
  | case5 => cases h
  | case6 c l hquote hlow hslash u rest hescape _ ih =>
    obtain ⟨⟨v', r'⟩, hrest, heq⟩ := Option.map_eq_some_iff.1 h
    obtain ⟨rfl, rfl⟩ := Prod.mk.inj heq
    obtain rfl := not_not.1 hslash
    exact strBody_of_parseEscape hescape (ih hrest)

theorem parseBody_escape {l u r : Bytes} (h : parseEscape l = some (u, r)) :
    parseBody (92 :: l) = (parseBody r).map fun p => (u ++ p.1, p.2) := by
  rw [parseBody]
  simp only [show (92 : UInt8) ≠ 34 by decide, show ¬(92 : UInt8) < 32 by decide, ne_eq,
    not_true_eq_false, if_false]
  split
  · rename_i hnone
    rw [h] at hnone
    cases hnone
  · rename_i hsome
    rw [h] at hsome
    obtain ⟨rfl, rfl⟩ := Prod.mk.inj (Option.some.inj hsome)
    rfl

theorem parseBody_of_strBody {l v r : Bytes} (h : StrBody l v r) : parseBody l = some (v, r) := by
  induction h with
  | close r => rw [parseBody, if_pos rfl]
  | plain hc _ ih =>
    rw [parseBody, if_neg hc.2.1, if_neg (UInt8.not_lt.2 hc.1), if_pos hc.2.2, ih, Option.map_some]
  | @escape c b l v r hc _ ih =>
    have hu : c ≠ 117 := by
      rintro rfl
      exact absurd hc (by simp [simpleEscape])
    have hescape : parseEscape (c :: l) = some ([b], l) := by
      rw [parseEscape, if_neg hu, hc, Option.map_some]
    rw [parseBody_escape hescape, ih, Option.map_some, List.singleton_append]
  | @codePoint a b c d n u l v r hn hplane hu _ ih =>
    have hpoint : parseCodePoint (a :: b :: c :: d :: l) = some (n, l) := by
      simp only [parseCodePoint, parseHex4_cons hn, if_neg hplane.1, if_neg hplane.2]
    have hescape : parseEscape (117 :: a :: b :: c :: d :: l) = some (u, l) := by
      simp only [parseEscape, if_true, hpoint, hu, Option.map_some]
    rw [parseBody_escape hescape, ih, Option.map_some]
  | @pair a b c d a' b' c' d' n n' u l v r hn hn' hpair hu _ ih =>
    have hlow : parseLowSurrogate (92 :: 117 :: a' :: b' :: c' :: d' :: l) = some (n', l) := by
      simp only [parseLowSurrogate, and_self, if_true, parseHex4_cons hn', if_pos hpair.2]
    have hpoint : parseCodePoint
        (a :: b :: c :: d :: 92 :: 117 :: a' :: b' :: c' :: d' :: l) =
          some (surrogatePair n n', l) := by
      simp only [parseCodePoint, parseHex4_cons hn, if_pos hpair.1, hlow, Option.map_some]
    have hescape : parseEscape
        (117 :: a :: b :: c :: d :: 92 :: 117 :: a' :: b' :: c' :: d' :: l) = some (u, l) := by
      simp only [parseEscape, if_true, hpoint, hu, Option.map_some]
    rw [parseBody_escape hescape, ih, Option.map_some]

theorem parseString_eq_some_iff {l v r : Bytes} : parseString l = some (v, r) ↔ Str l v r := by
  constructor
  · intro h
    cases l with
    | nil => cases h
    | cons c l =>
      rw [parseString] at h
      split_ifs at h with hc
      subst hc
      exact .mk (strBody_of_parseBody h)
  · rintro ⟨h⟩
    rw [parseString, if_pos rfl, parseBody_of_strBody h]

/-! ### Readers -/

/-- A byte that neither is white space nor closes an array or object. -/
def Starts (c : UInt8) : Prop := isSpace c = false ∧ c ≠ 93 ∧ c ≠ 125

section Reads

variable {α β : Type} {item : Bytes → Option (α × Bytes)} {Item : Bytes → α → Bytes → Prop}

/-- A reader that stops before the end of the input has taken off a text of the relation. It finds
every such text that can end where it does, and none is empty or starts with white space or a
closing bracket. -/
structure Reads (item : Bytes → Option (α × Bytes)) (Item : Bytes → α → Bytes → Prop) : Prop where
  sound : ∀ {l a r}, NoWs l → r ≠ [] → item l = some (a, r) → Item l a r
  complete : ∀ {l a r}, Item l a r → Follow r → item l = some (a, r)
  starts : ∀ {l a r}, Item l a r → ∃ c m, l = c :: m ∧ Starts c
  shortens : ∀ {l a r}, Item l a r → r.length < l.length

theorem Reads.noWs (h : Reads item Item) {l r : Bytes} {a : α} (hl : Item l a r) : NoWs l := by
  obtain ⟨c, m, rfl, hc⟩ := h.starts hl
  intro x hx
  obtain rfl := Option.some.inj hx
  exact hc.1

theorem ne_nil_of_skipWs {l r : Bytes} {c : UInt8} (h : skipWs l = c :: r) : l ≠ [] := by
  rintro rfl
  cases h

theorem noWs_cons {c : UInt8} {l : Bytes} (hc : isSpace c = false) : NoWs (c :: l) := by
  intro x hx
  obtain rfl := Option.some.inj hx
  exact hc

theorem follow_cons {c : UInt8} {l : Bytes} (hc : c = 44 ∨ c = 93 ∨ c = 125) :
    Follow (c :: l) := by
  intro x hx
  obtain rfl := Option.some.inj hx
  exact Or.inr hc

variable {add : β → α → Option β} {close : UInt8}

/-- What the loops accept: items up to the closing bracket, or, where the loop may end open, items
up to a comma and the end of the input. -/
theorem loop_sound (hitem : Reads item Item) {openEnd : Bool} {turns : ℕ} {state state' : β}
    {l r : Bytes} (hl : NoWs l) (h : loop item add close openEnd turns state l = some (state', r)) :
    ∃ as, as.foldlM add state = some state' ∧
      (Items Item close l as r ∨ openEnd = true ∧ r = [] ∧ Hanging Item l as) := by
  fun_induction loop item add close openEnd turns state l with
  | case1 turns state hopen =>
    obtain ⟨rfl, rfl⟩ := Prod.mk.inj (Option.some.inj h)
    exact ⟨[], rfl, Or.inr ⟨hopen, rfl, .nil⟩⟩
  | case2 => cases h
  | case3 => cases h
  | case4 => cases h
  | case5 => cases h
  | case6 => cases h
  | case7 turns state c l a m hread state₁ hadd l' hskip =>
    obtain ⟨rfl, rfl⟩ := Prod.mk.inj (Option.some.inj h)
    have hclose : Ws m (close :: l') := hskip ▸ ws_skipWs m
    have hfirst := hitem.sound hl (ne_nil_of_skipWs hskip) hread
    refine ⟨[a], ?_, Or.inl (.last hfirst hclose)⟩
    rw [List.foldlM_cons, hadd, Option.bind_eq_bind, Option.bind_some, List.foldlM_nil]
    rfl
  | case8 turns state c l a m hread state₁ hadd l' hskip hclose ih =>
    have hcomma : Ws m (44 :: l') := hskip ▸ ws_skipWs m
    have hfirst := hitem.sound hl (ne_nil_of_skipWs hskip) hread
    obtain ⟨as, hfold, hrest⟩ := ih (noWs_skipWs l') h
    refine ⟨a :: as, ?_, ?_⟩
    · rw [List.foldlM_cons, hadd, Option.bind_eq_bind, Option.bind_some, hfold]
    · rcases hrest with hrest | ⟨hopen, rfl, hrest⟩
      · exact Or.inl (.cons hfirst hcomma (ws_skipWs l') hrest)
      · exact Or.inr ⟨hopen, rfl, .cons hfirst hcomma (ws_skipWs l') hrest⟩
  | case9 => cases h

/-- One turn of a loop at whose end there is a comma. -/
theorem loop_cons (hitem : Reads item Item) {openEnd : Bool} {turns : ℕ} {state state₁ : β}
    {l m n n' : Bytes} {a : α} (h : Item l a m) (hadd : add state a = some state₁)
    (hcomma : Ws m (44 :: n)) (hclose : close = 93 ∨ close = 125) (hws : Ws n n') (hn' : NoWs n') :
    loop item add close openEnd (turns + 1) state l =
      loop item add close openEnd turns state₁ n' := by
  have hread := hitem.complete h (hcomma.follow (follow_cons (Or.inl rfl)))
  have hskip := hcomma.skipWs_eq (noWs_cons (by decide))
  have hne : (44 : UInt8) ≠ close := by rcases hclose with rfl | rfl <;> decide
  obtain ⟨c, l, rfl, -⟩ := hitem.starts h
  simp only [loop, hread, hadd, hskip, if_neg hne, if_true, hws.skipWs_eq hn']

theorem isSpace_close (hclose : close = 93 ∨ close = 125) : isSpace close = false := by
  rcases hclose with rfl | rfl <;> decide

/-- The last turn of a loop. -/
theorem loop_last (hitem : Reads item Item) {openEnd : Bool} {turns : ℕ} {state state₁ : β}
    {l m r : Bytes} {a : α} (h : Item l a m) (hadd : add state a = some state₁)
    (hclose : close = 93 ∨ close = 125) (hend : Ws m (close :: r)) :
    loop item add close openEnd (turns + 1) state l = some (state₁, r) := by
  have hread := hitem.complete h (hend.follow (follow_cons (Or.inr hclose)))
  have hskip := hend.skipWs_eq (noWs_cons (isSpace_close hclose))
  obtain ⟨c, l, rfl, -⟩ := hitem.starts h
  simp only [loop, hread, hadd, hskip, if_true]

theorem Items.noWs (hitem : Reads item Item) {l r : Bytes} {as : List α}
    (h : Items Item close l as r) : NoWs l := by
  cases h with
  | last h _ => exact hitem.noWs h
  | cons h _ _ _ => exact hitem.noWs h

theorem Hanging.noWs (hitem : Reads item Item) {l : Bytes} {as : List α}
    (h : Hanging Item l as) : NoWs l := by
  cases h with
  | nil =>
    intro c hc
    cases hc
  | cons h _ _ _ => exact hitem.noWs h

/-- Items behind a comma are shorter than the items with the one before it. -/
theorem length_lt_of_comma (hitem : Reads item Item) {l m n n' : Bytes} {a : α} (h : Item l a m)
    (hcomma : Ws m (44 :: n)) (hws : Ws n n') : n'.length < l.length := by
  have h₁ := hitem.shortens h
  have h₂ := hcomma.length_le
  have h₃ := hws.length_le
  rw [List.length_cons] at h₂
  omega

theorem loop_complete (hitem : Reads item Item) {openEnd : Bool}
    (hclose : close = 93 ∨ close = 125) {l r : Bytes} {as : List α}
    (h : Items Item close l as r) {turns : ℕ} {state state' : β} (hturns : l.length ≤ turns)
    (hfold : as.foldlM add state = some state') :
    loop item add close openEnd turns state l = some (state', r) := by
  induction h generalizing turns state with
  | last h hend =>
    have hlt := hitem.shortens h
    obtain ⟨turns, rfl⟩ := Nat.exists_eq_succ_of_ne_zero (show turns ≠ 0 by omega)
    rw [List.foldlM_cons] at hfold
    obtain ⟨state₁, hadd, hnil⟩ := Option.bind_eq_some_iff.1 hfold
    obtain rfl := Option.some.inj hnil
    exact loop_last hitem h hadd hclose hend
  | cons h hcomma hws hrest ih =>
    have hlt := length_lt_of_comma hitem h hcomma hws
    obtain ⟨turns, rfl⟩ := Nat.exists_eq_succ_of_ne_zero (show turns ≠ 0 by omega)
    rw [List.foldlM_cons] at hfold
    obtain ⟨state₁, hadd, hfold⟩ := Option.bind_eq_some_iff.1 hfold
    rw [loop_cons hitem h hadd hcomma hclose hws (Items.noWs hitem hrest)]
    exact ih (by omega) hfold

theorem loop_hanging (hitem : Reads item Item) (hclose : close = 93 ∨ close = 125) {l : Bytes}
    {as : List α} (h : Hanging Item l as) {turns : ℕ} {state state' : β}
    (hturns : l.length ≤ turns) (hfold : as.foldlM add state = some state') :
    loop item add close true turns state l = some (state', []) := by
  induction h generalizing turns state with
  | nil =>
    obtain rfl := Option.some.inj hfold
    cases turns <;> rfl
  | cons h hcomma hws hrest ih =>
    have hlt := length_lt_of_comma hitem h hcomma hws
    obtain ⟨turns, rfl⟩ := Nat.exists_eq_succ_of_ne_zero (show turns ≠ 0 by omega)
    rw [List.foldlM_cons] at hfold
    obtain ⟨state₁, hadd, hfold⟩ := Option.bind_eq_some_iff.1 hfold
    rw [loop_cons hitem h hadd hcomma hclose hws (Hanging.noWs hitem hrest)]
    exact ih (by omega) hfold

/-- A loop that may not end open refuses items that break off. -/
theorem loop_hanging_closed (hitem : Reads item Item) (hclose : close = 93 ∨ close = 125)
    {l : Bytes} {as : List α} (h : Hanging Item l as) {turns : ℕ} {state : β}
    (hturns : l.length ≤ turns) : loop item add close false turns state l = none := by
  induction h generalizing turns state with
  | nil => cases turns <;> rfl
  | @cons l m n n' a as h hcomma hws hrest ih =>
    have hlt := length_lt_of_comma hitem h hcomma hws
    obtain ⟨turns, rfl⟩ := Nat.exists_eq_succ_of_ne_zero (show turns ≠ 0 by omega)
    cases hadd : add state a with
    | none =>
      have hread := hitem.complete h (hcomma.follow (follow_cons (Or.inl rfl)))
      obtain ⟨c, l, rfl, -⟩ := hitem.starts h
      simp only [loop, hread, hadd]
    | some state₁ =>
      rw [loop_cons hitem h hadd hcomma hclose hws (Hanging.noWs hitem hrest)]
      exact ih (by omega)

/-- **The items of an array or object.** The reader finds an empty or nonempty sequence closed by
the bracket, or one that the end of the input leaves open. -/
theorem items_sound (hitem : Reads item Item) {openEnd : Bool} {state state' : β} {l r : Bytes}
    (h : items item add close openEnd state l = some (state', r)) :
    (Ws l (close :: r) ∧ state' = state) ∨
      ∃ m as, Ws l m ∧ as.foldlM add state = some state' ∧
        (Items Item close m as r ∨ openEnd = true ∧ r = [] ∧ Hanging Item m as) := by
  simp only [items] at h
  split_ifs at h with hhead
  · obtain ⟨rfl, rfl⟩ := Prod.mk.inj (Option.some.inj h)
    obtain ⟨m, hm⟩ := List.head?_eq_some_iff.1 hhead
    refine Or.inl ⟨?_, rfl⟩
    rw [hm, List.tail_cons, ← hm]
    exact ws_skipWs l
  · obtain ⟨as, hfold, hrest⟩ := loop_sound hitem (noWs_skipWs l) h
    exact Or.inr ⟨skipWs l, as, ws_skipWs l, hfold, hrest⟩

theorem items_empty (hclose : close = 93 ∨ close = 125) {openEnd : Bool} {state : β} {l r : Bytes}
    (h : Ws l (close :: r)) : items item add close openEnd state l = some (state, r) := by
  simp only [items, h.skipWs_eq (noWs_cons (isSpace_close hclose)), List.head?_cons, if_true,
    List.tail_cons]

/-- An item does not start with a closing bracket. -/
theorem items_eq_loop {openEnd : Bool} {state : β} {l m : Bytes}
    (hclose : close = 93 ∨ close = 125) (h : Ws l m) (hm : NoWs m)
    (hstart : ∀ c, m.head? = some c → Starts c) :
    items item add close openEnd state l = loop item add close openEnd m.length state m := by
  have hne : ¬m.head? = some close := by
    intro hhead
    obtain ⟨-, h93, h125⟩ := hstart close hhead
    exact hclose.elim h93 h125
  simp only [items, h.skipWs_eq hm, if_neg hne]

theorem items_complete (hitem : Reads item Item) {openEnd : Bool}
    (hclose : close = 93 ∨ close = 125) {l m r : Bytes} {as : List α} (hws : Ws l m)
    (h : Items Item close m as r) {state state' : β} (hfold : as.foldlM add state = some state') :
    items item add close openEnd state l = some (state', r) := by
  have hstart : ∀ c, m.head? = some c → Starts c := by
    intro c hc
    obtain ⟨x, m', rfl, hx⟩ : ∃ x m', m = x :: m' ∧ Starts x := by
      cases h with
      | last h _ => exact hitem.starts h
      | cons h _ _ _ => exact hitem.starts h
    obtain rfl := Option.some.inj hc
    exact hx
  rw [items_eq_loop hclose hws (Items.noWs hitem h) hstart]
  exact loop_complete hitem hclose h (Nat.le_refl _) hfold

theorem items_hanging_eq_loop (hitem : Reads item Item) (hclose : close = 93 ∨ close = 125)
    {l m : Bytes} {as : List α} (hws : Ws l m) (h : Hanging Item m as) (openEnd : Bool)
    (state : β) :
    items item add close openEnd state l = loop item add close openEnd m.length state m := by
  refine items_eq_loop hclose hws (Hanging.noWs hitem h) ?_
  intro c hc
  cases h with
  | nil => cases hc
  | cons h _ _ _ =>
    obtain ⟨x, m', rfl, hx⟩ := hitem.starts h
    obtain rfl := Option.some.inj hc
    exact hx

theorem items_hanging (hitem : Reads item Item) (hclose : close = 93 ∨ close = 125) {l m : Bytes}
    {as : List α} (hws : Ws l m) (h : Hanging Item m as) {state state' : β}
    (hfold : as.foldlM add state = some state') :
    items item add close true state l = some (state', []) := by
  rw [items_hanging_eq_loop hitem hclose hws h]
  exact loop_hanging hitem hclose h (Nat.le_refl _) hfold

end Reads

/-! ### Entries -/

section Entries

variable {α : Type}

/-- The entries that `addUnique` collects are all of them, under distinct keys. -/
theorem foldlM_addUnique_eq_some_iff {as state entries : List (Bytes × α)}
    (hstate : (state.map Prod.fst).Nodup) :
    as.foldlM addUnique state = some entries ↔
      entries = state ++ as ∧ (entries.map Prod.fst).Nodup := by
  induction as generalizing state with
  | nil =>
    rw [List.foldlM_nil, List.append_nil]
    constructor
    · intro h
      obtain rfl := Option.some.inj h
      exact ⟨rfl, hstate⟩
    · rintro ⟨rfl, -⟩
      rfl
  | cons a as ih =>
    rw [List.foldlM_cons, Option.bind_eq_bind, addUnique]
    split_ifs with hmem
    · constructor
      · intro h
        cases h
      · rintro ⟨rfl, hdistinct⟩
        rw [List.map_append, List.nodup_append] at hdistinct
        exact (hdistinct.2.2 _ hmem a.1 (by simp) rfl).elim
    · have hstate' : ((state ++ [a]).map Prod.fst).Nodup := by
        rw [List.map_append, List.nodup_append]
        refine ⟨hstate, by simp, ?_⟩
        rintro key hkey _ hkey' rfl
        obtain rfl := List.mem_singleton.1 hkey'
        exact hmem hkey
      rw [Option.bind_some, ih hstate', List.append_assoc, List.singleton_append]

theorem foldlM_addUnique_nil {as entries : List (Bytes × α)} :
    as.foldlM addUnique [] = some entries ↔ entries = as ∧ (as.map Prod.fst).Nodup := by
  rw [foldlM_addUnique_eq_some_iff (by simp), List.nil_append]
  constructor <;> rintro ⟨rfl, h⟩ <;> exact ⟨rfl, h⟩

variable {value : Bytes → Bytes → Option (α × Bytes)} {Val : Bytes → Bytes → α → Bytes → Prop}

theorem starts_of_str {l v r : Bytes} (h : Str l v r) : ∃ c m, l = c :: m ∧ Starts c := by
  obtain ⟨-⟩ := h
  exact ⟨34, _, rfl, by decide, by decide, by decide⟩

/-- A key with a value that is read for it. -/
theorem reads_keyed (hvalue : ∀ key, Reads (value key) (Val key)) :
    Reads (keyed value) (Keyed Val) where
  sound := by
    intro l a r _ hr h
    rw [keyed] at h
    split at h
    · cases h
    · rename_i key m hkey
      split at h
      · cases h
      · rename_i c n hskip
        split_ifs at h with hcolon
        subst hcolon
        obtain ⟨⟨v, r'⟩, hread, heq⟩ := Option.map_eq_some_iff.1 h
        obtain ⟨rfl, rfl⟩ := Prod.mk.inj heq
        exact ⟨m, n, skipWs n, parseString_eq_some_iff.1 hkey, hskip ▸ ws_skipWs m,
          ws_skipWs n, (hvalue key).sound (noWs_skipWs n) hr hread⟩
  complete := by
    rintro l ⟨key, v⟩ r ⟨m, n, n', hkey, hcolon, hws, hread⟩ hr
    have hskip := hcolon.skipWs_eq (noWs_cons (by decide))
    have hn' := hws.skipWs_eq ((hvalue key).noWs hread)
    simp only [keyed, parseString_eq_some_iff.2 hkey, hskip, if_true, hn',
      (hvalue key).complete hread hr, Option.map_some]
  starts := by
    rintro l ⟨key, v⟩ r ⟨m, n, n', hkey, -⟩
    exact starts_of_str hkey
  shortens := by
    intro l entry r h
    exact Keyed.length_lt (fun key => (hvalue key).shortens) h

end Entries

/-! ### Numbers -/

theorem digit_le {c : UInt8} (h : isDigit c = true) : c.toNat - 48 ≤ 9 := by
  simp only [isDigit, Bool.and_eq_true, decide_eq_true_eq, UInt8.le_iff_toNat_le] at h
  have hle : c.toNat ≤ 57 := h.2
  omega

theorem accumulate_digit {value : ℕ} {c : UInt8} {l : Bytes} (hc : isDigit c = true) :
    accumulate value (c :: l) =
      if value * 10 + (c.toNat - 48) < 2 ^ 64 then accumulate (value * 10 + (c.toNat - 48)) l
      else none := by
  have hle := digit_le hc
  have hover : (2 ^ 64 - 1 - (c.toNat - 48)) / 10 < value ↔
      ¬value * 10 + (c.toNat - 48) < 2 ^ 64 := by omega
  rw [accumulate, if_pos hc]
  simp only [hover, ite_not]

theorem accumulate_stop {value : ℕ} {l : Bytes} (hl : NoDigit l) :
    accumulate value l = some (value, l) := by
  cases l with
  | nil => rfl
  | cons c l =>
    have hc : ¬isDigit c = true := by simp [hl c rfl]
    rw [accumulate, if_neg hc]

theorem accumulate_sound {value n : ℕ} {l r : Bytes} (hvalue : value < 2 ^ 64)
    (h : accumulate value l = some (n, r)) :
    n < 2 ^ 64 ∧ ∃ w, l = w ++ r ∧ w.all isDigit = true ∧ decimal value w = n := by
  induction l generalizing value with
  | nil =>
    obtain ⟨rfl, rfl⟩ := Prod.mk.inj (Option.some.inj h)
    exact ⟨hvalue, [], rfl, rfl, rfl⟩
  | cons c l ih =>
    by_cases hdigit : isDigit c = true
    · rw [accumulate_digit hdigit] at h
      split_ifs at h with hlt
      obtain ⟨hn, w, rfl, hw, hval⟩ := ih hlt h
      exact ⟨hn, c :: w, rfl, by rw [List.all_cons, hdigit, hw]; rfl, hval⟩
    · rw [accumulate_stop (noDigit_cons hdigit)] at h
      obtain ⟨rfl, rfl⟩ := Prod.mk.inj (Option.some.inj h)
      exact ⟨hvalue, [], rfl, rfl, rfl⟩

theorem accumulate_complete {value : ℕ} {w r : Bytes} (hw : w.all isDigit = true) (hr : NoDigit r)
    (hlt : decimal value w < 2 ^ 64) :
    accumulate value (w ++ r) = some (decimal value w, r) := by
  induction w generalizing value with
  | nil => exact accumulate_stop hr
  | cons c w ih =>
    rw [List.all_cons, Bool.and_eq_true] at hw
    rw [decimal_cons] at hlt ⊢
    rw [List.cons_append, accumulate_digit hw.1,
      if_pos (Nat.lt_of_le_of_lt (le_decimal _ w) hlt), ih hw.2 hlt]

theorem starts_of_isDigit {c : UInt8} (hc : isDigit c = true) : Starts c := by
  simp only [isDigit, Bool.and_eq_true, decide_eq_true_eq, UInt8.le_iff_toNat_le] at hc
  have h₁ : 48 ≤ c.toNat := hc.1
  have h₂ : c.toNat ≤ 57 := hc.2
  refine ⟨?_, ?_, ?_⟩
  · rw [isSpace_eq_false_iff]
    refine ⟨?_, ?_, ?_, ?_⟩ <;> rintro rfl <;> exact absurd h₁ (by decide)
  · rintro rfl
    exact absurd h₂ (by decide)
  · rintro rfl
    exact absurd h₂ (by decide)

/-- `parse_uint64` reads natural numbers below `2 ^ 64`. -/
theorem reads_uint64 : Reads parseUint64 fun l n r => Natural l n r ∧ n < 2 ^ 64 where
  sound := by
    intro l n r hl _ h
    rw [parseUint64, (Ws.refl l).skipWs_eq hl] at h
    split at h
    · cases h
    · rename_i c m
      split_ifs at h with hdigit hzero
      rw [accumulate_digit hdigit] at h
      split_ifs at h with hlt
      obtain ⟨hn, w, rfl, hw, hval⟩ := accumulate_sound hlt h
      refine ⟨⟨c :: w, rfl, by simp, by rw [List.all_cons, hdigit, hw]; rfl, ?_, hval⟩, hn⟩
      intro hhead
      obtain rfl := Option.some.inj hhead
      cases w with
      | nil => rfl
      | cons y w =>
        rw [List.all_cons, Bool.and_eq_true] at hw
        exact (hzero ⟨rfl, hw.1⟩).elim
  complete := by
    rintro l n r ⟨⟨w, rfl, hne, hall, hlead, rfl⟩, hn⟩ hr
    cases w with
    | nil => exact (hne rfl).elim
    | cons c w =>
      have hc : isDigit c = true := by
        rw [List.all_cons, Bool.and_eq_true] at hall
        exact hall.1
      have hzero : ¬(c = 48 ∧ (w ++ r).head?.any isDigit = true) := by
        rintro ⟨rfl, hany⟩
        obtain rfl := (List.cons.inj (hlead rfl)).2
        obtain ⟨x, hx, hdigit⟩ := (Option.any_eq_true ..).1 hany
        rw [hr.noDigit x hx] at hdigit
        cases hdigit
      rw [parseUint64, List.cons_append,
        (Ws.refl _).skipWs_eq (noWs_cons (starts_of_isDigit hc).1)]
      have hread := accumulate_complete hall hr.noDigit hn
      rw [List.cons_append] at hread
      simp only [hc, not_true_eq_false, if_false, if_neg hzero, hread]
  starts := by
    rintro l n r ⟨h, -⟩
    obtain ⟨c, m, rfl, hc⟩ := h.head
    exact ⟨c, m, rfl, starts_of_isDigit hc⟩
  shortens h := h.1.length_lt

theorem skipDigits1_sound {l r : Bytes} (h : skipDigits1 l = some r) : Digits1 l r := by
  cases l with
  | nil => cases h
  | cons c l =>
    rw [skipDigits1] at h
    split_ifs at h with hc
    obtain rfl := Option.some.inj h
    exact ⟨c, l, rfl, hc, digits_dropWhile l⟩

theorem skipDigits1_complete {l r : Bytes} (h : Digits1 l r) (hr : NoDigit r) :
    skipDigits1 l = some r := by
  obtain ⟨c, m, rfl, hc, h⟩ := h
  rw [skipDigits1, if_pos hc, h.dropWhile_eq hr]

theorem skipInteger_sound {l r : Bytes} (h : skipInteger l = some r) : Integer l r := by
  cases l with
  | nil => cases h
  | cons c l =>
    rw [skipInteger] at h
    split_ifs at h with hzero hc
    · obtain rfl := Option.some.inj h
      exact Or.inl (by rw [hzero])
    · obtain rfl := Option.some.inj h
      exact Or.inr ⟨c, l, rfl, hc, hzero, digits_dropWhile l⟩

theorem skipInteger_complete {l r : Bytes} (h : Integer l r) (hr : NoDigit r) :
    skipInteger l = some r := by
  rcases h with rfl | ⟨c, m, rfl, hc, hzero, h⟩
  · rfl
  · rw [skipInteger, if_neg hzero, if_pos hc, h.dropWhile_eq hr]

theorem skipFraction_sound {l r : Bytes} (h : skipFraction l = some r) : Fraction l r := by
  cases l with
  | nil => exact Or.inl (Option.some.inj h)
  | cons c l =>
    rw [skipFraction] at h
    split_ifs at h with hpoint
    · exact Or.inr ⟨l, by rw [hpoint], skipDigits1_sound h⟩
    · exact Or.inl (Option.some.inj h)

theorem skipFraction_complete {l r : Bytes} (h : Fraction l r) (hr : NoDigit r)
    (hpoint : ∀ c, r.head? = some c → c ≠ 46) : skipFraction l = some r := by
  rcases h with rfl | ⟨m, rfl, h⟩
  · cases l with
    | nil => rfl
    | cons c l => rw [skipFraction, if_neg (hpoint c rfl)]
  · rw [skipFraction, if_pos rfl, skipDigits1_complete h hr]

theorem skipExponent_sound {l r : Bytes} (h : skipExponent l = some r) : Exponent l r := by
  cases l with
  | nil => exact Or.inl (Option.some.inj h)
  | cons e l =>
    rw [skipExponent.eq_def] at h
    dsimp only at h
    split_ifs at h with he
    · cases l with
      | nil => cases h
      | cons c l =>
        refine Or.inr ⟨e, c :: l, ?_⟩
        dsimp only at h
        split_ifs at h with hsign
        · refine ⟨l, rfl, he, Or.inr ?_, skipDigits1_sound h⟩
          rcases hsign with rfl | rfl
          · exact Or.inl rfl
          · exact Or.inr rfl
        · exact ⟨c :: l, rfl, he, Or.inl rfl, skipDigits1_sound h⟩
    · exact Or.inl (Option.some.inj h)

theorem skipExponent_complete {l r : Bytes} (h : Exponent l r) (hr : Follow r) :
    skipExponent l = some r := by
  rcases h with rfl | ⟨e, m, m', rfl, he, hsign, h⟩
  · cases l with
    | nil => rfl
    | cons e l =>
      have he : ¬(e = 101 ∨ e = 69) := by
        intro he
        rcases he with rfl | rfl <;> exact absurd (hr _ rfl) (by decide)
      rw [skipExponent.eq_def]
      exact if_neg he
  · have hread := skipDigits1_complete h hr.noDigit
    obtain ⟨c, n, rfl, hc, -⟩ := h
    have hdigit : ¬(c = 43 ∨ c = 45) := by
      rintro (rfl | rfl) <;> exact absurd hc (by decide)
    rcases hsign with rfl | rfl | rfl
    · simp only [skipExponent, if_pos he, if_neg hdigit, hread]
    · simp only [skipExponent, if_pos he, true_or, if_true, hread]
    · simp only [skipExponent, if_pos he, or_true, if_true, hread]

theorem skipSign_sound (l : Bytes) : Sign l (skipSign l) := by
  cases l with
  | nil => exact Or.inl rfl
  | cons c l =>
    rw [skipSign]
    split_ifs with hc
    · exact Or.inr (by rw [hc])
    · exact Or.inl rfl

theorem Integer.head {l r : Bytes} (h : Integer l r) : ∃ c m, l = c :: m ∧ isDigit c = true := by
  rcases h with rfl | ⟨c, m, rfl, hc, -⟩
  · exact ⟨48, r, rfl, by decide⟩
  · exact ⟨c, m, rfl, hc⟩

theorem skipSign_complete {l l₁ r : Bytes} (h : Sign l l₁) (hinteger : Integer l₁ r) :
    skipSign l = l₁ := by
  rcases h with rfl | rfl
  · obtain ⟨c, m, rfl, hc⟩ := Integer.head hinteger
    have hne : c ≠ 45 := by
      rintro rfl
      exact absurd hc (by decide)
    rw [skipSign, if_neg hne]
  · rw [skipSign, if_pos rfl]

theorem skipNumber_sound {l r : Bytes} (h : skipNumber l = some r) : Num l r := by
  obtain ⟨l₂, hinteger, h⟩ := Option.bind_eq_some_iff.1 h
  obtain ⟨l₃, hfraction, hexponent⟩ := Option.bind_eq_some_iff.1 h
  exact ⟨skipSign l, l₂, l₃, skipSign_sound l, skipInteger_sound hinteger,
    skipFraction_sound hfraction, skipExponent_sound hexponent⟩

/-- Neither a digit nor a point starts an exponent or follows a number. -/
theorem Exponent.head {l r : Bytes} (h : Exponent l r) (hr : Follow r) :
    NoDigit l ∧ ∀ c, l.head? = some c → c ≠ 46 := by
  rcases h with rfl | ⟨e, m, m', rfl, he, -⟩
  · refine ⟨hr.noDigit, ?_⟩
    rintro c hc rfl
    exact absurd (hr _ hc) (by decide)
  · refine ⟨noDigit_cons ?_, ?_⟩
    · rcases he with rfl | rfl <;> decide
    · intro c hc
      obtain rfl := Option.some.inj hc
      rcases he with rfl | rfl <;> decide

theorem Fraction.noDigit {l r : Bytes} (h : Fraction l r) (hr : NoDigit r) : NoDigit l := by
  rcases h with rfl | ⟨m, rfl, -⟩
  · exact hr
  · exact noDigit_cons (by decide)

theorem skipNumber_complete {l r : Bytes} (h : Num l r) (hr : Follow r) :
    skipNumber l = some r := by
  obtain ⟨l₁, l₂, l₃, hsign, hinteger, hfraction, hexponent⟩ := h
  obtain ⟨hdigit, hpoint⟩ := Exponent.head hexponent hr
  rw [skipNumber, skipSign_complete hsign hinteger,
    skipInteger_complete hinteger (Fraction.noDigit hfraction hdigit), Option.bind_eq_bind,
    Option.bind_some, skipFraction_complete hfraction hdigit hpoint]
  exact skipExponent_complete hexponent hr

/-! ### Values -/

theorem skipLiteral_eq_some_iff {l r : Bytes} :
    skipLiteral l = some r ↔ ∃ w ∈ literals, l = w ++ r := by
  constructor
  · intro h
    obtain ⟨w, hw, rfl⟩ := Option.map_eq_some_iff.1 h
    have hprefix := List.find?_some hw
    obtain ⟨s, rfl⟩ := of_decide_eq_true hprefix
    exact ⟨w, List.mem_of_find?_eq_some hw, by rw [List.drop_left]⟩
  · rintro ⟨w, hw, rfl⟩
    -- The literals differ in their first letters, so at most one is in front.
    simp only [literals, List.mem_cons, List.not_mem_nil, or_false] at hw
    rcases hw with rfl | rfl | rfl <;> rfl

theorem starts_of_literal {w l : Bytes} (hw : w ∈ literals) :
    ∃ c m, w ++ l = c :: m ∧ (c = 116 ∨ c = 102 ∨ c = 110) := by
  simp only [literals, List.mem_cons, List.not_mem_nil, or_false] at hw
  rcases hw with rfl | rfl | rfl
  · exact ⟨116, _, rfl, Or.inl rfl⟩
  · exact ⟨102, _, rfl, Or.inr (Or.inl rfl)⟩
  · exact ⟨110, _, rfl, Or.inr (Or.inr rfl)⟩

section Brackets

variable {value : Bytes → Option Bytes} {Val : Bytes → Bytes → Prop}

theorem foldlM_ignore {α : Type} (as : List α) :
    as.foldlM (fun (_ : Unit) (_ : α) => some ()) () = some () := by
  induction as with
  | nil => rfl
  | cons a as ih => rw [List.foldlM_cons, Option.bind_eq_bind, Option.bind_some, ih]

theorem skipArray_eq_some_iff (hvalue : Reads (ignoring value) fun l _ r => Val l r)
    {l r : Bytes} : skipArray value l = some r ↔ Arr Val l r := by
  constructor
  · intro h
    cases l with
    | nil => cases h
    | cons c l =>
      rw [skipArray] at h
      split_ifs at h with hc
      subst hc
      obtain ⟨⟨⟨⟩, r'⟩, hitems, rfl⟩ := Option.map_eq_some_iff.1 h
      refine ⟨l, rfl, ?_⟩
      rcases items_sound hvalue hitems with ⟨hempty, -⟩ | ⟨m, as, hws, -, h | ⟨hopen, -⟩⟩
      · exact Or.inl hempty
      · exact Or.inr ⟨m, as, hws, h⟩
      · cases hopen
  · rintro ⟨m, rfl, h | ⟨m', as, hws, h⟩⟩
    · rw [skipArray, if_pos rfl, items_empty (Or.inl rfl) h, Option.map_some]
    · rw [skipArray, if_pos rfl, items_complete hvalue (Or.inl rfl) hws h (foldlM_ignore as),
        Option.map_some]

theorem skipObject_eq_some_iff (hvalue : Reads (ignoring value) fun l _ r => Val l r)
    {l r : Bytes} : skipObject value l = some r ↔ Obj Val l r := by
  have hkeyed : Reads (keyed fun _ => ignoring value) (Keyed fun _ l _ r => Val l r) :=
    reads_keyed fun _ => hvalue
  constructor
  · intro h
    cases l with
    | nil => cases h
    | cons c l =>
      rw [skipObject] at h
      split_ifs at h with hc
      subst hc
      obtain ⟨⟨entries, r'⟩, hitems, rfl⟩ := Option.map_eq_some_iff.1 h
      refine ⟨l, rfl, ?_⟩
      rcases items_sound hkeyed hitems with ⟨hempty, -⟩ | ⟨m, as, hws, hfold, h | ⟨hopen, -⟩⟩
      · exact Or.inl hempty
      · obtain ⟨rfl, hdistinct⟩ := foldlM_addUnique_nil.1 hfold
        exact Or.inr ⟨m, entries, hws, h, hdistinct⟩
      · cases hopen
  · rintro ⟨m, rfl, h | ⟨m', as, hws, h, hdistinct⟩⟩
    · rw [skipObject, if_pos rfl, items_empty (Or.inr rfl) h, Option.map_some]
    · have hfold := foldlM_addUnique_nil.2 ⟨rfl, hdistinct⟩
      rw [skipObject, if_pos rfl, items_complete hkeyed (Or.inr rfl) hws h hfold, Option.map_some]

/-- Members that break off are not skipped. -/
theorem skipObject_hanging (hvalue : Reads (ignoring value) fun l _ r => Val l r)
    {m m' : Bytes} {as : List (Bytes × Unit)} (hws : Ws m m')
    (h : Hanging (Keyed fun _ l _ r => Val l r) m' as) : skipObject value (123 :: m) = none := by
  have hkeyed : Reads (keyed fun _ => ignoring value) (Keyed fun _ l _ r => Val l r) :=
    reads_keyed fun _ => hvalue
  rw [skipObject, if_pos rfl, items_hanging_eq_loop hkeyed (Or.inr rfl) hws h,
    loop_hanging_closed hkeyed (Or.inr rfl) h (Nat.le_refl _), Option.map_none]

end Brackets

/-- The step from one depth to the next: `skip_value` tells the kinds of values apart by their
first byte. -/
theorem skipValue_sound {levels : ℕ} {l r : Bytes} (hl : NoWs l)
    (ih : Reads (ignoring (skipValue levels)) fun l _ r => Value levels l r)
    (h : skipValue (levels + 1) l = some r) : Value (levels + 1) l r := by
  rw [skipValue, (Ws.refl l).skipWs_eq hl] at h
  split at h
  · cases h
  · rename_i c m
    split_ifs at h with hobject harray hstring hnumber
    · exact Or.inr (Or.inr (Or.inr (Or.inr ((skipObject_eq_some_iff ih).1 h))))
    · exact Or.inr (Or.inr (Or.inr (Or.inl ((skipArray_eq_some_iff ih).1 h))))
    · obtain ⟨⟨v, r'⟩, hread, rfl⟩ := Option.map_eq_some_iff.1 h
      exact Or.inl ⟨v, parseString_eq_some_iff.1 hread⟩
    · exact Or.inr (Or.inl (skipNumber_sound h))
    · exact Or.inr (Or.inr (Or.inl (skipLiteral_eq_some_iff.1 h)))

theorem Num.head {l r : Bytes} (h : Num l r) :
    ∃ c m, l = c :: m ∧ (c = 45 ∨ isDigit c = true) := by
  obtain ⟨l₁, l₂, l₃, rfl | rfl, hinteger, -⟩ := h
  · obtain ⟨c, m, rfl, hc⟩ := Integer.head hinteger
    exact ⟨c, m, rfl, Or.inr hc⟩
  · exact ⟨45, l₁, rfl, Or.inl rfl⟩

theorem skipValue_complete {levels : ℕ} {l r : Bytes} (hr : Follow r)
    (ih : Reads (ignoring (skipValue levels)) fun l _ r => Value levels l r)
    (h : Value (levels + 1) l r) : skipValue (levels + 1) l = some r := by
  rcases h with ⟨v, hstring⟩ | hnumber | ⟨w, hw, rfl⟩ | harray | hobject
  · have hread := parseString_eq_some_iff.2 hstring
    obtain ⟨-⟩ := hstring
    rw [skipValue, (Ws.refl _).skipWs_eq (noWs_cons (by decide))]
    exact Option.map_eq_some_iff.2 ⟨_, hread, rfl⟩
  · have hread := skipNumber_complete hnumber hr
    obtain ⟨c, m, rfl, hc⟩ := Num.head hnumber
    have hspace : isSpace c = false := by
      rcases hc with rfl | hc
      · decide
      · exact (starts_of_isDigit hc).1
    have hne : c ≠ 123 ∧ c ≠ 91 ∧ c ≠ 34 := by
      refine ⟨?_, ?_, ?_⟩ <;> rintro rfl <;> exact absurd hc (by decide)
    simp only [skipValue, (Ws.refl _).skipWs_eq (noWs_cons hspace), if_neg hne.1,
      if_neg hne.2.1, if_neg hne.2.2, if_pos hc, hread]
  · have hread : skipLiteral (w ++ r) = some r := skipLiteral_eq_some_iff.2 ⟨w, hw, rfl⟩
    obtain ⟨c, m, hlit, hc⟩ := starts_of_literal (l := r) hw
    rw [hlit] at hread ⊢
    have hspace : isSpace c = false := by
      rcases hc with rfl | rfl | rfl <;> decide
    have hne : c ≠ 123 ∧ c ≠ 91 ∧ c ≠ 34 ∧ ¬(c = 45 ∨ isDigit c = true) := by
      rcases hc with rfl | rfl | rfl <;> decide
    simp only [skipValue, (Ws.refl _).skipWs_eq (noWs_cons hspace), if_neg hne.1,
      if_neg hne.2.1, if_neg hne.2.2.1, if_neg hne.2.2.2, hread]
  · have hread := (skipArray_eq_some_iff ih).2 harray
    obtain ⟨m, rfl, -⟩ := harray
    rw [skipValue, (Ws.refl _).skipWs_eq (noWs_cons (by decide))]
    exact hread
  · have hread := (skipObject_eq_some_iff ih).2 hobject
    obtain ⟨m, rfl, -⟩ := hobject
    rw [skipValue, (Ws.refl _).skipWs_eq (noWs_cons (by decide))]
    exact hread

theorem Value.starts {levels : ℕ} {l r : Bytes} (h : Value levels l r) :
    ∃ c m, l = c :: m ∧ Starts c := by
  cases levels with
  | zero => exact h.elim
  | succ levels =>
    rcases h with ⟨v, hstring⟩ | hnumber | ⟨w, hw, rfl⟩ | ⟨m, rfl, -⟩ | ⟨m, rfl, -⟩
    · exact starts_of_str hstring
    · obtain ⟨c, m, rfl, rfl | hc⟩ := Num.head hnumber
      · exact ⟨45, m, rfl, by decide, by decide, by decide⟩
      · exact ⟨c, m, rfl, starts_of_isDigit hc⟩
    · obtain ⟨c, m, hlit, rfl | rfl | rfl⟩ := starts_of_literal (l := r) hw
      all_goals exact ⟨_, m, hlit, by decide, by decide, by decide⟩
    · exact ⟨91, m, rfl, by decide, by decide, by decide⟩
    · exact ⟨123, m, rfl, by decide, by decide, by decide⟩

/-- **`skip_value` decides values.** With so many levels left it skips the values that are nested
fewer deep. -/
theorem reads_value (levels : ℕ) :
    Reads (ignoring (skipValue levels)) fun l _ r => Value levels l r := by
  induction levels with
  | zero =>
    refine ⟨?_, ?_, ?_, ?_⟩
    · intro l a r _ _ h
      cases h
    all_goals
      intro l a r h
      exact h.elim
  | succ levels ih =>
    refine ⟨?_, ?_, ?_, ?_⟩
    · intro l a r hl _ h
      obtain ⟨r', hskip, heq⟩ := Option.map_eq_some_iff.1 h
      obtain ⟨-, rfl⟩ := Prod.mk.inj heq
      exact skipValue_sound hl ih hskip
    · intro l a r h hr
      rw [ignoring, skipValue_complete hr ih h, Option.map_some]
    · intro l a r h
      exact Value.starts h
    · intro l a r h
      rcases h with ⟨v, hstring⟩ | hnumber | ⟨w, hw, rfl⟩ | harray | hobject
      · exact hstring.length_lt
      · exact hnumber.length_lt
      · obtain ⟨c, m, hlit, -⟩ := starts_of_literal (l := []) hw
        rw [List.append_nil] at hlit
        rw [hlit, List.cons_append, List.length_cons, List.length_append]
        omega
      · exact harray.length_lt (ih.shortens (a := ()))
      · exact hobject.length_lt (ih.shortens (a := ()))

end Resonantia.Io.Safetensors
