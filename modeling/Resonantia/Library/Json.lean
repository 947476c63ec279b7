import Resonantia.Library.Bytes

/-!
# The JSON grammar over bytes

Each relation says that a text can be taken off the front of a byte string: `Value d l r` says that
`l` starts with a value nested at most `d` deep and that `r` is what remains. Strings are related
to the bytes that they denote. Raw string bytes from 32 on are taken as they are; escapes denote
the UTF-8 form of a code point, and surrogates come in pairs.

## Main definitions

* `Json.Ws`, `Json.Str`, `Json.Num`, `Json.Value`, `Json.ObjectText`: the grammar.
* `Json.Items`, `Json.Keyed`: comma-separated items up to a closing bracket, and a key with its
  value. Both serve arrays and objects whose items mean something.
* `Json.Hanging`: items that the end of the input cuts off after a comma.

## Main results

* `Json.Value.mono`, `Json.Value.append`: a value may be nested deeper than it is, and stand in
  front of more.
* `Json.natural_decimalText`: a printed number reads as itself.
* `Json.Items.map`, `Json.Items.exists_map`: items and their images.
-/

namespace Json

open ByteString

/-! ### White space -/

def isSpace (c : UInt8) : Bool := c = 32 || c = 10 || c = 9 || c = 13

theorem isSpace_eq_false_iff {c : UInt8} :
    isSpace c = false ↔ c ≠ 32 ∧ c ≠ 10 ∧ c ≠ 9 ∧ c ≠ 13 := by
  simp [isSpace, and_assoc]

/-- White space, possibly none. -/
def Ws (l r : Bytes) : Prop := ∃ w, l = w ++ r ∧ w.all isSpace = true

/-- No white space in front. -/
def NoWs (l : Bytes) : Prop := ∀ c, l.head? = some c → isSpace c = false

/-- `r` and all of `l` in front of it. -/
def skipWs (l : Bytes) : Bytes := l.dropWhile isSpace

theorem Ws.refl (l : Bytes) : Ws l l := ⟨[], rfl, rfl⟩

theorem ws_skipWs (l : Bytes) : Ws l (skipWs l) :=
  ⟨l.takeWhile isSpace, List.takeWhile_append_dropWhile.symm, List.all_takeWhile⟩

theorem Ws.skipWs_eq {l r : Bytes} (h : Ws l r) (hr : NoWs r) : skipWs l = r := by
  obtain ⟨w, rfl, hw⟩ := h
  rw [skipWs, List.dropWhile_append_of_pos (by simpa using hw)]
  cases r with
  | nil => rfl
  | cons c r => rw [List.dropWhile_cons_of_neg (by simp [hr c rfl])]

theorem Ws.length_le {l r : Bytes} (h : Ws l r) : r.length ≤ l.length := by
  obtain ⟨w, rfl, -⟩ := h
  simp

theorem noWs_skipWs (l : Bytes) : NoWs (skipWs l) := by
  intro c hc
  induction l with
  | nil => cases hc
  | cons x l ih =>
    by_cases hx : isSpace x = true
    · rw [skipWs, List.dropWhile_cons_of_pos hx] at hc
      exact ih hc
    · rw [skipWs, List.dropWhile_cons_of_neg hx] at hc
      obtain rfl := Option.some.inj hc
      simpa using hx

/-- White space, a comma, a closing bracket or the end. -/
def Follow (l : Bytes) : Prop :=
  ∀ c, l.head? = some c → isSpace c = true ∨ c = 44 ∨ c = 93 ∨ c = 125

theorem Ws.follow {l r : Bytes} (h : Ws l r) (hr : Follow r) : Follow l := by
  obtain ⟨w, rfl, hw⟩ := h
  cases w with
  | nil => exact hr
  | cons x w =>
    intro c hc
    obtain rfl := Option.some.inj hc
    exact Or.inl (by simpa using (List.all_eq_true.1 hw) x (by simp))

/-! ### Strings -/

/-- The value of a hexadecimal digit. -/
def hexDigit (c : UInt8) : Option ℕ :=
  if 48 ≤ c ∧ c ≤ 57 then some (c.toNat - 48)
  else if 97 ≤ c ∧ c ≤ 102 then some (c.toNat - 97 + 10)
  else if 65 ≤ c ∧ c ≤ 70 then some (c.toNat - 65 + 10)
  else none

/-- The number of four hexadecimal digits. -/
def hex4 (a b c d : UInt8) : Option ℕ := do
  return 4096 * (← hexDigit a) + 256 * (← hexDigit b) + 16 * (← hexDigit c) + (← hexDigit d)

/-- The UTF-8 form of a code point; surrogates have none. -/
def utf8 (n : ℕ) : Option Bytes :=
  if n ≤ 0x7f then some [n.toUInt8]
  else if n ≤ 0x7ff then some [(0xc0 + n / 64).toUInt8, (0x80 + n % 64).toUInt8]
  else if n ≤ 0xffff then
    if 0xd800 ≤ n ∧ n ≤ 0xdfff then none
    else some [(0xe0 + n / 4096).toUInt8, (0x80 + n / 64 % 64).toUInt8, (0x80 + n % 64).toUInt8]
  else if n ≤ 0x10ffff then
    some [(0xf0 + n / 262144).toUInt8, (0x80 + n / 4096 % 64).toUInt8,
      (0x80 + n / 64 % 64).toUInt8, (0x80 + n % 64).toUInt8]
  else none

def HighSurrogate (n : ℕ) : Prop := 0xd800 ≤ n ∧ n ≤ 0xdbff

def LowSurrogate (n : ℕ) : Prop := 0xdc00 ≤ n ∧ n ≤ 0xdfff

instance (n : ℕ) : Decidable (HighSurrogate n) := by
  unfold HighSurrogate
  infer_instance

instance (n : ℕ) : Decidable (LowSurrogate n) := by
  unfold LowSurrogate
  infer_instance

/-- The code point of a surrogate pair. -/
def surrogatePair (high low : ℕ) : ℕ := 0x10000 + (high - 0xd800) * 1024 + (low - 0xdc00)

/-- What a one-letter escape denotes. -/
def simpleEscape (c : UInt8) : Option UInt8 :=
  if c = 34 then some 34
  else if c = 92 then some 92
  else if c = 47 then some 47
  else if c = 98 then some 8
  else if c = 102 then some 12
  else if c = 110 then some 10
  else if c = 114 then some 13
  else if c = 116 then some 9
  else none

/-- The rest of a string after its opening mark, the bytes that it denotes, and what remains. -/
inductive StrBody : Bytes → Bytes → Bytes → Prop
  | close (r : Bytes) : StrBody (34 :: r) [] r
  | plain {c : UInt8} {l v r : Bytes} (hc : 32 ≤ c ∧ c ≠ 34 ∧ c ≠ 92) (h : StrBody l v r) :
      StrBody (c :: l) (c :: v) r
  | escape {c b : UInt8} {l v r : Bytes} (hc : simpleEscape c = some b) (h : StrBody l v r) :
      StrBody (92 :: c :: l) (b :: v) r
  | codePoint {a b c d : UInt8} {n : ℕ} {u l v r : Bytes} (hn : hex4 a b c d = some n)
      (hplane : ¬HighSurrogate n ∧ ¬LowSurrogate n) (hu : utf8 n = some u) (h : StrBody l v r) :
      StrBody (92 :: 117 :: a :: b :: c :: d :: l) (u ++ v) r
  | pair {a b c d a' b' c' d' : UInt8} {n n' : ℕ} {u l v r : Bytes} (hn : hex4 a b c d = some n)
      (hn' : hex4 a' b' c' d' = some n') (hpair : HighSurrogate n ∧ LowSurrogate n')
      (hu : utf8 (surrogatePair n n') = some u) (h : StrBody l v r) :
      StrBody (92 :: 117 :: a :: b :: c :: d :: 92 :: 117 :: a' :: b' :: c' :: d' :: l) (u ++ v) r

/-- A string and the bytes that it denotes. -/
inductive Str : Bytes → Bytes → Bytes → Prop
  | mk {l v r : Bytes} (h : StrBody l v r) : Str (34 :: l) v r

/-- A string without bytes to escape, between its marks. -/
theorem str_quote {v : Bytes} (h : ∀ c ∈ v, 32 ≤ c ∧ c ≠ 34 ∧ c ≠ 92) (r : Bytes) :
    Str (34 :: (v ++ 34 :: r)) v r := by
  refine .mk ?_
  induction v with
  | nil => exact .close r
  | cons c v ih =>
    rw [List.forall_mem_cons] at h
    exact .plain h.1 (ih h.2)

theorem StrBody.length_lt {l v r : Bytes} (h : StrBody l v r) : r.length < l.length := by
  induction h with
  | close r => simp
  | plain _ _ ih | escape _ _ ih | codePoint _ _ _ _ ih | pair _ _ _ _ _ ih =>
    simp only [List.length_cons]
    omega

theorem Str.length_lt {l v r : Bytes} (h : Str l v r) : r.length < l.length := by
  obtain ⟨h⟩ := h
  have hlt := StrBody.length_lt h
  rw [List.length_cons]
  omega

/-! ### Numbers -/

def isDigit (c : UInt8) : Bool := 48 ≤ c && c ≤ 57

/-- Digits, possibly none. -/
def Digits (l r : Bytes) : Prop := ∃ w, l = w ++ r ∧ w.all isDigit = true

/-- At least one digit. -/
def Digits1 (l r : Bytes) : Prop := ∃ c m, l = c :: m ∧ isDigit c = true ∧ Digits m r

def Sign (l r : Bytes) : Prop := l = r ∨ l = 45 :: r

def Integer (l r : Bytes) : Prop :=
  l = 48 :: r ∨ ∃ c m, l = c :: m ∧ isDigit c = true ∧ c ≠ 48 ∧ Digits m r

def Fraction (l r : Bytes) : Prop := l = r ∨ ∃ m, l = 46 :: m ∧ Digits1 m r

def Exponent (l r : Bytes) : Prop :=
  l = r ∨ ∃ e m m', l = e :: m ∧ (e = 101 ∨ e = 69) ∧
    (m = m' ∨ m = 43 :: m' ∨ m = 45 :: m') ∧ Digits1 m' r

/-- A number. -/
def Num (l r : Bytes) : Prop :=
  ∃ l₁ l₂ l₃, Sign l l₁ ∧ Integer l₁ l₂ ∧ Fraction l₂ l₃ ∧ Exponent l₃ r

/-- The value of decimal digits behind those of `value`. -/
def decimal (value : ℕ) (w : Bytes) : ℕ := w.foldl (fun n c => n * 10 + (c.toNat - 48)) value

theorem decimal_cons (value : ℕ) (c : UInt8) (w : Bytes) :
    decimal value (c :: w) = decimal (value * 10 + (c.toNat - 48)) w := by
  rw [decimal, List.foldl_cons, decimal]

theorem le_decimal (value : ℕ) (w : Bytes) : value ≤ decimal value w := by
  induction w generalizing value with
  | nil => exact Nat.le_refl _
  | cons c w ih =>
    have hle := ih (value * 10 + (c.toNat - 48))
    rw [decimal_cons]
    omega

/-- A number without sign, fraction and exponent, and its value. -/
def Natural (l : Bytes) (n : ℕ) (r : Bytes) : Prop :=
  ∃ w, l = w ++ r ∧ w ≠ [] ∧ w.all isDigit = true ∧ (w.head? = some 48 → w = [48]) ∧
    decimal 0 w = n

theorem Natural.head {l r : Bytes} {n : ℕ} (h : Natural l n r) :
    ∃ c m, l = c :: m ∧ isDigit c = true := by
  obtain ⟨w, rfl, hne, hall, -, -⟩ := h
  cases w with
  | nil => exact (hne rfl).elim
  | cons c w =>
    rw [List.all_cons, Bool.and_eq_true] at hall
    exact ⟨c, w ++ r, rfl, hall.1⟩

theorem Natural.length_lt {l r : Bytes} {n : ℕ} (h : Natural l n r) : r.length < l.length := by
  obtain ⟨w, rfl, hne, -⟩ := h
  have hlen := List.length_pos_iff.2 hne
  rw [List.length_append]
  omega

/-- No digit in front. -/
def NoDigit (l : Bytes) : Prop := ∀ c, l.head? = some c → isDigit c = false

theorem noDigit_cons {c : UInt8} {l : Bytes} (hc : ¬isDigit c = true) : NoDigit (c :: l) := by
  intro x hx
  obtain rfl := Option.some.inj hx
  simpa using hc

theorem Follow.noDigit {l : Bytes} (h : Follow l) : NoDigit l := by
  intro c hc
  rcases h c hc with hspace | rfl | rfl | rfl
  · simp only [isSpace, Bool.or_eq_true, decide_eq_true_eq] at hspace
    rcases hspace with ((rfl | rfl) | rfl) | rfl <;> decide
  all_goals decide

/-- A scanner of digits that stops where there is none takes all of them. -/
theorem Digits.dropWhile_eq {l r : Bytes} (h : Digits l r) (hr : NoDigit r) :
    l.dropWhile isDigit = r := by
  obtain ⟨w, rfl, hw⟩ := h
  rw [List.dropWhile_append_of_pos (by simpa using hw)]
  cases r with
  | nil => rfl
  | cons c r => rw [List.dropWhile_cons_of_neg (by simp [hr c rfl])]

theorem digits_dropWhile (l : Bytes) : Digits l (l.dropWhile isDigit) :=
  ⟨l.takeWhile isDigit, List.takeWhile_append_dropWhile.symm, List.all_takeWhile⟩

theorem Digits.length_le {l r : Bytes} (h : Digits l r) : r.length ≤ l.length := by
  obtain ⟨w, rfl, -⟩ := h
  simp

theorem Digits1.length_lt {l r : Bytes} (h : Digits1 l r) : r.length < l.length := by
  obtain ⟨c, m, rfl, -, h⟩ := h
  exact Nat.lt_succ_of_le h.length_le

theorem Num.length_lt {l r : Bytes} (h : Num l r) : r.length < l.length := by
  obtain ⟨l₁, l₂, l₃, hsign, hinteger, hfraction, hexponent⟩ := h
  have h₁ : l₁.length ≤ l.length := by
    rcases hsign with rfl | rfl <;> simp
  have h₂ : l₂.length < l₁.length := by
    rcases hinteger with rfl | ⟨c, m, rfl, -, -, h⟩
    · simp
    · exact Nat.lt_succ_of_le h.length_le
  have h₃ : l₃.length ≤ l₂.length := by
    rcases hfraction with rfl | ⟨m, rfl, h⟩
    · exact Nat.le_refl _
    · exact Nat.le_succ_of_le (Nat.le_of_lt h.length_lt)
  have h₄ : r.length ≤ l₃.length := by
    rcases hexponent with rfl | ⟨e, m, m', rfl, -, hsign, h⟩
    · exact Nat.le_refl _
    · have hlt := h.length_lt
      rcases hsign with rfl | rfl | rfl <;> simp only [List.length_cons] <;> omega
  omega

/-! ### Structure -/

section

variable {α : Type}

/-- Items with commas between them, up to a closing bracket. -/
inductive Items (Item : Bytes → α → Bytes → Prop) (close : UInt8) : Bytes → List α → Bytes → Prop
  | last {l m r : Bytes} {a : α} (h : Item l a m) (hclose : Ws m (close :: r)) :
      Items Item close l [a] r
  | cons {l m n n' r : Bytes} {a : α} {as : List α} (h : Item l a m) (hcomma : Ws m (44 :: n))
      (hws : Ws n n') (hrest : Items Item close n' as r) : Items Item close l (a :: as) r

/-- Items that each are followed by a comma, up to the end of the input. -/
inductive Hanging (Item : Bytes → α → Bytes → Prop) : Bytes → List α → Prop
  | nil : Hanging Item [] []
  | cons {l m n n' : Bytes} {a : α} {as : List α} (h : Item l a m) (hcomma : Ws m (44 :: n))
      (hws : Ws n n') (hrest : Hanging Item n' as) : Hanging Item l (a :: as)

theorem Items.length_lt {Item : Bytes → α → Bytes → Prop} {close : UInt8} {l r : Bytes}
    {as : List α} (hitem : ∀ {l a r}, Item l a r → r.length < l.length)
    (h : Items Item close l as r) : r.length < l.length := by
  induction h with
  | last h hclose =>
    have h₁ := hitem h
    have h₂ := hclose.length_le
    rw [List.length_cons] at h₂
    omega
  | cons h hcomma hws _ ih =>
    have h₁ := hitem h
    have h₂ := hcomma.length_le
    have h₃ := hws.length_le
    rw [List.length_cons] at h₂
    omega

theorem Items.exists_of_mem {Item : Bytes → α → Bytes → Prop} {close : UInt8} {l r : Bytes}
    {as : List α} (h : Items Item close l as r) : ∀ a ∈ as, ∃ m m', Item m a m' := by
  induction h with
  | last h hclose =>
    intro a ha
    obtain rfl := List.mem_singleton.1 ha
    exact ⟨_, _, h⟩
  | cons h hcomma hws _ ih => exact List.forall_mem_cons.2 ⟨⟨_, _, h⟩, ih⟩

/-- Items may be read as their images. -/
theorem Items.map {β : Type} {Item : Bytes → α → Bytes → Prop} {Item' : Bytes → β → Bytes → Prop}
    {P : α → Prop} {g : α → β} (hitem : ∀ l a r, Item l a r → P a → Item' l (g a) r)
    {close : UInt8} {l r : Bytes} {as : List α} (h : Items Item close l as r)
    (hP : ∀ a ∈ as, P a) : Items Item' close l (as.map g) r := by
  induction h with
  | last h hclose => exact .last (hitem _ _ _ h (hP _ (List.mem_singleton_self _))) hclose
  | cons h hcomma hws _ ih =>
    rw [List.forall_mem_cons] at hP
    exact .cons (hitem _ _ _ h hP.1) hcomma hws (ih hP.2)

theorem Hanging.map {β : Type} {Item : Bytes → α → Bytes → Prop}
    {Item' : Bytes → β → Bytes → Prop} {P : α → Prop} {g : α → β}
    (hitem : ∀ l a r, Item l a r → P a → Item' l (g a) r) {l : Bytes} {as : List α}
    (h : Hanging Item l as) (hP : ∀ a ∈ as, P a) : Hanging Item' l (as.map g) := by
  induction h with
  | nil => exact .nil
  | cons h hcomma hws _ ih =>
    rw [List.forall_mem_cons] at hP
    exact .cons (hitem _ _ _ h hP.1) hcomma hws (ih hP.2)

/-- Items that are images of others come from those. -/
theorem Items.exists_map {β : Type} {Item : Bytes → α → Bytes → Prop}
    {Item' : Bytes → β → Bytes → Prop} {P : α → Prop} {g : α → β}
    (hitem : ∀ l b r, Item' l b r → ∃ a, b = g a ∧ P a ∧ Item l a r) {close : UInt8}
    {l r : Bytes} {bs : List β} (h : Items Item' close l bs r) :
    ∃ as : List α, bs = as.map g ∧ (∀ a ∈ as, P a) ∧ Items Item close l as r := by
  induction h with
  | last h hclose =>
    obtain ⟨a, rfl, hP, h⟩ := hitem _ _ _ h
    exact ⟨[a], rfl, by simpa using hP, .last h hclose⟩
  | cons h hcomma hws _ ih =>
    obtain ⟨a, rfl, hP, h⟩ := hitem _ _ _ h
    obtain ⟨as, rfl, hPs, hrest⟩ := ih
    exact ⟨a :: as, rfl, List.forall_mem_cons.2 ⟨hP, hPs⟩, .cons h hcomma hws hrest⟩

theorem Hanging.exists_map {β : Type} {Item : Bytes → α → Bytes → Prop}
    {Item' : Bytes → β → Bytes → Prop} {P : α → Prop} {g : α → β}
    (hitem : ∀ l b r, Item' l b r → ∃ a, b = g a ∧ P a ∧ Item l a r) {l : Bytes}
    {bs : List β} (h : Hanging Item' l bs) :
    ∃ as : List α, bs = as.map g ∧ (∀ a ∈ as, P a) ∧ Hanging Item l as := by
  induction h with
  | nil => exact ⟨[], rfl, by simp, .nil⟩
  | cons h hcomma hws _ ih =>
    obtain ⟨a, rfl, hP, h⟩ := hitem _ _ _ h
    obtain ⟨as, rfl, hPs, hrest⟩ := ih
    exact ⟨a :: as, rfl, List.forall_mem_cons.2 ⟨hP, hPs⟩, .cons h hcomma hws hrest⟩

/-- A string key, a colon and a value that may depend on the key. -/
def Keyed (Val : Bytes → Bytes → α → Bytes → Prop) (l : Bytes) (entry : Bytes × α) (r : Bytes) :
    Prop :=
  ∃ m n n', Str l entry.1 m ∧ Ws m (58 :: n) ∧ Ws n n' ∧ Val entry.1 n' entry.2 r

theorem Keyed.length_lt {Val : Bytes → Bytes → α → Bytes → Prop}
    (hvalue : ∀ key {l a r}, Val key l a r → r.length < l.length) {l r : Bytes}
    {entry : Bytes × α} (h : Keyed Val l entry r) : r.length < l.length := by
  obtain ⟨m, n, n', hkey, hcolon, hws, hread⟩ := h
  have h₁ := hkey.length_lt
  have h₂ := hcolon.length_le
  have h₃ := hws.length_le
  have h₄ := hvalue entry.1 hread
  rw [List.length_cons] at h₂
  omega

end

/-- An array of values. -/
def Arr (Val : Bytes → Bytes → Prop) (l r : Bytes) : Prop :=
  ∃ m, l = 91 :: m ∧ (Ws m (93 :: r) ∨
    ∃ m' as, Ws m m' ∧ Items (fun l (_ : Unit) r => Val l r) 93 m' as r)

/-- An object of values with distinct keys. -/
def Obj (Val : Bytes → Bytes → Prop) (l r : Bytes) : Prop :=
  ∃ m, l = 123 :: m ∧ (Ws m (125 :: r) ∨
    ∃ m' as, Ws m m' ∧ Items (Keyed fun _ l (_ : Unit) r => Val l r) 125 m' as r ∧
      (as.map Prod.fst).Nodup)

theorem Arr.length_lt {Val : Bytes → Bytes → Prop}
    (hvalue : ∀ {l r}, Val l r → r.length < l.length) {l r : Bytes}
    (h : Arr Val l r) : r.length < l.length := by
  obtain ⟨m, rfl, h | ⟨m', as, hws, h⟩⟩ := h
  · exact Nat.lt_of_lt_of_le (Nat.lt_succ_self _) (Nat.le_succ_of_le h.length_le)
  · exact Nat.lt_succ_of_lt (Nat.lt_of_lt_of_le (Items.length_lt hvalue h) hws.length_le)

theorem Obj.length_lt {Val : Bytes → Bytes → Prop}
    (hvalue : ∀ {l r}, Val l r → r.length < l.length) {l r : Bytes}
    (h : Obj Val l r) : r.length < l.length := by
  obtain ⟨m, rfl, h | ⟨m', as, hws, h, -⟩⟩ := h
  · exact Nat.lt_of_lt_of_le (Nat.lt_succ_self _) (Nat.le_succ_of_le h.length_le)
  · exact Nat.lt_succ_of_lt
      (Nat.lt_of_lt_of_le (Items.length_lt (Keyed.length_lt fun _ => hvalue) h) hws.length_le)

/-- The three literals. -/
def literals : List Bytes := [bytes "true", bytes "false", bytes "null"]

/-- A value that is nested fewer than `d` deep. -/
def Value : ℕ → Bytes → Bytes → Prop
  | 0, _, _ => False
  | d + 1, l, r =>
    (∃ v, Str l v r) ∨ Num l r ∨ (∃ w ∈ literals, l = w ++ r) ∨ Arr (Value d) l r ∨
      Obj (Value d) l r

theorem Items.mono {α : Type} {Item Item' : Bytes → α → Bytes → Prop} {close : UInt8}
    (hitem : ∀ l a r, Item l a r → Item' l a r) {l r : Bytes} {as : List α}
    (h : Items Item close l as r) : Items Item' close l as r := by
  induction h with
  | last h hclose => exact .last (hitem _ _ _ h) hclose
  | cons h hcomma hws _ ih => exact .cons (hitem _ _ _ h) hcomma hws ih

section Mono

variable {Val Val' : Bytes → Bytes → Prop}

theorem Arr.mono (hvalue : ∀ {l r}, Val l r → Val' l r) {l r : Bytes} (h : Arr Val l r) :
    Arr Val' l r := by
  obtain ⟨m, rfl, h | ⟨m', as, hws, h⟩⟩ := h
  · exact ⟨m, rfl, Or.inl h⟩
  · exact ⟨m, rfl, Or.inr ⟨m', as, hws, h.mono fun _ _ _ => hvalue⟩⟩

theorem Obj.mono (hvalue : ∀ {l r}, Val l r → Val' l r) {l r : Bytes} (h : Obj Val l r) :
    Obj Val' l r := by
  obtain ⟨m, rfl, h | ⟨m', as, hws, h, hdistinct⟩⟩ := h
  · exact ⟨m, rfl, Or.inl h⟩
  · refine ⟨m, rfl, Or.inr ⟨m', as, hws, h.mono ?_, hdistinct⟩⟩
    rintro _ _ _ ⟨m, n, n', hkey, hcolon, hws, hread⟩
    exact ⟨m, n, n', hkey, hcolon, hws, hvalue hread⟩

end Mono

theorem Value.succ {d : ℕ} {l r : Bytes} (h : Value d l r) : Value (d + 1) l r := by
  induction d generalizing l r with
  | zero => exact h.elim
  | succ d ih =>
    rcases h with h | h | h | h | h
    · exact Or.inl h
    · exact Or.inr (Or.inl h)
    · exact Or.inr (Or.inr (Or.inl h))
    · exact Or.inr (Or.inr (Or.inr (Or.inl (h.mono ih))))
    · exact Or.inr (Or.inr (Or.inr (Or.inr (h.mono ih))))

/-- A value may be nested deeper than it is. -/
theorem Value.mono {d d' : ℕ} (hd : d ≤ d') {l r : Bytes} (h : Value d l r) : Value d' l r := by
  induction hd with
  | refl => exact h
  | step _ ih => exact ih.succ

/-! ### Printing numbers -/

/-- A number in decimal. -/
def decimalText (n : ℕ) : Bytes := (Nat.toDigits 10 n).map byte

theorem byte_of_isDigit {c : Char} (h : c.isDigit = true) :
    isDigit (byte c) = true ∧ (byte c).toNat = c.toNat := by
  have hlow : 48 ≤ c.toNat := (Char.isDigit_iff_toNat.1 h).1
  have hhigh : c.toNat ≤ 57 := (Char.isDigit_iff_toNat.1 h).2
  have hnat : (byte c).toNat = c.toNat := by
    rw [byte, UInt8.toNat_ofNat']
    omega
  refine ⟨?_, hnat⟩
  simp only [isDigit, Bool.and_eq_true, decide_eq_true_eq, UInt8.le_iff_toNat_le, hnat]
  exact ⟨hlow, hhigh⟩

theorem decimal_map_byte {ds : List Char} (h : ∀ c ∈ ds, c.isDigit = true) (value : ℕ) :
    decimal value (ds.map byte) = Nat.ofDigitChars 10 ds value := by
  induction ds generalizing value with
  | nil => rfl
  | cons c ds ih =>
    rw [List.forall_mem_cons] at h
    rw [List.map_cons, decimal_cons, (byte_of_isDigit h.1).2, ih h.2, Nat.ofDigitChars_cons,
      Nat.mul_comm]
    rfl

theorem decimalText_eq_if (n : ℕ) :
    decimalText n = if n < 10 then [byte n.digitChar]
      else decimalText (n / 10) ++ [byte (n % 10).digitChar] := by
  rw [decimalText, Nat.toDigits_eq_if (by decide)]
  by_cases h : n < 10
  · rw [if_pos h, if_pos h, List.map_singleton]
  · rw [if_neg h, if_neg h, List.map_append, List.map_singleton, decimalText]

theorem decimalText_ne_nil (n : ℕ) : decimalText n ≠ [] := by
  simp [decimalText, Nat.toDigits_ne_nil]

/-- Only zero is printed with a leading zero. -/
theorem head_decimalText {n : ℕ} (h : (decimalText n).head? = some 48) : n = 0 := by
  induction n using Nat.strongRecOn with
  | ind n ih =>
    rw [decimalText_eq_if] at h
    by_cases hn : n < 10
    · rw [if_pos hn] at h
      have hfacts : ∀ n < 10, byte n.digitChar = 48 → n = 0 := by decide
      exact hfacts n hn (Option.some.inj h)
    · rw [if_neg hn] at h
      have hhead : (decimalText (n / 10)).head? = some 48 := by
        obtain ⟨c, l, hl⟩ := List.exists_cons_of_ne_nil (decimalText_ne_nil (n / 10))
        rw [hl] at h ⊢
        exact h
      have hzero := ih (n / 10) (by omega) hhead
      omega

/-- **Reading a printed number.** -/
theorem natural_decimalText (n : ℕ) (r : Bytes) : Natural (decimalText n ++ r) n r := by
  have hdigits : ∀ c ∈ Nat.toDigits 10 n, c.isDigit = true := fun c hc =>
    Nat.isDigit_of_mem_toDigits (by decide) (by decide) hc
  refine ⟨decimalText n, rfl, decimalText_ne_nil n, ?_, ?_, ?_⟩
  · rw [decimalText, List.all_map, List.all_eq_true]
    exact fun c hc => (byte_of_isDigit (hdigits c hc)).1
  · intro h
    rw [head_decimalText h]
    rfl
  · rw [decimalText, decimal_map_byte hdigits, Nat.ofDigitChars_ten_toDigits]

theorem isDigit_decimalText {n : ℕ} {c : UInt8} (hc : c ∈ decimalText n) :
    isDigit c = true := by
  obtain ⟨d, hd, rfl⟩ := List.mem_map.1 hc
  exact (byte_of_isDigit (Nat.isDigit_of_mem_toDigits (by decide) (by decide) hd)).1

theorem decimal_decimalText (n : ℕ) : decimal 0 (decimalText n) = n := by
  rw [decimalText, decimal_map_byte fun c hc =>
    Nat.isDigit_of_mem_toDigits (by decide) (by decide) hc, Nat.ofDigitChars_ten_toDigits]

theorem length_decimalText_le {n k : ℕ} (hk : 0 < k) (hn : n < 10 ^ k) :
    (decimalText n).length ≤ k := by
  rw [decimalText, List.length_map]
  exact (Nat.length_toDigits_le_iff (by decide) hk).2 hn

/-! ### Longer inputs -/

section Append

variable (s : Bytes)

theorem Ws.append {l r : Bytes} (h : Ws l r) : Ws (l ++ s) (r ++ s) := by
  obtain ⟨w, rfl, hw⟩ := h
  exact ⟨w, List.append_assoc .., hw⟩

theorem StrBody.append {l v r : Bytes} (h : StrBody l v r) : StrBody (l ++ s) v (r ++ s) := by
  induction h with
  | close r => exact .close _
  | plain hc _ ih => exact .plain hc ih
  | escape hc _ ih => exact .escape hc ih
  | codePoint hn hplane hu _ ih => exact .codePoint hn hplane hu ih
  | pair hn hn' hpair hu _ ih => exact .pair hn hn' hpair hu ih

theorem Str.append {l v r : Bytes} (h : Str l v r) : Str (l ++ s) v (r ++ s) := by
  obtain ⟨h⟩ := h
  exact .mk (h.append s)

theorem Digits.append {l r : Bytes} (h : Digits l r) : Digits (l ++ s) (r ++ s) := by
  obtain ⟨w, rfl, hw⟩ := h
  exact ⟨w, List.append_assoc .., hw⟩

theorem Digits1.append {l r : Bytes} (h : Digits1 l r) : Digits1 (l ++ s) (r ++ s) := by
  obtain ⟨c, m, rfl, hc, h⟩ := h
  exact ⟨c, m ++ s, rfl, hc, h.append s⟩

theorem Num.append {l r : Bytes} (h : Num l r) : Num (l ++ s) (r ++ s) := by
  obtain ⟨l₁, l₂, l₃, hsign, hinteger, hfraction, hexponent⟩ := h
  refine ⟨l₁ ++ s, l₂ ++ s, l₃ ++ s, ?_, ?_, ?_, ?_⟩
  · rcases hsign with rfl | rfl
    · exact Or.inl rfl
    · exact Or.inr rfl
  · rcases hinteger with rfl | ⟨c, m, rfl, hc, hzero, h⟩
    · exact Or.inl rfl
    · exact Or.inr ⟨c, m ++ s, rfl, hc, hzero, h.append s⟩
  · rcases hfraction with rfl | ⟨m, rfl, h⟩
    · exact Or.inl rfl
    · exact Or.inr ⟨m ++ s, rfl, h.append s⟩
  · rcases hexponent with rfl | ⟨e, m, m', rfl, he, hsign, h⟩
    · exact Or.inl rfl
    · refine Or.inr ⟨e, m ++ s, m' ++ s, rfl, he, ?_, h.append s⟩
      rcases hsign with rfl | rfl | rfl
      · exact Or.inl rfl
      · exact Or.inr (Or.inl rfl)
      · exact Or.inr (Or.inr rfl)

theorem Items.append {α : Type} {Item : Bytes → α → Bytes → Prop}
    (hitem : ∀ l a r, Item l a r → Item (l ++ s) a (r ++ s)) {close : UInt8} {l r : Bytes}
    {as : List α} (h : Items Item close l as r) : Items Item close (l ++ s) as (r ++ s) := by
  induction h with
  | last h hclose => exact .last (hitem _ _ _ h) (hclose.append s)
  | cons h hcomma hws _ ih => exact .cons (hitem _ _ _ h) (hcomma.append s) (hws.append s) ih

variable {Val : Bytes → Bytes → Prop}

theorem Arr.append (hvalue : ∀ {l r}, Val l r → Val (l ++ s) (r ++ s)) {l r : Bytes}
    (h : Arr Val l r) : Arr Val (l ++ s) (r ++ s) := by
  obtain ⟨m, rfl, h | ⟨m', as, hws, h⟩⟩ := h
  · exact ⟨m ++ s, rfl, Or.inl (h.append s)⟩
  · exact ⟨m ++ s, rfl, Or.inr ⟨m' ++ s, as, hws.append s, h.append s fun _ _ _ => hvalue⟩⟩

theorem Obj.append (hvalue : ∀ {l r}, Val l r → Val (l ++ s) (r ++ s)) {l r : Bytes}
    (h : Obj Val l r) : Obj Val (l ++ s) (r ++ s) := by
  obtain ⟨m, rfl, h | ⟨m', as, hws, h, hdistinct⟩⟩ := h
  · exact ⟨m ++ s, rfl, Or.inl (h.append s)⟩
  · refine ⟨m ++ s, rfl, Or.inr ⟨m' ++ s, as, hws.append s, h.append s ?_, hdistinct⟩⟩
    rintro _ _ _ ⟨m, n, n', hkey, hcolon, hws, hread⟩
    exact ⟨m ++ s, n ++ s, n' ++ s, hkey.append s, hcolon.append s, hws.append s, hvalue hread⟩

/-- A value is still one in front of a longer input. -/
theorem Value.append {d : ℕ} {l r : Bytes} (h : Value d l r) : Value d (l ++ s) (r ++ s) := by
  induction d generalizing l r with
  | zero => exact h.elim
  | succ d ih =>
    rcases h with ⟨v, h⟩ | h | ⟨w, hw, rfl⟩ | h | h
    · exact Or.inl ⟨v, h.append s⟩
    · exact Or.inr (Or.inl (h.append s))
    · exact Or.inr (Or.inr (Or.inl ⟨w, hw, List.append_assoc ..⟩))
    · exact Or.inr (Or.inr (Or.inr (Or.inl (h.append s ih))))
    · exact Or.inr (Or.inr (Or.inr (Or.inr (h.append s ih))))

end Append

/-- A text that is one object, between white space. -/
def ObjectText (text : Bytes) : Prop := ∃ d l r, Ws text l ∧ Obj (Value d) l r ∧ Ws r []

end Json
