import Mathlib.Data.List.DropRight
import Resonantia.Library.FieldFraming
import Resonantia.Web.Multipart

/-!
# The boundary of a multipart body

`extract_boundary` reads the parameters of a `Content-Type` header, so that a text inside the name or
the quoted value of another parameter is never taken for the boundary.

## Main definitions

* `Web.Boundary.extractBoundary`: the scanner.
* `Web.Boundary.ContentType`: well-formed texts and their parameters.
* `Web.Boundary.Chosen`: the boundary among parameters.

## Main results

* `Web.Boundary.extractBoundary_eq_some_iff`: what the scanner accepts.
* `Web.Boundary.extract_boundary`: other parameters have no influence, and a boundary that is
  rendered as a quoted string is read back.
-/

namespace Resonantia.Web.Boundary

open ByteString FieldFraming
open Multipart (lower toLower escape quoted)

/-! ### The scanner -/

/-- `parameter_token`. -/
def parameterToken (c : UInt8) : Bool :=
  (97 ≤ c && c ≤ 122) || (65 ≤ c && c ≤ 90) || (48 ≤ c && c ≤ 57) ||
    (bytes "!#$%&'*+-.^_`|~").contains c

def isBlank (c : UInt8) : Bool := c == byte ' ' || c == byte '\t'

/-- The lambda `skip_space`. -/
def skipBlanks (l : Bytes) : Bytes := l.dropWhile isBlank

/-- The bytes of a quoted string. -/
def allowed (c : UInt8) : Bool := !((c < 32 && c != byte '\t') || c == 127)

/-- A quoted string after its opening mark: the value and what follows the closing mark. -/
def scanQuoted : Bytes → Option (Bytes × Bytes)
  | [] => none
  | c :: l =>
    if c = byte '"' then some ([], l)
    else if c = byte '\\' then
      match l with
      | [] => none
      | c :: l =>
        if allowed c = true then (scanQuoted l).map fun r => (c :: r.1, r.2) else none
    else if allowed c = true then (scanQuoted l).map fun r => (c :: r.1, r.2)
    else none

/-- A value: a quoted string or a nonempty token. -/
def scanValue (l : Bytes) : Option (Bytes × Bytes) :=
  if l.head? = some (byte '"') then scanQuoted l.tail
  else if l.takeWhile parameterToken = [] then none
  else some (l.takeWhile parameterToken, l.dropWhile parameterToken)

/-- One parameter after its semicolon: its name, its value and the rest. -/
def scanParameter (l : Bytes) : Option (Bytes × Bytes × Bytes) :=
  let word := (skipBlanks l).takeWhile parameterToken
  let l := skipBlanks ((skipBlanks l).dropWhile parameterToken)
  if word = [] ∨ l.head? ≠ some (byte '=') then none
  else
    match scanValue (skipBlanks l.tail) with
    | none => none
    | some (value, l) =>
      if skipBlanks l = [] ∨ (skipBlanks l).head? = some (byte ';') then
        some (lower word, value, skipBlanks l)
      else none

/-- The boundaries that are accepted. -/
def ValidBoundary (boundary : Bytes) : Prop :=
  boundary ≠ [] ∧ boundary.length ≤ 200 ∧ ∀ c ∈ boundary, 32 ≤ c ∧ c < 127

instance instDecidableValidBoundary (boundary : Bytes) : Decidable (ValidBoundary boundary) :=
  inferInstanceAs (Decidable (boundary ≠ [] ∧ boundary.length ≤ 200 ∧ _))

def kBoundary : Bytes := bytes "boundary"

/-- Record one parameter; a boundary at most once. -/
def record (found : Option Bytes) (name value : Bytes) : Option (Option Bytes) :=
  if name = kBoundary then
    if found ≠ none ∨ ¬ValidBoundary value then none else some (some value)
  else some found

/-! ### Well-formed texts -/

def Blanks (l : Bytes) : Prop := ∀ c ∈ l, isBlank c = true

/-- What stands between the marks of a quoted string, and its value. -/
inductive QuotedText : Bytes → Bytes → Prop
  | nil : QuotedText [] []
  | plain {c : UInt8} {l value : Bytes} (hquote : c ≠ byte '"') (hbackslash : c ≠ byte '\\')
      (hallowed : allowed c = true) (h : QuotedText l value) : QuotedText (c :: l) (c :: value)
  | escaped {c : UInt8} {l value : Bytes} (hallowed : allowed c = true) (h : QuotedText l value) :
      QuotedText (byte '\\' :: c :: l) (c :: value)

/-- A token or a quoted string, and its value. -/
inductive ValueText : Bytes → Bytes → Prop
  | token {l : Bytes} (hne : l ≠ []) (h : ∀ c ∈ l, parameterToken c = true) : ValueText l l
  | quoted {l value : Bytes} (h : QuotedText l value) :
      ValueText (byte '"' :: (l ++ [byte '"'])) value

/-- A parameter after its semicolon, with blanks around its name and its value. -/
inductive ParameterText : Bytes → Bytes → Bytes → Prop
  | intro {a word b c text value d : Bytes} (ha : Blanks a) (hne : word ≠ [])
      (hword : ∀ c ∈ word, parameterToken c = true) (hb : Blanks b) (hc : Blanks c)
      (hvalue : ValueText text value) (hd : Blanks d) :
      ParameterText (a ++ (word ++ (b ++ byte '=' :: (c ++ (text ++ d))))) (lower word) value

/-- Parameters, each after a semicolon. -/
inductive ParametersText : Bytes → List (Bytes × Bytes) → Prop
  | nil : ParametersText [] []
  | cons {text name value l : Bytes} {parameters : List (Bytes × Bytes)}
      (h : ParameterText text name value) (hs : ParametersText l parameters) :
      ParametersText (byte ';' :: (text ++ l)) ((name, value) :: parameters)

def kMultipart : Bytes := bytes "multipart/form-data"

/-- `multipart/form-data`, in any case and between blanks, and at least one parameter. -/
def ContentType (text : Bytes) (parameters : List (Bytes × Bytes)) : Prop :=
  ∃ a media b l, text = a ++ (media ++ (b ++ l)) ∧ Blanks a ∧ lower media = kMultipart ∧ Blanks b ∧
    parameters ≠ [] ∧ ParametersText l parameters

/-- There is exactly one boundary among the parameters, and it is valid. -/
def Chosen (parameters : List (Bytes × Bytes)) (boundary : Bytes) : Prop :=
  parameters.filter (fun p => p.1 = kBoundary) = [(kBoundary, boundary)] ∧ ValidBoundary boundary

/-! ### Blanks and tokens -/

theorem exists_skipBlanks (l : Bytes) : ∃ a, Blanks a ∧ l = a ++ skipBlanks l :=
  ⟨l.takeWhile isBlank, fun _ hc => List.mem_takeWhile_imp hc, (List.takeWhile_append_dropWhile).symm⟩

theorem isBlank_cases {c : UInt8} (h : isBlank c = true) : c = byte ' ' ∨ c = byte '\t' := by
  simpa [isBlank] using h

theorem parameterToken_of_isBlank {c : UInt8} (h : isBlank c = true) : parameterToken c = false := by
  rcases isBlank_cases h with rfl | rfl <;> decide

theorem isBlank_of_parameterToken {c : UInt8} (h : parameterToken c = true) : isBlank c = false := by
  cases hblank : isBlank c with
  | false => rfl
  | true =>
    rw [parameterToken_of_isBlank hblank] at h
    cases h

/-- Before a byte that is in no token, blanks end a token. -/
theorem stops_blanks_append {a l : Bytes} (ha : Blanks a) (hl : Stops parameterToken l) :
    Stops parameterToken (a ++ l) := by
  cases a with
  | nil => exact hl
  | cons c a => exact stops_cons (parameterToken_of_isBlank (ha c List.mem_cons_self))

/-- A token is not blank. -/
theorem stops_token_append {word l : Bytes} (hne : word ≠ [])
    (hword : ∀ c ∈ word, parameterToken c = true) : Stops isBlank (word ++ l) :=
  stops_append hne fun c hc => isBlank_of_parameterToken (hword c hc)

/-- What may follow a parameter. -/
def Sequel (l : Bytes) : Prop := l = [] ∨ l.head? = some (byte ';')

theorem Sequel.stops {l : Bytes} (h : Sequel l) {p : UInt8 → Bool} (hp : p (byte ';') = false) :
    Stops p l := by
  rcases h with rfl | h
  · intro c hc
    cases hc
  · intro c hc
    rw [h] at hc
    rw [← Option.some.inj hc]
    exact hp

theorem ParametersText.sequel {l : Bytes} {parameters : List (Bytes × Bytes)}
    (h : ParametersText l parameters) : Sequel l := by
  cases h with
  | nil => exact Or.inl rfl
  | cons h hs => exact Or.inr rfl

/-! ### One parameter -/

theorem scanQuoted_append {l value : Bytes} (h : QuotedText l value) (rest : Bytes) :
    scanQuoted (l ++ byte '"' :: rest) = some (value, rest) := by
  have hmarks : byte '\\' ≠ byte '"' := by decide
  induction h with
  | nil =>
    rw [List.nil_append, scanQuoted.eq_def]
    exact if_pos rfl
  | plain hquote hbackslash hallowed h ih =>
    rw [List.cons_append, scanQuoted.eq_def]
    simp only [hquote, hbackslash, hallowed, if_false, if_true, ih, Option.map_some]
  | escaped hallowed h ih =>
    rw [List.cons_append, List.cons_append, scanQuoted]
    simp only [hmarks, hallowed, if_false, if_true, ih, Option.map_some]

theorem quotedText_of_scanQuoted {l value rest : Bytes} (h : scanQuoted l = some (value, rest)) :
    ∃ text, QuotedText text value ∧ l = text ++ byte '"' :: rest := by
  fun_induction scanQuoted l generalizing value with
  | case1 => cases h
  | case2 l =>
    obtain ⟨rfl, rfl⟩ := Prod.mk.inj (Option.some.inj h)
    exact ⟨[], .nil, rfl⟩
  | case3 => cases h
  | case4 c l hallowed _ ih =>
    obtain ⟨⟨value', rest'⟩, hrest, heq⟩ := Option.map_eq_some_iff.1 h
    obtain ⟨rfl, rfl⟩ := Prod.mk.inj heq
    obtain ⟨text, htext, rfl⟩ := ih hrest
    exact ⟨_, .escaped hallowed htext, rfl⟩
  | case5 => cases h
  | case6 c l hquote hbackslash hallowed ih =>
    obtain ⟨⟨value', rest'⟩, hrest, heq⟩ := Option.map_eq_some_iff.1 h
    obtain ⟨rfl, rfl⟩ := Prod.mk.inj heq
    obtain ⟨text, htext, rfl⟩ := ih hrest
    exact ⟨_, .plain hquote hbackslash hallowed htext, rfl⟩
  | case7 => cases h

/-- A value is read up to what is in no token. -/
theorem scanValue_append {text value l : Bytes} (h : ValueText text value)
    (hl : Stops parameterToken l) : scanValue (text ++ l) = some (value, l) := by
  cases h with
  | token hne hword =>
    have hhead : (text ++ l).head? ≠ some (byte '"') := by
      cases text with
      | nil => exact absurd rfl hne
      | cons c text =>
        intro heq
        have hc := hword c List.mem_cons_self
        rw [Option.some.inj heq] at hc
        revert hc
        decide
    rw [scanValue, if_neg hhead, takeWhile_append hword hl, dropWhile_append hword hl, if_neg hne]
  | quoted htext =>
    rw [scanValue, List.cons_append, List.head?_cons, if_pos rfl, List.tail_cons, List.append_assoc,
      List.singleton_append]
    exact scanQuoted_append htext l

theorem valueText_of_scanValue {l value rest : Bytes} (h : scanValue l = some (value, rest)) :
    ∃ text, ValueText text value ∧ l = text ++ rest := by
  rw [scanValue] at h
  split_ifs at h with hquote hempty
  · obtain ⟨text, htext, htail⟩ := quotedText_of_scanQuoted h
    refine ⟨_, .quoted htext, ?_⟩
    cases l with
    | nil => cases hquote
    | cons c l =>
      rw [List.tail_cons] at htail
      rw [Option.some.inj hquote, htail, List.cons_append, List.append_assoc, List.singleton_append]
  · obtain ⟨rfl, rfl⟩ := Prod.mk.inj (Option.some.inj h)
    exact ⟨_, .token hempty fun _ hc => List.mem_takeWhile_imp hc,
      (List.takeWhile_append_dropWhile).symm⟩

theorem ValueText.stops {text value : Bytes} (h : ValueText text value) (l : Bytes) :
    Stops isBlank (text ++ l) := by
  cases h with
  | token hne hword => exact stops_token_append hne hword
  | quoted => exact stops_cons (by decide)

/-- A parameter is read up to the next semicolon. -/
theorem scanParameter_append {text name value rest : Bytes} (h : ParameterText text name value)
    (hrest : Sequel rest) : scanParameter (text ++ rest) = some (name, value, rest) := by
  obtain ⟨ha, hne, hword, hb, hc, hvalue, hd⟩ := h
  rename_i a word b c text d
  have hassoc : a ++ (word ++ (b ++ byte '=' :: (c ++ (text ++ d)))) ++ rest =
      a ++ (word ++ (b ++ byte '=' :: (c ++ (text ++ (d ++ rest))))) := by
    simp only [List.append_assoc, List.cons_append]
  have hequals : Stops parameterToken (b ++ byte '=' :: (c ++ (text ++ (d ++ rest)))) :=
    stops_blanks_append hb (stops_cons (by decide))
  have hskip : skipBlanks (a ++ (word ++ (b ++ byte '=' :: (c ++ (text ++ (d ++ rest)))))) =
      word ++ (b ++ byte '=' :: (c ++ (text ++ (d ++ rest)))) :=
    dropWhile_append ha (stops_token_append hne hword)
  have hskip' : skipBlanks (b ++ byte '=' :: (c ++ (text ++ (d ++ rest)))) =
      byte '=' :: (c ++ (text ++ (d ++ rest))) := dropWhile_append hb (stops_cons (by decide))
  have hskip'' : skipBlanks (c ++ (text ++ (d ++ rest))) = text ++ (d ++ rest) :=
    dropWhile_append hc (hvalue.stops _)
  have hscan : scanValue (text ++ (d ++ rest)) = some (value, d ++ rest) :=
    scanValue_append hvalue (stops_blanks_append hd (hrest.stops (by decide)))
  have hend : skipBlanks (d ++ rest) = rest := dropWhile_append hd (hrest.stops (by decide))
  rw [hassoc, scanParameter]
  simp only [hskip, takeWhile_append hword hequals, dropWhile_append hword hequals, hskip',
    List.head?_cons, List.tail_cons, hskip'', hscan, hend, hne, ne_eq, not_true_eq_false, or_self,
    if_false]
  exact if_pos hrest

theorem parameterText_of_scanParameter {l name value rest : Bytes}
    (h : scanParameter l = some (name, value, rest)) :
    ∃ text, ParameterText text name value ∧ l = text ++ rest ∧ Sequel rest := by
  rw [scanParameter] at h
  split_ifs at h with hrefused
  rw [not_or, not_not] at hrefused
  obtain ⟨a, ha, hl⟩ := exists_skipBlanks l
  obtain ⟨b, hb, hafter⟩ := exists_skipBlanks ((skipBlanks l).dropWhile parameterToken)
  generalize skipBlanks ((skipBlanks l).dropWhile parameterToken) = m at *
  cases m with
  | nil => cases hrefused.2
  | cons e m =>
    obtain rfl := Option.some.inj hrefused.2
    rw [List.tail_cons] at h
    obtain ⟨c, hc, hm⟩ := exists_skipBlanks m
    cases hscan : scanValue (skipBlanks m) with
    | none =>
      rw [hscan] at h
      cases h
    | some r =>
      obtain ⟨value', l'⟩ := r
      rw [hscan] at h
      dsimp only at h
      split_ifs at h with hsequel
      obtain ⟨rfl, heq⟩ := Prod.mk.inj (Option.some.inj h)
      obtain ⟨rfl, rfl⟩ := Prod.mk.inj heq
      obtain ⟨text, htext, hvalue⟩ := valueText_of_scanValue hscan
      obtain ⟨d, hd, hrest⟩ := exists_skipBlanks l'
      refine ⟨_, .intro ha hrefused.1 (fun _ hc => List.mem_takeWhile_imp hc) hb hc htext hd, ?_,
        hsequel⟩
      calc l = a ++ ((skipBlanks l).takeWhile parameterToken ++
            (skipBlanks l).dropWhile parameterToken) := by
            rw [List.takeWhile_append_dropWhile]
            exact hl
        _ = _ := by
            rw [hafter, hm, hvalue]
            conv_lhs => rw [hrest]
            simp only [List.append_assoc, List.cons_append]

theorem length_le_of_scanParameter {l name value rest : Bytes}
    (h : scanParameter l = some (name, value, rest)) : rest.length ≤ l.length := by
  obtain ⟨text, -, rfl, -⟩ := parameterText_of_scanParameter h
  rw [List.length_append]
  exact Nat.le_add_left _ _

/-! ### All parameters -/

/-- The loop over the parameters; its result is the boundary. -/
def scanParameters (found : Option Bytes) (l : Bytes) : Option Bytes :=
  match l with
  | [] => found
  | c :: l =>
    if c ≠ byte ';' then none
    else
      match h : scanParameter l with
      | none => none
      | some (name, value, rest) =>
        have : rest.length < (c :: l).length := Nat.lt_succ_of_le (length_le_of_scanParameter h)
        (record found name value).bind fun found => scanParameters found rest
termination_by l.length
decreasing_by all_goals simp only [List.length_cons] at *; omega

/-- The media type: what stands before the first semicolon, without blanks around it. -/
def mediaType (contentType : Bytes) : Bytes :=
  (skipBlanks ((lower contentType).takeWhile (· != byte ';'))).rdropWhile isBlank

/-- `extract_boundary`. -/
def extractBoundary (contentType : Bytes) : Option Bytes :=
  if mediaType contentType ≠ kMultipart ∨ byte ';' ∉ contentType then none
  else scanParameters none (contentType.dropWhile (· != byte ';'))

theorem scanParameters_cons {text name value l : Bytes} (h : ParameterText text name value)
    (hl : Sequel l) (found : Option Bytes) :
    scanParameters found (byte ';' :: (text ++ l)) =
      (record found name value).bind fun found => scanParameters found l := by
  have hscan := scanParameter_append h hl
  rw [scanParameters]
  simp only [ne_eq, not_true_eq_false, if_false]
  split
  · rename_i hnone
    rw [hnone] at hscan
    cases hscan
  · rename_i name' value' rest' hsome
    rw [hsome] at hscan
    obtain ⟨rfl, heq⟩ := Prod.mk.inj (Option.some.inj hscan)
    obtain ⟨rfl, rfl⟩ := Prod.mk.inj heq
    rfl

/-- Well-formed parameters are recorded one after the other. -/
theorem scanParameters_eq {l : Bytes} {parameters : List (Bytes × Bytes)}
    (h : ParametersText l parameters) (found : Option Bytes) :
    scanParameters found l = (parameters.foldlM (fun f p => record f p.1 p.2) found).join := by
  induction h generalizing found with
  | nil =>
    rw [scanParameters]
    rfl
  | cons h hs ih =>
    rw [scanParameters_cons h hs.sequel, List.foldlM_cons]
    cases record found _ _ with
    | none => rfl
    | some found' => exact ih found'

theorem parametersText_of_scanParameters {found : Option Bytes} {l boundary : Bytes}
    (h : scanParameters found l = some boundary) : ∃ parameters, ParametersText l parameters := by
  fun_induction scanParameters found l with
  | case1 => exact ⟨[], .nil⟩
  | case2 => cases h
  | case3 => cases h
  | case4 found c l hc name value rest hscan hlt ih =>
    obtain ⟨found', -, hrest⟩ := Option.bind_eq_some_iff.1 h
    obtain ⟨parameters, hparameters⟩ := ih found' hrest
    obtain ⟨text, htext, rfl, -⟩ := parameterText_of_scanParameter hscan
    rw [not_not.1 hc]
    exact ⟨_, .cons htext hparameters⟩

/-- Only the parameters with the name of the boundary matter. -/
theorem foldlM_record_filter (parameters : List (Bytes × Bytes)) (found : Option Bytes) :
    parameters.foldlM (fun f p => record f p.1 p.2) found =
      (parameters.filter fun p => p.1 = kBoundary).foldlM (fun f p => record f p.1 p.2) found := by
  induction parameters generalizing found with
  | nil => rfl
  | cons p parameters ih =>
    by_cases hp : p.1 = kBoundary
    · rw [List.filter_cons_of_pos (by simpa using hp), List.foldlM_cons, List.foldlM_cons]
      cases record found p.1 p.2 with
      | none => rfl
      | some found' => exact ih found'
    · rw [List.filter_cons_of_neg (by simpa using hp), List.foldlM_cons, record, if_neg hp]
      exact ih found

theorem foldlM_record_eq_some_iff {parameters : List (Bytes × Bytes)} {boundary : Bytes} :
    (parameters.foldlM (fun f p => record f p.1 p.2) none).join = some boundary ↔
      Chosen parameters boundary := by
  have hnamed : ∀ p ∈ parameters.filter fun p => p.1 = kBoundary, p.1 = kBoundary := by
    intro p hp
    exact of_decide_eq_true (List.mem_filter.1 hp).2
  rw [foldlM_record_filter, Chosen]
  generalize parameters.filter (fun p => p.1 = kBoundary) = named at hnamed
  rcases named with _ | ⟨⟨name, value⟩, _ | ⟨⟨name', value'⟩, named⟩⟩
  · simp
  · obtain rfl : name = kBoundary := hnamed _ List.mem_cons_self
    by_cases hvalid : ValidBoundary value
    · simp [record, hvalid]
      rintro rfl
      exact hvalid
    · simp [record, hvalid]
      rintro rfl
      exact hvalid
  · obtain rfl : name = kBoundary := hnamed _ List.mem_cons_self
    obtain rfl : name' = kBoundary := hnamed _ (List.mem_cons_of_mem _ List.mem_cons_self)
    by_cases hvalid : ValidBoundary value
    · simp [record, hvalid]
    · simp [record, hvalid]

/-! ### The media type -/

theorem toLower_cases (c : UInt8) :
    (isBlank (toLower c) = true → isBlank c = true) ∧ (isBlank c = true → toLower c = c) ∧
      (toLower c = byte ';' ↔ c = byte ';') := by
  have hall : ∀ n : Fin 256, (isBlank (toLower (UInt8.ofNat n)) = true →
      isBlank (UInt8.ofNat n) = true) ∧ (isBlank (UInt8.ofNat n) = true →
        toLower (UInt8.ofNat n) = UInt8.ofNat n) ∧
      (toLower (UInt8.ofNat n) = byte ';' ↔ UInt8.ofNat n = byte ';') := by decide +kernel
  simpa only [UInt8.ofNat_toNat] using hall ⟨c.toNat, c.toNat_lt⟩

theorem lower_blanks {a : Bytes} (h : Blanks a) : lower a = a :=
  calc lower a = a.map id := List.map_congr_left fun c hc => (toLower_cases c).2.1 (h c hc)
    _ = a := List.map_id a

theorem blanks_of_lower {a : Bytes} (h : Blanks (lower a)) : Blanks a := fun c hc =>
  (toLower_cases c).1 (h _ (List.mem_map_of_mem hc))

theorem Blanks.notMem {a : Bytes} (h : Blanks a) : byte ';' ∉ a := by
  intro hmem
  have hblank := h _ hmem
  revert hblank
  decide

theorem semicolon_mem_lower_iff {l : Bytes} : byte ';' ∈ lower l ↔ byte ';' ∈ l := by
  rw [lower, List.mem_map]
  constructor
  · rintro ⟨c, hc, hlower⟩
    rwa [← (toLower_cases c).2.2.1 hlower]
  · intro h
    exact ⟨_, h, (toLower_cases _).2.2.2 rfl⟩

theorem bne_of_notMem {l : Bytes} (h : byte ';' ∉ l) : ∀ c ∈ l, (c != byte ';') = true := by
  intro c hc
  rw [bne_iff_ne]
  rintro rfl
  exact h hc

/-- Where the media type is `multipart/form-data`, the text is cut before its parameters. -/
theorem ContentType.cut {text : Bytes} {parameters : List (Bytes × Bytes)}
    (h : ContentType text parameters) : mediaType text = kMultipart ∧ byte ';' ∈ text ∧
      ParametersText (text.dropWhile (· != byte ';')) parameters := by
  obtain ⟨a, media, b, l, rfl, ha, hmedia, hb, hne, hl⟩ := h
  have hstops : Stops (· != byte ';') l := hl.sequel.stops (by decide)
  have hnotMem : byte ';' ∉ a ++ (media ++ b) := by
    have hmultipart : byte ';' ∉ kMultipart := by decide
    rw [← hmedia, semicolon_mem_lower_iff] at hmultipart
    simp only [List.mem_append, not_or]
    exact ⟨ha.notMem, hmultipart, hb.notMem⟩
  have hassoc : a ++ (media ++ (b ++ l)) = (a ++ (media ++ b)) ++ l := by
    simp only [List.append_assoc]
  have hlower : lower (a ++ (media ++ b)) = a ++ (kMultipart ++ b) := by
    rw [lower, List.map_append, List.map_append]
    exact congrArg₂ _ (lower_blanks ha) (congrArg₂ _ hmedia (lower_blanks hb))
  have hlowerStops : Stops (· != byte ';') (lower l) := by
    rcases hl.sequel with rfl | hhead
    · intro c hc
      cases hc
    · cases l with
      | nil => cases hhead
      | cons c l =>
        obtain rfl := Option.some.inj hhead
        exact stops_cons (by decide)
  have htake : (lower (a ++ (media ++ b) ++ l)).takeWhile (· != byte ';') =
      a ++ (kMultipart ++ b) := by
    rw [lower, List.map_append]
    refine (takeWhile_append (bne_of_notMem ?_) hlowerStops).trans hlower
    exact fun hmem => hnotMem (semicolon_mem_lower_iff.1 hmem)
  have hvisible : ∀ c ∈ kMultipart, isBlank c = false := List.forall_iff_forall_mem.1 (by decide)
  have hstart : Stops isBlank (kMultipart ++ b) := stops_append (by decide) hvisible
  have hend : Stops isBlank (kMultipart.reverse ++ []) :=
    stops_append (by decide) fun c hc => hvisible c (List.mem_reverse.1 hc)
  rw [List.append_nil] at hend
  rw [hassoc]
  refine ⟨?_, ?_, ?_⟩
  · rw [mediaType, htake, skipBlanks, dropWhile_append ha hstart, List.rdropWhile,
      List.reverse_append, dropWhile_append (fun c hc => hb c (List.mem_reverse.1 hc)) hend,
      List.reverse_reverse]
  · refine List.mem_append_right _ ?_
    cases hl with
    | nil => exact absurd rfl hne
    | cons => exact List.mem_cons_self
  · rw [dropWhile_append (bne_of_notMem hnotMem) hstops]
    exact hl

theorem exists_rdropWhile (l : Bytes) : ∃ b, Blanks b ∧ l = l.rdropWhile isBlank ++ b := by
  obtain ⟨b, hb, hl⟩ := exists_skipBlanks l.reverse
  refine ⟨b.reverse, fun c hc => hb c (List.mem_reverse.1 hc), ?_⟩
  rw [List.rdropWhile, ← List.reverse_append, ← skipBlanks, ← hl, List.reverse_reverse]

theorem takeWhile_lower (text : Bytes) :
    (lower text).takeWhile (· != byte ';') = lower (text.takeWhile (· != byte ';')) := by
  have hsame : ((· != byte ';') ∘ toLower) = (· != byte ';') := by
    funext c
    rw [Bool.eq_iff_iff, Function.comp_apply, bne_iff_ne, bne_iff_ne]
    exact not_congr (toLower_cases c).2.2
  rw [lower, List.takeWhile_map, hsame]
  rfl

theorem contentType_of_mediaType {text : Bytes} {parameters : List (Bytes × Bytes)}
    (hmedia : mediaType text = kMultipart) (hmem : byte ';' ∈ text)
    (hl : ParametersText (text.dropWhile (· != byte ';')) parameters) :
    ContentType text parameters := by
  obtain ⟨a, ha, hskip⟩ := exists_skipBlanks (lower (text.takeWhile (· != byte ';')))
  obtain ⟨b, hb, hdrop⟩ :=
    exists_rdropWhile (skipBlanks (lower (text.takeWhile (· != byte ';'))))
  rw [mediaType, takeWhile_lower] at hmedia
  rw [hmedia] at hdrop
  rw [hdrop, lower] at hskip
  obtain ⟨a', rest, htake, rfl, hrest⟩ := List.map_eq_append_iff.1 hskip
  obtain ⟨media, b', rfl, hmedia', rfl⟩ := List.map_eq_append_iff.1 hrest
  refine ⟨a', media, b', text.dropWhile (· != byte ';'), ?_, blanks_of_lower ha, hmedia',
    blanks_of_lower hb, ?_, hl⟩
  · rw [← List.append_assoc, ← List.append_assoc, List.append_assoc a', ← htake,
      List.takeWhile_append_dropWhile]
  · rintro rfl
    generalize hafter : text.dropWhile (· != byte ';') = after at hl
    cases hl
    rw [List.dropWhile_eq_nil_iff] at hafter
    have := hafter _ hmem
    simp at this

/-! ### The boundary of a text -/

/-- A well-formed text has the boundary that is chosen among its parameters. -/
theorem extractBoundary_of_contentType {text : Bytes} {parameters : List (Bytes × Bytes)}
    (h : ContentType text parameters) : extractBoundary text =
      (parameters.foldlM (fun f p => record f p.1 p.2) none).join := by
  obtain ⟨hmedia, hmem, hl⟩ := h.cut
  rw [extractBoundary, if_neg (not_or.2 ⟨not_not.2 hmedia, not_not.2 hmem⟩), scanParameters_eq hl]

/-- **Which texts have a boundary, and which boundary.** -/
theorem extractBoundary_eq_some_iff {text boundary : Bytes} :
    extractBoundary text = some boundary ↔
      ∃ parameters, ContentType text parameters ∧ Chosen parameters boundary := by
  constructor
  · intro h
    have hscan := h
    rw [extractBoundary] at hscan
    split_ifs at hscan with hrefused
    rw [not_or, not_not, not_not] at hrefused
    obtain ⟨parameters, hl⟩ := parametersText_of_scanParameters hscan
    have hcontent := contentType_of_mediaType hrefused.1 hrefused.2 hl
    rw [extractBoundary_of_contentType hcontent] at h
    exact ⟨parameters, hcontent, foldlM_record_eq_some_iff.1 h⟩
  · rintro ⟨parameters, hcontent, hchosen⟩
    rw [extractBoundary_of_contentType hcontent]
    exact foldlM_record_eq_some_iff.2 hchosen

theorem ParametersText.append {l m : Bytes} {parameters others : List (Bytes × Bytes)}
    (h : ParametersText l parameters) (h' : ParametersText m others) :
    ParametersText (l ++ m) (parameters ++ others) := by
  induction h with
  | nil => exact h'
  | cons h hs ih =>
    rw [List.cons_append, List.append_assoc, List.cons_append]
    exact .cons h ih

theorem quotedText_escape {boundary : Bytes} (h : ∀ c ∈ boundary, allowed c = true) :
    QuotedText (boundary.flatMap escape) boundary := by
  induction boundary with
  | nil => exact .nil
  | cons c boundary ih =>
    have hc := h c List.mem_cons_self
    have hrest := ih fun d hd => h d (List.mem_cons_of_mem _ hd)
    rw [List.flatMap_cons, escape]
    by_cases hmark : c = byte '"' ∨ c = byte '\\'
    · rw [if_pos hmark]
      exact .escaped hc hrest
    · rw [if_neg hmark]
      rw [not_or] at hmark
      exact .plain hmark.1 hmark.2 hc hrest

theorem ValidBoundary.allowed {boundary : Bytes} (h : ValidBoundary boundary) :
    ∀ c ∈ boundary, allowed c = true := by
  intro c hc
  obtain ⟨hlow, hhigh⟩ := h.2.2 c hc
  rw [UInt8.le_iff_toNat_le] at hlow
  rw [UInt8.lt_iff_toNat_lt] at hhigh
  have hlow' : ¬c < 32 := by
    rw [UInt8.lt_iff_toNat_lt]
    exact Nat.not_lt.2 hlow
  have hhigh' : c ≠ 127 := by
    rintro rfl
    exact absurd hhigh (by decide)
  simp [Boundary.allowed, hlow', hhigh']

/-- A boundary as a parameter with a quoted value. -/
def boundaryText (boundary : Bytes) : Bytes := bytes "; boundary=" ++ quoted boundary

theorem parametersText_boundaryText {boundary : Bytes} (h : ValidBoundary boundary) :
    ParametersText (boundaryText boundary) [(kBoundary, boundary)] := by
  have htext : ParameterText ([byte ' '] ++ (kBoundary ++ ([] ++ byte '=' ::
      ([] ++ (quoted boundary ++ []))))) (lower kBoundary) boundary := by
    refine .intro ?_ (by decide) ?_ ?_ ?_ (.quoted (quotedText_escape h.allowed)) ?_
    · intro c hc
      rw [List.mem_singleton.1 hc]
      decide
    · exact List.forall_iff_forall_mem.1 (by decide)
    · intro c hc
      cases hc
    · intro c hc
      cases hc
    · intro c hc
      cases hc
  have hcons := ParametersText.cons htext .nil
  rw [show lower kBoundary = kBoundary by decide] at hcons
  have hbytes : bytes "; boundary=" = byte ';' :: byte ' ' :: (kBoundary ++ [byte '=']) := by decide
  rw [boundaryText, hbytes]
  simpa using hcons

/-- **The boundary of a content type.** It is found exactly in the well-formed texts with one valid
boundary; all other parameters have no influence; and a boundary that is rendered as a quoted string,
with any other parameters around it, is read back. -/
theorem extract_boundary :
    (∀ text boundary, extractBoundary text = some boundary ↔
      ∃ parameters, ContentType text parameters ∧ Chosen parameters boundary) ∧
    (∀ text text' parameters parameters', ContentType text parameters →
      ContentType text' parameters' →
      parameters.filter (fun p => p.1 = kBoundary) =
        parameters'.filter (fun p => p.1 = kBoundary) →
      extractBoundary text = extractBoundary text') ∧
    ∀ a media b before after others others' boundary, Blanks a → lower media = kMultipart →
      Blanks b → ParametersText before others → ParametersText after others' →
      (∀ p ∈ others ++ others', p.1 ≠ kBoundary) → ValidBoundary boundary →
      extractBoundary (a ++ (media ++ (b ++ (before ++ (boundaryText boundary ++ after))))) =
        some boundary := by
  refine ⟨fun text boundary => extractBoundary_eq_some_iff,
    fun text text' parameters parameters' h h' hsame => ?_,
    fun a media b before after others others' boundary ha hmedia hb hbefore hafter hothers hvalid => ?_⟩
  · rw [extractBoundary_of_contentType h, extractBoundary_of_contentType h',
      foldlM_record_filter parameters, foldlM_record_filter parameters', hsame]
  · have hparameters :=
      hbefore.append ((parametersText_boundaryText hvalid).append hafter)
    refine extractBoundary_eq_some_iff.2 ⟨_, ⟨a, media, b, _, rfl, ha, hmedia, hb, by simp,
      hparameters⟩, ?_, hvalid⟩
    have hnone : ∀ ps : List (Bytes × Bytes), (∀ p ∈ ps, p ∈ others ++ others') →
        ps.filter (fun p => p.1 = kBoundary) = [] := by
      intro ps hps
      rw [List.filter_eq_nil_iff]
      intro p hp
      simpa using hothers p (hps p hp)
    rw [List.filter_append, List.filter_append,
      hnone others fun p hp => List.mem_append_left _ hp,
      hnone others' fun p hp => List.mem_append_right _ hp]
    simp

end Resonantia.Web.Boundary
