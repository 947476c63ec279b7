import Resonantia.Web.RecordCodec

/-!
# The record of the service and the stored record

`Web.TaskRecord` has the texts of a record as strings and its counters as numbers,
`Web.StoredRecord` has bytes and 64-bit words, as a file may hold any. A record is stored with its
texts in UTF-8; both models check it alike and store it in as many bytes.

## Main definitions

* `Web.utf8`: the bytes of a text.
* `Web.TaskRecord.stored`: the record as the store has it.

## Main results

* `Web.validate_stored`: both records pass the same checks.
* `Web.perm_text_stored`, `Web.encode_stored`: both models store the same records.
-/

namespace Resonantia.Web

open ByteString Std

/-! ### Texts in UTF-8 -/

/-- The bytes of a text. -/
def utf8 (text : String) : Bytes := text.toList.flatMap String.utf8EncodeChar

theorem toByteArray_utf8 (text : String) : (utf8 text).toByteArray = text.toByteArray := by
  rw [utf8, ← List.utf8Encode, String.utf8Encode_toList]

theorem utf8_injective : Function.Injective utf8 := by
  intro s t h
  rw [← String.toByteArray_inj, ← toByteArray_utf8, ← toByteArray_utf8, h]

theorem utf8_append (s t : String) : utf8 (s ++ t) = utf8 s ++ utf8 t := by
  rw [utf8, String.toList_append, List.flatMap_append]
  rfl

theorem utf8_join (texts : List String) : utf8 (String.join texts) = texts.flatMap utf8 := by
  induction texts with
  | nil => rfl
  | cons text texts ih => rw [String.join_cons, utf8_append, ih, List.flatMap_cons]

theorem length_utf8 (text : String) : (utf8 text).length = text.utf8ByteSize := by
  rw [← String.size_toByteArray, ← toByteArray_utf8, List.size_toByteArray]

theorem utf8_eq_nil_iff {text : String} : utf8 text = [] ↔ text = "" :=
  ⟨fun h => utf8_injective (h.trans rfl), fun h => by rw [h]; rfl⟩

/-- A character of one byte, or one whose bytes are all above those. -/
theorem utf8EncodeChar_cases (c : Char) :
    c.toNat < 128 ∧ String.utf8EncodeChar c = [byte c] ∨
      128 ≤ c.toNat ∧ String.utf8EncodeChar c ≠ [] ∧ ∀ b ∈ String.utf8EncodeChar c, 128 ≤ b := by
  have habove : ∀ n m : ℕ, 128 ≤ m → n + m < 256 → 128 ≤ UInt8.ofNat (n + m) := by
    intro n m hm hlt
    rw [UInt8.le_iff_toNat_le, UInt8.toNat_ofNat_of_lt' hlt]
    exact hm.trans (Nat.le_add_left m n)
  have hc : c.val.toNat = c.toNat := rfl
  rw [String.utf8EncodeChar]
  rw [hc]
  split_ifs with h₁ h₂ h₃
  · exact Or.inl ⟨by omega, rfl⟩
  all_goals
    refine Or.inr ⟨by omega, List.cons_ne_nil _ _, ?_⟩
    simp only [List.forall_mem_cons, List.not_mem_nil, false_implies, implies_true, and_true]
  · exact ⟨habove _ 192 (by decide) (by omega), habove _ 128 (by decide) (by omega)⟩
  · exact ⟨habove _ 224 (by decide) (by omega), habove _ 128 (by decide) (by omega),
      habove _ 128 (by decide) (by omega)⟩
  · exact ⟨habove _ 240 (by decide) (by omega), habove _ 128 (by decide) (by omega),
      habove _ 128 (by decide) (by omega), habove _ 128 (by decide) (by omega)⟩

/-- A test of bytes that no byte above ASCII passes is a test of characters. -/
theorem all_utf8 {p : Char → Bool} {q : UInt8 → Bool}
    (hlow : ∀ n < 128, q n.toUInt8 = p (Char.ofNat n))
    (hp : ∀ c : Char, 128 ≤ c.toNat → p c = false)
    (hq : ∀ b : UInt8, 128 ≤ b → q b = false) (text : String) :
    (utf8 text).all q = text.toList.all p := by
  rw [utf8]
  induction text.toList with
  | nil => rfl
  | cons c rest ih =>
    rw [List.flatMap_cons, List.all_append, ih, List.all_cons]
    congr 1
    rcases utf8EncodeChar_cases c with ⟨hc, hbyte⟩ | ⟨hc, hne, habove⟩
    · rw [hbyte, List.all_cons, List.all_nil, Bool.and_true, byte, hlow _ hc, Char.ofNat_toNat]
    · obtain ⟨b, rest, hbytes⟩ := List.exists_cons_of_ne_nil hne
      rw [hp c hc, hbytes, List.all_cons,
        hq b (habove b (hbytes ▸ List.mem_cons_self)), Bool.false_and]

theorem zero_mem_utf8 {text : String} : 0 ∈ utf8 text ↔ '\x00' ∈ text.toList := by
  rw [utf8, List.mem_flatMap]
  constructor
  · rintro ⟨c, hc, hzero⟩
    rcases utf8EncodeChar_cases c with ⟨hlow, hbyte⟩ | ⟨-, -, habove⟩
    · rw [hbyte, List.mem_singleton, byte] at hzero
      have hnat : c.toNat = 0 := by
        have := congrArg UInt8.toNat hzero
        rw [Nat.toUInt8, UInt8.toNat_ofNat_of_lt' (hlow.trans (by decide))] at this
        exact this.symm
      rwa [← Char.ofNat_toNat c, hnat] at hc
    · exact absurd (habove 0 hzero) (by decide)
  · intro hc
    exact ⟨_, hc, by decide⟩

/-! ### Parameters -/

/-- The entries as the store has them. -/
def storedEntries (parameters : Parameters) : List (Bytes × Bytes) :=
  parameters.toList.map fun entry => (utf8 entry.1, utf8 entry.2)

def storedParameters (parameters : Parameters) : ExtTreeMap Bytes Bytes :=
  (∅ : ExtTreeMap Bytes Bytes).insertMany (storedEntries parameters)

variable {parameters : Parameters}

theorem distinct_storedEntries :
    (storedEntries parameters).Pairwise fun a b => ¬compare a.1 b.1 = .eq := by
  refine List.pairwise_map.2 ((ExtTreeMap.distinct_keys_toList (t := parameters)).imp ?_)
  intro a b hne heq
  refine hne ?_
  rw [Std.compare_eq_iff_eq] at heq ⊢
  exact utf8_injective heq

theorem mem_storedEntries {entry : Bytes × Bytes} :
    entry ∈ storedEntries parameters ↔
      ∃ key value, parameters[key]? = some value ∧ entry = (utf8 key, utf8 value) := by
  rw [storedEntries, List.mem_map]
  constructor
  · rintro ⟨⟨key, value⟩, hmem, rfl⟩
    exact ⟨key, value, ExtTreeMap.mem_toList_iff_getElem?_eq_some.1 hmem, rfl⟩
  · rintro ⟨key, value, hget, rfl⟩
    exact ⟨(key, value), ExtTreeMap.mem_toList_iff_getElem?_eq_some.2 hget, rfl⟩

theorem size_storedParameters : (storedParameters parameters).size = parameters.size := by
  rw [storedParameters, ExtTreeMap.size_insertMany_list distinct_storedEntries]
  · rw [ExtTreeMap.size_empty, Nat.zero_add, storedEntries, List.length_map,
      ExtTreeMap.length_toList]
  · intro a ha
    exact absurd ha ExtTreeMap.not_mem_empty

/-- What the store finds under some bytes. -/
theorem getElem?_storedParameters {key value : Bytes} :
    (storedParameters parameters)[key]? = some value ↔
      ∃ key' value', parameters[key']? = some value' ∧ key = utf8 key' ∧ value = utf8 value' := by
  constructor
  · intro h
    by_cases hcontains : ((storedEntries parameters).map Prod.fst).contains key = true
    · obtain ⟨entry, hentry, rfl⟩ := List.mem_map.1 (List.contains_iff_mem.1 hcontains)
      have hget := ExtTreeMap.getElem?_insertMany_list_of_mem (t := (∅ : ExtTreeMap Bytes Bytes))
        Std.ReflCmp.compare_self distinct_storedEntries hentry
      obtain ⟨key', value', hparameter, rfl⟩ := mem_storedEntries.1 hentry
      exact ⟨key', value', hparameter, rfl, Option.some.inj (h.symm.trans hget)⟩
    · rw [storedParameters, ExtTreeMap.getElem?_insertMany_list_of_contains_eq_false
        (by simpa using hcontains), ExtTreeMap.getElem?_empty] at h
      cases h
  · rintro ⟨key', value', hparameter, rfl, rfl⟩
    exact ExtTreeMap.getElem?_insertMany_list_of_mem Std.ReflCmp.compare_self
      distinct_storedEntries (mem_storedEntries.2 ⟨key', value', hparameter, rfl⟩)

/-! ### Checks -/

theorem not_le_of_above {c d : Char} (hc : 128 ≤ c.toNat) (hd : d.toNat < 128) : ¬c ≤ d := by
  intro h
  have hle : c.toNat ≤ d.toNat := UInt32.le_iff_toNat_le.1 (Char.le_def.1 h)
  omega

theorem not_le_of_high {b d : UInt8} (hb : 128 ≤ b) (hd : d.toNat < 128) : ¬b ≤ d := by
  intro h
  have hle : 128 ≤ b.toNat := UInt8.le_iff_toNat_le.1 hb
  have hle' := UInt8.le_iff_toNat_le.1 h
  omega

theorem validId_utf8 (id : String) : StoredRecord.validId (utf8 id) = validId id := by
  rw [StoredRecord.validId, validId, length_utf8, all_utf8 (p := isIdChar)]
  · decide
  · intro c hc
    have hne : ∀ d : Char, d.toNat < 128 → c ≠ d := by
      rintro d hd rfl
      omega
    simp [isIdChar, not_le_of_above hc, hne]
  · intro b hb
    have hne : ∀ d : UInt8, d.toNat < 128 → b ≠ d := by
      rintro d hd rfl
      exact not_le_of_high hb hd (UInt8.le_refl b)
    simp [not_le_of_high hb, hne]

theorem digestText_utf8 (text : String) :
    StoredRecord.digestText (utf8 text) = true ↔ DigestText text := by
  rw [StoredRecord.digestText, DigestText, length_utf8, all_utf8 (p := isHexChar),
    Bool.and_eq_true, decide_eq_true_eq]
  · decide
  · intro c hc
    simp [isHexChar, not_le_of_above hc]
  · intro b hb
    simp [not_le_of_high hb]

theorem boundedText_utf8 {limit : ℕ} {text : String} :
    StoredRecord.boundedText limit (utf8 text) = true ↔ BoundedText limit text := by
  rw [StoredRecord.boundedText, BoundedText, length_utf8, Bool.and_eq_true, decide_eq_true_eq,
    Bool.not_eq_true', ← Bool.not_eq_true, List.contains_iff_mem, zero_mem_utf8]

theorem utf8_eq_bytes_iff {text literal : String} (h : utf8 literal = bytes literal) :
    utf8 text = bytes literal ↔ text = literal := by
  rw [← h]
  exact utf8_injective.eq_iff

theorem audioKinds_utf8 (kind : TaskKind) :
    StoredRecord.audioKinds.contains (utf8 kind.text) = true ↔ kind.Audio := by
  cases kind <;> decide

theorem succeeded_utf8 (state : TaskState) :
    utf8 state.text = bytes "succeeded" ↔ state = .succeeded := by
  cases state <;> decide

/-! ### Records -/

/-- The record as the store has it. -/
def TaskRecord.stored (r : TaskRecord) : StoredRecord where
  id := utf8 r.id
  kind := utf8 r.kind.text
  name := utf8 r.name
  state := utf8 r.state.text
  stage := utf8 r.stage
  error := utf8 r.error
  unit := utf8 r.unit
  result := utf8 r.result
  phase := utf8 r.phase
  revision := UInt64.ofNat r.revision
  attempt := UInt64.ofNat r.attempt
  createdMs := UInt64.ofNat r.createdMs
  updatedMs := UInt64.ofNat r.updatedMs
  startedMs := UInt64.ofNat r.startedMs
  finishedMs := UInt64.ofNat r.finishedMs
  progressAtMs := UInt64.ofNat r.progressAtMs
  completed := UInt64.ofNat r.completed
  total := UInt64.ofNat r.total
  parameters := storedParameters r.parameters

/-- A check of one parameter. -/
theorem requireParameter_stored {r : TaskRecord} {literal : String} {ok : Bytes → Bool}
    {good : String → Prop} {message : String} (h : utf8 literal = bytes literal)
    (hgood : ∀ value, ok (utf8 value) = true ↔ good value) :
    StoredRecord.requireParameter r.stored (bytes literal) ok message = .ok () ↔
      ∀ value, r.parameters[literal]? = some value → good value := by
  rw [StoredRecord.requireParameter_eq_ok]
  constructor
  · intro hok value hget
    exact (hgood value).1 (hok _ (getElem?_storedParameters.2 ⟨literal, value, hget, h.symm, rfl⟩))
  · intro hall value hget
    obtain ⟨key', value', hget', hkey, rfl⟩ := getElem?_storedParameters.1 hget
    obtain rfl := (utf8_eq_bytes_iff h).1 hkey.symm
    exact (hgood value').2 (hall value' hget')

theorem toNat_counter {n : ℕ} (h : n < 2 ^ 64) : (UInt64.ofNat n).toNat = n :=
  UInt64.toNat_ofNat_of_lt' h

section

variable {r : TaskRecord}

theorem requireRetention_stored :
    StoredRecord.requireParameter r.stored (bytes "retention")
        (fun value => value = bytes "pruned-v1" && r.stored.state = bytes "succeeded")
        "invalid task retention state" = .ok () ↔
      ∀ value, r.parameters["retention"]? = some value →
        value = "pruned-v1" ∧ r.state = .succeeded := by
  refine requireParameter_stored (by decide) fun value => ?_
  rw [Bool.and_eq_true, decide_eq_true_eq, decide_eq_true_eq, utf8_eq_bytes_iff (by decide)]
  exact and_congr_right' (succeeded_utf8 r.state)

theorem requireDigest_stored :
    StoredRecord.requireParameter r.stored (bytes "result_sha256")
        (fun value => StoredRecord.audioKinds.contains r.stored.kind &&
          r.stored.state = bytes "succeeded" && StoredRecord.digestText value)
        "invalid completed audio digest" = .ok () ↔
      ∀ value, r.parameters["result_sha256"]? = some value →
        r.kind.Audio ∧ r.state = .succeeded ∧ DigestText value := by
  refine requireParameter_stored (by decide) fun value => ?_
  rw [Bool.and_eq_true, Bool.and_eq_true, decide_eq_true_eq, digestText_utf8, and_assoc]
  exact and_congr (audioKinds_utf8 r.kind) (and_congr_left' (succeeded_utf8 r.state))

theorem requireSource_stored :
    StoredRecord.requireParameter r.stored (bytes "source_task")
        (fun value => StoredRecord.validId value && value ≠ r.stored.id &&
          StoredRecord.audioKinds.contains r.stored.kind) "invalid source task" = .ok () ↔
      ∀ value, r.parameters["source_task"]? = some value →
        validId value = true ∧ value ≠ r.id ∧ r.kind.Audio := by
  refine requireParameter_stored (by decide) fun value => ?_
  rw [Bool.and_eq_true, Bool.and_eq_true, decide_eq_true_eq, validId_utf8, and_assoc]
  exact and_congr_right' (and_congr utf8_injective.ne_iff (audioKinds_utf8 r.kind))

theorem forall_storedParameters :
    (∀ entry ∈ r.stored.parameters.toList, entry.1 ≠ [] ∧
        StoredRecord.boundedText 64 entry.1 = true ∧
        StoredRecord.boundedText 4096 entry.2 = true) ↔
      ∀ key value, r.parameters[key]? = some value →
        key ≠ "" ∧ BoundedText 64 key ∧ BoundedText 4096 value := by
  constructor
  · intro h key value hget
    have hentry := h (utf8 key, utf8 value) (ExtTreeMap.mem_toList_iff_getElem?_eq_some.2
      (getElem?_storedParameters.2 ⟨key, value, hget, rfl, rfl⟩))
    exact ⟨fun heq => hentry.1 (utf8_eq_nil_iff.2 heq), boundedText_utf8.1 hentry.2.1,
      boundedText_utf8.1 hentry.2.2⟩
  · rintro h ⟨key, value⟩ hentry
    obtain ⟨key', value', hget, rfl, rfl⟩ :=
      getElem?_storedParameters.1 (ExtTreeMap.mem_toList_iff_getElem?_eq_some.1 hentry)
    obtain ⟨hne, hkey, hvalue⟩ := h key' value' hget
    exact ⟨fun heq => hne (utf8_eq_nil_iff.1 heq), boundedText_utf8.2 hkey,
      boundedText_utf8.2 hvalue⟩

/-- **Both records pass the same checks**, where the counters fit in 64 bits. -/
theorem validate_stored (h : ∀ n ∈ r.counters, n < 2 ^ 64) :
    r.stored.validate = .ok () ↔ validate r = .ok () := by
  have hattempt : (UInt64.ofNat r.attempt).toNat = r.attempt :=
    toNat_counter (h r.attempt (by simp [TaskRecord.counters]))
  have hcompleted : (UInt64.ofNat r.completed).toNat = r.completed :=
    toNat_counter (h r.completed (by simp [TaskRecord.counters]))
  have htotal : (UInt64.ofNat r.total).toNat = r.total :=
    toNat_counter (h r.total (by simp [TaskRecord.counters]))
  have hkind : r.stored.kind ∈ StoredRecord.kinds := by
    change utf8 r.kind.text ∈ _
    cases r.kind <;> decide
  have hstate : r.stored.state ∈ StoredRecord.states := by
    change utf8 r.state.text ∈ _
    cases r.state <;> decide
  have hbounds : r.stored.attempt > 0 ∧ r.stored.attempt ≤ 2147483647 ↔
      0 < r.attempt ∧ r.attempt ≤ 2147483647 := by
    change 0 < UInt64.ofNat r.attempt ∧ UInt64.ofNat r.attempt ≤ 2147483647 ↔ _
    rw [UInt64.lt_iff_toNat_lt, UInt64.le_iff_toNat_le, hattempt]
    rfl
  have hprogress : r.stored.total = 0 ∨ r.stored.completed ≤ r.stored.total ↔
      r.total = 0 ∨ r.completed ≤ r.total := by
    change UInt64.ofNat r.total = 0 ∨ UInt64.ofNat r.completed ≤ UInt64.ofNat r.total ↔ _
    rw [UInt64.le_iff_toNat_le, ← UInt64.toNat_inj, hcompleted, htotal]
    rfl
  have hresult : r.stored.result = [] ∨ r.stored.result = bytes "work/result.wav" ↔
      r.result = "" ∨ r.result = "work/result.wav" :=
    or_congr utf8_eq_nil_iff (utf8_eq_bytes_iff (by decide))
  have htexts : (∀ value ∈ [r.stored.name, r.stored.stage, r.stored.error, r.stored.unit,
        r.stored.result, r.stored.phase], StoredRecord.boundedText 4096 value = true) ↔
      ∀ value ∈ r.texts, BoundedText 4096 value := by
    change (∀ value ∈ r.texts.map utf8, _) ↔ _
    rw [List.forall_mem_map]
    exact forall₂_congr fun value _ => boundedText_utf8
  have hsize : r.stored.parameters.size = r.parameters.size := size_storedParameters
  rw [validate_eq_ok_iff, StoredRecord.validate]
  simp only [bind_eq_ok_iff, require_eq_ok, requireAll_eq_ok]
  constructor
  · rintro ⟨hid, hbound, -, -, htext, hpath, hstep, hcount, hret, hdig, hsrc, hpar⟩
    exact ⟨validId_utf8 r.id ▸ hid, hbounds.1 hbound, htexts.1 htext, hresult.1 hpath,
      hprogress.1 hstep, hsize ▸ hcount, requireRetention_stored.1 hret,
      requireDigest_stored.1 hdig, requireSource_stored.1 hsrc, forall_storedParameters.1 hpar⟩
  · intro hvalid
    exact ⟨(validId_utf8 r.id).trans hvalid.id, hbounds.2 hvalid.attempt, hkind, hstate,
      htexts.2 hvalid.texts, hresult.2 hvalid.result, hprogress.2 hvalid.progress,
      hsize.trans_le hvalid.size, requireRetention_stored.2 hvalid.retention,
      requireDigest_stored.2 hvalid.digest, requireSource_stored.2 hvalid.source,
      forall_storedParameters.2 hvalid.parameters⟩

/-! ### Stored texts -/

/-- A character that is not escaped has no byte that is. -/
theorem escape_utf8EncodeChar {c : Char} (h : ¬(c = '"' ∨ c = '\\')) :
    (String.utf8EncodeChar c).flatMap InputStream.escape = String.utf8EncodeChar c := by
  have hplain : ∀ b ∈ String.utf8EncodeChar c, InputStream.escape b = [b] := by
    intro b hb
    refine if_neg ?_
    rcases utf8EncodeChar_cases c with ⟨hlow, hbyte⟩ | ⟨-, -, habove⟩
    · rw [hbyte, List.mem_singleton] at hb
      have hnat : b.toNat = c.toNat := by
        rw [hb, byte, Nat.toUInt8, UInt8.toNat_ofNat_of_lt' (hlow.trans (by decide))]
      rintro (rfl | rfl)
      · exact h (Or.inl (by rw [← Char.ofNat_toNat c, ← hnat]; rfl))
      · exact h (Or.inr (by rw [← Char.ofNat_toNat c, ← hnat]; rfl))
    · rintro (rfl | rfl)
      · exact absurd (habove _ hb) (by decide)
      · exact absurd (habove _ hb) (by decide)
  rw [List.flatMap_congr hplain, List.flatMap_singleton']

theorem utf8_quoted (text : String) : utf8 (quoted text) = InputStream.quoted (utf8 text) := by
  have hbody : ∀ l : List Char,
      (l.flatMap fun c => if c = '"' ∨ c = '\\' then ['\\', c] else [c]).flatMap
          String.utf8EncodeChar =
        (l.flatMap String.utf8EncodeChar).flatMap InputStream.escape := by
    intro l
    rw [List.flatMap_assoc, List.flatMap_assoc]
    refine List.flatMap_congr fun c _ => ?_
    split_ifs with hc
    · rcases hc with rfl | rfl <;> decide
    · rw [escape_utf8EncodeChar hc, List.flatMap_singleton]
  rw [quoted, utf8_append, utf8_append, InputStream.quoted, List.append_assoc,
    ← List.singleton_append]
  refine congrArg₂ (· ++ ·) (by decide) (congrArg₂ (· ++ ·) ?_ (by decide))
  rw [utf8, String.toList_ofList, hbody]
  rfl

theorem utf8_toString (n : ℕ) : utf8 (toString n) = Json.decimalText n := by
  have hdigit : ∀ c ∈ Nat.toDigits 10 n, String.utf8EncodeChar c = [byte c] := by
    intro c hc
    have hhigh : c.toNat ≤ 57 := (Char.isDigit_iff_toNat.1
      (Nat.isDigit_of_mem_toDigits (by decide) (by decide) hc)).2
    rcases utf8EncodeChar_cases c with ⟨-, hbyte⟩ | ⟨habove, -⟩
    · exact hbyte
    · omega
  change utf8 (String.ofList (Nat.toDigits 10 n)) = _
  rw [utf8, String.toList_ofList, List.flatMap_congr hdigit, Json.decimalText]
  exact List.flatMap_pure_eq_map byte _

theorem utf8_intercalate (texts : List String) :
    utf8 (" ".intercalate texts) = List.intercalate [32] (texts.map utf8) := by
  induction texts with
  | nil => rfl
  | cons text texts ih =>
    cases texts with
    | nil => rw [String.intercalate_singleton, List.map_cons, List.map_nil,
        List.intercalate_singleton]
    | cons next texts =>
      simp only [List.map_cons] at ih ⊢
      rw [String.intercalate_cons_cons, utf8_append, utf8_append, ih, List.intercalate_cons_cons]
      rfl

theorem perm_storedParameters :
    (storedParameters parameters).toList.Perm (storedEntries parameters) := by
  refine (List.perm_ext_iff_of_nodup ?_ ?_).2 fun entry => ?_
  · exact (ExtTreeMap.distinct_keys_toList (t := storedParameters parameters)).imp
      fun hne heq => hne (by rw [heq]; exact Std.ReflCmp.compare_self)
  · exact (@distinct_storedEntries parameters).imp
      fun hne heq => hne (by rw [heq]; exact Std.ReflCmp.compare_self)
  · rw [mem_storedEntries, ExtTreeMap.mem_toList_iff_getElem?_eq_some, getElem?_storedParameters]
    simp only [Prod.ext_iff]

theorem counterText_stored (h : ∀ n ∈ r.counters, n < 2 ^ 64) :
    r.stored.counters.map StoredRecord.counterText = (r.counters.map toString).map utf8 := by
  change (r.counters.map UInt64.ofNat).map StoredRecord.counterText = _
  rw [List.map_map, List.map_map]
  refine List.map_congr_left fun n hn => ?_
  rw [Function.comp_apply, StoredRecord.counterText, toNat_counter (h n hn), Function.comp_apply,
    utf8_toString]

/-- The stored text in UTF-8, up to the order of the parameters. -/
theorem perm_text_stored (h : ∀ n ∈ r.counters, n < 2 ^ 64) :
    (utf8 r.text).Perm r.stored.text := by
  have hfeed : utf8 "\n" = [10] := by decide
  have hspace : utf8 " " = [32] := by decide
  have hheader : utf8 "RESONANTIA_TASK 2\n" = bytes "RESONANTIA_TASK 2\n" := by decide
  have hlines : utf8 (String.join (r.lines.map fun line => quoted line ++ "\n")) =
      r.stored.texts.flatMap fun value => InputStream.quoted value ++ [10] := by
    have htexts : r.stored.texts = r.lines.map utf8 := rfl
    rw [htexts, utf8_join, List.flatMap_map, List.flatMap_map]
    simp only [utf8_append, utf8_quoted, hfeed]
  have hparameters : utf8 (String.join (r.parameters.toList.map fun entry =>
      quoted entry.1 ++ " " ++ quoted entry.2 ++ "\n")) =
      (storedEntries r.parameters).flatMap fun entry =>
        InputStream.quoted entry.1 ++ [32] ++ InputStream.quoted entry.2 ++ [10] := by
    rw [utf8_join, List.flatMap_map, storedEntries, List.flatMap_map]
    simp only [utf8_append, utf8_quoted, hfeed, hspace]
  have hsize : r.stored.parameters.size = r.parameters.size := size_storedParameters
  -- The parameters come last, so that all in front of them is the same.
  unfold TaskRecord.text
  rewrite [StoredRecord.text, utf8_append, utf8_append, utf8_append, utf8_append, utf8_append,
    utf8_append, hheader, hlines, utf8_intercalate, ← counterText_stored h, hfeed, hparameters,
    utf8_toString r.parameters.size, hsize]
  exact (perm_storedParameters.symm.flatMap_right _).append_left _

/-- **Both models store the same records**, in as many bytes. -/
theorem encode_stored (h : ∀ n ∈ r.counters, n < 2 ^ 64) :
    (∃ text, r.stored.encode = .ok text) ↔ ∃ text, encode r = .ok text := by
  have hlength : r.stored.text.length = r.text.utf8ByteSize := by
    rw [← (perm_text_stored h).length_eq, length_utf8]
  have hencode : ∀ text, encode r = .ok text ↔
      validate r = .ok () ∧ r.text.utf8ByteSize ≤ maxRecordBytes ∧ r.text = text := fun text => by
    simp only [encode, bind_eq_ok_iff, require_eq_ok, pure, Except.pure, Except.ok.injEq]
  simp only [StoredRecord.encode_eq_ok, hencode, validate_stored h, hlength]
  constructor
  · rintro ⟨-, hvalid, hfits, -⟩
    exact ⟨_, hvalid, hfits, rfl⟩
  · rintro ⟨-, hvalid, hfits, -⟩
    exact ⟨_, hvalid, hfits, rfl⟩

end

end Resonantia.Web
