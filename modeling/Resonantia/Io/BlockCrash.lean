import Resonantia.Io.BlockSession

/-!
# Crash safety of block checkpoints

Sequences of calls on an empty directory, where every call may fail or be the last thing that its
process does. Opening the directory again with its identity and limits succeeds and finds exactly
the published blocks.

## Main definitions

* `Io.BlockFiles.lastLimits`: the limits of the last opening.
* `Io.BlockFiles.Invariant`: what a sequence of calls keeps.
* `Io.BlockFiles.CrashSafe`: crash safety.

## Main results

* `Io.BlockFiles.Invariant.step`: one call keeps the invariant and every published block.
* `Io.BlockFiles.crashSafe_of_run`: every sequence of calls is safe.
-/

namespace Resonantia.Io.BlockFiles

open ByteString Effect FileSystem FloatWord

/-- The limits of the last call that opened the directory. -/
def lastLimits : List (Call × Reply) → Option Limits
  | [] => none
  | (.openDirectory _ _ limits, .opened) :: _ => some limits
  | _ :: history => lastLimits history

/-- What a history says about the catalog. -/
structure Recorded (history : List (Call × Reply)) (renamed : List FileName)
    (catalog : Catalog) : Prop where
  opened : ∃ mode limits reply, (Call.openDirectory mode catalog.identity limits, reply) ∈ history
  saved : ∀ key offset data, (Call.save key offset data, Reply.saved) ∈ history →
    ∃ b, catalog.block? key = some b ∧ b.offset = offset ∧ b.data = data
  origin : ∀ b ∈ catalog.blocks, ∃ reply, (Call.save b.key b.offset b.data, reply) ∈ history
  renamed : ∀ b ∈ catalog.blocks, blockName b.key ∈ renamed
  within : ∀ limits, lastLimits history = some limits → catalog.Within limits
  blocks_eq_nil : lastLimits history = none → catalog.blocks = []

/-- What holds of an open session. -/
structure Session (sha : Checksum) (history : List (Call × Reply)) (catalog : Catalog)
    (files : Files) (c : Impl) : Prop where
  identity : c.identity = catalog.identity
  limits : lastLimits history = some c.limits
  validLimits : validLimits c.limits = true
  healthy : c.healthy = true → files.Perm (catalog.files sha) ∧ c.bytes = catalog.bytes ∧
    c.blocks = catalog.blocks.length

/-- What a sequence of calls keeps. -/
inductive Invariant (sha : Checksum) (history : List (Call × Reply)) :
    Option Catalog → System → Prop
  | fresh {files : Files} (hfiles : Directory sha none files)
    (hsaved : ∀ key offset data, (Call.save key offset data, Reply.saved) ∉ history)
    (hlimits : lastLimits history = none) : Invariant sha history none ⟨files, [], none⟩
  | known {catalog : Catalog} {s : System} (hfiles : Directory sha (some catalog) s.files)
    (hrecorded : Recorded history s.renamed catalog)
    (hsession : ∀ c, s.session = some c → Session sha history catalog s.files c) :
    Invariant sha history (some catalog) s

/-- The identity and every block stay as they are. -/
def Grows (catalog? catalog?' : Option Catalog) : Prop :=
  ∀ catalog, catalog? = some catalog → ∃ catalog', catalog?' = some catalog' ∧
    catalog'.identity = catalog.identity ∧
      ∀ key b, catalog.block? key = some b → catalog'.block? key = some b

theorem Grows.refl (catalog? : Option Catalog) : Grows catalog? catalog? :=
  fun catalog h => ⟨catalog, h, rfl, fun _ _ hb => hb⟩

theorem Catalog.block?_add {catalog : Catalog} {b : Published}
    (h : catalog.block? b.key = none) (key : Bytes) :
    (catalog.add b h).block? key =
      if b.key = key then some b else catalog.block? key := by
  rw [block?, add, List.find?_append, ← block?]
  by_cases hkey : b.key = key
  · rw [if_pos hkey, ← hkey, h, Option.none_or]
    simp
  · rw [if_neg hkey, List.find?_cons_of_neg (by simpa using hkey), List.find?_nil, Option.or_none]

theorem Grows.add {catalog : Catalog} {b : Published} (h : catalog.block? b.key = none) :
    Grows (some catalog) (some (catalog.add b h)) := by
  intro _ heq
  obtain rfl := Option.some.inj heq
  refine ⟨_, rfl, rfl, fun key b' hb' => ?_⟩
  rw [Catalog.block?_add, if_neg, hb']
  rintro rfl
  rw [h] at hb'
  cases hb'

/-! ### Histories -/

section History

variable {history : List (Call × Reply)} {renamed : List FileName} {catalog : Catalog}
  {entry : Call × Reply}

/-- An entry of the history that opened the directory, or any other one. -/
theorem lastLimits_cons (entry : Call × Reply) (history : List (Call × Reply)) :
    (∃ mode identity limits, entry = (.openDirectory mode identity limits, .opened) ∧
        lastLimits (entry :: history) = some limits) ∨
      ((∀ mode identity limits, entry ≠ (.openDirectory mode identity limits, .opened)) ∧
        lastLimits (entry :: history) = lastLimits history) := by
  obtain ⟨call, reply⟩ := entry
  cases call with
  | openDirectory mode identity limits =>
    cases reply with
    | opened => exact Or.inl ⟨mode, identity, limits, rfl, rfl⟩
    | loaded data => exact Or.inr ⟨fun _ _ _ h => (nomatch (Prod.mk.inj h).2), rfl⟩
    | saved => exact Or.inr ⟨fun _ _ _ h => (nomatch (Prod.mk.inj h).2), rfl⟩
    | closed => exact Or.inr ⟨fun _ _ _ h => (nomatch (Prod.mk.inj h).2), rfl⟩
    | stopped stop => exact Or.inr ⟨fun _ _ _ h => (nomatch (Prod.mk.inj h).2), rfl⟩
  | load key offset count => exact Or.inr ⟨fun _ _ _ h => (nomatch (Prod.mk.inj h).1), rfl⟩
  | save key offset data => exact Or.inr ⟨fun _ _ _ h => (nomatch (Prod.mk.inj h).1), rfl⟩
  | close => exact Or.inr ⟨fun _ _ _ h => (nomatch (Prod.mk.inj h).1), rfl⟩

/-- One more entry that says what the catalog already has. -/
theorem Recorded.cons (h : Recorded history renamed catalog)
    (hsaved : ∀ key offset data, entry = (.save key offset data, .saved) →
      ∃ b, catalog.block? key = some b ∧ b.offset = offset ∧ b.data = data)
    (hopened : ∀ mode identity limits, entry = (.openDirectory mode identity limits, .opened) →
      catalog.Within limits) : Recorded (entry :: history) renamed catalog where
  opened := by
    obtain ⟨mode, limits, reply, hmem⟩ := h.opened
    exact ⟨mode, limits, reply, List.mem_cons_of_mem _ hmem⟩
  saved := by
    intro key offset data hmem
    rcases List.mem_cons.1 hmem with heq | hmem
    · exact hsaved key offset data heq.symm
    · exact h.saved key offset data hmem
  origin := by
    intro b hb
    obtain ⟨reply, hmem⟩ := h.origin b hb
    exact ⟨reply, List.mem_cons_of_mem _ hmem⟩
  renamed := h.renamed
  within := by
    intro limits hlimits
    rcases lastLimits_cons entry history with ⟨mode, identity, limits', hentry, heq⟩ | ⟨-, heq⟩
    · rw [heq] at hlimits
      exact Option.some.inj hlimits ▸ hopened mode identity limits' hentry
    · exact h.within limits (heq ▸ hlimits)
  blocks_eq_nil := by
    intro hnone
    rcases lastLimits_cons entry history with ⟨_, _, _, -, heq⟩ | ⟨-, heq⟩
    · rw [heq] at hnone
      cases hnone
    · exact h.blocks_eq_nil (heq ▸ hnone)

/-- One more block, with the entry of its save. -/
theorem Recorded.add (h : Recorded history renamed catalog) {b : Published}
    (hb : catalog.block? b.key = none) {limits : Limits} (hlimits : lastLimits history = some limits)
    (hwithin : (catalog.add b hb).Within limits) (reply : Reply) :
    Recorded ((.save b.key b.offset b.data, reply) :: history) (blockName b.key :: renamed)
      (catalog.add b hb) where
  opened := by
    obtain ⟨mode, limits, reply, hmem⟩ := h.opened
    exact ⟨mode, limits, reply, List.mem_cons_of_mem _ hmem⟩
  saved := by
    intro key offset data hmem
    rw [Catalog.block?_add]
    rcases List.mem_cons.1 hmem with heq | hmem
    · obtain ⟨hcall, -⟩ := Prod.mk.inj heq
      obtain ⟨rfl, rfl, rfl⟩ := Call.save.inj hcall
      exact ⟨b, if_pos rfl, rfl, rfl⟩
    · obtain ⟨b', hb', hdata⟩ := h.saved key offset data hmem
      refine ⟨b', ?_, hdata⟩
      rw [if_neg, hb']
      rintro rfl
      rw [hb] at hb'
      cases hb'
  origin := by
    intro b' hb'
    rcases List.mem_append.1 hb' with hmem | hmem
    · obtain ⟨reply', hmem'⟩ := h.origin b' hmem
      exact ⟨reply', List.mem_cons_of_mem _ hmem'⟩
    · obtain rfl := List.mem_singleton.1 hmem
      exact ⟨reply, List.mem_cons_self⟩
  renamed := by
    intro b' hb'
    rcases List.mem_append.1 hb' with hmem | hmem
    · exact List.mem_cons_of_mem _ (h.renamed b' hmem)
    · obtain rfl := List.mem_singleton.1 hmem
      exact List.mem_cons_self
  within := by
    intro limits' hlimits'
    have heq : lastLimits ((.save b.key b.offset b.data, reply) :: history) =
        lastLimits history := rfl
    rw [heq, hlimits] at hlimits'
    exact Option.some.inj hlimits' ▸ hwithin
  blocks_eq_nil := by
    intro hnone
    have heq : lastLimits ((.save b.key b.offset b.data, reply) :: history) =
        lastLimits history := rfl
    rw [heq, hlimits] at hnone
    cases hnone

theorem Recorded.fresh {identity : Bytes} (hvalid : validDigest identity = true)
    (hsaved : ∀ key offset data, (Call.save key offset data, Reply.saved) ∉ history)
    (mode : Mode) (limits : Limits) (reply : Reply) :
    Recorded ((.openDirectory mode identity limits, reply) :: history) [identityName]
      (Catalog.fresh identity hvalid) where
  opened := ⟨mode, limits, reply, List.mem_cons_self⟩
  saved := by
    intro key offset data hmem
    rcases List.mem_cons.1 hmem with heq | hmem
    · cases (Prod.mk.inj heq).1
    · exact absurd hmem (hsaved key offset data)
  origin := fun _ h => nomatch h
  renamed := fun _ h => nomatch h
  within := fun _ _ => ⟨fun _ h => (nomatch h), Nat.zero_le _, Nat.zero_le _⟩
  blocks_eq_nil := fun _ => rfl

end History

/-! ### One call -/

section Step

variable {sha : Checksum} {history : List (Call × Reply)} {catalog? : Option Catalog}
  {s : System}

/-- A call that opens nothing and saves nothing, and leaves the directory and the session alone. -/
theorem Invariant.cons {call : Call} {reply : Reply} (h : Invariant sha history catalog? s)
    (hopened : reply ≠ .opened) (hsaved : reply ≠ .saved) :
    Invariant sha ((call, reply) :: history) catalog? s := by
  have hlimits : lastLimits ((call, reply) :: history) = lastLimits history := by
    rcases lastLimits_cons (call, reply) history with ⟨_, _, _, heq, -⟩ | ⟨-, heq⟩
    · exact absurd (Prod.mk.inj heq).2 hopened
    · exact heq
  cases h with
  | fresh hfiles hnone hlast =>
    refine .fresh hfiles (fun key offset data hmem => ?_) (hlimits.trans hlast)
    rcases List.mem_cons.1 hmem with heq | hmem
    · exact hsaved (Prod.mk.inj heq).2.symm
    · exact hnone key offset data hmem
  | known hfiles hrecorded hsession =>
    refine .known hfiles (hrecorded.cons ?_ ?_) fun c hc => ?_
    · exact fun _ _ _ heq => absurd (Prod.mk.inj heq).2 hsaved
    · exact fun _ _ _ heq => absurd (Prod.mk.inj heq).2 hopened
    · obtain ⟨hidentity, hlast, hvalid, hhealthy⟩ := hsession c hc
      exact ⟨hidentity, hlimits.trans hlast, hvalid, hhealthy⟩

theorem Invariant.openDirectory_step (h : Invariant sha history catalog? s)
    (e : FileSystem.Environment) (mode : Mode) (identity : Bytes) (limits : Limits) :
    ∃ catalog?', Grows catalog? catalog?' ∧
      Invariant sha ((.openDirectory mode identity limits,
          (perform sha e (.openDirectory mode identity limits) s).1) :: history)
        catalog?' (perform sha e (.openDirectory mode identity limits) s).2 := by
  obtain ⟨files, ren, session⟩ := s
  cases session with
  | some c => exact ⟨catalog?, .refl _, h.cons (nomatch ·) (nomatch ·)⟩
  | none =>
    rcases hexec : exec (openCheckpoint mode identity limits)
      (System.world ⟨files, ren, none⟩ e ()) with ⟨r, w⟩
    have hstart : At files ren () e (System.world ⟨files, ren, none⟩ e ()) := ⟨rfl, rfl, rfl, rfl⟩
    rw [perform.eq_def]
    dsimp only
    rw [hexec]
    cases h with
    | fresh hfiles hsaved hlimits =>
      rcases triple_elim (openCheckpoint_fresh_spec mode hfiles) hstart hexec with
        ⟨c, rfl, hvalidLimits, rfl, hvalid, hw⟩ | ⟨stop, rfl, -, ⟨files', hfiles', hw⟩ | ⟨hvalid, hw⟩⟩
      · refine ⟨some (Catalog.fresh identity hvalid), fun _ h => (nomatch h), ?_⟩
        dsimp only
        rw [hw.files, hw.renamed]
        refine .known (.settled (List.Perm.refl _)) (.fresh hvalid hsaved mode limits _) ?_
        intro c hc
        obtain rfl := Option.some.inj hc
        exact ⟨rfl, rfl, hvalidLimits, fun _ => ⟨List.Perm.refl _, rfl, rfl⟩⟩
      · refine ⟨none, .refl _, ?_⟩
        dsimp only
        rw [hw.files, hw.renamed]
        exact (Invariant.fresh hfiles' hsaved hlimits).cons (nomatch ·) (nomatch ·)
      · refine ⟨some (Catalog.fresh identity hvalid), fun _ h => (nomatch h), ?_⟩
        dsimp only
        rw [hw.files, hw.renamed]
        exact .known (.settled (List.Perm.refl _)) (.fresh hvalid hsaved mode limits _)
          fun _ hc => nomatch hc
    | @known catalog _ hfiles hrecorded hsession =>
      refine ⟨some catalog, .refl _, ?_⟩
      rcases triple_elim (openCheckpoint_known_spec mode hfiles) hstart hexec with
        ⟨c, rfl, ⟨hidentity, hvalidLimits, hwithin⟩, rfl, files', hperm, hw⟩ |
        ⟨stop, rfl, -, files', hfiles', hw⟩
      · dsimp only
        rw [hw.files, hw.renamed]
        refine .known (.settled hperm) (hrecorded.cons ?_ ?_) ?_
        · exact fun _ _ _ heq => nomatch (Prod.mk.inj heq).1
        · intro _ _ _ heq
          obtain ⟨-, -, rfl⟩ := Call.openDirectory.inj (Prod.mk.inj heq).1
          exact hwithin
        · intro c hc
          obtain rfl := Option.some.inj hc
          exact ⟨hidentity, rfl, hvalidLimits, fun _ => ⟨hperm, rfl, rfl⟩⟩
      · dsimp only
        rw [hw.files, hw.renamed]
        exact (Invariant.known (s := ⟨files', ren, none⟩) hfiles' hrecorded
          fun _ hc => nomatch hc).cons (nomatch ·) (nomatch ·)

/-- A session goes on with another number of restored blocks, or without its health. -/
theorem Session.of_eq {catalog : Catalog} {files : Files} {c c' : Impl}
    (h : Session sha history catalog files c) {entry : Call × Reply}
    (hentry : ∀ mode identity limits, entry ≠ (.openDirectory mode identity limits, .opened))
    (hidentity : c'.identity = c.identity) (hlimits : c'.limits = c.limits)
    (hhealthy : c'.healthy = true → c.healthy = true ∧ c'.bytes = c.bytes ∧
      c'.blocks = c.blocks) : Session sha (entry :: history) catalog files c' := by
  obtain ⟨hid, hlast, hvalid, hcounters⟩ := h
  refine ⟨hidentity.trans hid, ?_, hlimits ▸ hvalid, fun htrue => ?_⟩
  · rcases lastLimits_cons entry history with ⟨_, _, _, heq, -⟩ | ⟨-, heq⟩
    · exact absurd heq (hentry _ _ _)
    · rw [heq, hlast, hlimits]
  · obtain ⟨hold, hbytes, hblocks⟩ := hhealthy htrue
    rw [hbytes, hblocks]
    exact hcounters hold

theorem Invariant.load_step (h : Invariant sha history catalog? s)
    (e : FileSystem.Environment) (key : Bytes) (offset : UInt64) (count : ℕ) :
    Invariant sha ((.load key offset count, (perform sha e (.load key offset count) s).1) :: history)
      catalog? (perform sha e (.load key offset count) s).2 := by
  obtain ⟨files, ren, session⟩ := s
  cases session with
  | none => exact h.cons (nomatch ·) (nomatch ·)
  | some c =>
    cases h with
    | @known catalog _ hfiles hrecorded hsession =>
      have hopen := hsession c rfl
      rcases hexec : exec (load sha key offset count)
        (System.world ⟨files, ren, some c⟩ e c) with ⟨r, w⟩
      have hstart : At files ren c e (System.world ⟨files, ren, some c⟩ e c) :=
        ⟨rfl, rfl, rfl, rfl⟩
      rw [perform.eq_def]
      dsimp only
      rw [hexec]
      rcases triple_elim (load_spec hfiles hopen.identity key offset count) hstart hexec with
        ⟨value, rfl, -, hits, hw⟩ | ⟨stop, rfl, -, hw⟩
      · dsimp only
        rw [hw.files, hw.renamed, hw.memory]
        refine .known hfiles (hrecorded.cons ?_ ?_) fun c' hc' => ?_
        · exact fun _ _ _ heq => nomatch (Prod.mk.inj heq).1
        · exact fun _ _ _ heq => nomatch (Prod.mk.inj heq).1
        · obtain rfl := Option.some.inj hc'
          exact hopen.of_eq (fun _ _ _ heq => nomatch (Prod.mk.inj heq).1) rfl rfl
            fun htrue => ⟨htrue, rfl, rfl⟩
      · dsimp only
        rw [hw.files, hw.renamed, hw.memory]
        refine .known hfiles (hrecorded.cons ?_ ?_) fun c' hc' => ?_
        · exact fun _ _ _ heq => nomatch (Prod.mk.inj heq).1
        · exact fun _ _ _ heq => nomatch (Prod.mk.inj heq).1
        · cases stop with
          | crashed => cases hc'
          | failed message =>
            obtain rfl := Option.some.inj hc'
            exact hopen.of_eq (fun _ _ _ heq => nomatch (Prod.mk.inj heq).1) rfl rfl
              fun htrue => ⟨htrue, rfl, rfl⟩

/-- What a save left that did not return keeps the invariant. -/
theorem Interrupted.invariant {catalog : Catalog} {files : Files} {ren : List FileName} {c : Impl}
    {key : Bytes} {offset : UInt64} {data : List UInt32} {stop : Stop} {w : World Impl}
    (h : Interrupted sha catalog files ren c key offset data stop w)
    (hfiles : Directory sha (some catalog) files) (hrecorded : Recorded history ren catalog)
    (hopen : Session sha history catalog files c) :
    ∃ catalog', Grows (some catalog) (some catalog') ∧
      Invariant sha ((.save key offset data, .stopped stop) :: history) (some catalog')
        ⟨w.files, w.renamed, Stop.session stop w.memory⟩ := by
  have hentry : ∀ mode identity limits,
      ((Call.save key offset data, Reply.stopped stop) : Call × Reply) ≠
        (.openDirectory mode identity limits, .opened) :=
    fun _ _ _ heq => nomatch (Prod.mk.inj heq).1
  have hcons : Recorded ((.save key offset data, .stopped stop) :: history) ren catalog :=
    hrecorded.cons (fun _ _ _ heq => nomatch (Prod.mk.inj heq).2)
      fun _ _ _ heq => nomatch (Prod.mk.inj heq).1
  cases h with
  | same hfiles' hrenamed hmemory =>
    rw [hfiles', hrenamed, hmemory]
    refine ⟨catalog, .refl _, .known hfiles hcons fun c' hc' => ?_⟩
    cases stop with
    | crashed => cases hc'
    | failed message =>
      obtain rfl := Option.some.inj hc'
      exact hopen.of_eq hentry rfl rfl fun htrue => ⟨htrue, rfl, rfl⟩
  | torn hrenamed hfiles' hmemory =>
    rw [hrenamed]
    refine ⟨catalog, .refl _, .known hfiles' hcons fun c' hc' => ?_⟩
    cases stop with
    | crashed => cases hc'
    | failed message =>
      obtain rfl := Option.some.inj hc'
      rw [hmemory (nomatch ·)]
      obtain ⟨hid, hlast, hvalid, -⟩ := hopen
      exact ⟨hid, hlast, hvalid, fun htrue => nomatch htrue⟩
  | added b hb hkey hoffset hdata hwithin hrenamed hfiles' hmemory =>
    subst hkey hoffset hdata
    rw [hrenamed]
    refine ⟨catalog.add b hb, .add hb, .known (.settled hfiles')
      (hrecorded.add hb hopen.limits hwithin _) fun c' hc' => ?_⟩
    cases stop with
    | crashed => cases hc'
    | failed message =>
      obtain rfl := Option.some.inj hc'
      rw [hmemory (nomatch ·)]
      obtain ⟨hid, hlast, hvalid, -⟩ := hopen
      exact ⟨hid, hlast, hvalid, fun htrue => nomatch htrue⟩

theorem Invariant.save_step (h : Invariant sha history catalog? s)
    (e : FileSystem.Environment) (key : Bytes) (offset : UInt64) (data : List UInt32) :
    ∃ catalog?', Grows catalog? catalog?' ∧
      Invariant sha ((.save key offset data, (perform sha e (.save key offset data) s).1) :: history)
        catalog?' (perform sha e (.save key offset data) s).2 := by
  obtain ⟨files, ren, session⟩ := s
  cases session with
  | none => exact ⟨catalog?, .refl _, h.cons (nomatch ·) (nomatch ·)⟩
  | some c =>
    cases h with
    | @known catalog _ hfiles hrecorded hsession =>
      have hopen := hsession c rfl
      rcases hexec : exec (save sha key offset data)
        (System.world ⟨files, ren, some c⟩ e c) with ⟨r, w⟩
      have hstart : At files ren c e (System.world ⟨files, ren, some c⟩ e c) :=
        ⟨rfl, rfl, rfl, rfl⟩
      rw [perform.eq_def]
      dsimp only
      rw [hexec]
      rcases triple_elim (save_spec hfiles hopen.identity hopen.validLimits
          (hrecorded.within c.limits hopen.limits) hopen.healthy key offset data) hstart hexec with
        ⟨_, rfl, ⟨b, hb, hoffset, hdata, hw⟩ |
          ⟨b, hb, rfl, rfl, rfl, hwithin, hfiles', hrenamed, hmemory⟩⟩ | ⟨stop, rfl, hstop⟩
      · refine ⟨some catalog, .refl _, ?_⟩
        dsimp only
        rw [hw.files, hw.renamed, hw.memory]
        refine .known hfiles (hrecorded.cons ?_ ?_) fun c' hc' => ?_
        · intro key' offset' data' heq
          obtain ⟨rfl, rfl, rfl⟩ := Call.save.inj (Prod.mk.inj heq).1
          exact ⟨b, hb, hoffset, hdata⟩
        · exact fun _ _ _ heq => nomatch (Prod.mk.inj heq).1
        · obtain rfl := Option.some.inj hc'
          exact hopen.of_eq (fun _ _ _ heq => nomatch (Prod.mk.inj heq).1) rfl rfl
            fun htrue => ⟨htrue, rfl, rfl⟩
      · refine ⟨some (catalog.add b hb), .add hb, ?_⟩
        dsimp only
        rw [hrenamed, hmemory]
        refine .known (.settled hfiles') (hrecorded.add hb hopen.limits hwithin _) fun c' hc' => ?_
        obtain rfl := Option.some.inj hc'
        obtain ⟨hid, hlast, hvalid, hhealthy⟩ := hopen
        refine ⟨hid, hlast, hvalid, fun htrue => ⟨hfiles', ?_, ?_⟩⟩
        · rw [Catalog.bytes_add, ← (hhealthy htrue).2.1]
        · rw [Catalog.add, List.length_append, ← (hhealthy htrue).2.2]
          rfl
      · obtain ⟨catalog', hgrows, hinvariant⟩ := hstop.invariant hfiles hrecorded hopen
        exact ⟨some catalog', hgrows, hinvariant⟩

/-- **One call.** It keeps the invariant, the identity and every published block. -/
theorem Invariant.step (h : Invariant sha history catalog? s) (e : FileSystem.Environment)
    (call : Call) :
    ∃ catalog?', Grows catalog? catalog?' ∧
      Invariant sha ((call, (perform sha e call s).1) :: history) catalog?'
        (perform sha e call s).2 := by
  cases call with
  | openDirectory mode identity limits => exact h.openDirectory_step e mode identity limits
  | load key offset count => exact ⟨catalog?, .refl _, h.load_step e key offset count⟩
  | save key offset data => exact h.save_step e key offset data
  | close =>
    refine ⟨catalog?, .refl _, ?_⟩
    have hcons := @Invariant.cons _ _ _ _ .close .closed h (nomatch ·) (nomatch ·)
    obtain ⟨files, ren, session⟩ := s
    cases hcons with
    | fresh hfiles hsaved hlimits => exact .fresh hfiles hsaved hlimits
    | known hfiles hrecorded _ => exact .known hfiles hrecorded fun _ hc => nomatch hc

/-- **Sequences of calls.** -/
theorem exists_invariant_of_run (h : Run sha ⟨[], [], none⟩ history s) :
    ∃ catalog?, Invariant sha history catalog? s := by
  induction h with
  | nil => exact ⟨none, .fresh .empty (fun _ _ _ => List.not_mem_nil) rfl⟩
  | cons _ e call ih =>
    obtain ⟨catalog?, hinvariant⟩ := ih
    obtain ⟨catalog?', -, hinvariant'⟩ := hinvariant.step e call
    exact ⟨catalog?', hinvariant'⟩

end Step

/-! ### Crash safety -/

/-- Crash safety of a directory after a history of calls. -/
structure CrashSafe (sha : Checksum) (history : List (Call × Reply)) (s : System) : Prop where
  /-- Resuming succeeds, with the published identity, if any, and the last limits. -/
  resumes : ∀ (e : FileSystem.Environment) (identity : Bytes) (limits : Limits),
    e.Calm → s.session = none → validDigest identity = true → validLimits limits = true →
    (∀ content, find s.files identityName = some content → content = manifest identity) →
    (∀ limits', lastLimits history = some limits' → limits = limits') →
    (perform sha e (.openDirectory .resume identity limits) s).1 = .opened ∧
      ∃ c, (perform sha e (.openDirectory .resume identity limits) s).2.session = some c ∧
        c.healthy = true ∧ c.identity = identity ∧ c.limits = limits
  /-- The published identity is one that the directory was opened with. -/
  identified : ∀ content, find s.files identityName = some content →
    ∃ mode identity limits reply, content = manifest identity ∧
      (Call.openDirectory mode identity limits, reply) ∈ history
  /-- A block whose save returned loads exactly the saved samples. -/
  loads : ∀ key offset data, (Call.save key offset data, Reply.saved) ∈ history →
    ∀ (e : FileSystem.Environment) (c : Impl), s.session = some c → c.healthy = true →
      (∀ value, (perform sha e (.load key offset data.length) s).1 = .loaded value →
        value = some data) ∧
      (e.Calm → (perform sha e (.load key offset data.length) s).1 = .loaded (some data))
  /-- A block that was never published is absent. -/
  absent : ∀ key, blockName key ∉ s.renamed →
    ∀ (e : FileSystem.Environment) (offset : UInt64) (count : ℕ),
      (∀ value, (perform sha e (.load key offset count) s).1 = .loaded value → value = none) ∧
      ∀ c, e.Calm → s.session = some c → c.healthy = true → validKey key = true → 0 < count →
        count ≤ c.limits.blockBytes / 4 →
          (perform sha e (.load key offset count) s).1 = .loaded none
  /-- What is loaded is all that one save was given. -/
  complete : ∀ (e : FileSystem.Environment) (key : Bytes) (offset : UInt64) (count : ℕ)
    (data : List UInt32), (perform sha e (.load key offset count) s).1 = .loaded (some data) →
      data.length = count ∧ ∃ reply, (Call.save key offset data, reply) ∈ history
  /-- No call changes a block. -/
  kept : ∀ (e : FileSystem.Environment) (call : Call) (key content : Bytes),
    find s.files (blockName key) = some content →
      find (perform sha e call s).2.files (blockName key) = some content
  /-- Once anything is published, no other identity opens the directory. -/
  refuses : s.renamed ≠ [] → ∃ identity, find s.files identityName = some (manifest identity) ∧
    ∀ (e : FileSystem.Environment) (mode : Mode) (identity' : Bytes) (limits : Limits),
      identity' ≠ identity →
        (perform sha e (.openDirectory mode identity' limits) s).1 ≠ .opened

section Safety

variable {sha : Checksum} {history : List (Call × Reply)} {catalog? : Option Catalog}
  {s : System}

/-- A call that loads reads the catalog. -/
theorem load_known {catalog : Catalog} {files : Files} {ren : List FileName} {c : Impl}
    (hfiles : Directory sha (some catalog) files) (hidentity : c.identity = catalog.identity)
    (e : FileSystem.Environment) (key : Bytes) (offset : UInt64) (count : ℕ) :
    (∀ value, (perform sha e (.load key offset count) ⟨files, ren, some c⟩).1 = .loaded value →
        ReadFrom catalog key offset count value) ∧
      (e.Calm → Readable c catalog key offset count →
        ∃ value, (perform sha e (.load key offset count) ⟨files, ren, some c⟩).1 =
          .loaded value) := by
  rcases hexec : exec (load sha key offset count)
    (System.world ⟨files, ren, some c⟩ e c) with ⟨r, w⟩
  have hstart : At files ren c e (System.world ⟨files, ren, some c⟩ e c) := ⟨rfl, rfl, rfl, rfl⟩
  rw [perform.eq_def]
  dsimp only
  rw [hexec]
  rcases triple_elim (load_spec hfiles hidentity key offset count) hstart hexec with
    ⟨value, rfl, hread, -⟩ | ⟨stop, rfl, hcalm, -⟩
  · refine ⟨fun value' h => ?_, fun _ _ => ⟨value, rfl⟩⟩
    rw [← Reply.loaded.inj h]
    exact hread.2
  · exact ⟨fun _ h => (nomatch h), fun h hreadable => absurd hreadable (hcalm h)⟩

theorem Invariant.resumes (h : Invariant sha history catalog? s) (e : FileSystem.Environment)
    {identity : Bytes} {limits : Limits} (hcalm : e.Calm) (hsession : s.session = none)
    (hvalid : validDigest identity = true) (hlimits : validLimits limits = true)
    (hidentity : ∀ content, find s.files identityName = some content →
      content = manifest identity)
    (hlast : ∀ limits', lastLimits history = some limits' → limits = limits') :
    (perform sha e (.openDirectory .resume identity limits) s).1 = .opened ∧
      ∃ c, (perform sha e (.openDirectory .resume identity limits) s).2.session = some c ∧
        c.healthy = true ∧ c.identity = identity ∧ c.limits = limits := by
  obtain ⟨files, ren, session⟩ := s
  obtain rfl : session = none := hsession
  rcases hexec : exec (openCheckpoint .resume identity limits)
    (System.world ⟨files, ren, none⟩ e ()) with ⟨r, w⟩
  have hstart : At files ren () e (System.world ⟨files, ren, none⟩ e ()) := ⟨rfl, rfl, rfl, rfl⟩
  rw [perform.eq_def]
  dsimp only
  rw [hexec]
  cases h with
  | fresh hfiles hsaved _ =>
    rcases triple_elim (openCheckpoint_fresh_spec .resume hfiles) hstart hexec with
      ⟨c, rfl, -, rfl, -⟩ | ⟨stop, rfl, hstop, -⟩
    · exact ⟨rfl, _, rfl, rfl, rfl, rfl⟩
    · exact absurd ⟨rfl, hvalid, hlimits⟩ (hstop hcalm)
  | @known catalog _ hfiles hrecorded _ =>
    rcases triple_elim (openCheckpoint_known_spec .resume hfiles) hstart hexec with
      ⟨c, rfl, -, rfl, -⟩ | ⟨stop, rfl, hstop, -⟩
    · exact ⟨rfl, _, rfl, rfl, rfl, rfl⟩
    · refine absurd ⟨rfl, ?_, hlimits, ?_⟩ (hstop hcalm)
      · exact (manifest_injective (hidentity _ hfiles.find_identityName)).symm
      · cases hhistory : lastLimits history with
        | some limits' =>
          rw [hlast limits' hhistory]
          exact hrecorded.within limits' hhistory
        | none =>
          have hnil := hrecorded.blocks_eq_nil hhistory
          refine ⟨?_, ?_, ?_⟩
          · rw [hnil]
            exact fun _ h => nomatch h
          · rw [hnil]
            exact Nat.zero_le _
          · rw [Catalog.bytes, hnil]
            exact Nat.zero_le _

/-- A directory does not open with another identity than its own. -/
theorem Directory.not_opened {catalog : Catalog} {s : System}
    (hfiles : Directory sha (some catalog) s.files) {identity : Bytes}
    (hne : identity ≠ catalog.identity) (e : FileSystem.Environment) (mode : Mode)
    (limits : Limits) : (perform sha e (.openDirectory mode identity limits) s).1 ≠ .opened := by
  obtain ⟨files, ren, session⟩ := s
  cases session with
  | some c => exact fun h => nomatch h
  | none =>
    rcases hexec : exec (openCheckpoint mode identity limits)
      (System.world ⟨files, ren, none⟩ e ()) with ⟨r, w⟩
    have hstart : At files ren () e (System.world ⟨files, ren, none⟩ e ()) := ⟨rfl, rfl, rfl, rfl⟩
    rw [perform.eq_def]
    dsimp only
    rw [hexec]
    rcases triple_elim (openCheckpoint_known_spec mode hfiles) hstart hexec with
      ⟨c, rfl, ⟨hidentity, -⟩, -⟩ | ⟨stop, rfl, -⟩
    · exact absurd hidentity hne
    · exact fun h => nomatch h

theorem Invariant.refuses (h : Invariant sha history catalog? s) (hrenamed : s.renamed ≠ []) :
    ∃ identity, find s.files identityName = some (manifest identity) ∧
      ∀ (e : FileSystem.Environment) (mode : Mode) (identity' : Bytes) (limits : Limits),
        identity' ≠ identity →
          (perform sha e (.openDirectory mode identity' limits) s).1 ≠ .opened := by
  cases h with
  | fresh => exact absurd rfl hrenamed
  | @known catalog _ hfiles _ _ =>
    exact ⟨catalog.identity, hfiles.find_identityName, fun e mode identity' limits hne =>
      hfiles.not_opened hne e mode limits⟩

theorem Invariant.kept (h : Invariant sha history catalog? s) (e : FileSystem.Environment)
    (call : Call) {key content : Bytes} (hfind : find s.files (blockName key) = some content) :
    find (perform sha e call s).2.files (blockName key) = some content := by
  obtain ⟨catalog?', hgrows, hstep⟩ := h.step e call
  cases h with
  | fresh hfiles =>
    rw [hfiles.find_of_none fun stem h => pendingName_ne_blockName stem key h.symm] at hfind
    cases hfind
  | @known catalog _ hfiles _ _ =>
    obtain ⟨catalog', rfl, hidentity, hblocks⟩ := hgrows catalog rfl
    cases hstep with
    | known hfiles' _ _ =>
      rw [hfiles.find_blockName, Option.map_eq_some_iff] at hfind
      obtain ⟨b, hb, rfl⟩ := hfind
      rw [hfiles'.find_blockName, hblocks key b hb, Option.map_some, hidentity]

theorem Invariant.identified (h : Invariant sha history catalog? s) {content : Bytes}
    (hfind : find s.files identityName = some content) :
    ∃ mode identity limits reply, content = manifest identity ∧
      (Call.openDirectory mode identity limits, reply) ∈ history := by
  cases h with
  | fresh hfiles =>
    rw [hfiles.find_of_none fun stem h => pendingName_ne_identityName stem h.symm] at hfind
    cases hfind
  | @known catalog _ hfiles hrecorded _ =>
    rw [hfiles.find_identityName] at hfind
    obtain ⟨mode, limits, reply, hmem⟩ := hrecorded.opened
    exact ⟨mode, catalog.identity, limits, reply, (Option.some.inj hfind).symm, hmem⟩

theorem Invariant.loads (h : Invariant sha history catalog? s) {key : Bytes} {offset : UInt64}
    {data : List UInt32} (hsaved : (Call.save key offset data, Reply.saved) ∈ history)
    (e : FileSystem.Environment) {c : Impl} (hsession : s.session = some c)
    (hhealthy : c.healthy = true) :
    (∀ value, (perform sha e (.load key offset data.length) s).1 = .loaded value →
        value = some data) ∧
      (e.Calm → (perform sha e (.load key offset data.length) s).1 = .loaded (some data)) := by
  obtain ⟨files, ren, session⟩ := s
  obtain rfl : session = some c := hsession
  cases h with
  | @known catalog _ hfiles hrecorded hopen =>
    obtain ⟨b, hb, rfl, rfl⟩ := hrecorded.saved key offset data hsaved
    obtain ⟨hmem, rfl⟩ := Catalog.key_of_block? hb
    obtain ⟨hread, hcalm⟩ := @load_known _ _ _ ren _ hfiles (hopen c rfl).identity e b.key b.offset
      b.data.length
    have hvalue : ∀ value, (perform sha e (.load b.key b.offset b.data.length)
        ⟨files, ren, some c⟩).1 = .loaded value → value = some b.data := by
      intro value hvalue
      rw [(hread value hvalue).value_eq, hb, Option.map_some]
    refine ⟨hvalue, fun hcalm' => ?_⟩
    -- The directory was opened within the limits, so the count is admitted.
    have hsize := (hrecorded.within c.limits (hopen c rfl).limits).size b hmem
    rw [Published.size] at hsize
    have hpos := List.length_pos_of_ne_nil b.data_ne_nil
    obtain ⟨value, hloaded⟩ := hcalm hcalm' ⟨hhealthy, b.validKey_key, hpos, by omega,
      fun b' hb' => by rw [Option.some.inj (hb'.symm.trans hb)],
      fun b' hb' => by rw [Option.some.inj (hb'.symm.trans hb)]⟩
    rw [hloaded, hvalue value hloaded]

theorem Invariant.absent (h : Invariant sha history catalog? s) {key : Bytes}
    (hkey : blockName key ∉ s.renamed) (e : FileSystem.Environment) (offset : UInt64) (count : ℕ) :
    (∀ value, (perform sha e (.load key offset count) s).1 = .loaded value → value = none) ∧
      ∀ c, e.Calm → s.session = some c → c.healthy = true → validKey key = true → 0 < count →
        count ≤ c.limits.blockBytes / 4 →
          (perform sha e (.load key offset count) s).1 = .loaded none := by
  obtain ⟨files, ren, session⟩ := s
  cases session with
  | none => exact ⟨fun _ h => (nomatch h), fun _ _ h => nomatch h⟩
  | some c =>
    cases h with
    | @known catalog _ hfiles hrecorded hopen =>
      have hnone : catalog.block? key = none := by
        cases hb : catalog.block? key with
        | none => rfl
        | some b =>
          obtain ⟨hmem, rfl⟩ := Catalog.key_of_block? hb
          exact absurd (hrecorded.renamed b hmem) hkey
      obtain ⟨hread, hcalm⟩ := @load_known _ _ _ ren _ hfiles (hopen c rfl).identity e key offset
        count
      have hvalue : ∀ value, (perform sha e (.load key offset count) ⟨files, ren, some c⟩).1 =
          .loaded value → value = none := by
        intro value hvalue
        rw [(hread value hvalue).value_eq, hnone, Option.map_none]
      refine ⟨hvalue, fun c' hcalm' hc' hhealthy hvalid hpos hle => ?_⟩
      obtain rfl := Option.some.inj hc'
      obtain ⟨value, hloaded⟩ := hcalm hcalm' ⟨hhealthy, hvalid, hpos, hle,
        fun b hb => (nomatch hnone.symm.trans hb), fun b hb => (nomatch hnone.symm.trans hb)⟩
      rw [hloaded, hvalue value hloaded]

theorem Invariant.complete (h : Invariant sha history catalog? s) {e : FileSystem.Environment}
    {key : Bytes} {offset : UInt64} {count : ℕ} {data : List UInt32}
    (hloaded : (perform sha e (.load key offset count) s).1 = .loaded (some data)) :
    data.length = count ∧ ∃ reply, (Call.save key offset data, reply) ∈ history := by
  obtain ⟨files, ren, session⟩ := s
  cases session with
  | none => cases hloaded
  | some c =>
    cases h with
    | @known catalog _ hfiles hrecorded hopen =>
      have hread := (load_known hfiles (hopen c rfl).identity e key offset count).1 _ hloaded
      have hvalue := hread.value_eq
      cases hb : catalog.block? key with
      | none =>
        rw [hb] at hvalue
        cases hvalue
      | some b =>
        obtain ⟨hmem, rfl⟩ := Catalog.key_of_block? hb
        obtain ⟨reply, hreply⟩ := hrecorded.origin b hmem
        rw [hb] at hvalue
        obtain rfl := Option.some.inj hvalue
        obtain rfl := hread.offset_eq b hb
        exact ⟨hread.count_eq b hb, reply, hreply⟩

/-- **Crash safety.** It holds after every sequence of calls on an empty directory, whatever the
environment does to them. -/
theorem crashSafe_of_run (h : Run sha ⟨[], [], none⟩ history s) : CrashSafe sha history s := by
  obtain ⟨catalog?, hinvariant⟩ := exists_invariant_of_run h
  refine ⟨?_, ?_, ?_, ?_, ?_, ?_, hinvariant.refuses⟩
  · exact fun e identity limits => hinvariant.resumes e
  · exact fun content => hinvariant.identified
  · exact fun key offset data hsaved e c => hinvariant.loads hsaved e
  · exact fun key => hinvariant.absent
  · exact fun e key offset count data => hinvariant.complete
  · exact fun e call key content => hinvariant.kept e call

end Safety

/-- A checksum with the value of SHA-256 on the one message of the sample below. -/
def sampleChecksum : Checksum where
  hex message :=
    if message = List.replicate 64 48 ++ bytes "\na\n0\n1\n" ++ [0, 0, 128, 63] then
      bytes "cac4faae8f3c7b05de26e0c9d53f2ba38d3152c3e6bd2959b2d13911a39fa218"
    else List.replicate 64 48
  length_hex message := by
    split_ifs
    · decide
    · exact List.length_replicate

/-- The process dies in the call with this number. -/
def crashAt (call : ℕ) : FileSystem.Environment where
  fault i := if i = call then .crash 3 else .none
  listing := id
  listing_perm files := List.Perm.refl files

/-- Nothing fails, and directories are listed backwards. -/
def calmEnvironment : FileSystem.Environment where
  fault _ := .none
  listing := List.reverse
  listing_perm := List.reverse_perm

/-- The calls in this order, each under its environment, with the history they leave. -/
def performAll (sha : Checksum) (start : System) (calls : List (FileSystem.Environment × Call)) :
    List (Call × Reply) × System :=
  calls.foldl (fun done next =>
    let result := perform sha next.1 next.2 done.2
    ((next.2, result.1) :: done.1, result.2)) ([], start)

theorem run_performAll (sha : Checksum) (start : System)
    (calls : List (FileSystem.Environment × Call)) :
    Run sha start (performAll sha start calls).1 (performAll sha start calls).2 := by
  have hfold : ∀ done : List (Call × Reply) × System, Run sha start done.1 done.2 →
      Run sha start (calls.foldl (fun done next =>
        let result := perform sha next.1 next.2 done.2
        ((next.2, result.1) :: done.1, result.2)) done).1
        (calls.foldl (fun done next =>
          let result := perform sha next.1 next.2 done.2
          ((next.2, result.1) :: done.1, result.2)) done).2 := by
    induction calls with
    | nil => exact fun _ h => h
    | cons next calls ih => exact fun done h => ih _ (h.cons next.1 next.2)
  exact hfold _ .nil

/-- The creation and a save crash; the directory is resumed after each and the block is saved. -/
def sampleCalls : List (FileSystem.Environment × Call) :=
  let identity : Bytes := List.replicate 64 48
  [(crashAt 3, .openDirectory .create identity {}),
    (calmEnvironment, .openDirectory .resume identity {}),
    (crashAt 3, .save [97] 0 [0x3f800000]),
    (calmEnvironment, .openDirectory .resume identity {}),
    (calmEnvironment, .save [97] 0 [0x3f800000])]

theorem crashSafe_of_run_sample :
    (performAll sampleChecksum ⟨[], [], none⟩ sampleCalls).1.map Prod.snd =
        [.saved, .opened, .stopped .crashed, .opened, .stopped .crashed] ∧
      CrashSafe sampleChecksum (performAll sampleChecksum ⟨[], [], none⟩ sampleCalls).1
        (performAll sampleChecksum ⟨[], [], none⟩ sampleCalls).2 :=
  ⟨by decide, crashSafe_of_run (run_performAll _ _ _)⟩

end Resonantia.Io.BlockFiles
