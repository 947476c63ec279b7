import Mathlib.Data.List.Nodup
import Resonantia.Io.BlockFiles

/-!
# Directories of block checkpoints

At every moment the directory of a checkpoint holds the identity once it was published, complete
blocks, and at most one file that a publication was writing when it ended. A publication is done,
or it leaves the directory in such a state.

## Main definitions

* `Io.BlockFiles.Torn`: what a publication may leave.
* `Io.BlockFiles.Catalog`: an identity with its complete blocks.
* `Io.BlockFiles.Directory`: what a directory may hold.

## Main results

* `Io.BlockFiles.publish_spec`: a publication is done, or leaves one incomplete file at most.
* `Io.BlockFiles.Directory.find_blockName`: the blocks of a directory.
-/

namespace Resonantia.Io.BlockFiles

open ByteString Effect FileSystem FloatWord

/-! ### Names -/

theorem stripSuffix_append (suffix name : Bytes) : stripSuffix suffix (name ++ suffix) = some name := by
  rw [stripSuffix, if_pos (List.suffix_append name suffix), List.length_append,
    Nat.add_sub_cancel, List.take_left' rfl]

theorem eq_append_of_stripSuffix {suffix name stem : Bytes}
    (h : stripSuffix suffix name = some stem) : name = stem ++ suffix := by
  rw [stripSuffix] at h
  split_ifs at h with hsuffix
  obtain ⟨stem', rfl⟩ := hsuffix
  rw [List.length_append, Nat.add_sub_cancel, List.take_left' rfl] at h
  rw [Option.some.inj h]

/-- A name with another last byte does not have this ending. -/
theorem stripSuffix_eq_none {suffix name : Bytes} (hsuffix : suffix ≠ [])
    (h : suffix.getLast? ≠ name.getLast?) : stripSuffix suffix name = none := by
  rw [stripSuffix, if_neg]
  rintro ⟨stem, rfl⟩
  rw [List.getLast?_append_of_ne_nil _ hsuffix] at h
  exact h rfl

theorem getLast?_blockName (key : Bytes) : (blockName key).getLast? = some 107 := by
  rw [blockName, List.getLast?_append_of_ne_nil _ (by decide)]
  decide

theorem getLast?_pendingName (name : Bytes) : (pendingName name).getLast? = some 103 := by
  rw [pendingName, List.getLast?_append_of_ne_nil _ (by decide)]
  decide

theorem blockName_injective {key key' : Bytes} (h : blockName key = blockName key') :
    key = key' := List.append_cancel_right h

theorem pendingName_ne_blockName (name key : Bytes) : pendingName name ≠ blockName key := by
  intro h
  have hlast := congrArg List.getLast? h
  rw [getLast?_blockName, getLast?_pendingName] at hlast
  exact absurd hlast (by decide)

theorem blockName_ne_identityName (key : Bytes) : blockName key ≠ identityName := by
  intro h
  have hlast := congrArg List.getLast? h
  rw [getLast?_blockName] at hlast
  exact absurd hlast (by decide)

theorem pendingName_ne_identityName (name : Bytes) : pendingName name ≠ identityName := by
  intro h
  have hlast := congrArg List.getLast? h
  rw [getLast?_pendingName] at hlast
  exact absurd hlast (by decide)

theorem isBlock_blockName (key : Bytes) : isBlock (blockName key) = validKey key := by
  rw [isBlock, blockName, stripSuffix_append, Option.any_some]

theorem isBlock_pendingName (name : Bytes) : isBlock (pendingName name) = false := by
  rw [isBlock, stripSuffix_eq_none (by decide), Option.any_none]
  rw [getLast?_pendingName]
  decide

theorem isPendingBlock_blockName (key : Bytes) : isPendingBlock (blockName key) = false := by
  rw [isPendingBlock, stripSuffix_eq_none (by decide), Option.any_none]
  rw [getLast?_blockName]
  decide

theorem isPendingBlock_pendingName (key : Bytes) :
    isPendingBlock (pendingName (blockName key)) = validKey key := by
  rw [isPendingBlock, pendingName, blockName, List.append_assoc, stripSuffix_append,
    Option.any_some]

theorem isPendingBlock_identity :
    isPendingBlock identityName = false ∧ isPendingBlock (pendingName identityName) = false := by
  decide

theorem isBlock_identity : isBlock identityName = false := by decide

theorem exists_of_isPendingBlock {name : FileName} (h : isPendingBlock name = true) :
    ∃ key, validKey key = true ∧ name = pendingName (blockName key) := by
  obtain ⟨key, hstrip, hkey⟩ := (Option.any_eq_true ..).1 h
  refine ⟨key, hkey, ?_⟩
  rw [eq_append_of_stripSuffix hstrip, pendingName, blockName, List.append_assoc]

/-! ### Publication -/

section Publish

variable {μ : Type} {base : Files} {ren : List FileName} {m : μ} {e : FileSystem.Environment}
  {name : FileName} {content : Bytes}

theorem put_append_self (h : find base name = none) (c c' : Bytes) :
    put (base ++ [(name, c)]) name c' = base ++ [(name, c')] := by
  rw [put, erase, List.filter_append, ← erase, erase_eq_self h]
  simp

theorem erase_append_self (h : find base name = none) (c : Bytes) :
    erase (base ++ [(name, c)]) name = base := by
  rw [erase, List.filter_append, ← erase, erase_eq_self h]
  simp

theorem find_append_self (h : find base name = none) (c : Bytes) :
    find (base ++ [(name, c)]) name = some c := by
  rw [find_append_singleton h, if_pos rfl]

/-- What a publication leaves that did not return: nothing, an incomplete file, or the file in its
place. -/
inductive Torn (base : Files) (ren : List FileName) (m : μ) (e : FileSystem.Environment)
    (name : FileName) (content : Bytes) (w : World μ) : Prop
  | absent (h : At base ren m e w)
  | pending (c : Bytes) (hc : c.length ≤ content.length)
      (h : At (base ++ [(pendingName name, c)]) ren m e w)
  | renamed (h : At (base ++ [(name, content)]) (name :: ren) m e w)

theorem write_spec {E : Stop → World μ → Prop} (hpending : find base (pendingName name) = none)
    (c c' : Bytes) (hlength : c.length + c'.length ≤ content.length)
    (hstop : ∀ w stop, ¬e.Calm → Torn base ren m e name content w → E stop w) :
    Triple (At (base ++ [(pendingName name, c)]) ren m e) (write (pendingName name) c')
      (fun _ => At (base ++ [(pendingName name, c ++ c')]) ren m e) E := by
  have hextend : ∀ d : Bytes, ∀ w : World μ, At (base ++ [(pendingName name, c)]) ren m e w →
      put w.files (pendingName name) ((find w.files (pendingName name)).getD [] ++ d) =
        base ++ [(pendingName name, c ++ d)] := by
    intro d w hw
    rw [hw.files, find_append_self hpending, Option.getD_some, put_append_self hpending]
  rw [write]
  refine triple_syscall ?_ ?_
  · intro w hw
    exact ⟨hextend c' w hw, hw.renamed, hw.memory, hw.environment⟩
  · intro w hw hcalm stop n
    refine hstop _ stop (hw.environment ▸ hcalm) (.pending (c ++ c'.take n) ?_
      ⟨hextend (c'.take n) w hw, hw.renamed, hw.memory, hw.environment⟩)
    rw [List.length_append, List.length_take]
    omega

theorem ne_pendingName (name : FileName) : pendingName name ≠ name := by
  intro h
  have hlength := congrArg List.length h
  rw [pendingName, List.length_append] at hlength
  exact absurd (Nat.add_eq_left.1 hlength) (by decide)

theorem Torn.environment {w : World μ} (h : Torn base ren m e name content w) :
    w.environment = e := by
  cases h with
  | absent h => exact h.environment
  | pending _ _ h => exact h.environment
  | renamed h => exact h.environment

theorem Torn.next {w : World μ} (h : Torn base ren m e name content w) :
    Torn base ren m e name content w.next := by
  cases h with
  | absent h => exact .absent ⟨h.files, h.renamed, h.memory, h.environment⟩
  | pending c hc h => exact .pending c hc ⟨h.files, h.renamed, h.memory, h.environment⟩
  | renamed h => exact .renamed ⟨h.files, h.renamed, h.memory, h.environment⟩

/-- Removing the incomplete file leaves what an ended publication may leave. -/
theorem Torn.erase {w : World μ} (hname : find base name = none)
    (hpending : find base (pendingName name) = none) (h : Torn base ren m e name content w) :
    Torn base ren m e name content { w with files := erase w.files (pendingName name) } := by
  cases h with
  | absent h =>
    refine .absent ⟨?_, h.renamed, h.memory, h.environment⟩
    rw [h.files, erase_eq_self hpending]
  | pending c _ h =>
    refine .absent ⟨?_, h.renamed, h.memory, h.environment⟩
    rw [h.files, erase_append_self hpending]
  | renamed h =>
    refine .renamed ⟨?_, h.renamed, h.memory, h.environment⟩
    rw [h.files, erase_eq_self]
    rw [find_append_singleton hname, if_neg (ne_pendingName name), hpending]

theorem discard_spec {Q : Unit → World μ → Prop} (hname : find base name = none)
    (hpending : find base (pendingName name) = none) (stop : Stop) :
    Triple (fun w => ¬e.Calm ∧ Torn base ren m e name content w) (discard (pendingName name) stop)
      Q (fun _ w => ¬e.Calm ∧ Torn base ren m e name content w) := by
  cases stop with
  | crashed => exact triple_throw fun _ hw => hw
  | failed message =>
    have hunlink : Triple (fun w : World μ => ¬e.Calm ∧ Torn base ren m e name content w)
        (unlink "" (pendingName name))
        (fun _ w => ¬e.Calm ∧ Torn base ren m e name content w)
        (fun _ w => ¬e.Calm ∧ Torn base ren m e name content w) := by
      rw [unlink]
      refine triple_syscall ?_ ?_
      · exact fun w hw => ⟨hw.1, hw.2.next.erase hname hpending⟩
      · exact fun w hw _ _ _ => ⟨hw.1, hw.2.next⟩
    refine triple_bind (triple_tryCatch hunlink fun stop' => ?_) fun _ =>
      triple_throw fun _ hw => hw
    cases stop' with
    | crashed => exact triple_throw fun _ hw => hw
    | failed _ => exact triple_pure fun _ hw => hw

/-- **One publication.** It puts the file in its place, or it ends on the way. -/
theorem publish_spec {head data : Bytes} (hname : find base name = none)
    (hpending : find base (pendingName name) = none) :
    Triple (At base ren m e) (publish name head data)
      (fun _ => At (base ++ [(name, head ++ data)]) (name :: ren) m e)
      (fun _ w => ¬e.Calm ∧ Torn base ren m e name (head ++ data) w) := by
  refine triple_get_bind fun w₀ hw₀ => ?_
  have hnone : (find w₀.files (pendingName name)).isSome = false := by
    rw [hw₀.files, hpending, Option.isSome_none]
  rw [hnone, if_neg Bool.false_ne_true]
  have hcreate : Triple (· = w₀) (syscall "cannot create checkpoint staging file"
      (fun w : World μ => { w with files := put w.files (pendingName name) [] }) fun _ => id)
      (fun _ => At (base ++ [(pendingName name, [])]) ren m e)
      (fun _ w => ¬e.Calm ∧ Torn base ren m e name (head ++ data) w) := by
    refine triple_syscall ?_ ?_
    · rintro w rfl
      refine ⟨?_, hw₀.renamed, hw₀.memory, hw₀.environment⟩
      change put w.files _ _ = _
      rw [hw₀.files, put_eq_append hpending]
    · rintro w rfl hcalm stop n
      exact ⟨hw₀.environment ▸ hcalm,
        .absent ⟨hw₀.files, hw₀.renamed, hw₀.memory, hw₀.environment⟩⟩
  have hrename : Triple (At (base ++ [(pendingName name, head ++ data)]) ren m e)
      (syscall "checkpoint publication failed"
        (fun w : World μ => { w with
          files := rename w.files (pendingName name) name
          renamed := name :: w.renamed }) fun _ => id)
      (fun _ => At (base ++ [(name, head ++ data)]) (name :: ren) m e)
      (fun _ w => ¬e.Calm ∧ Torn base ren m e name (head ++ data) w) := by
    refine triple_syscall ?_ ?_
    · intro w hw
      refine ⟨?_, congrArg (name :: ·) hw.renamed, hw.memory, hw.environment⟩
      change rename w.files _ _ = _
      rw [hw.files, rename, find_append_self hpending]
      dsimp only
      rw [erase_append_self hpending, put_eq_append hname]
    · intro w hw hcalm stop n
      exact ⟨hw.environment ▸ hcalm,
        .pending _ (Nat.le_refl _) ⟨hw.files, hw.renamed, hw.memory, hw.environment⟩⟩
  have hstop : ∀ (w : World μ) (stop : Stop), ¬e.Calm → Torn base ren m e name (head ++ data) w →
      ¬e.Calm ∧ Torn base ren m e name (head ++ data) w := fun w _ hcalm htorn => ⟨hcalm, htorn⟩
  have hbody : Triple (At (base ++ [(pendingName name, [])]) ren m e)
      (do
        write (pendingName name) head
        write (pendingName name) data
        check "checkpoint file sync failed"
        syscall "checkpoint publication failed"
          (fun w : World μ => { w with
            files := rename w.files (pendingName name) name
            renamed := name :: w.renamed })
          fun _ => id)
      (fun _ => At (base ++ [(name, head ++ data)]) (name :: ren) m e)
      (fun _ w => ¬e.Calm ∧ Torn base ren m e name (head ++ data) w) := by
    refine triple_bind (write_spec hpending [] head (by simp) hstop) fun _ => ?_
    rw [List.nil_append]
    refine triple_bind (write_spec hpending head data (by simp) hstop) fun _ => ?_
    refine triple_bind (triple_check fun w stop hcalm hw => ⟨hcalm, ?_⟩) fun _ => hrename
    exact .pending _ (Nat.le_refl _) hw
  refine triple_bind hcreate fun _ => triple_bind (triple_tryCatch hbody
    fun stop => discard_spec hname hpending stop) fun _ => ?_
  refine triple_check fun w stop hcalm hw => ⟨hcalm, .renamed hw⟩

end Publish

/-! ### What a directory holds -/

/-- A complete block. -/
structure Published where
  key : Bytes
  offset : UInt64
  data : List UInt32
  validKey_key : validKey key = true
  data_ne_nil : data ≠ []
  finite : data.all isFinite = true
  length_lt : data.length < 256 ^ 8

/-- The size of the file of a block. -/
def Published.size (b : Published) : ℕ := headerSize + 4 * b.data.length

def Published.content (sha : Checksum) (identity : Bytes) (b : Published) : Bytes :=
  header sha identity b.key b.offset b.data ++ b.data.flatMap toBytes

def Published.file (sha : Checksum) (identity : Bytes) (b : Published) : FileName × Bytes :=
  (blockName b.key, b.content sha identity)

/-- A published identity with its complete blocks. -/
structure Catalog where
  identity : Bytes
  blocks : List Published
  validDigest_identity : validDigest identity = true
  keys_nodup : (blocks.map Published.key).Nodup

namespace Catalog

variable (sha : Checksum) (catalog : Catalog)

/-- The files of a catalog. -/
def files : Files :=
  (identityName, manifest catalog.identity) ::
    catalog.blocks.map (Published.file sha catalog.identity)

/-- The block with this key. -/
def block? (key : Bytes) : Option Published := catalog.blocks.find? fun b => b.key = key

def bytes : ℕ := (catalog.blocks.map Published.size).sum

variable {sha catalog}

theorem mem_names_files {name : FileName} (h : name ∈ (catalog.files sha).map Prod.fst) :
    name = identityName ∨ ∃ b ∈ catalog.blocks, name = blockName b.key := by
  rw [files, List.map_cons, List.map_map, List.mem_cons, List.mem_map] at h
  refine h.imp_right ?_
  rintro ⟨b, hb, rfl⟩
  exact ⟨b, hb, rfl⟩

theorem distinct_files : Distinct (catalog.files sha) := by
  rw [Distinct, files, List.map_cons, List.map_map, List.nodup_cons]
  constructor
  · rw [List.mem_map]
    rintro ⟨b, -, hname⟩
    exact blockName_ne_identityName b.key hname
  · have hnames : (catalog.blocks.map Published.key).map blockName =
        catalog.blocks.map (Prod.fst ∘ Published.file sha catalog.identity) := by
      rw [List.map_map]
      rfl
    rw [← hnames]
    exact catalog.keys_nodup.map fun _ _ h => blockName_injective h

theorem find_files_pendingName (name : FileName) :
    find (catalog.files sha) (pendingName name) = none := by
  rw [find_eq_none_iff]
  intro hmem
  rcases mem_names_files hmem with h | ⟨b, -, h⟩
  · exact pendingName_ne_identityName name h
  · exact pendingName_ne_blockName name b.key h

theorem find_files_identityName :
    find (catalog.files sha) identityName = some (manifest catalog.identity) := by
  rw [files, find_cons, if_pos rfl]

theorem find_map_file (identity key : Bytes) (blocks : List Published) :
    find (blocks.map (Published.file sha identity)) (blockName key) =
      (blocks.find? fun b => b.key = key).map (Published.content sha identity) := by
  induction blocks with
  | nil => rfl
  | cons b blocks ih =>
    rw [List.map_cons, Published.file, find_cons, ih, List.find?_cons]
    by_cases hkey : b.key = key
    · rw [if_pos (congrArg blockName hkey.symm)]
      simp [hkey]
    · rw [if_neg fun h => hkey (blockName_injective h).symm]
      simp [hkey]

theorem find_files_blockName (key : Bytes) :
    find (catalog.files sha) (blockName key) =
      (catalog.block? key).map (Published.content sha catalog.identity) := by
  rw [files, find_cons, if_neg (blockName_ne_identityName key), find_map_file, block?]

theorem key_of_block? {key : Bytes} {b : Published} (h : catalog.block? key = some b) :
    b ∈ catalog.blocks ∧ b.key = key :=
  ⟨List.mem_of_find?_eq_some h, by simpa using List.find?_some h⟩

end Catalog

/-- What a directory may hold: before the identity is published, and after. -/
inductive Directory (sha : Checksum) : Option Catalog → Files → Prop
  | empty : Directory sha none []
  | pendingIdentity (c : Bytes) (hc : c.length ≤ 256) :
    Directory sha none [(pendingName identityName, c)]
  | settled {catalog : Catalog} {files : Files} (h : files.Perm (catalog.files sha)) :
    Directory sha (some catalog) files
  | pendingBlock {catalog : Catalog} {files : Files} (key c : Bytes) (hkey : validKey key = true)
    (h : files.Perm (catalog.files sha ++ [(pendingName (blockName key), c)])) :
    Directory sha (some catalog) files

namespace Directory

variable {sha : Checksum} {catalog? : Option Catalog} {catalog : Catalog} {files : Files}

theorem distinct_append (key c : Bytes) :
    Distinct (catalog.files sha ++ [(pendingName (blockName key), c)]) := by
  rw [← put_eq_append (Catalog.find_files_pendingName _)]
  exact Catalog.distinct_files.put _ _

theorem distinct (h : Directory sha catalog? files) : Distinct files := by
  cases h with
  | empty => exact List.nodup_nil
  | pendingIdentity => exact List.nodup_singleton _
  | settled h => exact (h.map Prod.fst).nodup_iff.2 Catalog.distinct_files
  | pendingBlock key c _ h => exact (h.map Prod.fst).nodup_iff.2 (distinct_append key c)

/-- A name that no publication writes is looked up in the catalog. -/
theorem find_eq (h : Directory sha (some catalog) files) {name : FileName}
    (hname : ∀ stem, name ≠ pendingName stem) : find files name = find (catalog.files sha) name := by
  have hdistinct := h.distinct
  cases h with
  | settled h => exact find_perm hdistinct h
  | pendingBlock key c _ h =>
    rw [find_perm hdistinct h, find_append_singleton (Catalog.find_files_pendingName _),
      if_neg (hname _)]

theorem find_blockName (h : Directory sha (some catalog) files) (key : Bytes) :
    find files (blockName key) =
      (catalog.block? key).map (Published.content sha catalog.identity) := by
  rw [h.find_eq fun stem heq => pendingName_ne_blockName stem key heq.symm,
    Catalog.find_files_blockName]

theorem find_identityName (h : Directory sha (some catalog) files) :
    find files identityName = some (manifest catalog.identity) := by
  rw [h.find_eq fun stem heq => pendingName_ne_identityName stem heq.symm,
    Catalog.find_files_identityName]

theorem find_of_none (h : Directory sha none files) {name : FileName}
    (hname : ∀ stem, name ≠ pendingName stem) : find files name = none := by
  cases h with
  | empty => rfl
  | pendingIdentity c hc => rw [find_cons, if_neg (hname _), find_nil]

end Directory

end Resonantia.Io.BlockFiles
