import Resonantia.Io.BlockCatalog

/-!
# Opening block checkpoints

Opening a directory checks its identity, removes what a publication left and counts the blocks. It
finds exactly the published blocks, and it succeeds when they fit in the limits.

## Main definitions

* `Io.BlockFiles.countEntry`, `Io.BlockFiles.sweepEntry`: one entry of the scan.
* `Io.BlockFiles.Catalog.Within`: blocks that fit in limits.

## Main results

* `Io.BlockFiles.Directory.foldlM_countEntry_iff`: when the scan succeeds.
* `Io.BlockFiles.openCheckpoint_fresh_spec`, `Io.BlockFiles.openCheckpoint_known_spec`: opening
  before the identity is published, and after.
-/

namespace Resonantia.Io.BlockFiles

open ByteString Effect FileSystem FloatWord

/-! ### The scan -/

/-- What the scan counts for one entry once the identity is known. -/
def countEntry (limits : Limits) (scan : Scan) (file : FileName × Bytes) : Option Scan :=
  if 8194 < scan.scanned + 1 then none
  else if file.1 = identityName ∨ isPendingBlock file.1 = true then
    some { scan with scanned := scan.scanned + 1 }
  else if isBlock file.1 = false ∨ file.2.length < headerSize + 4 ∨
      headerSize + limits.blockBytes < file.2.length then none
  else if limits.blocks < scan.blocks + 1 ∨ limits.totalBytes - scan.bytes < file.2.length then none
  else some ⟨scan.scanned + 1, scan.bytes + file.2.length, scan.blocks + 1⟩

/-- What the scan removes for one entry once the identity is known. -/
def sweepEntry (files : Files) (file : FileName × Bytes) : Files :=
  if isPendingBlock file.1 = true then erase files file.1 else files

section Scan

variable {μ : Type} {ren : List FileName} {m : μ} {e : FileSystem.Environment} {limits : Limits}

theorem scanEntry_spec (files : Files) (scan : Scan) (file : FileName × Bytes) :
    Triple (At files ren m e) (scanEntry .resume false limits scan file)
      (fun scan' w => countEntry limits scan file = some scan' ∧
        At (sweepEntry files file) ren m e w)
      (fun _ w => (e.Calm → countEntry limits scan file = none) ∧ At files ren m e w) := by
  rw [scanEntry]
  refine triple_bind (triple_check fun w stop hcalm hw => ⟨fun h => absurd h hcalm, hw⟩) fun _ => ?_
  dsimp only
  by_cases hscanned : 8194 < scan.scanned + 1
  · rw [if_pos hscanned, countEntry, if_pos hscanned]
    exact triple_throw fun w hw => ⟨fun _ => rfl, hw⟩
  rw [if_neg hscanned, if_neg (by decide), countEntry, if_neg hscanned, sweepEntry]
  by_cases hidentity : file.1 = identityName
  · rw [if_pos hidentity, if_pos (Or.inl hidentity), hidentity, isPendingBlock_identity.1,
      if_neg Bool.false_ne_true]
    exact triple_pure fun w hw => ⟨rfl, hw⟩
  rw [if_neg hidentity, if_neg Bool.false_ne_true]
  by_cases hpending : isPendingBlock file.1 = true
  · rw [if_pos hpending, if_pos (Or.inr hpending), if_pos hpending, unlink]
    refine triple_bind (Q := fun _ => At (erase files file.1) ren m e) (triple_syscall ?_ ?_)
      fun _ => triple_pure fun w hw => ⟨rfl, hw⟩
    · exact fun w hw => ⟨congrArg (erase · file.1) hw.files, hw.renamed, hw.memory, hw.environment⟩
    · exact fun w hw hcalm _ _ =>
        ⟨fun h => absurd (hw.environment ▸ h) hcalm, hw.files, hw.renamed, hw.memory,
          hw.environment⟩
  rw [if_neg hpending, if_neg (not_or.2 ⟨hidentity, hpending⟩), if_neg hpending]
  by_cases hsize : isBlock file.1 = false ∨ file.2.length < headerSize + 4 ∨
      headerSize + limits.blockBytes < file.2.length
  · rw [if_pos hsize, if_pos hsize]
    exact triple_throw fun w hw => ⟨fun _ => rfl, hw⟩
  rw [if_neg hsize, if_neg hsize]
  by_cases hlimit : limits.blocks < scan.blocks + 1 ∨
      limits.totalBytes - scan.bytes < file.2.length
  · rw [if_pos hlimit, if_pos hlimit]
    exact triple_throw fun w hw => ⟨fun _ => rfl, hw⟩
  · rw [if_neg hlimit, if_neg hlimit]
    exact triple_pure fun w hw => ⟨rfl, hw⟩

theorem foldlM_scanEntry_spec (l files : Files) (scan : Scan) :
    Triple (At files ren m e) (l.foldlM (scanEntry .resume false limits) scan)
      (fun scan' w => l.foldlM (countEntry limits) scan = some scan' ∧
        At (l.foldl sweepEntry files) ren m e w)
      (fun _ w => (e.Calm → l.foldlM (countEntry limits) scan = none) ∧
        ∃ l' : Files, At (l'.foldl sweepEntry files) ren m e w) := by
  induction l generalizing files scan with
  | nil => exact triple_pure fun w hw => ⟨rfl, hw⟩
  | cons file l ih =>
    rw [List.foldlM_cons]
    refine triple_bind (triple_conseq (scanEntry_spec files scan file) (fun _ hw => hw)
      (fun _ _ hw => hw) ?_) fun scan' => triple_of_fact fun hcount => ?_
    · rintro _ w ⟨hcount, hw⟩
      refine ⟨fun hcalm => ?_, [], hw⟩
      rw [List.foldlM_cons, hcount hcalm]
      rfl
    · refine triple_conseq (ih (sweepEntry files file) scan') (fun _ hw => hw) ?_ ?_
      · rintro scan'' w ⟨hfold, hw⟩
        refine ⟨?_, hw⟩
        rw [List.foldlM_cons, hcount]
        exact hfold
      · rintro _ w ⟨hfold, l', hw⟩
        refine ⟨fun hcalm => ?_, file :: l', hw⟩
        rw [List.foldlM_cons, hcount]
        exact hfold hcalm

end Scan

/-- The sizes of the blocks among these files. -/
def blockSizes (l : Files) : List ℕ := (l.filter fun file => isBlock file.1).map fun file => file.2.length

/-- The scan counts this many more entries, with blocks of these sizes, within its limits. -/
structure Fits (limits : Limits) (scan : Scan) (count : ℕ) (sizes : List ℕ) : Prop where
  scanned : scan.scanned + count ≤ 8194
  size : ∀ size ∈ sizes, size ≤ headerSize + limits.blockBytes
  blocks : scan.blocks + sizes.length ≤ limits.blocks
  bytes : scan.bytes + sizes.sum ≤ limits.totalBytes

theorem fits_succ {limits : Limits} {scan : Scan} {count : ℕ} {sizes : List ℕ} :
    Fits limits { scan with scanned := scan.scanned + 1 } count sizes ↔
      Fits limits scan (count + 1) sizes := by
  constructor
  · intro h
    refine ⟨?_, h.size, h.blocks, h.bytes⟩
    rw [Nat.add_comm count, ← Nat.add_assoc]
    exact h.scanned
  · intro h
    refine ⟨?_, h.size, h.blocks, h.bytes⟩
    rw [Nat.add_assoc, Nat.add_comm 1]
    exact h.scanned

theorem fits_succ_cons {limits : Limits} {scan : Scan} {count size : ℕ} {sizes : List ℕ} :
    size ≤ headerSize + limits.blockBytes ∧
        Fits limits ⟨scan.scanned + 1, scan.bytes + size, scan.blocks + 1⟩ count sizes ↔
      Fits limits scan (count + 1) (size :: sizes) := by
  constructor
  · rintro ⟨hsize, hscanned, hsizes, hblocks, hbytes⟩
    dsimp only at hscanned hblocks hbytes
    refine ⟨by omega, ?_, by rw [List.length_cons]; omega, by rw [List.sum_cons]; omega⟩
    exact List.forall_mem_cons.2 ⟨hsize, hsizes⟩
  · rintro ⟨hscanned, hsizes, hblocks, hbytes⟩
    rw [List.length_cons] at hblocks
    rw [List.sum_cons] at hbytes
    obtain ⟨hsize, hsizes⟩ := List.forall_mem_cons.1 hsizes
    exact ⟨hsize, by dsimp only; omega, hsizes, by dsimp only; omega, by dsimp only; omega⟩

/-- A file of this format. -/
def Known (file : FileName × Bytes) : Prop :=
  (isBlock file.1 = false ∧ (file.1 = identityName ∨ isPendingBlock file.1 = true)) ∨
    (isBlock file.1 = true ∧ isPendingBlock file.1 = false ∧ file.1 ≠ identityName ∧
      headerSize + 4 ≤ file.2.length)

theorem blockSizes_cons (file : FileName × Bytes) (l : Files) : blockSizes (file :: l) =
    if isBlock file.1 = true then file.2.length :: blockSizes l else blockSizes l := by
  rw [blockSizes, List.filter_cons]
  split_ifs <;> rfl

/-- The scan counts every block, or stops at a limit. -/
theorem foldlM_countEntry {limits : Limits} (l : Files) (hl : ∀ file ∈ l, Known file) (scan : Scan)
    (hscanned : scan.scanned ≤ 8194) (hblocks : scan.blocks ≤ limits.blocks)
    (hbytes : scan.bytes ≤ limits.totalBytes) (scan' : Scan) :
    l.foldlM (countEntry limits) scan = some scan' ↔
      Fits limits scan l.length (blockSizes l) ∧
        scan' = ⟨scan.scanned + l.length, scan.bytes + (blockSizes l).sum,
          scan.blocks + (blockSizes l).length⟩ := by
  induction l generalizing scan with
  | nil =>
    rw [List.foldlM_nil, Option.pure_def, Option.some_inj]
    constructor
    · rintro rfl
      exact ⟨⟨hscanned, fun _ h => (nomatch h), hblocks, hbytes⟩, rfl⟩
    · rintro ⟨-, rfl⟩
      rfl
  | cons file l ih =>
    obtain ⟨hfile, hl⟩ := List.forall_mem_cons.1 hl
    rw [List.foldlM_cons, blockSizes_cons, List.length_cons, countEntry]
    by_cases hlimit : 8194 < scan.scanned + 1
    · rw [if_pos hlimit]
      refine ⟨fun h => (nomatch h), fun h => ?_⟩
      have := h.1.scanned
      omega
    rw [if_neg hlimit]
    rcases hfile with ⟨hblock, hname⟩ | ⟨hblock, hpending, hidentity, hsize⟩
    · rw [if_pos hname, hblock, if_neg Bool.false_ne_true, ← fits_succ]
      refine Iff.trans (ih hl ⟨scan.scanned + 1, scan.bytes, scan.blocks⟩ (by dsimp only; omega) hblocks
        hbytes) (and_congr_right fun _ => ?_)
      rw [Nat.add_right_comm, Nat.add_assoc scan.scanned]
    · rw [if_neg (by simp [hpending, hidentity]), if_pos hblock, ← fits_succ_cons]
      by_cases hlarge : headerSize + limits.blockBytes < file.2.length
      · rw [if_pos (Or.inr (Or.inr hlarge))]
        exact ⟨fun h => (nomatch h), fun h => absurd h.1.1 (Nat.not_le.2 hlarge)⟩
      rw [if_neg (by simp [hblock]; omega)]
      by_cases hfull : limits.blocks < scan.blocks + 1 ∨
          limits.totalBytes - scan.bytes < file.2.length
      · rw [if_pos hfull]
        refine ⟨fun h => (nomatch h), ?_⟩
        rintro ⟨⟨-, -, -, hblocks', hbytes'⟩, -⟩
        dsimp only at hblocks' hbytes'
        omega
      · rw [if_neg hfull]
        refine Iff.trans (ih hl ⟨scan.scanned + 1, scan.bytes + file.2.length, scan.blocks + 1⟩
          (by dsimp only; omega) (by dsimp only; omega) (by dsimp only; omega)) ?_
        rw [List.sum_cons, List.length_cons, Nat.add_right_comm, Nat.add_assoc scan.scanned,
          Nat.add_assoc scan.bytes, Nat.add_right_comm scan.blocks, Nat.add_assoc scan.blocks]
        exact and_congr_left fun _ => (and_iff_right (Nat.not_lt.1 hlarge)).symm

theorem blockSizes_append (l l' : Files) :
    blockSizes (l ++ l') = blockSizes l ++ blockSizes l' := by
  rw [blockSizes, List.filter_append, List.map_append, blockSizes, blockSizes]

theorem blockSizes_perm {l l' : Files} (h : l.Perm l') : (blockSizes l).Perm (blockSizes l') :=
  (h.filter _).map _

theorem length_header (sha : Checksum) {identity : Bytes} (hidentity : identity.length = 64)
    (key : Bytes) (offset : UInt64) (data : List UInt32) :
    (header sha identity key offset data).length = headerSize := by
  have hmagic : magic.length = 8 := by decide
  rw [header, List.length_append, List.length_append, List.length_append, List.length_append,
    List.length_append, length_littleEndian, length_littleEndian, length_littleEndian, digest,
    sha.length_hex, hidentity, hmagic, headerSize]

theorem length_of_validDigest {identity : Bytes} (h : validDigest identity = true) :
    identity.length = 64 := by
  rw [validDigest, Bool.and_eq_true, beq_iff_eq] at h
  exact h.1

theorem Published.length_content (sha : Checksum) {identity : Bytes}
    (hidentity : identity.length = 64) (b : Published) :
    (b.content sha identity).length = b.size := by
  rw [content, List.length_append, length_header sha hidentity, length_flatMap_toBytes, size]

namespace Catalog

variable {sha : Checksum} {catalog : Catalog}

/-- The blocks of a catalog fit in these limits. -/
structure Within (catalog : Catalog) (limits : Limits) : Prop where
  size : ∀ b ∈ catalog.blocks, b.size ≤ headerSize + limits.blockBytes
  blocks : catalog.blocks.length ≤ limits.blocks
  bytes : catalog.bytes ≤ limits.totalBytes

theorem length_identity : catalog.identity.length = 64 :=
  length_of_validDigest catalog.validDigest_identity

theorem known_file {b : Published} : Known (b.file sha catalog.identity) := by
  refine Or.inr ⟨?_, isPendingBlock_blockName b.key, blockName_ne_identityName b.key, ?_⟩
  · rw [Published.file, isBlock_blockName, b.validKey_key]
  · rw [Published.file, b.length_content sha length_identity, Published.size]
    have := List.length_pos_of_ne_nil b.data_ne_nil
    omega

theorem known_of_mem {file : FileName × Bytes} (h : file ∈ catalog.files sha) : Known file := by
  rcases List.mem_cons.1 h with rfl | hmem
  · exact Or.inl ⟨isBlock_identity, Or.inl rfl⟩
  · obtain ⟨b, -, rfl⟩ := List.mem_map.1 hmem
    exact known_file

theorem blockSizes_files : blockSizes (catalog.files sha) = catalog.blocks.map Published.size := by
  have hblocks : ∀ blocks : List Published,
      blockSizes (blocks.map (Published.file sha catalog.identity)) =
        blocks.map Published.size := by
    intro blocks
    induction blocks with
    | nil => rfl
    | cons b blocks ih =>
      have hblock : isBlock (b.file sha catalog.identity).1 = true := by
        rw [Published.file, isBlock_blockName, b.validKey_key]
      rw [List.map_cons, blockSizes_cons, if_pos hblock, ih, List.map_cons, Published.file,
        b.length_content sha length_identity]
  rw [files, blockSizes_cons, if_neg (by rw [isBlock_identity]; exact Bool.false_ne_true), hblocks]

end Catalog

namespace Directory

variable {sha : Checksum} {catalog : Catalog} {files l : Files} {limits : Limits}

theorem known_of_mem (h : Directory sha (some catalog) files) {file : FileName × Bytes}
    (hfile : file ∈ files) : Known file := by
  cases h with
  | settled h => exact Catalog.known_of_mem (h.mem_iff.1 hfile)
  | pendingBlock key c hkey h =>
    rcases List.mem_append.1 (h.mem_iff.1 hfile) with hmem | hmem
    · exact Catalog.known_of_mem hmem
    · obtain rfl := List.mem_singleton.1 hmem
      refine Or.inl ⟨isBlock_pendingName _, Or.inr ?_⟩
      rw [isPendingBlock_pendingName, hkey]

theorem blockSizes_perm (h : Directory sha (some catalog) files) :
    (blockSizes files).Perm (catalog.blocks.map Published.size) := by
  rw [← @Catalog.blockSizes_files sha]
  cases h with
  | settled h => exact BlockFiles.blockSizes_perm h
  | pendingBlock key c _ h =>
    have hnone : blockSizes [(pendingName (blockName key), c)] = [] := by
      rw [blockSizes_cons, if_neg (by rw [isBlock_pendingName]; exact Bool.false_ne_true)]
      rfl
    have hperm := BlockFiles.blockSizes_perm h
    rwa [blockSizes_append, hnone, List.append_nil] at hperm

theorem length_le (h : Directory sha (some catalog) files) :
    files.length ≤ catalog.blocks.length + 2 := by
  cases h with
  | settled h =>
    rw [h.length_eq, Catalog.files, List.length_cons, List.length_map]
    omega
  | pendingBlock key c _ h =>
    rw [h.length_eq, List.length_append, Catalog.files, List.length_cons, List.length_map,
      List.length_singleton]

/-- **The scan of a directory.** It succeeds when the blocks fit in the limits. -/
theorem foldlM_countEntry_iff (h : Directory sha (some catalog) files) (hl : l.Perm files)
    (hlimits : limits.blocks ≤ 4096) (scan : Scan) :
    l.foldlM (countEntry limits) ⟨0, 0, 0⟩ = some scan ↔ catalog.Within limits ∧
      scan = ⟨files.length, catalog.bytes, catalog.blocks.length⟩ := by
  have hsizes := (BlockFiles.blockSizes_perm hl).trans h.blockSizes_perm
  have hlength : (blockSizes l).length = catalog.blocks.length := by
    rw [hsizes.length_eq, List.length_map]
  have hsum : (blockSizes l).sum = catalog.bytes := hsizes.sum_nat
  rw [foldlM_countEntry l (fun file hfile => h.known_of_mem (hl.mem_iff.1 hfile)) _ (Nat.zero_le _)
    (Nat.zero_le _) (Nat.zero_le _), hlength, hsum, hl.length_eq]
  dsimp only
  rw [Nat.zero_add, Nat.zero_add, Nat.zero_add]
  refine and_congr_left fun _ => ⟨fun hfits => ⟨?_, ?_, ?_⟩, fun hwithin => ⟨?_, ?_, ?_, ?_⟩⟩
  · intro b hb
    exact hfits.size _ (hsizes.mem_iff.2 (List.mem_map_of_mem hb))
  · have := hfits.blocks
    dsimp only at this
    omega
  · have := hfits.bytes
    dsimp only at this
    omega
  · have := h.length_le
    have := hwithin.blocks
    dsimp only
    omega
  · intro size hsize
    obtain ⟨b, hb, rfl⟩ := List.mem_map.1 (hsizes.mem_iff.1 hsize)
    exact hwithin.size b hb
  · have := hwithin.blocks
    dsimp only
    omega
  · have := hwithin.bytes
    dsimp only
    omega

theorem sweepEntry (h : Directory sha (some catalog) files) (file : FileName × Bytes) :
    Directory sha (some catalog) (sweepEntry files file) := by
  rw [BlockFiles.sweepEntry]
  split_ifs with hpending
  · obtain ⟨key, -, hname⟩ := exists_of_isPendingBlock hpending
    have hdistinct := h.distinct
    rw [hname]
    cases h with
    | settled h =>
      rw [erase_eq_self]
      · exact .settled h
      · rw [find_perm hdistinct h, Catalog.find_files_pendingName]
    | pendingBlock key' c hkey h =>
      by_cases hname' : pendingName (blockName key) = pendingName (blockName key')
      · rw [hname']
        refine .settled ((h.filter _).trans ?_)
        rw [← erase, erase_append_self (Catalog.find_files_pendingName _)]
      · rw [erase_eq_self]
        · exact .pendingBlock key' c hkey h
        · rw [find_perm hdistinct h, find_append_singleton (Catalog.find_files_pendingName _),
            if_neg hname', Catalog.find_files_pendingName]
  · exact h

theorem foldl_sweepEntry (h : Directory sha (some catalog) files) (l : Files) :
    Directory sha (some catalog) (l.foldl BlockFiles.sweepEntry files) := by
  induction l generalizing files with
  | nil => exact h
  | cons file l ih => exact ih (h.sweepEntry file)

end Directory

theorem mem_foldl_sweepEntry {file : FileName × Bytes} (l files : Files)
    (h : file ∈ l.foldl sweepEntry files) :
    file ∈ files ∧ (isPendingBlock file.1 = true → file ∉ l) := by
  induction l generalizing files with
  | nil => exact ⟨h, fun _ => List.not_mem_nil⟩
  | cons first l ih =>
    obtain ⟨hmem, hnot⟩ := ih (sweepEntry files first) h
    rw [sweepEntry] at hmem
    split_ifs at hmem with hfirst
    · obtain ⟨hmem, hne⟩ := List.mem_filter.1 hmem
      refine ⟨hmem, fun hpending hin => ?_⟩
      rcases List.mem_cons.1 hin with rfl | hin
      · simp at hne
      · exact hnot hpending hin
    · refine ⟨hmem, fun hpending hin => ?_⟩
      rcases List.mem_cons.1 hin with rfl | hin
      · exact hfirst hpending
      · exact hnot hpending hin

/-- A scan to its end leaves the catalog alone. -/
theorem Directory.perm_foldl_sweepEntry {sha : Checksum} {catalog : Catalog} {files l : Files}
    (h : Directory sha (some catalog) files) (hl : l.Perm files) :
    (l.foldl BlockFiles.sweepEntry files).Perm (catalog.files sha) := by
  rcases h.foldl_sweepEntry l with _ | _ | hperm | ⟨key, c, hkey, hperm⟩
  · exact hperm
  · have hmem : (pendingName (blockName key), c) ∈ l.foldl BlockFiles.sweepEntry files :=
      hperm.mem_iff.2 (List.mem_append_right _ List.mem_cons_self)
    obtain ⟨hfile, hnot⟩ := mem_foldl_sweepEntry l files hmem
    refine absurd (hl.mem_iff.2 hfile) (hnot ?_)
    rw [isPendingBlock_pendingName, hkey]

/-! ### Opening -/

section Open

variable {μ : Type} {sha : Checksum} {ren : List FileName} {m : μ} {e : FileSystem.Environment}
  {identity : Bytes} {limits : Limits}

/-- A fresh catalog. -/
def Catalog.fresh (identity : Bytes) (h : validDigest identity = true) : Catalog :=
  ⟨identity, [], h, List.nodup_nil⟩

theorem length_manifest (hidentity : identity.length = 64) : (manifest identity).length = 85 := by
  have hhead : (ByteString.bytes "RESONANTIA_BLOCKS 1\n").length = 20 := by decide
  rw [manifest, List.length_append, List.length_append, hhead, hidentity]
  rfl

theorem manifest_injective {identity' : Bytes} (h : manifest identity = manifest identity') :
    identity = identity' := by
  rw [manifest, manifest, List.append_assoc, List.append_assoc] at h
  exact List.append_cancel_right (List.append_cancel_left h)

/-- Before the identity is published: nothing, or the publication that did not come to its end. -/
theorem publishIdentity_spec (mode : Mode) {files : Files} (hfiles : Directory sha none files)
    (hmode : mode = .create → files = []) (hvalid : validDigest identity = true) :
    Triple (At files ren m e) (publishIdentity mode identity)
      (fun _ => At ((Catalog.fresh identity hvalid).files sha) (identityName :: ren) m e)
      (fun _ w => ¬e.Calm ∧ ((∃ files', Directory sha none files' ∧ At files' ren m e w) ∨
        At ((Catalog.fresh identity hvalid).files sha) (identityName :: ren) m e w)) := by
  have hpublish : Triple (At [] ren m e) (publish identityName (manifest identity) [])
      (fun _ => At ((Catalog.fresh identity hvalid).files sha) (identityName :: ren) m e)
      (fun _ w => ¬e.Calm ∧ ((∃ files', Directory sha none files' ∧ At files' ren m e w) ∨
        At ((Catalog.fresh identity hvalid).files sha) (identityName :: ren) m e w)) := by
    refine triple_conseq (publish_spec rfl rfl) (fun _ hw => hw) ?_ ?_
    · intro _ w hw
      rw [List.append_nil] at hw
      exact hw
    · rintro _ w ⟨hcalm, htorn⟩
      rw [List.append_nil] at htorn
      refine ⟨hcalm, ?_⟩
      cases htorn with
      | absent h => exact Or.inl ⟨[], .empty, h⟩
      | pending c hc h =>
        rw [length_manifest (length_of_validDigest hvalid)] at hc
        exact Or.inl ⟨_, .pendingIdentity c (by omega), h⟩
      | renamed h => exact Or.inr h
  cases mode with
  | create => exact hmode rfl ▸ hpublish
  | resume =>
    refine triple_bind (Q := fun _ => At [] ren m e) ?_ fun _ => hpublish
    rw [unlink]
    refine triple_syscall ?_ ?_
    · intro w hw
      refine ⟨?_, hw.renamed, hw.memory, hw.environment⟩
      have herase : erase files (pendingName identityName) = [] := by
        cases hfiles with
        | empty => rfl
        | pendingIdentity c hc => simp [erase]
      exact (congrArg (erase · (pendingName identityName)) hw.files).trans herase
    · intro w hw hcalm stop n
      exact ⟨hw.environment ▸ hcalm,
        Or.inl ⟨files, hfiles, hw.files, hw.renamed, hw.memory, hw.environment⟩⟩

/-- A new checkpoint wants an empty directory. -/
theorem scanEntry_create_spec (files : Files) (initializing : Bool) (scan : Scan)
    (file : FileName × Bytes) :
    Triple (At files ren m e) (scanEntry .create initializing limits scan file) (fun _ _ => False)
      (fun _ => At files ren m e) := by
  rw [scanEntry]
  refine triple_bind (triple_check fun w stop hcalm hw => hw) fun _ => ?_
  dsimp only
  rw [if_pos rfl]
  split_ifs <;> exact triple_throw fun w hw => hw

theorem foldlM_scanEntry_create_spec {l files : Files} (hl : l ≠ []) (initializing : Bool)
    (scan : Scan) :
    Triple (At files ren m e) (l.foldlM (scanEntry .create initializing limits) scan)
      (fun _ _ => False) (fun _ => At files ren m e) := by
  obtain ⟨file, l, rfl⟩ := List.exists_cons_of_ne_nil hl
  rw [List.foldlM_cons]
  exact triple_bind (scanEntry_create_spec files initializing scan file) fun _ _ h => h.elim

/-- The scan before the identity is published. -/
theorem foldlM_scanEntry_initializing_spec (mode : Mode) {files l : Files}
    (hfiles : Directory sha none files) (hl : l.Perm files) :
    Triple (At files ren m e) (l.foldlM (scanEntry mode true limits) ⟨0, 0, 0⟩)
      (fun scan w => (scan.bytes = 0 ∧ scan.blocks = 0 ∧ (mode = .create → files = [])) ∧
        At files ren m e w)
      (fun _ w => (e.Calm → mode = .create) ∧ At files ren m e w) := by
  cases hfiles with
  | empty =>
    rw [hl.eq_nil, List.foldlM_nil]
    exact triple_pure fun w hw => ⟨⟨rfl, rfl, fun _ => rfl⟩, hw⟩
  | pendingIdentity c hc =>
    obtain rfl := List.perm_singleton.1 hl
    cases mode with
    | create =>
      exact triple_conseq (foldlM_scanEntry_create_spec (List.cons_ne_nil _ _) true _)
        (fun _ hw => hw) (fun _ _ h => h.elim) fun _ w hw => ⟨fun _ => rfl, hw⟩
    | resume =>
      rw [List.foldlM_cons, scanEntry]
      refine triple_bind (Q := fun scan w => (scan.bytes = 0 ∧ scan.blocks = 0) ∧
        At [(pendingName identityName, c)] ren m e w) ?_ fun scan => ?_
      · refine triple_bind (triple_check fun w stop hcalm hw => ⟨fun h => absurd h hcalm, hw⟩)
          fun _ => ?_
        dsimp only
        rw [if_neg (by decide), if_neg (by decide), if_neg (pendingName_ne_identityName _),
          if_pos rfl, if_pos ⟨rfl, hc⟩]
        exact triple_pure fun w hw => ⟨⟨rfl, rfl⟩, hw⟩
      · rw [List.foldlM_nil]
        exact triple_pure fun w hw => ⟨⟨hw.1.1, hw.1.2, fun h => nomatch h⟩, hw.2⟩

/-- Whether the identity is still to be published, or which identity the directory has. -/
theorem readIdentity_spec (mode : Mode) (files : Files) :
    Triple (At files ren m e) (readIdentity mode identity)
      (fun initializing w => (initializing = true ∧ (mode = .create ∨ find files identityName = none) ∨
        initializing = false ∧ mode = .resume ∧
          find files identityName = some (manifest identity)) ∧ At files ren m e w)
      (fun _ w => (e.Calm → mode = .resume ∧ ∃ content, find files identityName = some content ∧
        content ≠ manifest identity) ∧ At files ren m e w) := by
  cases mode with
  | create => exact triple_pure fun w hw => ⟨Or.inl ⟨rfl, Or.inl rfl⟩, hw⟩
  | resume =>
    rw [readIdentity]
    refine triple_bind (triple_check fun w stop hcalm hw => ⟨fun h => absurd h hcalm, hw⟩)
      fun _ => triple_get_bind fun w₀ hw₀ => ?_
    rw [hw₀.files]
    cases hfind : find files identityName with
    | none => exact triple_pure fun w hw => ⟨Or.inl ⟨rfl, Or.inr rfl⟩, hw ▸ hw₀⟩
    | some content =>
      dsimp only
      split_ifs with hlength hcontent
      · exact triple_throw fun w hw =>
          ⟨fun _ => ⟨rfl, content, rfl, fun h => hlength (congrArg List.length h)⟩, hw ▸ hw₀⟩
      · exact triple_throw fun w hw => ⟨fun _ => ⟨rfl, content, rfl, hcontent⟩, hw ▸ hw₀⟩
      · exact triple_pure fun w hw =>
          ⟨Or.inr ⟨rfl, rfl, congrArg some (not_not.1 hcontent)⟩, hw ▸ hw₀⟩

/-- **Opening before the identity is published.** -/
theorem openCheckpoint_fresh_spec (mode : Mode) {files : Files}
    (hfiles : Directory sha none files) :
    Triple (At files ren m e) (openCheckpoint mode identity limits)
      (fun c w => validLimits limits = true ∧ c = ⟨identity, limits, 0, 0, 0, true⟩ ∧
        ∃ hvalid, At ((Catalog.fresh identity hvalid).files sha) (identityName :: ren) m e w)
      (fun _ w => (e.Calm →
          ¬(mode = .resume ∧ validDigest identity = true ∧ validLimits limits = true)) ∧
        ((∃ files', Directory sha none files' ∧ At files' ren m e w) ∨
          ∃ hvalid, At ((Catalog.fresh identity hvalid).files sha) (identityName :: ren) m e w)) := by
  have hkept : ∀ w : World μ, At files ren m e w →
      (∃ files', Directory sha none files' ∧ At files' ren m e w) ∨
        ∃ hvalid, At ((Catalog.fresh identity hvalid).files sha) (identityName :: ren) m e w :=
    fun w hw => Or.inl ⟨files, hfiles, hw⟩
  rw [openCheckpoint]
  by_cases hinvalid : validDigest identity = false ∨ validLimits limits = false
  · rw [if_pos hinvalid]
    refine triple_throw fun w hw => ⟨?_, hkept w hw⟩
    rintro - ⟨-, hdigest, hlimits⟩
    rcases hinvalid with h | h
    · exact Bool.false_ne_true (h ▸ hdigest)
    · exact Bool.false_ne_true (h ▸ hlimits)
  rw [if_neg hinvalid]
  obtain ⟨hvalid, hlimits⟩ := not_or.1 hinvalid
  rw [Bool.not_eq_false] at hvalid hlimits
  have hnone : find files identityName = none :=
    hfiles.find_of_none fun stem h => pendingName_ne_identityName stem h.symm
  refine triple_bind (triple_check fun w stop hcalm hw => ⟨fun h => absurd h hcalm, hkept w hw⟩)
    fun _ => ?_
  refine triple_bind (triple_check fun w stop hcalm hw => ⟨fun h => absurd h hcalm, hkept w hw⟩)
    fun _ => ?_
  refine triple_bind (triple_conseq (readIdentity_spec mode files) (fun _ hw => hw)
    (fun _ _ hw => hw) ?_) fun initializing => triple_of_fact fun hinit => ?_
  · rintro _ w ⟨hcontent, hw⟩
    refine ⟨fun hcalm => ?_, hkept w hw⟩
    obtain ⟨-, content, hfind, -⟩ := hcontent hcalm
    rw [hnone] at hfind
    cases hfind
  have hinit' : initializing = true := by
    rcases hinit with h | ⟨-, -, h⟩
    · exact h.1
    · rw [hnone] at h
      cases h
  subst hinit'
  refine triple_get_bind fun w₀ hw₀ => ?_
  have hlisting : (w₀.environment.listing w₀.files).Perm files := by
    rw [← hw₀.files]
    exact w₀.environment.listing_perm w₀.files
  refine triple_bind (triple_conseq
    (foldlM_scanEntry_initializing_spec mode hfiles hlisting) (fun w hw => hw ▸ hw₀)
    (fun _ _ hw => hw) ?_) fun scan => triple_of_fact fun hscan => ?_
  · rintro _ w ⟨hcreate, hw⟩
    refine ⟨fun hcalm hresume => ?_, hkept w hw⟩
    rw [hcreate hcalm] at hresume
    cases hresume.1
  obtain ⟨hbytes, hblocks, hmode⟩ := hscan
  rw [if_pos rfl]
  refine triple_bind (triple_conseq (publishIdentity_spec mode hfiles hmode hvalid)
    (fun _ hw => hw) (fun _ _ hw => hw) ?_) fun _ => ?_
  · rintro _ w ⟨hcalm, hw⟩
    exact ⟨fun h => absurd h hcalm, hw.imp_right fun hw => ⟨hvalid, hw⟩⟩
  refine triple_bind (triple_check fun w stop hcalm hw =>
    ⟨fun h => absurd h hcalm, Or.inr ⟨hvalid, hw⟩⟩) fun _ => triple_pure fun w hw => ?_
  rw [hbytes, hblocks]
  exact ⟨hlimits, rfl, hvalid, hw⟩

/-- **Opening a directory with its identity.** The scan finds the blocks of the catalog. -/
theorem openCheckpoint_known_spec (mode : Mode) {catalog : Catalog} {files : Files}
    (hfiles : Directory sha (some catalog) files) :
    Triple (At files ren m e) (openCheckpoint mode identity limits)
      (fun c w => (identity = catalog.identity ∧ validLimits limits = true ∧
          catalog.Within limits) ∧
        c = ⟨identity, limits, catalog.bytes, catalog.blocks.length, 0, true⟩ ∧
        ∃ files' : Files, files'.Perm (catalog.files sha) ∧ At files' ren m e w)
      (fun _ w => (e.Calm → ¬(mode = .resume ∧ identity = catalog.identity ∧
          validLimits limits = true ∧ catalog.Within limits)) ∧
        ∃ files', Directory sha (some catalog) files' ∧ At files' ren m e w) := by
  have hkept : ∀ w : World μ, At files ren m e w →
      ∃ files', Directory sha (some catalog) files' ∧ At files' ren m e w :=
    fun w hw => ⟨files, hfiles, hw⟩
  rw [openCheckpoint]
  by_cases hinvalid : validDigest identity = false ∨ validLimits limits = false
  · rw [if_pos hinvalid]
    refine triple_throw fun w hw => ⟨?_, hkept w hw⟩
    rintro - ⟨-, rfl, hlimits, -⟩
    rcases hinvalid with h | h
    · exact Bool.false_ne_true (h ▸ catalog.validDigest_identity)
    · exact Bool.false_ne_true (h ▸ hlimits)
  rw [if_neg hinvalid]
  have hlimits : validLimits limits = true := by
    rw [← Bool.not_eq_false]
    exact (not_or.1 hinvalid).2
  have hblocks : limits.blocks ≤ 4096 := by
    rw [validLimits] at hlimits
    simp only [Bool.and_eq_true, decide_eq_true_eq] at hlimits
    exact hlimits.2
  refine triple_bind (triple_check fun w stop hcalm hw => ⟨fun h => absurd h hcalm, hkept w hw⟩)
    fun _ => ?_
  refine triple_bind (triple_check fun w stop hcalm hw => ⟨fun h => absurd h hcalm, hkept w hw⟩)
    fun _ => ?_
  refine triple_bind (triple_conseq (readIdentity_spec mode files) (fun _ hw => hw)
    (fun _ _ hw => hw) ?_) fun initializing => triple_of_fact fun hinit => ?_
  · rintro _ w ⟨hcontent, hw⟩
    refine ⟨fun hcalm hopen => ?_, hkept w hw⟩
    obtain ⟨-, content, hfind, hne⟩ := hcontent hcalm
    rw [hfiles.find_identityName, ← hopen.2.1] at hfind
    exact hne (Option.some.inj hfind).symm
  refine triple_get_bind fun w₀ hw₀ => ?_
  have hlisting : (w₀.environment.listing w₀.files).Perm files := by
    rw [← hw₀.files]
    exact w₀.environment.listing_perm w₀.files
  rw [hfiles.find_identityName] at hinit
  rcases hinit with ⟨-, rfl | hnone⟩ | ⟨rfl, rfl, hidentity⟩
  · have hne : w₀.environment.listing w₀.files ≠ [] := by
      intro hnil
      have hmem := hlisting.mem_iff.2 (mem_of_find hfiles.find_identityName)
      rw [hnil] at hmem
      cases hmem
    refine triple_bind (triple_conseq (foldlM_scanEntry_create_spec hne _ _)
      (fun w hw => hw ▸ hw₀) (fun _ _ h => h) ?_) fun _ _ h => h.elim
    exact fun _ w hw => ⟨fun _ h => (nomatch h.1), hkept w hw⟩
  · cases hnone
  · have hidentity' := (manifest_injective (Option.some.inj hidentity)).symm
    refine triple_bind (triple_conseq (foldlM_scanEntry_spec _ files _) (fun w hw => hw ▸ hw₀)
      (fun _ _ hw => hw) ?_) fun scan => triple_of_fact fun hscan => ?_
    · rintro _ w ⟨hscan, l', hw⟩
      refine ⟨fun hcalm hopen => ?_, _, hfiles.foldl_sweepEntry l', hw⟩
      have hsome := (hfiles.foldlM_countEntry_iff hlisting hblocks _).2 ⟨hopen.2.2.2, rfl⟩
      rw [hscan hcalm] at hsome
      cases hsome
    obtain ⟨hwithin, rfl⟩ := (hfiles.foldlM_countEntry_iff hlisting hblocks scan).1 hscan
    rw [if_neg Bool.false_ne_true]
    refine triple_bind (triple_check fun w stop hcalm hw =>
      ⟨fun h => absurd h hcalm, _, hfiles.foldl_sweepEntry _, hw⟩) fun _ =>
      triple_pure fun w hw => ?_
    exact ⟨⟨hidentity', hlimits, hwithin⟩, rfl, _, hfiles.perm_foldl_sweepEntry hlisting, hw⟩

end Open

end Resonantia.Io.BlockFiles
