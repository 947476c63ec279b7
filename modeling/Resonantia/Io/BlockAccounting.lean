import Resonantia.Io.BlockCrash

/-!
# Accounting of block checkpoints

A checkpoint counts its blocks and their bytes: anew by the scan when it is opened, and one by one
when it saves. The limits of the disk rest on these counters. Here the directory may hold any files
when the first owner opens it, and every call may fail or be the last thing that its process does.

## Main definitions

* `Io.BlockFiles.Accounts`: the counters are the totals of the block files, within the limits.
* `Io.BlockFiles.Accounted`: what a sequence of calls keeps.
* `Io.BlockFiles.Dead`: a session that was closed, or whose storage failed.

## Main results

* `Io.BlockFiles.scan_within`: the counters of the scan stay within the limits.
* `Io.BlockFiles.accounting_of_run`: every sequence of calls is accounted for, and a save that stops
  changes nothing or ends the work of its session.
-/

namespace Resonantia.Io.BlockFiles

open ByteString Effect FileSystem FloatWord

/-! ### Totals -/

/-- The counters are the totals of these block files, within the limits. -/
structure Counted (limits : Limits) (files : Files) (bytes blocks : ℕ) : Prop where
  bytes_eq : bytes = (blockSizes files).sum
  blocks_eq : blocks = (blockSizes files).length
  bytes_le : bytes ≤ limits.totalBytes
  blocks_le : blocks ≤ limits.blocks

/-- The counters of a session. -/
def Accounts (c : Impl) (files : Files) : Prop := Counted c.limits files c.bytes c.blocks

theorem blockSizes_singleton (file : FileName × Bytes) :
    blockSizes [file] = if isBlock file.1 = true then [file.2.length] else [] :=
  blockSizes_cons file []

theorem isBlock_of_isPendingBlock {name : FileName} (h : isPendingBlock name = true) :
    isBlock name = false := by
  obtain ⟨key, -, rfl⟩ := exists_of_isPendingBlock h
  exact isBlock_pendingName _

theorem Counted.perm {limits : Limits} {files files' : Files} {bytes blocks : ℕ}
    (h : Counted limits files bytes blocks) (hperm : files.Perm files') :
    Counted limits files' bytes blocks := by
  have hsizes := blockSizes_perm hperm
  exact ⟨h.bytes_eq.trans hsizes.sum_nat, h.blocks_eq.trans hsizes.length_eq, h.bytes_le,
    h.blocks_le⟩

/-- A file that is no block does not count. -/
theorem blockSizes_erase {files : Files} {name : FileName} (h : isBlock name = false) :
    blockSizes (erase files name) = blockSizes files := by
  rw [blockSizes, erase, List.filter_filter, blockSizes]
  congr 1
  refine List.filter_congr fun file _ => ?_
  by_cases hname : file.1 = name
  · rw [hname, h, Bool.false_and]
  · rw [decide_eq_true hname, Bool.and_true]

theorem blockSizes_foldl_sweepEntry (l files : Files) :
    blockSizes (l.foldl sweepEntry files) = blockSizes files := by
  induction l generalizing files with
  | nil => rfl
  | cons file l ih =>
    rw [List.foldl_cons, ih, sweepEntry]
    split_ifs with hpending
    · exact blockSizes_erase (isBlock_of_isPendingBlock hpending)
    · rfl

theorem distinct_foldl_sweepEntry {files : Files} (h : Distinct files) (l : Files) :
    Distinct (l.foldl sweepEntry files) := by
  induction l generalizing files with
  | nil => exact h
  | cons file l ih =>
    refine ih ?_
    rw [sweepEntry]
    split_ifs
    · exact h.erase file.1
    · exact h

/-! ### The scan -/

section Scan

variable {limits : Limits} {μ : Type}

/-- One entry counts as what it is. -/
theorem Counted.entry {l : Files} {scan scan' : Scan} {file : FileName × Bytes}
    (h : Counted limits l scan.bytes scan.blocks)
    (hcount : countEntry limits scan file = some scan') :
    Counted limits (l ++ [file]) scan'.bytes scan'.blocks := by
  obtain ⟨hbytes, hblocks, hbytesLe, hblocksLe⟩ := h
  have hsizes := blockSizes_append l [file]
  rw [blockSizes_singleton] at hsizes
  rw [countEntry] at hcount
  split_ifs at hcount with hscanned hskip hbad hlimit
  · obtain rfl := Option.some.inj hcount
    have hnone : isBlock file.1 = false := by
      rcases hskip with hname | hpending
      · rw [hname, isBlock_identity]
      · exact isBlock_of_isPendingBlock hpending
    rw [hnone, if_neg Bool.false_ne_true, List.append_nil] at hsizes
    exact ⟨by rw [hsizes, ← hbytes], by rw [hsizes, ← hblocks], hbytesLe, hblocksLe⟩
  · obtain rfl := Option.some.inj hcount
    have hblock : isBlock file.1 = true := by
      rw [← Bool.not_eq_false]
      exact (not_or.1 hbad).1
    rw [hblock, if_pos rfl] at hsizes
    obtain ⟨hroom, hspace⟩ := not_or.1 hlimit
    refine ⟨?_, ?_, ?_, ?_⟩
    · rw [hsizes, List.sum_append, List.sum_singleton, ← hbytes]
    · rw [hsizes, List.length_append, List.length_singleton, ← hblocks]
    · dsimp only
      omega
    · dsimp only
      omega

theorem Counted.foldlM {l l' : Files} {scan scan' : Scan}
    (h : Counted limits l scan.bytes scan.blocks)
    (hcount : l'.foldlM (countEntry limits) scan = some scan') :
    Counted limits (l ++ l') scan'.bytes scan'.blocks := by
  induction l' generalizing l scan with
  | nil =>
    obtain rfl := Option.some.inj hcount
    rwa [List.append_nil]
  | cons file l' ih =>
    rw [List.foldlM_cons] at hcount
    obtain ⟨next, hnext, hcount⟩ := Option.bind_eq_some_iff.1 hcount
    have hrest := ih (h.entry hnext) hcount
    rwa [List.append_assoc, List.singleton_append] at hrest

theorem counted_nil (limits : Limits) : Counted limits [] 0 0 :=
  ⟨rfl, rfl, Nat.zero_le _, Nat.zero_le _⟩

/-- The counters are within the limits. -/
def Scan.Within (scan : Scan) (limits : Limits) : Prop :=
  scan.bytes ≤ limits.totalBytes ∧ scan.blocks ≤ limits.blocks

theorem scanEntry_within (mode : Mode) (initializing : Bool) {scan : Scan}
    (h : scan.Within limits) (file : FileName × Bytes) :
    Triple (fun _ : World μ => True) (scanEntry mode initializing limits scan file)
      (fun scan' _ => scan'.Within limits) (fun _ _ => True) := by
  refine triple_bind (triple_trivial _) fun _ => ?_
  dsimp only
  split_ifs with hscanned hcreate hidentity hinit hfirst hpending hbad hlimit
  · exact triple_throw fun _ _ => trivial
  · exact triple_throw fun _ _ => trivial
  · exact triple_pure fun _ _ => h
  · exact triple_pure fun _ _ => h
  · exact triple_throw fun _ _ => trivial
  · exact triple_bind (triple_trivial _) fun _ => triple_pure fun _ _ => h
  · exact triple_throw fun _ _ => trivial
  · exact triple_throw fun _ _ => trivial
  · obtain ⟨hbytes, hblocks⟩ := h
    obtain ⟨hroom, hspace⟩ := not_or.1 hlimit
    refine triple_pure fun _ _ => ⟨?_, ?_⟩
    · change scan.bytes + file.2.length ≤ limits.totalBytes
      omega
    · change scan.blocks + 1 ≤ limits.blocks
      omega

/-- **The counters of the scan** stay within the limits, whatever the directory holds: what is left
of the limit never falls below zero. -/
theorem scan_within (mode : Mode) (initializing : Bool) (l : Files) {scan : Scan}
    (h : scan.Within limits) :
    Triple (fun _ : World μ => True) (l.foldlM (scanEntry mode initializing limits) scan)
      (fun scan' _ => scan'.Within limits) (fun _ _ => True) := by
  induction l generalizing scan with
  | nil => exact triple_pure fun _ _ => h
  | cons file l ih =>
    rw [List.foldlM_cons]
    refine triple_bind (Q := fun scan' _ => scan'.Within limits ∧ True) ?_ fun scan' =>
      triple_of_fact fun hscan => ih hscan
    exact triple_conseq (scanEntry_within mode initializing h file) (fun _ hw => hw)
      (fun _ _ hw => ⟨hw, trivial⟩) fun _ _ hw => hw

/-- A scan before the identity is published passes over its incomplete file only. -/
theorem foldlM_scanEntry_initializing {ren : List FileName} {m : μ} {e : FileSystem.Environment}
    (mode : Mode) (l files : Files) (scan : Scan)
    (hfiles : ∀ file ∈ l, file.1 ≠ identityName) :
    Triple (At files ren m e) (l.foldlM (scanEntry mode true limits) scan)
      (fun _ w => (∀ file ∈ l, file.1 = pendingName identityName ∧ file.2.length ≤ 256) ∧
        At files ren m e w) (fun _ => At files ren m e) := by
  induction l generalizing scan with
  | nil => exact triple_pure fun w hw => ⟨fun _ h => (nomatch h), hw⟩
  | cons file l ih =>
    obtain ⟨hidentity, hrest⟩ := List.forall_mem_cons.1 hfiles
    rw [List.foldlM_cons, scanEntry]
    refine triple_bind (Q := fun _ w => (file.1 = pendingName identityName ∧
      file.2.length ≤ 256) ∧ At files ren m e w) ?_ fun scan' => triple_of_fact fun hfirst => ?_
    · refine triple_bind (triple_check fun w stop hcalm hw => hw) fun _ => ?_
      dsimp only
      rw [if_neg hidentity, if_pos (rfl : true = true)]
      split_ifs with hscanned hcreate hfirst
      · exact triple_throw fun w hw => hw
      · exact triple_throw fun w hw => hw
      · exact triple_pure fun w hw => ⟨hfirst, hw⟩
      · exact triple_throw fun w hw => hw
    · exact triple_conseq (ih scan' hrest) (fun _ hw => hw)
        (fun _ w hw => ⟨List.forall_mem_cons.2 ⟨hfirst, hw.1⟩, hw.2⟩) fun _ _ hw => hw

end Scan

/-! ### Opening -/

section Open

variable {sha : Checksum} {ren : List FileName} {e : FileSystem.Environment} {identity : Bytes}
  {limits : Limits}

/-- A directory of the incomplete identity at most. -/
theorem directory_none {files : Files} (hdistinct : Distinct files)
    (h : ∀ file ∈ files, file.1 = pendingName identityName ∧ file.2.length ≤ 256) :
    Directory sha none files := by
  cases files with
  | nil => exact .empty
  | cons file files =>
    obtain ⟨⟨hname, hlength⟩, hrest⟩ := List.forall_mem_cons.1 h
    obtain rfl : files = [] := by
      rw [Distinct, List.map_cons, List.nodup_cons] at hdistinct
      refine List.eq_nil_iff_forall_not_mem.2 fun other hother => hdistinct.1 ?_
      rw [hname, ← (hrest other hother).1]
      exact List.mem_map_of_mem hother
    obtain ⟨name, content⟩ := file
    subst hname
    exact .pendingIdentity content hlength

theorem blockSizes_fresh (hvalid : validDigest identity = true) :
    blockSizes ((Catalog.fresh identity hvalid).files sha) = [] := Catalog.blockSizes_files

/-- **Opening.** The scan counts the blocks of every directory that it accepts. -/
theorem openCheckpoint_accounts (sha : Checksum) (mode : Mode) {files : Files}
    (hdistinct : Distinct files) :
    Triple (At files ren () e) (openCheckpoint mode identity limits)
      (fun c w => validDigest c.identity = true ∧ Accounts c w.files ∧ Distinct w.files)
      (fun _ w => Distinct w.files) := by
  by_cases hfresh : Directory sha none files
  · refine triple_conseq (openCheckpoint_fresh_spec mode hfresh) (fun _ hw => hw) ?_ ?_
    · rintro c w ⟨-, rfl, hvalid, hw⟩
      rw [hw.files]
      refine ⟨hvalid, ?_, Catalog.distinct_files⟩
      rw [Accounts]
      refine ⟨?_, ?_, Nat.zero_le _, Nat.zero_le _⟩
      · rw [blockSizes_fresh]
        rfl
      · rw [blockSizes_fresh]
        rfl
    · rintro _ w ⟨-, ⟨files', hfiles', hw⟩ | ⟨hvalid, hw⟩⟩
      · rw [hw.files]
        exact hfiles'.distinct
      · rw [hw.files]
        exact Catalog.distinct_files
  have hkept : ∀ w : World Unit, At files ren () e w → Distinct w.files := fun w hw => by
    rw [hw.files]
    exact hdistinct
  rw [openCheckpoint]
  by_cases hinvalid : validDigest identity = false ∨ validLimits limits = false
  · rw [if_pos hinvalid]
    exact triple_throw hkept
  rw [if_neg hinvalid]
  have hvalid : validDigest identity = true := by
    rw [← Bool.not_eq_false]
    exact (not_or.1 hinvalid).1
  refine triple_bind (triple_check fun w _ _ hw => hkept w hw) fun _ => ?_
  refine triple_bind (triple_check fun w _ _ hw => hkept w hw) fun _ => ?_
  refine triple_bind (triple_conseq (readIdentity_spec mode files) (fun _ hw => hw)
    (fun _ _ hw => hw) fun _ w hw => hkept w hw.2) fun initializing =>
      triple_of_fact fun hinit => ?_
  refine triple_get_bind fun w₀ hw₀ => ?_
  have hlisting : (w₀.environment.listing w₀.files).Perm files := by
    rw [← hw₀.files]
    exact w₀.environment.listing_perm w₀.files
  rcases hinit with ⟨rfl, rfl | hnone⟩ | ⟨rfl, rfl, -⟩
  · -- a new checkpoint wants an empty directory
    have hne : w₀.environment.listing w₀.files ≠ [] := by
      intro hnil
      rw [hnil, List.nil_perm] at hlisting
      exact hfresh (hlisting ▸ .empty)
    exact triple_bind (triple_conseq (foldlM_scanEntry_create_spec hne true _)
      (fun w hw => hw ▸ hw₀) (fun _ _ h => h) fun _ w hw => hkept w hw) fun _ _ h => h.elim
  · -- without an identity the directory holds nothing else
    have hnames : ∀ file ∈ w₀.environment.listing w₀.files, file.1 ≠ identityName := by
      intro file hfile hname
      rw [find_eq_none_iff] at hnone
      exact hnone (hname ▸ List.mem_map_of_mem (hlisting.mem_iff.1 hfile))
    refine triple_bind (triple_conseq (foldlM_scanEntry_initializing mode _ files _ hnames)
      (fun w hw => hw ▸ hw₀) (fun _ _ hw => hw) fun _ w hw => hkept w hw) fun scan =>
      triple_of_fact fun hall => ?_
    exact absurd (directory_none hdistinct fun file hfile => hall file (hlisting.mem_iff.2 hfile))
      hfresh
  · refine triple_bind (triple_conseq (foldlM_scanEntry_spec _ files _) (fun w hw => hw ▸ hw₀)
      (fun _ _ hw => hw) ?_) fun scan => triple_of_fact fun hscan => ?_
    · rintro _ w ⟨-, l', hw⟩
      rw [hw.files]
      exact distinct_foldl_sweepEntry hdistinct l'
    have hcounted := Counted.foldlM (counted_nil limits) hscan
    rw [List.nil_append] at hcounted
    have hswept := distinct_foldl_sweepEntry hdistinct (w₀.environment.listing w₀.files)
    rw [if_neg Bool.false_ne_true]
    refine triple_bind (triple_check fun w _ _ hw => by rw [hw.files]; exact hswept) fun _ =>
      triple_pure fun w hw => ?_
    rw [hw.files]
    obtain ⟨hbytes, hblocks, hbytesLe, hblocksLe⟩ := hcounted.perm hlisting
    refine ⟨hvalid, ⟨?_, ?_, hbytesLe, hblocksLe⟩, hswept⟩
    · rw [blockSizes_foldl_sweepEntry]
      exact hbytes
    · rw [blockSizes_foldl_sweepEntry]
      exact hblocks

end Open

/-! ### Reading and saving -/

section Session

variable {sha : Checksum} {files : Files} {ren : List FileName} {c : Impl}
  {e : FileSystem.Environment}

/-- A reading that returns, on any directory. -/
theorem read_any_spec (key : Bytes) (offset : UInt64) (count : ℕ) :
    Triple (At files ren c e) (read sha key offset count)
      (fun value w => (c.healthy = true ∧ (value = none → find files (blockName key) = none)) ∧
        At files ren c e w)
      (fun _ => At files ren c e) := by
  refine triple_get_bind fun w₀ hw₀ => ?_
  rw [hw₀.memory]
  have hthrow : ∀ message, Triple (fun w => w = w₀)
      (throwFailed message : FileM Impl (Option (List UInt32)))
      (fun value w => (c.healthy = true ∧ (value = none → find files (blockName key) = none)) ∧
        At files ren c e w) (fun _ => At files ren c e) :=
    fun message => triple_throw fun w hw => hw ▸ hw₀
  by_cases hhealthy : c.healthy = false
  · rw [if_pos hhealthy]
    exact hthrow _
  rw [if_neg hhealthy]
  rw [Bool.not_eq_false] at hhealthy
  split_ifs
  · exact hthrow _
  · exact hthrow _
  refine triple_bind (triple_pre (triple_check fun w _ _ hw => hw) fun w hw => hw ▸ hw₀)
    fun _ => ?_
  rw [hw₀.files]
  cases hfind : find files (blockName key) with
  | none => exact triple_pure fun w hw => ⟨⟨hhealthy, fun _ => rfl⟩, hw⟩
  | some content =>
    refine triple_bind (triple_check fun w _ _ hw => hw) fun _ => ?_
    cases readBlock sha c.identity key offset count content with
    | error message =>
      exact triple_bind (Q := fun _ _ => False) (triple_throw fun w hw => hw) fun _ _ h => h.elim
    | ok data =>
      refine triple_bind (Q := fun _ => At files ren c e) (triple_pure fun w hw => hw) fun _ =>
        triple_pure fun w hw => ?_
      exact ⟨⟨hhealthy, fun h => (nomatch h)⟩, hw⟩

theorem load_any_spec (key : Bytes) (offset : UInt64) (count : ℕ) :
    Triple (At files ren c e) (load sha key offset count)
      (fun _ w => c.healthy = true ∧ ∃ hits, At files ren { c with hits := hits } e w)
      (fun _ => At files ren c e) := by
  refine triple_bind (read_any_spec key offset count) fun value => triple_of_fact fun hread => ?_
  split_ifs
  · refine triple_bind (Q := fun _ w => ∃ hits, At files ren { c with hits := hits } e w)
      (fun w hw => ?_) fun _ => triple_pure fun w hw => ⟨hread.1, hw⟩
    rw [exec_modify]
    exact ⟨_, hw.files, hw.renamed, by dsimp only; rw [hw.memory], hw.environment⟩
  · exact triple_pure fun w hw => ⟨hread.1, c.hits, hw⟩

/-- What a save leaves that did not return: nothing has changed, or nothing more can be done. -/
def Failed (files : Files) (c : Impl) (stop : Stop) (w : World Impl) : Prop :=
  (w.files = files ∧ w.memory = c) ∨
    Distinct w.files ∧ w.memory.identity = c.identity ∧
      (stop = .crashed ∨ w.memory.healthy = false)

/-- A publication that did not return keeps the names of a directory different. -/
theorem Torn.distinct {base : Files} {name : FileName} {content : Bytes} {w : World Impl}
    (hdistinct : Distinct base) (hname : find base name = none)
    (hpending : find base (pendingName name) = none) (h : Torn base ren c e name content w) :
    Distinct w.files := by
  cases h with
  | absent h =>
    rw [h.files]
    exact hdistinct
  | pending content' _ h =>
    rw [h.files, ← put_eq_append hpending]
    exact hdistinct.put _ _
  | renamed h =>
    rw [h.files, ← put_eq_append hname]
    exact hdistinct.put _ _

theorem Torn.memory {base : Files} {name : FileName} {content : Bytes} {w : World Impl}
    (h : Torn base ren c e name content w) : w.memory = c := by
  cases h with
  | absent h => exact h.memory
  | pending _ _ h => exact h.memory
  | renamed h => exact h.memory

/-- After a failed publication the session is not used any more. -/
theorem markUnhealthy_failed {Q : Unit → World Impl → Prop} (stop : Stop) :
    Triple (fun w => Distinct w.files ∧ w.memory = c) (markUnhealthy stop) Q
      (fun stop => Failed files c stop) := by
  cases stop with
  | crashed =>
    exact triple_throw fun w hw => Or.inr ⟨hw.1, congrArg Impl.identity hw.2, Or.inl rfl⟩
  | failed message =>
    intro w hw
    rw [markUnhealthy, exec_modify_bind]
    have hidentity : w.memory.identity = c.identity := congrArg Impl.identity hw.2
    exact Or.inr ⟨hw.1, hidentity, Or.inr rfl⟩

/-- The publication of a block with its handler. -/
theorem publish_any_spec {name : FileName} {head data : Bytes} (hdistinct : Distinct files)
    (hname : find files name = none) :
    Triple (At files ren c e) (tryCatch (publish name head data) markUnhealthy)
      (fun _ => At (files ++ [(name, head ++ data)]) (name :: ren) c e)
      (fun stop => Failed files c stop) := by
  suffices hpublish : Triple (At files ren c e) (publish name head data)
      (fun _ => At (files ++ [(name, head ++ data)]) (name :: ren) c e)
      (fun _ w => Distinct w.files ∧ w.memory = c) from
    triple_tryCatch hpublish fun stop => markUnhealthy_failed stop
  cases hpending : find files (pendingName name) with
  | none =>
    exact triple_conseq (publish_spec hname hpending) (fun _ hw => hw) (fun _ _ hw => hw)
      fun _ w hw => ⟨Torn.distinct hdistinct hname hpending hw.2, Torn.memory hw.2⟩
  | some content =>
    refine triple_get_bind fun w₀ hw₀ => ?_
    rw [hw₀.files, hpending, Option.isSome_some, if_pos rfl]
    refine triple_throw ?_
    rintro _ rfl
    exact ⟨hw₀.files ▸ hdistinct, hw₀.memory⟩

/-- **Saving**, on any directory. -/
theorem save_accounts (hdistinct : Distinct files) (hidentity : validDigest c.identity = true)
    (haccounts : c.healthy = true → Accounts c files) (key : Bytes) (offset : UInt64)
    (data : List UInt32) :
    Triple (At files ren c e) (save sha key offset data)
      (fun _ w => Distinct w.files ∧ w.memory.identity = c.identity ∧ c.healthy = true ∧
        Accounts w.memory w.files)
      (fun stop => Failed files c stop) := by
  have hsame : ∀ (stop : Stop) (w : World Impl), At files ren c e w → Failed files c stop w :=
    fun stop w hw => Or.inl ⟨hw.files, hw.memory⟩
  refine triple_get_bind fun w₀ hw₀ => ?_
  rw [hw₀.memory]
  by_cases hkey : validKey key = false
  · rw [if_pos hkey]
    exact triple_throw fun w hw => hsame _ w (hw ▸ hw₀)
  rw [if_neg hkey]
  rw [Bool.not_eq_false] at hkey
  split_ifs
  · exact triple_throw fun w hw => hsame _ w (hw ▸ hw₀)
  · exact triple_throw fun w hw => hsame _ w (hw ▸ hw₀)
  refine triple_bind (triple_conseq (read_any_spec key offset data.length)
    (fun w hw => hw ▸ hw₀) (fun _ _ hw => hw) fun stop w hw => hsame stop w hw)
    fun value => triple_of_fact fun hread => ?_
  obtain ⟨hhealthy, hnone⟩ := hread
  cases value with
  | some old =>
    dsimp only
    split_ifs
    · exact triple_throw fun w hw => hsame _ w hw
    · refine triple_pure fun w hw => ⟨?_, ?_, hhealthy, ?_⟩
      · rw [hw.files]
        exact hdistinct
      · rw [hw.memory]
      · rw [hw.files, hw.memory]
        exact haccounts hhealthy
  | none =>
    dsimp only
    by_cases hfull : c.limits.blocks ≤ c.blocks ∨
        c.limits.totalBytes - c.bytes < headerSize + 4 * data.length
    · rw [if_pos hfull]
      exact triple_throw fun w hw => hsame _ w hw
    rw [if_neg hfull]
    refine triple_bind (publish_any_spec hdistinct (hnone rfl)) fun _ => ?_
    intro w hw
    rw [exec_modify]
    obtain ⟨hbytes, hblocks, hbytesLe, hblocksLe⟩ := haccounts hhealthy
    have hsizes : blockSizes w.files = blockSizes files ++ [headerSize + 4 * data.length] := by
      rw [hw.files, blockSizes_append, blockSizes_singleton, isBlock_blockName, hkey, if_pos rfl,
        List.length_append, length_header sha (length_of_validDigest hidentity),
        length_flatMap_toBytes]
    have hsame' : w.memory.identity = c.identity := congrArg Impl.identity hw.memory
    refine ⟨?_, hsame', hhealthy, ?_⟩
    · dsimp only
      rw [hw.files, ← put_eq_append (hnone rfl)]
      exact hdistinct.put _ _
    · dsimp only
      rw [Accounts, hw.memory]
      obtain ⟨hroom, hspace⟩ := not_or.1 hfull
      refine ⟨?_, ?_, ?_, ?_⟩
      · rw [hsizes, List.sum_append, List.sum_singleton, ← hbytes]
      · rw [hsizes, List.length_append, List.length_singleton, ← hblocks]
      · dsimp only
        omega
      · dsimp only
        omega

end Session

/-! ### One call -/

/-- What a sequence of calls keeps. -/
structure Accounted (s : System) : Prop where
  distinct : Distinct s.files
  session : ∀ c, s.session = some c → validDigest c.identity = true ∧
    (c.healthy = true → Accounts c s.files)

/-- No session can read or save. -/
def Dead (s : System) : Prop := ∀ c, s.session = some c → c.healthy = false

/-- A save that stopped has changed neither the files nor the counters, or it has ended the work of
its session. -/
def SaveFailed (s s' : System) : Prop :=
  (s'.files = s.files ∧ ∀ c', s'.session = some c' → s.session = some c') ∨ Dead s'

section Step

variable {sha : Checksum} {s : System}

theorem Accounted.openDirectory_step (h : Accounted s) (e : FileSystem.Environment) (mode : Mode)
    (identity : Bytes) (limits : Limits) :
    Accounted (perform sha e (.openDirectory mode identity limits) s).2 := by
  obtain ⟨files, ren, session⟩ := s
  cases session with
  | some c => exact h
  | none =>
    rcases hexec : exec (openCheckpoint mode identity limits)
      (System.world ⟨files, ren, none⟩ e ()) with ⟨r, w⟩
    have hstart : At files ren () e (System.world ⟨files, ren, none⟩ e ()) := ⟨rfl, rfl, rfl, rfl⟩
    rw [perform.eq_def]
    dsimp only
    rw [hexec]
    rcases triple_elim (openCheckpoint_accounts sha mode h.distinct) hstart hexec with
      ⟨c, rfl, hvalid, haccounts, hdistinct⟩ | ⟨stop, rfl, hdistinct⟩
    · refine ⟨hdistinct, fun c' hc' => ?_⟩
      obtain rfl := Option.some.inj hc'
      exact ⟨hvalid, fun _ => haccounts⟩
    · exact ⟨hdistinct, fun c' hc' => by cases hc'⟩

theorem Accounted.load_step (h : Accounted s) (e : FileSystem.Environment) (key : Bytes)
    (offset : UInt64) (count : ℕ) :
    Accounted (perform sha e (.load key offset count) s).2 := by
  obtain ⟨files, ren, session⟩ := s
  cases session with
  | none => exact h
  | some c =>
    obtain ⟨hdistinct, hsession⟩ := h
    obtain ⟨hvalid, haccounts⟩ := hsession c rfl
    rcases hexec : exec (load sha key offset count)
      (System.world ⟨files, ren, some c⟩ e c) with ⟨r, w⟩
    have hstart : At files ren c e (System.world ⟨files, ren, some c⟩ e c) := ⟨rfl, rfl, rfl, rfl⟩
    rw [perform.eq_def]
    dsimp only
    rw [hexec]
    rcases triple_elim (load_any_spec key offset count) hstart hexec with
      ⟨value, rfl, -, hits, hw⟩ | ⟨stop, rfl, hw⟩
    · dsimp only
      rw [hw.files, hw.memory]
      refine ⟨hdistinct, fun c' hc' => ?_⟩
      obtain rfl := Option.some.inj hc'
      exact ⟨hvalid, haccounts⟩
    · dsimp only
      rw [hw.files, hw.memory]
      refine ⟨hdistinct, fun c' hc' => ?_⟩
      cases stop with
      | crashed => cases hc'
      | failed message =>
        obtain rfl := Option.some.inj hc'
        exact ⟨hvalid, haccounts⟩

theorem Accounted.save_step (h : Accounted s) (e : FileSystem.Environment) (key : Bytes)
    (offset : UInt64) (data : List UInt32) :
    Accounted (perform sha e (.save key offset data) s).2 ∧
      ∀ stop, (perform sha e (.save key offset data) s).1 = .stopped stop →
        SaveFailed s (perform sha e (.save key offset data) s).2 := by
  obtain ⟨files, ren, session⟩ := s
  cases session with
  | none => exact ⟨h, fun _ _ => Or.inl ⟨rfl, fun _ hc => hc⟩⟩
  | some c =>
    obtain ⟨hdistinct, hsession⟩ := h
    obtain ⟨hvalid, haccounts⟩ := hsession c rfl
    rcases hexec : exec (save sha key offset data)
      (System.world ⟨files, ren, some c⟩ e c) with ⟨r, w⟩
    have hstart : At files ren c e (System.world ⟨files, ren, some c⟩ e c) := ⟨rfl, rfl, rfl, rfl⟩
    rw [perform.eq_def]
    dsimp only
    rw [hexec]
    rcases triple_elim (save_accounts hdistinct hvalid haccounts key offset data) hstart hexec with
      ⟨_, rfl, hdistinct', hidentity, -, haccounts'⟩ | ⟨stop, rfl, hfailed⟩
    · refine ⟨⟨hdistinct', fun c' hc' => ?_⟩, fun stop hstop => by cases hstop⟩
      obtain rfl := Option.some.inj hc'
      exact ⟨hidentity ▸ hvalid, fun _ => haccounts'⟩
    · dsimp only
      cases stop with
      | crashed =>
        refine ⟨⟨?_, fun c' hc' => by cases hc'⟩, fun _ _ => Or.inr fun c' hc' => by cases hc'⟩
        rcases hfailed with ⟨hfiles, -⟩ | ⟨hdistinct', -⟩
        · exact hfiles ▸ hdistinct
        · exact hdistinct'
      | failed message =>
        rcases hfailed with ⟨hfiles, hmemory⟩ | ⟨hdistinct', hidentity, hcrashed | hunhealthy⟩
        · rw [hfiles, hmemory]
          exact ⟨⟨hdistinct, hsession⟩, fun _ _ => Or.inl ⟨rfl, fun _ hc => hc⟩⟩
        · cases hcrashed
        · refine ⟨⟨hdistinct', fun c' hc' => ?_⟩, fun _ _ => Or.inr fun c' hc' => ?_⟩
          · obtain rfl := Option.some.inj hc'
            refine ⟨hidentity ▸ hvalid, fun htrue => ?_⟩
            rw [hunhealthy] at htrue
            cases htrue
          · obtain rfl := Option.some.inj hc'
            exact hunhealthy

/-- **One call.** -/
theorem Accounted.step (h : Accounted s) (e : FileSystem.Environment) (call : Call) :
    Accounted (perform sha e call s).2 := by
  cases call with
  | openDirectory mode identity limits => exact h.openDirectory_step e mode identity limits
  | load key offset count => exact h.load_step e key offset count
  | save key offset data => exact (h.save_step e key offset data).1
  | close => exact ⟨h.distinct, fun _ hc => nomatch hc⟩

/-- A reply that returned the work of a session. -/
def Reply.worked : Reply → Prop
  | .loaded _ | .saved => True
  | _ => False

/-- Without a session that can work, only an opening changes that. -/
theorem Dead.step (h : Dead s) (haccounted : Accounted s) (e : FileSystem.Environment)
    (call : Call) :
    (perform sha e call s).1 = .opened ∨
      ¬(perform sha e call s).1.worked ∧ Dead (perform sha e call s).2 := by
  obtain ⟨files, ren, session⟩ := s
  cases call with
  | openDirectory mode identity limits =>
    cases session with
    | some c => exact Or.inr ⟨id, h⟩
    | none =>
      rw [perform.eq_def]
      dsimp only
      rcases exec (openCheckpoint mode identity limits)
        (System.world ⟨files, ren, none⟩ e ()) with ⟨stop | c, w⟩
      · exact Or.inr ⟨id, fun _ hc => by cases hc⟩
      · exact Or.inl rfl
  | load key offset count =>
    cases session with
    | none => exact Or.inr ⟨id, h⟩
    | some c =>
      have hdead := h c rfl
      rcases hexec : exec (load sha key offset count)
        (System.world ⟨files, ren, some c⟩ e c) with ⟨r, w⟩
      have hstart : At files ren c e (System.world ⟨files, ren, some c⟩ e c) :=
        ⟨rfl, rfl, rfl, rfl⟩
      rw [perform.eq_def]
      dsimp only
      rw [hexec]
      rcases triple_elim (load_any_spec key offset count) hstart hexec with
        ⟨value, rfl, hhealthy, -⟩ | ⟨stop, rfl, hw⟩
      · rw [hdead] at hhealthy
        cases hhealthy
      · refine Or.inr ⟨id, fun c' hc' => ?_⟩
        dsimp only at hc'
        rw [hw.memory] at hc'
        cases stop with
        | crashed => cases hc'
        | failed message => exact Option.some.inj hc' ▸ hdead
  | save key offset data =>
    cases session with
    | none => exact Or.inr ⟨id, h⟩
    | some c =>
      have hdead := h c rfl
      obtain ⟨hvalid, haccounts⟩ := haccounted.session c rfl
      rcases hexec : exec (save sha key offset data)
        (System.world ⟨files, ren, some c⟩ e c) with ⟨r, w⟩
      have hstart : At files ren c e (System.world ⟨files, ren, some c⟩ e c) :=
        ⟨rfl, rfl, rfl, rfl⟩
      rw [perform.eq_def]
      dsimp only
      rw [hexec]
      rcases triple_elim (save_accounts haccounted.distinct hvalid haccounts key offset data)
        hstart hexec with ⟨_, rfl, -, -, hhealthy, -⟩ | ⟨stop, rfl, hfailed⟩
      · rw [hdead] at hhealthy
        cases hhealthy
      · refine Or.inr ⟨id, fun c' hc' => ?_⟩
        cases stop with
        | crashed => cases hc'
        | failed message =>
          obtain rfl := Option.some.inj hc'
          rcases hfailed with ⟨-, hmemory⟩ | ⟨-, -, hcrashed | hunhealthy⟩
          · rw [hmemory, hdead]
          · cases hcrashed
          · exact hunhealthy
  | close => exact Or.inr ⟨id, fun _ hc => by cases hc⟩

end Step

/-! ### Sequences of calls -/

section Run

variable {sha : Checksum} {start s : System} {history : List (Call × Reply)}

theorem Accounted.run (h : Accounted start) (hrun : Run sha start history s) : Accounted s := by
  induction hrun with
  | nil => exact h
  | cons _ e call ih => exact ih.step e call

/-- Nothing is loaded or saved before the directory is opened again. -/
theorem Dead.run (h : Dead start) (haccounted : Accounted start) (hrun : Run sha start history s)
    (hopened : ∀ entry ∈ history, entry.2 ≠ .opened) :
    Dead s ∧ ∀ entry ∈ history, ¬entry.2.worked := by
  induction hrun with
  | nil => exact ⟨h, fun _ hmem => nomatch hmem⟩
  | cons hrun environment call ih =>
    obtain ⟨hlast, hrest⟩ := List.forall_mem_cons.1 hopened
    obtain ⟨hdead, hworked⟩ := ih hrest
    rcases hdead.step (haccounted.run hrun) environment call with hreply | ⟨hreply, hdead'⟩
    · exact absurd hreply hlast
    · exact ⟨hdead', List.forall_mem_cons.2 ⟨hreply, hworked⟩⟩

end Run

/-- The accounting of a directory with the session that owns it. -/
structure Accounting (sha : Checksum) (s : System) : Prop where
  /-- The counters are the totals of the block files, within the limits. -/
  counters : ∀ c, s.session = some c → c.healthy = true →
    c.bytes = (blockSizes s.files).sum ∧ c.blocks = (blockSizes s.files).length ∧
      c.bytes ≤ c.limits.totalBytes ∧ c.blocks ≤ c.limits.blocks
  /-- A save that stopped has changed neither the files nor the session, or no call after it loads
  or saves before the directory is opened again. -/
  saves : ∀ (e : FileSystem.Environment) (key : Bytes) (offset : UInt64) (data : List UInt32)
    (stop : Stop), (perform sha e (.save key offset data) s).1 = .stopped stop →
      ((perform sha e (.save key offset data) s).2.files = s.files ∧
        ∀ c, (perform sha e (.save key offset data) s).2.session = some c → s.session = some c) ∨
      ∀ history s', Run sha (perform sha e (.save key offset data) s).2 history s' →
        (∀ entry ∈ history, entry.2 ≠ .opened) → ∀ entry ∈ history, ¬entry.2.worked

theorem Accounted.accounting {sha : Checksum} {s : System} (h : Accounted s) :
    Accounting sha s := by
  refine ⟨fun c hc hhealthy => ?_, fun e key offset data stop hstop => ?_⟩
  · obtain ⟨hbytes, hblocks, hbytesLe, hblocksLe⟩ := (h.session c hc).2 hhealthy
    exact ⟨hbytes, hblocks, hbytesLe, hblocksLe⟩
  · obtain ⟨hstep, hfailed⟩ := @Accounted.save_step sha s h e key offset data
    rcases hfailed stop hstop with hsame | hdead
    · exact Or.inl hsame
    · exact Or.inr fun history s' hrun hopened => (hdead.run hstep hrun hopened).2

/-- **Accounting.** Whatever files the directory holds when it is first opened, every sequence of
calls keeps the counters of a healthy session equal to the totals of the block files and within the
limits, and neither the scan nor a save takes more from the limit than is left of it. -/
theorem accounting_of_run {sha : Checksum} {start s : System} {history : List (Call × Reply)}
    (hsession : start.session = none) (hdistinct : Distinct start.files)
    (h : Run sha start history s) :
    Accounting sha s ∧
      ∀ (mode : Mode) (initializing : Bool) (limits : Limits) (l : Files) (w w' : World Unit)
        (scan : Scan),
        exec (l.foldlM (scanEntry mode initializing limits) ⟨0, 0, 0⟩) w = (.ok scan, w') →
          scan.bytes ≤ limits.totalBytes ∧ scan.blocks ≤ limits.blocks := by
  have hstart : Accounted start := by
    refine ⟨hdistinct, fun c hc => ?_⟩
    rw [hsession] at hc
    cases hc
  refine ⟨(hstart.run h).accounting, fun mode initializing limits l w w' scan hscan => ?_⟩
  have hzero : Scan.Within ⟨0, 0, 0⟩ limits := ⟨Nat.zero_le _, Nat.zero_le _⟩
  rcases triple_elim (scan_within mode initializing l hzero) trivial hscan with
    ⟨scan', hok, hle⟩ | ⟨stop, herror, -⟩
  · obtain rfl := Except.ok.inj hok
    exact hle
  · cases herror

/-- A directory with a block of unknown content and an incomplete one. -/
def foreignDirectory : System where
  files := [(identityName, manifest (List.replicate 64 48)), (blockName [98], List.replicate 164 0),
    (pendingName (blockName [97]), [1])]
  renamed := []
  session := none

/-- The directory is resumed, one block is saved, and the unknown one cannot be. -/
def foreignCalls : List (FileSystem.Environment × Call) :=
  [(calmEnvironment, .openDirectory .resume (List.replicate 64 48) {}),
    (calmEnvironment, .save [97] 0 [0x3f800000]),
    (calmEnvironment, .save [98] 0 [0x3f800000])]

theorem accounting_of_run_foreign :
    (performAll sampleChecksum foreignDirectory foreignCalls).1.map Prod.snd =
        [.stopped (.failed "checkpoint block metadata mismatch"), .saved, .opened] ∧
      Accounting sampleChecksum (performAll sampleChecksum foreignDirectory foreignCalls).2 :=
  ⟨by decide +kernel, (accounting_of_run rfl (by unfold Distinct; decide) (run_performAll _ _ _)).1⟩

end Resonantia.Io.BlockFiles
