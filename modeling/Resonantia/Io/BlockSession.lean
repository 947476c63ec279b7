import Resonantia.Io.BlockOpening

/-!
# Sessions of block checkpoints

A reading that returns has the samples of the block, if there is one. A save that returns has added
its block or found it; a save that does not return leaves the catalog as it was, or with the block
added.

## Main definitions

* `Io.BlockFiles.Catalog.add`: a catalog with one more block.
* `Io.BlockFiles.Interrupted`: what a save may leave that did not return.

## Main results

* `Io.BlockFiles.Published.readBlock_content`: a block file is read back.
* `Io.BlockFiles.read_spec`, `Io.BlockFiles.load_spec`, `Io.BlockFiles.save_spec`: the operations of
  a session.
-/

namespace Resonantia.Io.BlockFiles

open ByteString Effect FileSystem FloatWord

/-! ### Reading -/

/-- A field of a block file. -/
theorem take_drop_append {before field after : Bytes} {position width : ℕ}
    (hbefore : before.length = position) (hfield : field.length = width) :
    ((before ++ (field ++ after)).drop position).take width = field := by
  rw [List.drop_left' hbefore, List.take_left' hfield]

namespace Published

variable {sha : Checksum} {identity : Bytes} (b : Published)

theorem fields_content (hidentity : identity.length = 64) :
    (b.content sha identity).take 8 = magic ∧
      ((b.content sha identity).drop 8).take 64 = identity ∧
      get64 (b.content sha identity) 72 = b.offset.toNat ∧
      get64 (b.content sha identity) 80 = b.data.length ∧
      get64 (b.content sha identity) 152 = 0 ∧
      ((b.content sha identity).drop 88).take 64 = digest sha identity b.key b.offset b.data ∧
      (b.content sha identity).drop headerSize = b.data.flatMap toBytes := by
  have hmagic : magic.length = 8 := by decide
  have hdigest := sha.length_hex (identity ++ [10] ++ b.key ++ [10] ++
    Json.decimalText b.offset.toNat ++ [10] ++ Json.decimalText b.data.length ++ [10] ++
      b.data.flatMap toBytes)
  rw [← digest] at hdigest
  refine ⟨?_, ?_, ?_, ?_, ?_, ?_, ?_⟩
  · rw [content, header, List.append_assoc, List.append_assoc, List.append_assoc,
      List.append_assoc, List.append_assoc, List.take_left' hmagic]
  · rw [content, header]
    simp only [List.append_assoc]
    exact take_drop_append hmagic hidentity
  · rw [get64, content, header]
    simp only [List.append_assoc]
    rw [← List.append_assoc, take_drop_append (by rw [List.length_append, hmagic, hidentity])
      (length_littleEndian 8 _)]
    exact ofLittleEndian_littleEndian b.offset.toNat_lt
  · rw [get64, content, header]
    simp only [List.append_assoc]
    rw [← List.append_assoc, ← List.append_assoc, take_drop_append (by
      rw [List.length_append, List.length_append, hmagic, hidentity, length_littleEndian])
      (length_littleEndian 8 _)]
    exact ofLittleEndian_littleEndian b.length_lt
  · rw [get64, content, header]
    simp only [List.append_assoc]
    rw [← List.append_assoc, ← List.append_assoc, ← List.append_assoc, ← List.append_assoc,
      take_drop_append (by
        rw [List.length_append, List.length_append, List.length_append, List.length_append, hmagic,
          hidentity, length_littleEndian, length_littleEndian, hdigest])
        (length_littleEndian 8 _)]
    exact ofLittleEndian_littleEndian (by decide)
  · rw [content, header]
    simp only [List.append_assoc]
    rw [← List.append_assoc, ← List.append_assoc, ← List.append_assoc, take_drop_append (by
      rw [List.length_append, List.length_append, List.length_append, hmagic, hidentity,
        length_littleEndian, length_littleEndian]) hdigest]
  · rw [content, List.drop_left' (length_header sha hidentity b.key b.offset b.data)]

/-- **A block file is read back.** Its samples are returned for its offset and count only. -/
theorem readBlock_content (hidentity : identity.length = 64) (offset : UInt64) (count : ℕ)
    (data : List UInt32) :
    readBlock sha identity b.key offset count (b.content sha identity) = .ok data ↔
      offset = b.offset ∧ count = b.data.length ∧ data = b.data := by
  obtain ⟨hmagic, hid, hoffset, hcount, hreserved, hdigest, hdata⟩ :=
    @fields_content sha _ b hidentity
  rw [readBlock, b.length_content sha hidentity, hmagic, hid, hoffset, hcount, hreserved, hdigest,
    hdata, ofBytes_flatMap_toBytes, size]
  dsimp only
  rw [b.finite]
  by_cases hlength : headerSize + 4 * b.data.length ≠ headerSize + 4 * count
  · rw [if_pos hlength]
    refine ⟨fun h => (by cases h), fun h => absurd h.2.1 ?_⟩
    omega
  have hcount' : b.data.length = count := by omega
  rw [if_neg hlength]
  by_cases hmeta : offset = b.offset
  · rw [if_neg (by simp [hmeta, hcount']), if_neg (by decide), hmeta, if_neg (by simp)]
    rw [Except.ok.injEq, eq_comm (a := b.data)]
    exact ⟨fun h => ⟨rfl, hcount'.symm, h⟩, fun h => h.2.2⟩
  · have hne : b.offset.toNat ≠ offset.toNat := fun h => hmeta (UInt64.toNat_inj.1 h).symm
    rw [if_pos (by simp [hne])]
    exact ⟨fun h => (by cases h), fun h => absurd h.1 hmeta⟩

end Published

section Session

variable {sha : Checksum} {catalog : Catalog} {files : Files} {ren : List FileName} {c : Impl}
  {e : FileSystem.Environment}

/-- What a reading that returned says about the catalog. -/
structure ReadFrom (catalog : Catalog) (key : Bytes) (offset : UInt64) (count : ℕ)
    (value : Option (List UInt32)) : Prop where
  value_eq : value = (catalog.block? key).map Published.data
  offset_eq : ∀ b, catalog.block? key = some b → b.offset = offset
  count_eq : ∀ b, catalog.block? key = some b → b.data.length = count

/-- The arguments of a reading that returns when nothing fails. -/
structure Readable (c : Impl) (catalog : Catalog) (key : Bytes) (offset : UInt64) (count : ℕ) :
    Prop where
  healthy : c.healthy = true
  validKey_key : validKey key = true
  pos : 0 < count
  le : count ≤ c.limits.blockBytes / 4
  offset_eq : ∀ b, catalog.block? key = some b → b.offset = offset
  count_eq : ∀ b, catalog.block? key = some b → b.data.length = count

/-- **Reading.** A reading that returns has the samples of the block, if there is one. -/
theorem read_spec (hfiles : Directory sha (some catalog) files)
    (hidentity : c.identity = catalog.identity) (key : Bytes) (offset : UInt64) (count : ℕ) :
    Triple (At files ren c e) (read sha key offset count)
      (fun value w => (c.healthy = true ∧ ReadFrom catalog key offset count value) ∧
        At files ren c e w)
      (fun _ w => (e.Calm → ¬Readable c catalog key offset count) ∧ At files ren c e w) := by
  refine triple_get_bind fun w₀ hw₀ => ?_
  rw [hw₀.memory, hidentity]
  by_cases hhealthy : c.healthy = false
  · rw [if_pos hhealthy]
    refine triple_throw fun w hw => ⟨fun _ h => ?_, hw ▸ hw₀⟩
    exact Bool.false_ne_true (hhealthy ▸ h.healthy)
  rw [if_neg hhealthy]
  rw [Bool.not_eq_false] at hhealthy
  by_cases hkey : validKey key = false
  · rw [if_pos hkey]
    refine triple_throw fun w hw => ⟨fun _ h => ?_, hw ▸ hw₀⟩
    exact Bool.false_ne_true (hkey ▸ h.validKey_key)
  rw [if_neg hkey]
  by_cases hcount : count = 0 ∨ c.limits.blockBytes / 4 < count
  · rw [if_pos hcount]
    refine triple_throw fun w hw => ⟨fun _ h => ?_, hw ▸ hw₀⟩
    have hpos := h.pos
    have hle := h.le
    omega
  rw [if_neg hcount]
  refine triple_bind (Q := fun _ => At files ren c e) (triple_conseq
    (triple_check fun w stop hcalm hw => ⟨fun h => absurd h hcalm, hw⟩) (fun w hw => hw ▸ hw₀)
    (fun _ _ hw => hw) fun _ _ hw => hw) fun _ => ?_
  rw [hw₀.files, hfiles.find_blockName]
  cases hblock : catalog.block? key with
  | none =>
    refine triple_pure fun w hw => ⟨⟨hhealthy, ?_, ?_, ?_⟩, hw⟩
    · rw [hblock, Option.map_none]
    · intro b hb
      rw [hblock] at hb
      cases hb
    · intro b hb
      rw [hblock] at hb
      cases hb
  | some b =>
    obtain ⟨-, rfl⟩ := Catalog.key_of_block? hblock
    have hread := @Published.readBlock_content sha _ b catalog.length_identity offset count
    refine triple_bind (triple_check fun w stop hcalm hw => ⟨fun h => absurd h hcalm, hw⟩)
      fun _ => ?_
    cases hcontent : readBlock sha catalog.identity b.key offset count
        (b.content sha catalog.identity) with
    | error message =>
      refine triple_bind (Q := fun _ _ => False) (triple_throw fun w hw => ⟨fun _ h => ?_, hw⟩)
        fun _ _ h => h.elim
      have hok := (hread b.data).2 ⟨(h.offset_eq b hblock).symm, (h.count_eq b hblock).symm, rfl⟩
      rw [hcontent] at hok
      cases hok
    | ok data =>
      obtain ⟨hoffset, hcount', hdata⟩ := (hread data).1 hcontent
      refine triple_bind (Q := fun data' w => data' = data ∧ At files ren c e w)
        (triple_pure fun w hw => ⟨rfl, hw⟩) fun data' => triple_of_fact fun hdata' =>
        triple_pure fun w hw => ⟨⟨hhealthy, ?_, ?_, ?_⟩, hw⟩
      · rw [hblock, Option.map_some, hdata', hdata]
      · rintro b' hb'
        rw [hblock] at hb'
        rw [← Option.some.inj hb', hoffset]
      · rintro b' hb'
        rw [hblock] at hb'
        rw [← Option.some.inj hb', hcount']

/-- **Loading.** It changes no more than the number of restored blocks. -/
theorem load_spec (hfiles : Directory sha (some catalog) files)
    (hidentity : c.identity = catalog.identity) (key : Bytes) (offset : UInt64) (count : ℕ) :
    Triple (At files ren c e) (load sha key offset count)
      (fun value w => (c.healthy = true ∧ ReadFrom catalog key offset count value) ∧
        ∃ hits, At files ren { c with hits := hits } e w)
      (fun _ w => (e.Calm → ¬Readable c catalog key offset count) ∧ At files ren c e w) := by
  refine triple_bind (read_spec hfiles hidentity key offset count) fun value =>
    triple_of_fact fun hread => ?_
  by_cases hvalue : value.isSome = true
  · rw [if_pos hvalue]
    intro w hw
    rw [exec_modify_bind]
    refine ⟨hread, c.hits + 1, hw.files, hw.renamed, ?_, hw.environment⟩
    dsimp only
    rw [hw.memory]
  · rw [if_neg hvalue]
    exact triple_pure fun w hw => ⟨hread, c.hits, hw⟩

/-- A catalog with one more block. -/
def Catalog.add (catalog : Catalog) (b : Published) (h : catalog.block? b.key = none) : Catalog where
  identity := catalog.identity
  blocks := catalog.blocks ++ [b]
  validDigest_identity := catalog.validDigest_identity
  keys_nodup := by
    rw [List.map_append, List.nodup_append]
    refine ⟨catalog.keys_nodup, List.nodup_singleton _, ?_⟩
    rintro key hkey _ hmem rfl
    obtain rfl := List.mem_singleton.1 hmem
    obtain ⟨b', hb', hkey'⟩ := List.mem_map.1 hkey
    exact List.find?_eq_none.1 h b' hb' (by simpa using hkey')

theorem Catalog.files_add {b : Published} (h : catalog.block? b.key = none) :
    (catalog.add b h).files sha = catalog.files sha ++ [b.file sha catalog.identity] := by
  rw [files, files, add, List.map_append, List.cons_append]
  rfl

theorem Catalog.bytes_add {b : Published} (h : catalog.block? b.key = none) :
    (catalog.add b h).bytes = catalog.bytes + b.size := by
  rw [bytes, add, List.map_append, List.sum_append, ← bytes]
  simp

/-- What a save may leave that did not return. -/
inductive Interrupted (sha : Checksum) (catalog : Catalog) (files : Files) (ren : List FileName)
    (c : Impl) (key : Bytes) (offset : UInt64) (data : List UInt32) (stop : Stop)
    (w : World Impl) : Prop
  | same (hfiles : w.files = files) (hrenamed : w.renamed = ren) (hmemory : w.memory = c)
  | torn (hrenamed : w.renamed = ren) (hfiles : Directory sha (some catalog) w.files)
    (hmemory : stop ≠ .crashed → w.memory = { c with healthy := false })
  | added (b : Published) (h : catalog.block? b.key = none) (hkey : b.key = key)
    (hoffset : b.offset = offset) (hdata : b.data = data)
    (hwithin : (catalog.add b h).Within c.limits)
    (hrenamed : w.renamed = blockName b.key :: ren)
    (hfiles : w.files.Perm ((catalog.add b h).files sha))
    (hmemory : stop ≠ .crashed → w.memory = { c with healthy := false })

/-- A publication of a block that did not return makes the session unusable. -/
theorem markUnhealthy_spec {b : Published} (hsettled : files.Perm (catalog.files sha))
    (hadd : catalog.block? b.key = none) (hwithin : (catalog.add b hadd).Within c.limits)
    {Q : Unit → World Impl → Prop} (stop : Stop) :
    Triple (fun w => ¬e.Calm ∧
        Torn files ren c e (blockName b.key) (b.content sha catalog.identity) w)
      (markUnhealthy stop) Q
      (fun stop => Interrupted sha catalog files ren c b.key b.offset b.data stop) := by
  have hperm : (files ++ [b.file sha catalog.identity]).Perm ((catalog.add b hadd).files sha) := by
    rw [Catalog.files_add]
    exact hsettled.append_right _
  have htorn : ∀ (w w' : World Impl) (stop' : Stop),
      Torn files ren c e (blockName b.key) (b.content sha catalog.identity) w →
      w'.files = w.files → w'.renamed = w.renamed →
      (stop' ≠ .crashed → w'.memory = { w.memory with healthy := false }) →
      Interrupted sha catalog files ren c b.key b.offset b.data stop' w' := by
    intro w w' stop' h hfiles hrenamed hmemory
    cases h with
    | absent h =>
      refine .torn (hrenamed.trans h.renamed) ?_ (h.memory ▸ hmemory)
      rw [hfiles, h.files]
      exact .settled hsettled
    | pending c' hc' h =>
      refine .torn (hrenamed.trans h.renamed) ?_ (h.memory ▸ hmemory)
      rw [hfiles, h.files]
      exact .pendingBlock b.key c' b.validKey_key (hsettled.append_right _)
    | renamed h =>
      refine .added b hadd rfl rfl rfl hwithin (hrenamed.trans h.renamed) ?_ (h.memory ▸ hmemory)
      rw [hfiles, h.files]
      exact hperm
  cases stop with
  | crashed => exact triple_throw fun w hw => htorn w w _ hw.2 rfl rfl fun h => absurd rfl h
  | failed message =>
    intro w hw
    rw [markUnhealthy, exec_modify_bind]
    exact htorn w _ _ hw.2 rfl rfl fun _ => rfl

/-- **Saving.** A save that returns has added its block, or found it. -/
theorem save_spec (hfiles : Directory sha (some catalog) files)
    (hidentity : c.identity = catalog.identity) (hlimits : validLimits c.limits = true)
    (hwithin : catalog.Within c.limits)
    (hhealthy : c.healthy = true → files.Perm (catalog.files sha) ∧ c.bytes = catalog.bytes ∧
      c.blocks = catalog.blocks.length) (key : Bytes) (offset : UInt64) (data : List UInt32) :
    Triple (At files ren c e) (save sha key offset data)
      (fun _ w => (∃ b, catalog.block? key = some b ∧ b.offset = offset ∧ b.data = data ∧
          At files ren c e w) ∨
        ∃ (b : Published) (h : catalog.block? b.key = none), b.key = key ∧ b.offset = offset ∧
          b.data = data ∧ (catalog.add b h).Within c.limits ∧
          w.files.Perm ((catalog.add b h).files sha) ∧ w.renamed = blockName b.key :: ren ∧
          w.memory = { c with blocks := c.blocks + 1, bytes := c.bytes + b.size })
      (fun stop => Interrupted sha catalog files ren c key offset data stop) := by
  have hsame : ∀ (w : World Impl) (stop : Stop), At files ren c e w →
      Interrupted sha catalog files ren c key offset data stop w :=
    fun w stop hw => .same hw.files hw.renamed hw.memory
  refine triple_get_bind fun w₀ hw₀ => ?_
  rw [hw₀.memory, hidentity]
  by_cases hkey : validKey key = false
  · rw [if_pos hkey]
    exact triple_throw fun w hw => hsame w _ (hw ▸ hw₀)
  rw [if_neg hkey]
  rw [Bool.not_eq_false] at hkey
  by_cases hcount : data = [] ∨ c.limits.blockBytes / 4 < data.length
  · rw [if_pos hcount]
    exact triple_throw fun w hw => hsame w _ (hw ▸ hw₀)
  rw [if_neg hcount]
  obtain ⟨hne, hcount⟩ := not_or.1 hcount
  by_cases hfinite : data.all isFinite = false
  · rw [if_pos hfinite]
    exact triple_throw fun w hw => hsame w _ (hw ▸ hw₀)
  rw [if_neg hfinite]
  rw [Bool.not_eq_false] at hfinite
  refine triple_bind (triple_conseq (read_spec hfiles hidentity key offset data.length)
    (fun w hw => hw ▸ hw₀) (fun _ _ hw => hw) fun stop w hw => hsame w stop hw.2)
    fun value => triple_of_fact fun hread => ?_
  obtain ⟨hhealthy', hvalue, hoffset, -⟩ := hread
  cases hblock : catalog.block? key with
  | some b =>
    rw [hblock, Option.map_some] at hvalue
    rw [hvalue]
    dsimp only
    by_cases hdata : b.data ≠ data
    · rw [if_pos hdata]
      exact triple_throw fun w hw => hsame w _ hw
    · rw [if_neg hdata]
      exact triple_pure fun w hw =>
        Or.inl ⟨b, rfl, hoffset b hblock, not_not.1 hdata, hw⟩
  | none =>
    rw [hblock, Option.map_none] at hvalue
    rw [hvalue]
    dsimp only
    by_cases hfull : c.limits.blocks ≤ c.blocks ∨
        c.limits.totalBytes - c.bytes < headerSize + 4 * data.length
    · rw [if_pos hfull]
      exact triple_throw fun w hw => hsame w _ hw
    rw [if_neg hfull]
    obtain ⟨hsettled, hbytes, hblocks⟩ := hhealthy hhealthy'
    have hlength : data.length < 256 ^ 8 := by
      rw [validLimits] at hlimits
      simp only [Bool.and_eq_true, decide_eq_true_eq] at hlimits
      have := hlimits.1.1.1.1.2
      omega
    let b : Published := ⟨key, offset, data, hkey, hne, hfinite, hlength⟩
    have hadd : catalog.block? b.key = none := hblock
    have hwithin' : (catalog.add b hadd).Within c.limits := by
      have hsize : b.size = headerSize + 4 * data.length := rfl
      refine ⟨?_, ?_, ?_⟩
      · intro b' hb'
        rcases List.mem_append.1 hb' with hmem | hmem
        · exact hwithin.size b' hmem
        · rw [List.mem_singleton.1 hmem, hsize]
          omega
      · rw [Catalog.add, List.length_append, List.length_singleton]
        omega
      · have := hwithin.bytes
        rw [Catalog.bytes_add, hsize]
        omega
    have hname : find files (blockName key) = none := by
      rw [hfiles.find_blockName, hblock, Option.map_none]
    have hpending : find files (pendingName (blockName key)) = none := by
      rw [find_perm hfiles.distinct hsettled, Catalog.find_files_pendingName]
    have hperm : (files ++ [b.file sha catalog.identity]).Perm ((catalog.add b hadd).files sha) := by
      rw [Catalog.files_add]
      exact hsettled.append_right _
    refine triple_bind (triple_tryCatch (publish_spec hname hpending)
      fun stop => markUnhealthy_spec (b := b) hsettled hadd hwithin' stop) fun _ => ?_
    intro w hw
    rw [exec_modify]
    refine Or.inr ⟨b, hadd, rfl, rfl, rfl, hwithin', ?_, hw.renamed, ?_⟩
    · dsimp only
      rw [hw.files]
      exact hperm
    · dsimp only
      rw [hw.memory, ← hidentity]
      rfl

end Session

end Resonantia.Io.BlockFiles
