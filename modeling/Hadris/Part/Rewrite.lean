import Hadris.Part.ReadBack
import Hadris.Part.GptRun

namespace Hadris.Part

open List

open Hadris.Prog

def blockRuns (size : BlockSize) : Nat → Nat → List UInt8 → List Run
  | _, 0, _ => []
  | lba, count + 1, bytes =>
    ⟨lba, bytes.take size.bytes⟩ :: blockRuns size (lba + 1) count (bytes.drop size.bytes)

def Run.blocks (size : BlockSize) (run : Run) : List Run :=
  blockRuns size run.lba (run.bytes.length / size.bytes) run.bytes

section

variable {size : BlockSize} {img img' : Nat → UInt8} {runs : List Run}
  {run : Run} {lba count : Nat}
  {bytes : List UInt8}

theorem store_blockRuns (h : bytes.length = count * size.bytes) :
    store size img (blockRuns size lba count bytes) = patch img (lba * size.bytes) bytes := by
  induction count generalizing img lba bytes with
  | zero =>
    rw [Nat.zero_mul, length_eq_zero_iff] at h
    rw [h, patch_nil]
    rfl
  | succ count ih =>
    rw [Nat.succ_mul] at h
    have htake : (bytes.take size.bytes).length = size.bytes := by
      rw [length_take]
      omega
    have hdrop : (bytes.drop size.bytes).length = count * size.bytes := by
      rw [length_drop]
      omega
    have hpatch := patch_append img (lba * size.bytes) (bytes.take size.bytes)
      (bytes.drop size.bytes)
    rw [htake, take_append_drop, ← Nat.succ_mul] at hpatch
    exact (ih hdrop).trans hpatch

theorem blockRuns_within (h : bytes.length = count * size.bytes)
    (hrun : run ∈ blockRuns size lba count bytes) :
    (run.region size).Within (blockBytes size lba count) := by
  induction count generalizing lba bytes with
  | zero => exact absurd hrun not_mem_nil
  | succ count ih =>
    rw [Nat.succ_mul] at h
    have hdrop : (bytes.drop size.bytes).length = count * size.bytes := by
      rw [length_drop]
      omega
    rcases mem_cons.mp hrun with rfl | hrun
    · simp only [Region.Within, Region.stop, Run.region, blockBytes, length_take, Nat.succ_mul]
      omega
    · have hwithin := ih hdrop hrun
      simp only [Region.Within, Region.stop, blockBytes, Nat.succ_mul] at hwithin ⊢
      omega

/-- A run of whole blocks. -/
def Run.Whole (size : BlockSize) (run : Run) : Prop :=
  run.bytes.length = run.bytes.length / size.bytes * size.bytes

theorem padded_whole (size : BlockSize) (lba : Nat) (bytes : List UInt8) :
    (Run.mk lba (padded size bytes)).Whole size := by
  have hpos := size.pos
  rw [Run.Whole, whole_padded, Nat.mul_div_cancel _ hpos]

theorem store_blocks (h : run.Whole size) :
    store size img (run.blocks size) = store size img [run] :=
  store_blockRuns h

theorem blocks_within {block : Run} (h : run.Whole size) (hblock : block ∈ run.blocks size) :
    (block.region size).Within (run.region size) := by
  have hwithin := blockRuns_within h hblock
  have hregion : run.region size = blockBytes size run.lba (run.bytes.length / size.bytes) := by
    rw [Run.region, blockBytes, ← h]
  rwa [hregion]

theorem store_flatMap (h : ∀ run ∈ runs, run.Whole size) :
    store size img (runs.flatMap (Run.blocks size)) = store size img runs := by
  induction runs generalizing img with
  | nil => rfl
  | cons run rest ih =>
    rw [flatMap_cons, store_append, store_blocks (h run mem_cons_self),
      ih fun other hother => h other (mem_cons_of_mem _ hother)]
    rfl

end

namespace Device

variable {dev : Device} {runs : List Run} {header : RawGptHeader}
  {array : EntryArray} {lba slot : Nat}

theorem stored_apart {count : Nat}
    (h : ∀ run ∈ runs, (blockBytes dev.blockSize lba count).Apart (run.region dev.blockSize)) :
    slice (dev.stored runs).image (lba * dev.blockSize.bytes) (count * dev.blockSize.bytes) =
      slice dev.image (lba * dev.blockSize.bytes) (count * dev.blockSize.bytes) :=
  slice_store_apart h

theorem block_apart
    (h : ∀ run ∈ runs, (blockBytes dev.blockSize lba 1).Apart (run.region dev.blockSize)) :
    (dev.stored runs).block lba = dev.block lba := by
  have hkept := stored_apart h
  rw [Nat.one_mul] at hkept
  exact hkept

/-! An entry array as bytes. -/

theorem Copy.entryAt (h : dev.Copy lba header) (hsize : checkBlockSize dev.blockSize = .ok ())
    (hslot : slot < (header.entryArray dev.blockSize).count) :
    dev.entryAt (header.entryArray dev.blockSize) slot = RawGptEntry.codec.decode
      ((dev.arrayBytes (header.entryArray dev.blockSize)).drop
        (slot * (header.entryArray dev.blockSize).entrySize)) := by
  have hentry : gptEntrySize ≤ (header.entryArray dev.blockSize).entrySize := h.ok.entrySize
  have hpower : isPowerOfTwo (header.entryArray dev.blockSize).entrySize = true := h.ok.power
  have hbytes : (header.entryArray dev.blockSize).bytes =
    (header.entryArray dev.blockSize).count *
      (header.entryArray dev.blockSize).entrySize := rfl
  have hblocks : (header.entryArray dev.blockSize).bytes ≤
      (header.entryArray dev.blockSize).blocks * dev.blockSize.bytes := le_blocksFor _ _
  generalize header.entryArray dev.blockSize = array at *
  obtain ⟨hblock, hblockPower⟩ := checkBlockSize_ok hsize
  have hroom := slot_room hentry hblock (power_dvd hpower hblockPower) slot
  have hsum := Nat.div_add_mod' (slot * array.entrySize) dev.blockSize.bytes
  have hstep := Nat.mul_le_mul_right array.entrySize (Nat.succ_le_of_lt hslot)
  rw [Nat.succ_mul] at hstep
  have hindex : slot * array.entrySize / dev.blockSize.bytes < array.blocks := by
    have hend : slot * array.entrySize < array.blocks * dev.blockSize.bytes := by
      rw [gptEntrySize] at hentry
      omega
    exact Nat.div_lt_of_lt_mul (hend.trans_eq (Nat.mul_comm _ _))
  rw [Device.entryAt, Holds.block_slice hindex, arrayBytes, drop_take, drop_drop, hsum,
    drop_take, local_entryCodec _ _ (by rw [width_entryCodec]; omega),
    local_entryCodec _ _ (by rw [width_entryCodec]; omega)]

theorem Copy.entriesOf_congr {dev' : Device} {lba' : Nat} (h : dev.Copy lba header)
    (h' : dev'.Copy lba' header) (hsize : checkBlockSize dev.blockSize = .ok ())
    (hsame : dev'.blockSize = dev.blockSize)
    (hbytes : dev'.arrayBytes (header.entryArray dev.blockSize) =
      dev.arrayBytes (header.entryArray dev.blockSize)) :
    dev'.entriesOf (header.entryArray dev.blockSize) = dev.entriesOf
      (header.entryArray dev.blockSize) := by
  refine map_congr_left fun slot hslot => ?_
  rw [mem_range] at hslot
  have hentry' := h'.entryAt (by rw [hsame]; exact hsize)
    (show slot < _ by rw [hsame]; exact hslot)
  rw [hsame] at hentry'
  rw [h.entryAt hsize hslot, hentry', hbytes]

end Device

end Hadris.Part

namespace Hadris.Part

open List

open Hadris.Prog

namespace Gpt

/-- What calls make of a table, those that fail included. -/
inductive Edited (gpt : Gpt) : Gpt → Prop
  | refl : Edited gpt gpt
  | call {gpt' : Gpt} (h : Edited gpt gpt') (op : Op) : Edited gpt (op.call.run gpt').2

/-- What a table read from a device of blocks of `size` is checked for. -/
structure Loaded (size : BlockSize) (gpt : Gpt) : Prop where
  blockSize : gpt.blockSize = size
  entrySize : gptEntrySize ≤ gpt.entrySize
  entryLt : gpt.entrySize < 2 ^ 32
  power : isPowerOfTwo gpt.entrySize = true
  bytes : gpt.entries.length * gpt.entrySize ≤ maxArrayBytes
  first : gpt.firstUsable ≤ gpt.lastUsable + 1

variable {gpt gpt' : Gpt} {size : BlockSize} {index : Nat}

theorem Loaded.set_entry {raw : RawGptEntry} (h : gpt.Loaded size) :
    Loaded size { gpt with entries := gpt.entries.set index raw } := by
  refine ⟨h.blockSize, h.entrySize, h.entryLt, h.power, ?_, h.first⟩
  rw [length_set]
  exact h.bytes

theorem Loaded.edit {f : GptEntry → GptEntry} (h : gpt.Loaded size)
    (hrun : (edit index f).run gpt = (.ok (), gpt')) : gpt'.Loaded size := by
  obtain ⟨entry, -, rfl⟩ := edit_ok hrun
  exact h.set_entry

theorem Loaded.call (h : gpt.Loaded size) {op : Op} (hrun : op.call.run gpt = (.ok (), gpt')) :
    gpt'.Loaded size := by
  cases op with
  | add entry =>
    obtain ⟨slot, gpt₂, hadd, hrun⟩ := bind_ok hrun
    cases hrun
    obtain ⟨-, rfl⟩ := add_ok hadd
    exact h.set_entry
  | remove index =>
    obtain rfl := remove_ok hrun
    exact h.set_entry
  | resize index len =>
    rw [Op.call, resize] at hrun
    exact h.edit hrun
  | setType index typeGuid =>
    rw [Op.call, setType] at hrun
    exact h.edit hrun
  | setUniqueGuid index uniqueGuid =>
    rw [Op.call, setUniqueGuid] at hrun
    exact h.edit hrun
  | setName index name =>
    rw [Op.call, setName] at hrun
    exact h.edit hrun
  | setFlags index flags =>
    rw [Op.call, setFlags] at hrun
    exact h.edit hrun
  | setAttributes index attributes =>
    rw [Op.call, setAttributes] at hrun
    exact h.edit hrun
  | setDiskGuid diskGuid =>
    cases hrun
    exact ⟨h.blockSize, h.entrySize, h.entryLt, h.power, h.bytes, h.first⟩
  | setEntryCount count =>
    obtain ⟨first, last, -, -, hbytes, husable, -, rfl⟩ := setEntryCount_ok hrun
    obtain ⟨-, -, -, hle⟩ := usable_ok husable
    refine ⟨h.blockSize, h.entrySize, h.entryLt, h.power, ?_, Nat.le_succ_of_le hle⟩
    have hlength : (resized gpt.entries count).length = count := takeD_length ..
    rwa [hlength]
  | relocateBackup blockCount =>
    obtain ⟨first, last, -, -, hle, -, rfl⟩ := relocateBackup_ok hrun
    exact ⟨h.blockSize, h.entrySize, h.entryLt, h.power, h.bytes, Nat.le_succ_of_le hle⟩

theorem Edited.loaded (h : gpt.Edited gpt') (hloaded : gpt.Loaded size) : gpt'.Loaded size := by
  induction h with
  | refl => exact hloaded
  | @call gpt' _ op ih =>
    rcases hrun : op.call.run gpt' with ⟨e | u, gpt''⟩
    · obtain rfl := quiet_call op gpt' e gpt'' hrun
      exact ih
    · exact ih.call hrun

def primaryArray (gpt : Gpt) : EntryArray :=
  ⟨gpt.primaryEntriesLba, gpt.arrayBlocks, gpt.entries.length * gpt.entrySize, gpt.entries.length,
    gpt.entrySize⟩

theorem listing_congr (hentries : gpt.entries = gpt'.entries)
    (hsize : gpt.blockSize = gpt'.blockSize) :
    gpt.listing = gpt'.listing := by
  have hentry : gpt.entry = gpt'.entry := by
    funext index
    rw [entry, entry, hentries, hsize]
  rw [listing, listing, hentry, hentries]

end Gpt

namespace Device

variable {dev : Device} {gpt : Gpt} {header : RawGptHeader} {found : Found} {record : RawMbr}
  {kind : TableKind}

theorem loadCopy_total (dev : Device) (lba : Nat) : ∃ loaded, dev.loadCopy lba = .ok loaded := by
  by_cases hcopy : ∃ header, dev.Copy lba header
  · obtain ⟨header, hcopy⟩ := hcopy
    exact ⟨_, hcopy.load⟩
  · obtain ⟨detail, hload⟩ := loadCopy_none fun header hheader => hcopy ⟨header, hheader⟩
    exact ⟨_, hload⟩

theorem Copy.findGpt (h : dev.Copy 1 header) : ∃ found, dev.findGpt = .ok found ∧
    found.header = header ∧ found.array = header.entryArray dev.blockSize := by
  obtain ⟨backup, hbackup⟩ := loadCopy_total dev header.alternateLba.toNat
  refine ⟨_, except_bind_ok.mpr ⟨_, h.load, except_bind_ok.mpr ⟨_, hbackup, rfl⟩⟩, rfl, rfl⟩

theorem findGpt_last (hnone : ∀ header, ¬ dev.Copy 1 header)
    (h : dev.Copy (dev.blockCount - 1) header) :
    dev.findGpt = .ok ⟨header, header.entryArray dev.blockSize, .backup, some .primary,
      some (header.entryArray dev.blockSize).lba⟩ := by
  obtain ⟨detail, hprimary⟩ := loadCopy_none hnone
  exact except_bind_ok.mpr ⟨_, hprimary, except_bind_ok.mpr ⟨_, h.load, rfl⟩⟩

/-- The copy that is read: the primary one, or the one in the last block where no primary
copy is valid. -/
inductive Chosen (dev : Device) (header : RawGptHeader) : Prop
  | primary (h : dev.Copy 1 header)
  | backup (hnone : ∀ header, ¬ dev.Copy 1 header) (h : dev.Copy (dev.blockCount - 1) header)

theorem Chosen.findGpt (h : dev.Chosen header) : ∃ found, dev.findGpt = .ok found ∧
    found.header = header ∧ found.array = header.entryArray dev.blockSize := by
  cases h with
  | primary h => exact h.findGpt
  | backup hnone h => exact ⟨_, findGpt_last hnone h, rfl, rfl⟩

theorem findGpt_primary (h : dev.findGpt = .ok found) (hcopy : found.damaged ≠ some .primary) :
    dev.Copy 1 found.header ∧ found.copy = .primary := by
  obtain ⟨primary, hprimary, h⟩ := except_bind_ok.mp h
  obtain ⟨backup, hbackup, h⟩ := except_bind_ok.mp h
  rcases primary with detail | ⟨header, array⟩
  · rcases backup with detail' | ⟨header, array⟩
    · cases h
    · cases h
      exact absurd rfl hcopy
  · cases h
    exact ⟨(copy_of_load hprimary).1, rfl⟩

theorem readGpt_ok (h : dev.readGpt = .ok gpt) :
    ∃ found, dev.findGpt = .ok found ∧ gpt = dev.gptOf found := by
  rcases hfound : dev.findGpt with e | found
  · rw [readGpt_error hfound] at h
    cases h
  · rw [readGpt_found hfound] at h
    cases h
    exact ⟨found, rfl, rfl⟩

theorem readGpt_primary (h : dev.readGpt = .ok gpt) (hdamaged : gpt.damaged ≠ some .primary) :
    ∃ header, dev.Copy 1 header ∧ header.entryArray dev.blockSize = gpt.primaryArray ∧
      gpt.entries = dev.entriesOf gpt.primaryArray := by
  obtain ⟨found, hfound, rfl⟩ := readGpt_ok h
  obtain ⟨hcopy, hprimary⟩ := findGpt_primary hfound hdamaged
  obtain ⟨-, harray⟩ := findGpt_ok hfound
  have hlength : (dev.gptOf found).entries.length = found.header.numPartitionEntries.toNat := by
    change ((List.range _).map _).length = _
    rw [length_map, length_range, harray]
    rfl
  have hlba : (dev.gptOf found).primaryEntriesLba = found.header.partitionEntryLba.toNat := by
    rw [gptOf, hprimary]
    rfl
  have hsame : found.header.entryArray dev.blockSize = (dev.gptOf found).primaryArray := by
    rw [Gpt.primaryArray, Gpt.arrayBlocks, hlength, hlba]
    rfl
  refine ⟨found.header, hcopy, hsame, ?_⟩
  rw [← hsame, ← harray]
  rfl

theorem ofTable_ok {α : Type} {result : Except TableError α} {a : α} :
    ofTable result = .ok a ↔ result = .ok a := by
  cases result with
  | error e => exact ⟨fun h => (by cases h), fun h => (by cases h)⟩
  | ok b => exact ⟨fun h => (by cases h; rfl), fun h => (by cases h; rfl)⟩

/-- A device whose block 0 announces the GPT on it. -/
structure Shows (dev : Device) (record : RawMbr) (kind : TableKind) (gpt : Gpt) : Prop where
  size : checkBlockSize dev.blockSize = .ok ()
  block : dev.readRecord 0 = .ok record
  describes : classify record = .ok kind
  announces : kind ≠ .mbr
  holds : dev.readGpt = .ok gpt

theorem Shows.read (h : dev.Shows record kind gpt) :
    ∃ disk, dev.read = .ok disk ∧ disk.table.partitions = gpt.listing := by
  rw [read_eq (ofTable_ok.mpr h.size) h.block (ofTable_ok.mpr h.describes)]
  cases kind with
  | mbr => exact absurd rfl h.announces
  | gpt =>
    rw [readTable, h.holds]
    exact ⟨_, rfl, rfl⟩
  | hybrid =>
    rw [readTable, h.holds]
    exact ⟨_, rfl, rfl⟩

end Device

end Hadris.Part
