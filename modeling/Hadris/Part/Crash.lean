import Hadris.Part.Rewrite
import Hadris.Part.RoundTrip

namespace Hadris.Part

open Hadris.Prog

/-- What edits of a GPT and of the boot code make of a disk that was read. A hybrid
MBR keeps its entries or is built again. -/
inductive Disk.Edited (disk : Disk) : Disk → Prop
  | gpt {gpt gpt' : Gpt} {bootstrap : Vector UInt8 446} (h : disk.table.gpt? = some gpt)
      (hgpt : gpt.Edited gpt') : Edited disk ⟨.gpt gpt', bootstrap⟩
  | kept {hybrid : Hybrid} {gpt' : Gpt} {bootstrap : Vector UInt8 446}
      (h : disk.table = .hybrid hybrid)
      (hgpt : hybrid.gpt.Edited gpt') :
      Edited disk ⟨.hybrid { hybrid with gpt := gpt' }, bootstrap⟩
  | hybrid {gpt gpt' gpt'' : Gpt} {config : HybridMbr} {hybrid : Hybrid}
      {bootstrap : Vector UInt8 446}
      (h : disk.table.gpt? = some gpt) (hgpt : gpt.Edited gpt')
      (hnew : Hybrid.new gpt' config = .ok hybrid)
      (hgpt' : gpt'.Edited gpt'') : Edited disk ⟨.hybrid { hybrid with gpt := gpt'' }, bootstrap⟩

def Disk.writes (disk : Disk) (dev : Device) : List Run :=
  match disk.checkWrite dev with
  | .ok () => disk.runs.flatMap (Run.blocks dev.blockSize)
  | .error _ => []

def Gpt.arrayRun (gpt : Gpt) : Part.Run :=
  ⟨gpt.primaryEntriesLba, padded gpt.blockSize gpt.arrayImage⟩

/-- The blocks that are written before the primary header. -/
def Gpt.earlyBlocks (gpt : Gpt) : List Part.Run :=
  (gpt.copyRuns .backup).flatMap (Run.blocks gpt.blockSize) ++ gpt.arrayRun.blocks gpt.blockSize

def Gpt.midway (gpt : Gpt) (dev : Device) (n : Nat) : Device :=
  dev.stored ((gpt.arrayRun.blocks dev.blockSize).take n)

/-- The table `old` was read from its primary copy, and writing `new` over it leaves a
copy to read: the new backup copy lies beside the old entry array, and while the new
primary array is written the old one either reads as before or fails its checksum, with
the new backup header in the last block. -/
structure Gpt.Recoverable (dev : Device) (old new : Gpt) : Prop where
  primary : old.damaged ≠ some .primary
  beside : ∀ area ∈ new.copyAreas .backup, area.Apart ⟨old.primaryEntriesLba, old.arrayBlocks⟩
  array : ∀ n, (new.midway dev n).arrayBytes old.primaryArray = dev.arrayBytes old.primaryArray ∨
    crc32 ((new.midway dev n).arrayBytes old.primaryArray) ≠
      crc32 (dev.arrayBytes old.primaryArray) ∧
      new.backupLba + 1 = dev.blockCount

variable {dev : Device} {old new : Gpt} {record record' : RawMbr} {kind : TableKind}

namespace Device

theorem Shows.keep_primary {runs : List Run} (h : dev.Shows record kind old)
    (hdamaged : old.damaged ≠ some .primary)
    (hrecord : (dev.stored runs).readRecord 0 = .ok record)
    (hheader : (dev.stored runs).block 1 = dev.block 1)
    (harray : (dev.stored runs).arrayBytes old.primaryArray = dev.arrayBytes old.primaryArray) :
    ∃ gpt, (dev.stored runs).Shows record kind gpt ∧ gpt.listing = old.listing := by
  obtain ⟨header, hcopy, hsame, hentries⟩ := readGpt_primary h.holds hdamaged
  have hok := hcopy.ok
  have hcrc := hcopy.crc
  rw [← hheader] at hok
  rw [hsame, ← harray, ← hsame] at hcrc
  have hstored : (dev.stored runs).Copy 1 header := ⟨hcopy.first, hcopy.last, hok, hcrc⟩
  obtain ⟨found, hfound, rfl, hfoundArray⟩ := hstored.findGpt
  refine ⟨_, ⟨h.size, hrecord, h.describes, h.announces, readGpt_found hfound⟩, ?_⟩
  obtain ⟨found', hfound', rfl⟩ := readGpt_ok h.holds
  refine Gpt.listing_congr ?_ rfl
  rw [hentries]
  change (dev.stored runs).entriesOf found.array = _
  rw [hfoundArray]
  rw [← hsame] at harray ⊢
  exact hcopy.entriesOf_congr hstored h.size rfl harray

theorem Shows.use_both {runs : List Run} (hsize : checkBlockSize dev.blockSize = .ok ())
    (hrecord : (dev.stored runs).readRecord 0 = .ok record) (hkind : classify record = .ok kind)
    (hne : kind ≠ .mbr) (hnew : new.Storable dev.blockCount)
    (hprimary : (dev.stored runs).Holds new .primary)
    (hbackup : (dev.stored runs).Holds new .backup) :
    ∃ gpt, (dev.stored runs).Shows record kind gpt ∧ gpt.listing = new.listing :=
  ⟨_, ⟨hsize, hrecord, hkind, hne, readGpt_holds hnew hprimary hbackup⟩,
    Gpt.listing_congr rfl rfl⟩

theorem readRecord_stored {runs : List Run} (h : (dev.stored runs).block 0 = dev.block 0) :
    (dev.stored runs).readRecord 0 = dev.readRecord 0 := by
  rw [readRecord, readRecord, readBlock, readBlock, h]
  rfl

theorem Holds.stored {runs : List Run} {copy : GptCopy} (h : dev.Holds new copy)
    (hapart : ∀ area ∈ new.copyAreas copy, ∀ run ∈ runs,
      (blockBytes dev.blockSize area.start area.length).Apart (run.region dev.blockSize)) :
    (dev.stored runs).Holds new copy := by
  have harray := stored_apart (hapart _ List.mem_cons_self)
  have hheader := block_apart (hapart _ (List.mem_cons_of_mem _ List.mem_cons_self))
  exact ⟨h.size, hheader.trans h.header, harray.trans h.array⟩

end Device

theorem Covers.blocks_apart {size : BlockSize} {runs : List Run}
    {areas : List Region} {area : Region}
    (h : Covers size runs areas) (hwhole : ∀ run ∈ runs, run.Whole size)
    (hapart : ∀ other ∈ areas, area.Apart other) :
    ∀ block ∈ runs.flatMap (Run.blocks size),
      (blockBytes size area.start area.length).Apart (block.region size) := by
  intro block hblock
  obtain ⟨run, hrun, hblock⟩ := List.mem_flatMap.mp hblock
  obtain ⟨other, hother, hregion⟩ := h.of_mem hrun
  have hwithin := blocks_within (hwhole run hrun) hblock
  rw [hregion] at hwithin
  exact (hwithin.apart (blockBytes_apart (hapart other hother)).symm).symm

namespace Disk

variable {disk disk' : Disk}

theorem Edited.loaded {size : BlockSize} (h : disk.Edited disk')
    (hgpt : disk.table.gpt? = some old)
    (hloaded : old.Loaded size) : ∃ gpt, disk'.table.gpt? = some gpt ∧ gpt.Loaded size := by
  cases h with
  | gpt hgpt' hedited =>
    rw [hgpt] at hgpt'
    cases hgpt'
    exact ⟨_, rfl, hedited.loaded hloaded⟩
  | kept htable hedited =>
    rw [htable] at hgpt
    cases hgpt
    exact ⟨_, rfl, hedited.loaded hloaded⟩
  | hybrid hgpt' hedited hnew hedited' =>
    rw [hgpt] at hgpt'
    cases hgpt'
    exact ⟨_, rfl, hedited'.loaded (hedited.loaded hloaded)⟩

theorem Edited.classify (h : disk.Edited disk')
    (hentries : ∀ hybrid, disk.table = .hybrid hybrid → hybrid.entries = record.entries)
    (hkind : classify record = .ok kind) (hne : kind ≠ .mbr) :
    ∃ kind', Part.classify disk'.record = .ok kind' ∧ kind' ≠ .mbr := by
  cases h with
  | gpt hgpt hedited => exact ⟨.gpt, classify_protective rfl rfl, by decide⟩
  | @kept hybrid gpt' bootstrap htable hedited =>
    refine ⟨kind, ?_, hne⟩
    have hsame := hentries _ htable
    obtain ⟨_, hsign, hrest⟩ := except_bind_ok.mp hkind
    refine except_bind_ok.mpr ⟨(), ensure_of_true _ rfl, ?_⟩
    rw [← hsame] at hrest
    exact hrest
  | hybrid hgpt hedited hnew hedited' =>
    obtain ⟨-, hentries', -⟩ := Hybrid.new_entries hnew
    refine ⟨_, Hybrid.Entries.classify ⟨hentries'.ok, hentries'.extended, hentries'.protective⟩ _
      rfl rfl, ?_⟩
    split
    · decide
    · decide

end Disk

namespace Gpt

variable {blockCount : Nat}

theorem copyRuns_whole (gpt : Gpt) (copy : GptCopy) :
    ∀ run ∈ gpt.copyRuns copy, run.Whole gpt.blockSize := by
  intro run hrun
  rcases List.mem_cons.mp hrun with rfl | hrun
  · exact padded_whole _ _ _
  · rw [List.mem_singleton.mp hrun]
    exact padded_whole _ _ _

def headerRun (gpt : Gpt) : Part.Run :=
  ⟨1, padded gpt.blockSize (RawGptHeader.codec.encode (gpt.headerOf .primary))⟩

theorem Storable.first_blocks_apart (h : new.Storable blockCount) {lba : Nat} (hlba : lba < 2) :
    (∀ area ∈ new.copyAreas .backup, (Region.mk lba 1).Apart area) ∧
      ∀ area ∈ [Region.mk new.primaryEntriesLba new.arrayBlocks],
        (Region.mk lba 1).Apart area := by
  obtain ⟨hprimary, hstop, hlast, hstop', hbackup⟩ := fits_ok h.fits
  have hfirst := h.first
  simp only [copyAreas, entriesLba, headerLba, List.forall_mem_cons,
    List.not_mem_nil, Region.Apart, Region.Before, Region.stop]
  refine ⟨⟨?_, ?_, fun _ h => h.elim⟩, ?_, fun _ h => h.elim⟩ <;> omega

theorem Storable.covers_array (h : new.Storable blockCount) :
    Covers new.blockSize [new.arrayRun] [⟨new.primaryEntriesLba, new.arrayBlocks⟩] := by
  refine .cons ?_ (covers_nil _)
  rw [arrayRun, padded_region, arrayImage_length h.entrySize]
  rfl

theorem Storable.early_apart (h : new.Storable blockCount) {lba : Nat} (hlba : lba < 2) :
    ∀ block ∈ new.earlyBlocks, (blockBytes new.blockSize lba 1).Apart
      (block.region new.blockSize) := by
  obtain ⟨hcopy, harray⟩ := h.first_blocks_apart hlba
  intro block hblock
  rcases List.mem_append.mp hblock with hblock | hblock
  · exact (h.covers_copy .backup).blocks_apart (new.copyRuns_whole .backup) hcopy block hblock
  · refine h.covers_array.blocks_apart (fun run hrun => ?_) harray block ?_
    · rw [List.mem_singleton.mp hrun]
      exact padded_whole _ _ _
    · rwa [List.flatMap_singleton]

end Gpt

namespace Device

theorem early_block (hs : new.Storable dev.blockCount) (hsize : dev.blockSize = new.blockSize)
    {lba : Nat}
    (hlba : lba < 2) (n : Nat) : (dev.stored (new.earlyBlocks.take n)).block lba =
      dev.block lba := by
  refine block_apart fun run hrun => ?_
  rw [hsize]
  exact hs.early_apart hlba run (List.mem_of_mem_take hrun)

namespace Shows

theorem early_record (h : dev.Shows record kind old) (hs : new.Storable dev.blockCount)
    (hsize : dev.blockSize = new.blockSize) (n : Nat) :
    (dev.stored (new.earlyBlocks.take n)).readRecord 0 = .ok record :=
  (readRecord_stored (early_block hs hsize (by decide) n)).trans h.block

/-- While the new backup copy is written, the old primary copy is read. -/
theorem before (h : dev.Shows record kind old) (hs : new.Storable dev.blockCount)
    (hsize : dev.blockSize = new.blockSize) (hr : Gpt.Recoverable dev old new) {n : Nat}
    (hn : n ≤ ((new.copyRuns .backup).flatMap (Run.blocks new.blockSize)).length) :
    ∃ gpt, (dev.stored (new.earlyBlocks.take n)).Shows record kind gpt ∧
      gpt.listing = old.listing := by
  refine h.keep_primary hr.primary (h.early_record hs hsize n)
    (early_block hs hsize (by decide) n) ?_
  rw [Gpt.earlyBlocks, List.take_append_of_le_length hn]
  refine congrArg (List.take _) (stored_apart fun run hrun => ?_)
  rw [hsize]
  exact (hs.covers_copy .backup).blocks_apart (new.copyRuns_whole .backup)
    (fun other hother => (hr.beside other hother).symm) run (List.mem_of_mem_take hrun)

theorem after (h : dev.Shows record kind old) (hs : new.Storable dev.blockCount)
    (hsize : dev.blockSize = new.blockSize) :
    ∃ gpt, (dev.stored (new.earlyBlocks ++ [new.headerRun])).Shows record kind gpt ∧
      gpt.listing = new.listing := by
  have hcovers := (hs.covers_copy .backup).append (hs.covers_copy .primary)
  have hpairs := (List.pairwise_append.mp hs.areas_apart).1
  rw [← hsize] at hcovers
  have hapart := hcovers.apart hpairs
  have hstored : dev.stored (new.earlyBlocks ++ [new.headerRun]) =
      dev.stored (new.copyRuns .backup ++ new.copyRuns .primary) := by
    have harray : store new.blockSize (store new.blockSize dev.image (new.copyRuns .backup))
        (new.arrayRun.blocks new.blockSize) = _ := store_blocks (padded_whole _ _ _)
    rw [Device.stored, Device.stored, hsize, Gpt.earlyBlocks, List.append_assoc, store_append,
      store_append, store_append, store_flatMap (new.copyRuns_whole .backup), harray]
    rfl
  rw [hstored]
  refine use_both h.size ?_ h.describes h.announces hs
    (hs.holds_of_subset hsize hapart (List.subset_append_right _ _))
    (hs.holds_of_subset hsize hapart (List.subset_append_left _ _))
  refine (readRecord_stored (stored_kept hcovers fun area harea => ?_)).trans h.block
  have hzero := (List.pairwise_append.mp hs.areas_apart).2.2 area harea _
    (List.mem_singleton.mpr rfl)
  exact hzero.symm

end Shows

end Device

namespace Disk

variable {disk disk' : Disk}

end Disk

def usedEntry : RawGptEntry where
  typeGuid := ⟨List.replicate 16 1, by decide⟩
  uniqueGuid := ⟨List.replicate 16 2, by decide⟩
  firstLba := 3
  lastLba := 4
  attributes := 0
  name := ⟨List.replicate 36 0, by decide⟩

end Hadris.Part
