import Hadris.Part.ReadBack

namespace Hadris.Part

open Hadris.Prog

/-- A table that was built and edited, with any boot code. -/
inductive Disk.Built : Disk → Prop
  | mbr {mbr : Mbr} {bootstrap : Vector UInt8 446} (h : Mbr.Built mbr) :
      Built ⟨.mbr mbr, bootstrap⟩
  | gpt {gpt : Gpt} {bootstrap : Vector UInt8 446} (h : Gpt.Built gpt) :
      Built ⟨.gpt gpt, bootstrap⟩
  | hybrid {hybrid : Hybrid} {bootstrap : Vector UInt8 446} (h : Hybrid.Built hybrid) :
      Built ⟨.hybrid hybrid, bootstrap⟩

def PartitionTable.dataAreas : PartitionTable → List Region
  | .mbr table => table.partitions.map fun partition => ⟨partition.start, partition.len⟩
  | .gpt table => [table.usableArea]
  | .hybrid table => [table.gpt.usableArea]

def Disk.shown (disk : Disk) : Disk :=
  match disk.table with
  | .hybrid hybrid => if hybrid.Mirrors then disk else ⟨.gpt hybrid.gpt, disk.bootstrap⟩
  | _ => disk

variable {dev : Device}

namespace Gpt

variable {gpt : Gpt} {record : RawMbr} {lba : Nat}

theorem Consistent.storable (h : gpt.Consistent) : gpt.Storable gpt.blockCount := by
  have hprimary := h.primaryEntries
  have hfirst := h.firstUsable
  have husable := h.usable
  have hentries := h.backupEntries
  have hbackup := h.backup
  have hdevice := h.device
  have hblocks := h.blocks
  have hcopy : checkedAdd gpt.primaryEntriesLba gpt.arrayBlocks = some gpt.firstUsable :=
    checkedAdd_some.mpr ⟨by omega, by omega⟩
  have hcopy' : checkedAdd gpt.backupEntriesLba gpt.arrayBlocks = some gpt.backupLba :=
    checkedAdd_some.mpr ⟨by omega, by omega⟩
  refine ⟨h.size, ?_, ?_, ?_, ?_, by omega, ?_, hblocks⟩
  · rw [h.entrySize]
  · rw [h.entrySize]
    decide
  · rw [h.entrySize]
    decide
  · rw [h.entrySize]
    exact h.array
  · rw [Gpt.fits, hcopy, hcopy', Option.any_some, Option.any_some]
    simp only [Bool.and_eq_true, decide_eq_true_eq]
    omega

theorem Storable.read_stored (h : gpt.Storable dev.blockCount)
    (hsize : dev.blockSize = gpt.blockSize) (record : RawMbr) :
    (dev.stored (gpt.allRuns record)).readRecord 0 = .ok record ∧
      (dev.stored (gpt.allRuns record)).readGpt =
        .ok { gpt with blockCount := dev.blockCount, damaged := none } := by
  have hapart := (h.covers record).apart h.areas_apart
  have hblock := h.blockSize_ok.1
  have hdisk := (fits_ok h.fits).2.2.2.2
  refine ⟨?_, Device.readGpt_holds h (h.holds hsize record .primary)
    (h.holds hsize record .backup)⟩
  rw [← hsize] at hapart hblock
  refine Device.stored_record hblock hapart (List.mem_append_right _ ?_) (Nat.zero_lt_of_lt hdisk)
  rw [hsize]
  exact List.mem_singleton.mpr rfl

theorem Storable.usable_kept (h : gpt.Storable dev.blockCount)
    (hsize : dev.blockSize = gpt.blockSize) (hlba : gpt.usableArea.Has lba) :
    (dev.stored (gpt.allRuns record)).block lba = dev.block lba := by
  have hcovers := h.covers record
  rw [← hsize] at hcovers
  exact Device.stored_kept hcovers (h.usable_apart hlba)

end Gpt

namespace Disk

theorem write_gpt {disk : Disk} {gpt : Gpt} (hgpt : disk.table.gpt? = some gpt)
    (h : gpt.Storable dev.blockCount) (hsize : dev.blockSize = gpt.blockSize)
    (hcount : gpt.blockCount ≤ dev.blockCount) :
    disk.write.run dev = (.ok (), dev.stored (gpt.allRuns disk.record)) := by
  have hcovers := h.covers disk.record
  rw [← hsize] at hcovers
  have hfits := Device.fits_of_covers hcovers h.areas_onDisk
  have hsame : ensure (decide (dev.blockSize = gpt.blockSize))
      (Detail.blockSize.error .invalidInput) = .ok () := ensure_of_true _ (decide_eq_true hsize)
  have hroom : ensure (decide (gpt.blockCount ≤ dev.blockCount) && gpt.fits dev.blockCount)
      (Detail.diskTooSmall.error .noSpace) = .ok () := ensure_of_true _ (by
    rw [decide_eq_true hcount, h.fits]
    rfl)
  obtain ⟨table, bootstrap⟩ := disk
  cases table with
  | mbr mbr => cases hgpt
  | gpt table =>
    cases hgpt
    refine write_run ?_ hfits
    exact except_bind_ok.mpr ⟨_, hsame, except_bind_ok.mpr ⟨_, rfl, hroom⟩⟩
  | hybrid hybrid =>
    cases hgpt
    refine write_run ?_ hfits
    exact except_bind_ok.mpr ⟨_, hsame, except_bind_ok.mpr ⟨_, rfl, hroom⟩⟩

end Disk

namespace Mbr

variable {mbr : Mbr} {lba : Nat} {record : RawMbr}

def areas (mbr : Mbr) : List Region := mbr.ebrBlocks ++ [⟨0, 1⟩]

def allRuns (mbr : Mbr) (record : RawMbr) : List Part.Run :=
  Disk.mbrRuns mbr ++ [⟨0, padded mbr.blockSize (RawMbr.codec.encode record)⟩]

theorem covers (hsize : 512 ≤ mbr.blockSize.bytes) (record : RawMbr) :
    Covers mbr.blockSize (mbr.allRuns record) mbr.areas := by
  refine Covers.append ?_ (.cons (Gpt.record_region hsize 0 record) (covers_nil _))
  rw [Covers, Disk.mbrRuns, ebrBlocks, List.map_map, List.map_map]
  exact List.map_congr_left fun record _ => Gpt.record_region hsize record.1 record.2

theorem Consistent.extended_pos (h : mbr.Consistent) :
    ∀ area ∈ mbr.extendedAreas, 0 < area.start := by
  intro area harea
  obtain ⟨slot, hslot, hwithin⟩ := h.extended.2 area harea
  exact Nat.lt_of_lt_of_le ((h.slots slot (not_empty_of_extended hslot)).extended hslot) hwithin.1

theorem Consistent.areas_apart (h : mbr.Consistent) : mbr.areas.Pairwise Region.Apart := by
  refine List.pairwise_append.mpr
    ⟨(List.pairwise_append.mp h.extended.1).1, List.pairwise_singleton ..,
    fun area harea zero hzero => .inr ?_⟩
  have hpos := h.extended_pos area (List.mem_append_left _ harea)
  rw [List.mem_singleton.mp hzero]
  exact hpos

theorem Consistent.areas_onDisk (h : mbr.Consistent) (hpos : 0 < mbr.blockCount) :
    ∀ area ∈ mbr.areas, area.stop ≤ mbr.blockCount := by
  intro area harea
  rcases List.mem_append.mp harea with harea | harea
  · obtain ⟨slot, hslot, hwithin⟩ := h.extended.2 area (List.mem_append_left _ harea)
    exact hwithin.2.trans (h.slots slot (not_empty_of_extended hslot)).onDisk
  · rw [List.mem_singleton.mp harea]
    exact hpos

theorem mem_partitions {partition : Partition} (h : partition ∈ mbr.partitions) :
    (∃ raw ∈ mbr.primaries, raw.kind.isExtended = false ∧
      Region.mk partition.start partition.len = raw.region) ∨
    ∃ logical ∈ mbr.logical, partition.start = logical.start ∧ partition.len ≤ logical.len := by
  obtain ⟨index, -, hlisted⟩ := List.mem_filterMap.mp h
  obtain ⟨hentry, hkeep⟩ := Option.filter_eq_some_iff.mp hlisted
  rw [entry] at hentry
  split at hentry
  · rename_i hindex
    rw [decide_eq_true hindex, Bool.true_and] at hkeep
    dsimp only at hentry
    split at hentry
    · cases hentry
    · rename_i hused
      cases hentry
      exact .inl ⟨_, primary_mem (Bool.not_eq_true _ |>.mp hused),
        Bool.not_eq_true' _ |>.mp hkeep, rfl⟩
  · obtain ⟨logical, hlogical, rfl⟩ := Option.map_eq_some_iff.mp hentry
    refine .inr ⟨logical, List.mem_of_getElem? hlogical, rfl, ?_⟩
    change (UInt32.ofNat logical.len).toNat ≤ logical.len
    rw [UInt32.toNat_ofNat']
    exact Nat.mod_le ..

theorem Consistent.listed_apart (h : mbr.Consistent) {partition : Partition}
    (hpartition : partition ∈ mbr.partitions) (hpos : 0 < lba)
    (hlba : (Region.mk partition.start partition.len).Has lba) :
    ∀ area ∈ mbr.areas, (blockRegion lba).Apart area := by
  intro area harea
  rcases List.mem_append.mp harea with harea | harea
  · have hapart : area.Apart ⟨partition.start, partition.len⟩ := by
      rcases mem_partitions hpartition with ⟨raw, hraw, hplain, hregion⟩ | ⟨logical,
        hlogical, hstart, hlen⟩
      · rw [hregion]
        exact h.sound.beside area (List.mem_append_left _ harea) raw hraw hplain
      · have hregion := (List.pairwise_append.mp h.extended.1).2.2 area harea logical.region
          (List.mem_map_of_mem hlogical)
        simp only [Region.Apart, Region.Before, Region.stop, Logical.region] at hregion ⊢
        omega
    simp only [Region.Apart, Region.Before, Region.Has, Region.stop, blockRegion] at *
    omega
  · rw [List.mem_singleton.mp harea]
    exact .inr hpos

theorem Consistent.write {bootstrap : Vector UInt8 446} (h : mbr.Consistent)
    (hsize : dev.blockSize = mbr.blockSize) (hcount : dev.blockCount = mbr.blockCount)
    (hpos : 0 < mbr.blockCount) :
    (Disk.mk (.mbr mbr) bootstrap).write.run dev =
      (.ok (), dev.stored (mbr.allRuns (Disk.mk (.mbr mbr) bootstrap).record)) := by
  have hblock := (checkBlockSize_ok h.size).1
  have hcovers := covers hblock (Disk.mk (.mbr mbr) bootstrap).record
  rw [← hsize] at hcovers
  refine Disk.write_run ?_ (Device.fits_of_covers hcovers (hcount ▸ h.areas_onDisk hpos))
  refine except_bind_ok.mpr ⟨_, ensure_of_true _ (decide_eq_true hsize),
    except_bind_ok.mpr ⟨(), ?_, ?_⟩⟩
  · rw [h.fields]
    rfl
  · change ensure (decide (mbr.blockCount ≤ dev.blockCount) && true) _ = _
    rw [decide_eq_true hcount.ge]
    rfl

theorem Consistent.read_stored {bootstrap : Vector UInt8 446} (h : mbr.Consistent)
    (hsize : dev.blockSize = mbr.blockSize) (hcount : dev.blockCount = mbr.blockCount)
    (hpos : 0 < mbr.blockCount) :
    (dev.stored (mbr.allRuns (Disk.mk (.mbr mbr) bootstrap).record)).read =
      .ok (Disk.mk (.mbr mbr) bootstrap) := by
  have hrecord := Disk.fromDisk_record (Disk.mk (.mbr mbr) bootstrap)
  have hentries : (Disk.mk (.mbr mbr) bootstrap).record.entries = mbr.primary := rfl
  have hsign := Disk.record_signature (Disk.mk (.mbr mbr) bootstrap)
  generalize (Disk.mk (.mbr mbr) bootstrap).record = record at hrecord hentries hsign ⊢
  have hblock := (checkBlockSize_ok h.size).1
  have hapart := (covers hblock record).apart h.areas_apart
  have hdisk := h.areas_onDisk hpos
  rw [← hsize] at hapart hblock
  rw [← hcount] at hdisk hpos
  have hzero : (dev.stored (mbr.allRuns record)).readRecord 0 = .ok record := by
    refine Device.stored_record hblock hapart (List.mem_append_right _ ?_) hpos
    rw [hsize]
    exact List.mem_singleton.mpr rfl
  have hchain : ∀ pair ∈ mbr.ebrRecords,
      (dev.stored (mbr.allRuns record)).readRecord pair.1 = .ok pair.2 := by
    intro pair hpair
    refine Device.stored_record hblock hapart (List.mem_append_left _ ?_) ?_
    · rw [hsize]
      exact List.mem_map_of_mem hpair
    · exact hdisk _ (List.mem_append_left _ (List.mem_map_of_mem hpair))
  have hlogical := @Consistent.readLogical (dev.stored (mbr.allRuns record))
    mbr h hcount.ge hchain
  have hrange : Device.extendedRange record = mbr.extendedRange := by
    rw [Device.extendedRange, hentries]
    rfl
  have hcheck : ofTable (checkBlockSize (dev.stored (mbr.allRuns record)).blockSize) =
      .ok () := by
    change ofTable (checkBlockSize dev.blockSize) = _
    rw [hsize, h.size]
    rfl
  have hkind : ofTable (Part.classify record) = .ok TableKind.mbr := by
    rw [h.classify hsign hentries]
    rfl
  rw [Device.read_eq hcheck hzero hkind, Device.readTable, Device.readMbr, hrange, hlogical]
  refine congrArg Except.ok ?_
  rw [← hrecord]
  refine congrArg (Disk.fromDisk · record) (congrArg PartitionTable.mbr ?_)
  rw [Mbr.fromDisk, hentries]
  change Mbr.mk dev.blockCount dev.blockSize mbr.primary mbr.logical = mbr
  rw [hcount, hsize]

end Mbr

/-- What writing a disk leaves on a device, which is then read as `shown`. -/
structure Disk.Kept (disk shown : Disk) (dev dev' : Device) : Prop where
  written : disk.write.run dev = (.ok (), dev')
  read : dev'.read = .ok shown
  data : ∀ area ∈ disk.table.dataAreas, ∀ lba, 0 < lba → area.Has lba →
    dev'.block lba = dev.block lba

theorem Mbr.Consistent.kept {mbr : Mbr} {bootstrap : Vector UInt8 446} (h : mbr.Consistent)
    (hsize : dev.blockSize = mbr.blockSize) (hcount : dev.blockCount = mbr.blockCount)
    (hpos : 0 < mbr.blockCount) : ∃ dev',
      Disk.Kept ⟨.mbr mbr, bootstrap⟩ ⟨.mbr mbr, bootstrap⟩ dev dev' := by
  refine ⟨_, h.write hsize hcount hpos, h.read_stored hsize hcount hpos,
    fun area harea lba hlba hhas => ?_⟩
  obtain ⟨partition, hpartition, rfl⟩ := List.mem_map.mp harea
  have hcovers := Mbr.covers (checkBlockSize_ok h.size).1 (Disk.mk (.mbr mbr) bootstrap).record
  rw [← hsize] at hcovers
  exact Device.stored_kept hcovers (h.listed_apart hpartition hlba hhas)

theorem Gpt.Consistent.kept {disk : Disk} {gpt : Gpt} {kind : TableKind} {shown : PartitionTable}
    (h : gpt.Consistent) (hgpt : disk.table.gpt? = some gpt)
    (harea : disk.table.dataAreas = [gpt.usableArea]) (hkind : classify disk.record = .ok kind)
    (hshown : ∀ dev' : Device, dev'.readGpt = .ok gpt →
      dev'.readTable disk.record kind = .ok shown)
    (hsize : dev.blockSize = gpt.blockSize) (hcount : dev.blockCount = gpt.blockCount) :
    ∃ dev', disk.Kept ⟨shown, disk.bootstrap⟩ dev dev' := by
  have hs := h.storable
  rw [← hcount] at hs
  obtain ⟨hzero, hread⟩ := hs.read_stored hsize disk.record
  have hsame : { gpt with blockCount := dev.blockCount, damaged := none } = gpt := by
    rw [hcount, ← h.damaged]
  rw [hsame] at hread
  refine ⟨_, Disk.write_gpt hgpt hs hsize hcount.ge, ?_, fun area hmem lba _ hhas => ?_⟩
  · have hcheck : ofTable (checkBlockSize (dev.stored (gpt.allRuns disk.record)).blockSize) =
        .ok () := by
      change ofTable (checkBlockSize dev.blockSize) = _
      rw [hsize, h.size]
      rfl
    have hclass : ofTable (classify disk.record) = .ok kind := by
      rw [hkind]
      rfl
    rw [Device.read_eq hcheck hzero hclass, hshown _ hread]
    exact congrArg Except.ok (Disk.fromDisk_record ⟨shown, disk.bootstrap⟩)
  · rw [harea, List.mem_singleton] at hmem
    rw [hmem] at hhas
    exact hs.usable_kept hsize hhas

theorem Hybrid.Built.kept {hybrid : Hybrid} {bootstrap : Vector UInt8 446} (h : hybrid.Built)
    (hsize : dev.blockSize = hybrid.gpt.blockSize)
    (hcount : dev.blockCount = hybrid.gpt.blockCount) :
    ∃ dev', Disk.Kept ⟨.hybrid hybrid, bootstrap⟩
      (Disk.shown ⟨.hybrid hybrid, bootstrap⟩) dev dev' := by
  have hconsistent := h.built_gpt.consistent
  have hkind := h.entries.classify (Disk.mk (.hybrid hybrid) bootstrap).record rfl rfl
  rw [Disk.shown]
  dsimp only
  by_cases hmirrors : hybrid.Mirrors
  · rw [if_pos hmirrors] at hkind ⊢
    refine hconsistent.kept rfl rfl hkind (fun dev' hread => ?_) hsize hcount
    rw [Device.readTable, hread]
    rfl
  · rw [if_neg hmirrors] at hkind ⊢
    refine hconsistent.kept rfl rfl hkind (fun dev' hread => ?_) hsize hcount
    rw [Device.readTable, hread]
    rfl

theorem Disk.shown_eq {disk : Disk} (h : ∀ hybrid, disk.table = .hybrid hybrid → hybrid.Mirrors) :
    disk.shown = disk := by
  obtain ⟨table, bootstrap⟩ := disk
  cases table with
  | mbr mbr => rfl
  | gpt gpt => rfl
  | hybrid hybrid => exact if_pos (h hybrid rfl)

/-- Writing a disk and reading it back gives the disk, and the blocks of data are kept. -/
theorem disks_kept (disk : Disk) (dev : Device) (h : disk.Built)
    (hsize : dev.blockSize = disk.table.blockSize)
    (hcount : dev.blockCount = disk.table.blockCount) (hpos : 0 < dev.blockCount) :
    (∃ dev', disk.Kept disk.shown dev dev') ∧
      ((∀ hybrid, disk.table = .hybrid hybrid → hybrid.Mirrors) → disk.shown = disk) := by
  refine ⟨?_, Disk.shown_eq⟩
  cases h with
  | mbr h => exact h.consistent.kept hsize hcount (hpos.trans_eq hcount)
  | gpt h =>
    refine h.consistent.kept rfl rfl (classify_protective rfl rfl)
      (fun dev' hread => ?_) hsize hcount
    rw [Device.readTable, hread]
    rfl
  | hybrid h => exact h.kept hsize hcount

def sectors : BlockSize := ⟨512, sectorBytes_pos, sectorBytes_lt⟩

def blank (count : Nat) (h : count < 2 ^ 64) : Device := ⟨sectors, count, h, fun _ => 0⟩

theorem smallDisk_kept : ∃ dev', Disk.Kept ⟨.mbr smallDisk, .replicate 446 0⟩
    (Disk.shown ⟨.mbr smallDisk, .replicate 446 0⟩) (blank 1000 (by decide)) dev' := by
  have hnew : Mbr.new 1000 sectors = .ok ⟨1000, sectors, fun _ => .default, []⟩ := by decide
  have hcount : smallDisk.blockCount = 1000 := by decide +kernel
  have hsize : smallDisk.blockSize = sectors := by decide +kernel
  exact (disks_kept ⟨.mbr smallDisk, .replicate 446 0⟩ (blank 1000 (by decide))
    (.mbr (.call (.call (.new hnew) _) _)) hsize.symm hcount.symm (by decide)).1

/-- Writing succeeds, reading gives the disk, and every block of data is kept. -/
def Disk.Survives (disk : Disk) (dev : Device) : Prop :=
  ∃ dev', disk.write.run dev = (.ok (), dev') ∧ dev'.read = .ok disk ∧
    ∀ area ∈ disk.table.dataAreas, ∀ lba, area.Has lba → dev'.block lba = dev.block lba

def bootDisk : Disk where
  table := .mbr
    ((Mbr.Op.add ⟨⟨0x83⟩, 0, 10, ⟨1⟩⟩).call.run ⟨16, sectors, fun _ => .default, []⟩).2
  bootstrap := .replicate 446 0

theorem sevens_length : (List.replicate 16 (7 : UInt8)).length = 16 := List.length_replicate

def smallGpt : Gpt where
  blockSize := sectors
  blockCount := 100
  diskGuid := ⟨List.replicate 16 7, sevens_length⟩
  firstUsable := 34
  lastUsable := 66
  backupLba := 99
  primaryEntriesLba := 2
  backupEntriesLba := 67
  entrySize := 128
  entries := List.replicate 128 .default
  damaged := none

def bareHybrid : Hybrid :=
  ⟨smallGpt, Function.update (fun _ => .default) 0 (Hybrid.protectiveEntry 99)⟩

def noBlocks : Mbr := ⟨0, sectors, fun _ => .default, []⟩

theorem built_bareHybrid : bareHybrid.Built := by
  have hgpt : Gpt.new ⟨List.replicate 16 7, by decide⟩ 100 sectors =
    .ok smallGpt := by decide +kernel
  have hnew : Hybrid.new smallGpt ⟨0, [], by decide⟩ = .ok bareHybrid := by decide
  exact .new (.new hgpt) hnew

/-- Disks that writing and reading do not keep as they are. -/
theorem some_disks_not_kept :
    (bootDisk.Built ∧ ¬ bootDisk.Survives (blank 16 (by decide))) ∧
    ((Disk.mk (.hybrid bareHybrid) (.replicate 446 0)).Built ∧
      ¬ (Disk.mk (.hybrid bareHybrid) (.replicate 446 0)).Survives (blank 100 (by decide))) ∧
    ((Disk.mk (.mbr noBlocks) (.replicate 446 0)).Built ∧
      ¬ (Disk.mk (.mbr noBlocks) (.replicate 446 0)).Survives (blank 0 (by decide))) := by
  have hempty : Mbr.new 16 sectors = .ok ⟨16, sectors, fun _ => .default, []⟩ := by decide +kernel
  have hnone : Mbr.new 0 sectors = .ok noBlocks := by decide
  refine ⟨⟨.mbr (.call (.new hempty) _), ?_⟩, ⟨.hybrid built_bareHybrid, ?_⟩,
    .mbr (.new hnone), ?_⟩
  · rintro ⟨dev', hwrite, -, hkept⟩
    have hmark : (bootDisk.write.run (blank 16 (by decide))).2.image (0 * sectors.bytes + 510) =
        0x55 := by
      decide +kernel
    have harea : ⟨0, 10⟩ ∈ bootDisk.table.dataAreas := by decide +kernel
    have hsame := congrArg (List.getD · 510 0) (hkept _ harea 0 ⟨le_rfl, by decide⟩)
    have hsize : dev'.blockSize = sectors := by
      have hsize : (bootDisk.write.run (blank 16 (by decide))).2.blockSize =
        sectors := by decide +kernel
      rwa [hwrite] at hsize
    dsimp only [Device.block] at hsame
    rw [hsize, slice_getD _ _ _ (by decide), slice_getD _ _ _ (by decide)] at hsame
    rw [hwrite] at hmark
    exact absurd (hmark.symm.trans hsame) (by decide)
  · rintro ⟨dev', hwrite, hread, -⟩
    obtain ⟨dev'', hwritten, hshown, -⟩ := @Hybrid.Built.kept (blank 100 (by decide)) _
      (.replicate 446 0) built_bareHybrid rfl rfl
    rw [hwritten] at hwrite
    cases hwrite
    rw [hread, Disk.shown] at hshown
    dsimp only at hshown
    rw [if_neg (by decide)] at hshown
    cases hshown
  · rintro ⟨dev', hwrite, -⟩
    have hfail :
      ((Disk.mk (.mbr noBlocks) (.replicate 446 0)).write.run (blank 0 (by decide))).1 =
        .error Device.pastEnd := by decide +kernel
    rw [hwrite] at hfail
    cases hfail

end Hadris.Part
