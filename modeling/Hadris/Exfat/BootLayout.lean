import Hadris.BootLayout
import Hadris.Exfat.Geometry

namespace Hadris.Exfat

namespace Machine

open Checked

def rejectOr (wrong : Bool) (other : Checked String Bool) (field : String) :
    Checked String Unit := do
  reject wrong field
  let wrong ← other
  reject wrong field

def fatAt (boot : RawBoot) (sector index : Nat) : Checked String Nat := do
  let before ← mul 64 boot.fatLength index
  let at_ ← add 64 boot.fatOffset before
  mul 64 at_ sector

def mirrorFat (boot : RawBoot) (sector active : Nat) : Checked String (Option Nat) :=
  if boot.numberOfFats = 2 then do
    let other ← sub 1 active
    let mirror ← fatAt boot sector other
    pure (some mirror)
  else pure none

def geometry (boot : RawBoot) (sector clusterShift : Nat) : Checked String Geometry := do
  let volumeLen ← mul 64 boot.volumeLength sector
  let fatStart ← fatAt boot sector boot.active
  let mirrorFat ← mirrorFat boot sector boot.active
  let heapStart ← mul 64 boot.clusterHeapOffset sector
  pure {
    sectorShift := boot.bytesPerSectorShift
    clusterShift := clusterShift
    volumeLen := volumeLen
    fatStart := fatStart
    mirrorFat := mirrorFat
    active := cast 8 boot.active
    heapStart := heapStart
    clusterCount := boot.clusterCount
    root := boot.firstClusterOfRootDirectory
    serial := boot.volumeSerialNumber
    flags := boot.volumeFlags
    percentInUse := boot.percentInUse }

def parseBoot (sector : List UInt8) : Checked String Geometry := do
  let boot := RawBoot.read sector
  reject (boot.fileSystemName != Exfat.fileSystemName) "FileSystemName"
  reject (boot.bootSignature != Hadris.bootSignature) "BootSignature"
  reject (boot.mustBeZero.any (· != 0)) "MustBeZero"
  let revision ← shr 16 boot.fileSystemRevision 8
  reject (revision != 1) "FileSystemRevision"
  let sectorShift := boot.bytesPerSectorShift
  reject (sectorShift < 9 || 12 < sectorShift) "BytesPerSectorShift"
  let maxShift ← sub 25 sectorShift
  reject (maxShift < boot.sectorsPerClusterShift) "SectorsPerClusterShift"
  let fats := boot.numberOfFats
  reject (fats != 1 && fats != 2) "NumberOfFats"
  let sector ← shl 64 1 sectorShift
  let volumeLen := boot.volumeLength
  let fatLength := boot.fatLength
  let heapOffset := boot.clusterHeapOffset
  let count := boot.clusterCount
  let mebibyte ← shl 64 1 20
  let minSectors ← shr 64 mebibyte sectorShift
  reject (volumeLen < minSectors || (checkedMul 64 volumeLen sector).isNone) "VolumeLength"
  rejectOr (boot.fatOffset < 24) (do
    let fatsLength ← mul 64 fatLength fats
    let fatsEnd ← add 64 boot.fatOffset fatsLength
    pure (heapOffset < fatsEnd)) "FatOffset"
  let entries ← add 64 count 2
  let entryBytes ← mul 64 entries 4
  let fatBytes ← mul 64 fatLength sector
  reject (fatBytes < entryBytes) "FatLength"
  reject (volumeLen < heapOffset) "ClusterHeapOffset"
  let clusterShift ← add 8 sectorShift boot.sectorsPerClusterShift
  rejectOr (count == 0 || maxClusterCount < count) (do
    let heapSectors ← sub volumeLen heapOffset
    let clusters ← shr 64 heapSectors boot.sectorsPerClusterShift
    pure (clusters < count)) "ClusterCount"
  let geometry ← geometry boot sector clusterShift
  let maxCluster ← add 32 count 1
  reject (!(firstCluster ≤ geometry.root && geometry.root ≤ maxCluster))
    "FirstClusterOfRootDirectory"
  pure geometry

end Machine

/-- The fields of a boot sector have the widths of their types. -/
structure RawBoot.Bounded (boot : RawBoot) : Prop where
  volumeLength : boot.volumeLength < 2 ^ 64
  fatOffset : boot.fatOffset < 2 ^ 32
  fatLength : boot.fatLength < 2 ^ 32
  clusterHeapOffset : boot.clusterHeapOffset < 2 ^ 32
  clusterCount : boot.clusterCount < 2 ^ 32
  numberOfFats : boot.numberOfFats < 2 ^ 8

theorem RawBoot.read_bounded (sector : List UInt8) : (RawBoot.read sector).Bounded where
  volumeLength := by
    have hlow := u32At_lt sector 72
    have hhigh := u32At_lt sector 76
    simp only [read]
    omega
  fatOffset := u32At_lt _ _
  fatLength := u32At_lt _ _
  clusterHeapOffset := u32At_lt _ _
  clusterCount := u32At_lt _ _
  numberOfFats := byteAt_lt _ _

namespace Machine

open Checked

def outcome (checks : List (Bool × String)) (geo : Geometry) : Except String Geometry :=
  match checks.find? (·.1) with
  | some (_, field) => .error field
  | none => .ok geo

section

variable {boot : RawBoot} {geo : Geometry} {wrong : Bool} {field : String}
variable {rest : List (Bool × String)} {next : Unit → Checked String Geometry}

theorem outcome_cons : outcome ((wrong, field) :: rest) geo =
    if wrong then .error field else outcome rest geo := by
  cases wrong <;> rfl

theorem reject_outcome (h : wrong = false → next () = lift (outcome rest geo)) :
    (reject wrong field >>= next) = lift (outcome ((wrong, field) :: rest) geo) := by
  rw [reject_bind, outcome_cons]
  cases wrong with
  | true => rfl
  | false => exact h rfl

theorem rejectOr_outcome {other : Checked String Bool} {also : Bool}
    (hother : wrong = false → other = pure also)
    (h : wrong = false → also = false → next () = lift (outcome rest geo)) :
    (rejectOr wrong other field >>= next) =
      lift (outcome ((wrong || also, field) :: rest) geo) := by
  rw [rejectOr, bind_assoc, reject_bind, outcome_cons]
  cases wrong with
  | true => rfl
  | false =>
    rw [hother rfl, bind_assoc, pure_bind, reject_bind]
    cases also with
    | true => rfl
    | false => exact h rfl rfl

theorem fatAt_eq (hb : boot.Bounded) (hshift : boot.bytesPerSectorShift ≤ 12) {index : Nat}
    (hindex : index ≤ 1) :
    fatAt boot (2 ^ boot.bytesPerSectorShift) index = pure (boot.fatAt index) := by
  have hsector : 2 ^ boot.bytesPerSectorShift < 2 ^ 13 :=
    Nat.pow_lt_pow_right (by decide) (by omega)
  have hlength := mul_lt_two_pow hb.fatLength (show index < 2 ^ 1 by omega)
  have hoffset := hb.fatOffset
  have hat : boot.fatOffset + boot.fatLength * index < 2 ^ 34 := by omega
  have hbytes := mul_lt_two_pow hat hsector
  rw [fatAt, mul_of_lt (by omega), pure_bind, add_of_lt (by omega), pure_bind,
    mul_of_lt (by omega), RawBoot.fatAt]

theorem mirrorFat_eq (hb : boot.Bounded) (hshift : boot.bytesPerSectorShift ≤ 12) :
    mirrorFat boot (2 ^ boot.bytesPerSectorShift) boot.active = pure boot.geometry.mirrorFat := by
  rw [mirrorFat, RawBoot.geometry]
  split
  · rw [sub_of_le boot.active_le, pure_bind, fatAt_eq hb hshift (by omega), pure_bind]
  · rfl

theorem geometry_eq (hb : boot.Bounded) (hshift : boot.bytesPerSectorShift ≤ 12)
    (hvolume : boot.volumeLength * 2 ^ boot.bytesPerSectorShift < 2 ^ 64) :
    geometry boot (2 ^ boot.bytesPerSectorShift)
      (boot.bytesPerSectorShift + boot.sectorsPerClusterShift) = pure boot.geometry := by
  have hsector : 2 ^ boot.bytesPerSectorShift < 2 ^ 13 :=
    Nat.pow_lt_pow_right (by decide) (by omega)
  have hheap := mul_lt_two_pow hb.clusterHeapOffset hsector
  have hactive : boot.active < 2 ^ 8 := boot.active_le.trans_lt (by decide)
  rw [geometry, mul_of_lt hvolume, pure_bind, fatAt_eq hb hshift boot.active_le, pure_bind,
    mirrorFat_eq hb hshift, pure_bind, mul_of_lt (hheap.trans (by decide)), pure_bind,
    cast_of_lt hactive]
  rfl

theorem parseBoot_eq (sector : List UInt8) :
    parseBoot sector = lift (Exfat.parseBoot sector) := by
  change _ = lift (outcome (RawBoot.read sector).checks (RawBoot.read sector).geometry)
  have hb := RawBoot.read_bounded sector
  simp only [parseBoot]
  generalize RawBoot.read sector = boot at hb ⊢
  simp only [RawBoot.checks]
  refine reject_outcome fun _ => reject_outcome fun _ => reject_outcome fun _ => ?_
  rw [shr_of_lt (by decide), pure_bind]
  refine reject_outcome fun _ => reject_outcome fun hsector => ?_
  simp only [Bool.or_eq_false_iff, decide_eq_false_iff_not, Nat.not_lt] at hsector
  have hpow : 2 ^ boot.bytesPerSectorShift < 2 ^ 13 :=
    Nat.pow_lt_pow_right (by decide) (by omega)
  rw [sub_of_le (by omega), pure_bind]
  refine reject_outcome fun hcluster => ?_
  rw [decide_eq_false_iff_not, Nat.not_lt] at hcluster
  refine reject_outcome fun hfats => ?_
  have hfatsLength := mul_lt_two_pow hb.fatLength hb.numberOfFats
  have hfatBytes := mul_lt_two_pow hb.fatLength hpow
  have hoffset := hb.fatOffset
  have hcount := hb.clusterCount
  rw [shl_of_lt (by omega) (by omega), pure_bind, shl_of_lt (by decide) (by decide), pure_bind,
    shr_of_lt (by omega), pure_bind, Nat.one_mul, Nat.one_mul]
  have hmul : (checkedMul 64 boot.volumeLength (2 ^ boot.bytesPerSectorShift)).isNone =
      decide (2 ^ 64 ≤ boot.volumeLength * 2 ^ boot.bytesPerSectorShift) := by
    rw [Bool.eq_iff_iff, Option.isNone_iff_eq_none, checkedMul_eq_none, decide_eq_true_iff]
  rw [hmul]
  refine reject_outcome fun hvolume => ?_
  simp only [Bool.or_eq_false_iff, decide_eq_false_iff_not, Nat.not_le] at hvolume
  refine rejectOr_outcome (fun _ => ?_) fun _ _ => ?_
  · rw [mul_of_lt (hfatsLength.trans (by decide)), pure_bind, add_of_lt (by omega), pure_bind]
  rw [add_of_lt (by omega), pure_bind, mul_of_lt (by omega), pure_bind,
    mul_of_lt (hfatBytes.trans (by decide)), pure_bind]
  refine reject_outcome fun _ => reject_outcome fun hheap => ?_
  rw [decide_eq_false_iff_not, Nat.not_lt] at hheap
  rw [add_of_lt (by omega), pure_bind]
  refine rejectOr_outcome (fun _ => ?_) fun hmax _ => ?_
  · rw [sub_of_le hheap, pure_bind, shr_of_lt (by omega), pure_bind]
  have hle := Nat.not_lt.mp (of_decide_eq_false (Bool.or_eq_false_iff.mp hmax).2)
  rw [maxClusterCount] at hle
  rw [geometry_eq hb hsector.2 hvolume.2, pure_bind, add_of_lt (by omega), pure_bind]
  exact reject_outcome fun _ => rfl

end

end Machine

end Hadris.Exfat

namespace Hadris.Exfat

open List

namespace RawBoot

variable (boot : RawBoot)

def sectorSize : Nat := 2 ^ boot.bytesPerSectorShift

def bootRegions : Region := ⟨0, 2 * bootRegionSectors * boot.sectorSize⟩

def fatCopies : List Region :=
  Region.copies (boot.fatOffset * boot.sectorSize) (boot.fatLength * boot.sectorSize)
    boot.numberOfFats

def heap : Region :=
  ⟨boot.clusterHeapOffset * boot.sectorSize, boot.clusterCount * boot.geometry.clusterSize⟩

def areas : List Region := boot.bootRegions :: boot.fatCopies ++ [boot.heap]

/-- What the accesses to a volume with this boot sector rely on. -/
structure Sound (geo : Geometry) : Prop where
  areas : Region.InOrder boot.areas
  fats : ∀ base ∈ geo.fats, ∃ copy ∈ boot.fatCopies, base = copy.start
  entry : ∀ cluster, geo.isCluster cluster = true → ∀ copy ∈ boot.fatCopies,
    Region.Within ⟨Geometry.entryAt copy.start cluster, 4⟩ copy
  heap : geo.heapStart = boot.heap.start
  cluster : ∀ cluster offset, geo.clusterOffset cluster = some offset →
    Region.Within ⟨offset, geo.clusterSize⟩ boot.heap
  total : boot.heap.stop ≤ boot.volumeLength * boot.sectorSize
  root : geo.isCluster geo.root = true

variable {boot}

theorem fatCopies_before : boot.fatCopies.Pairwise Region.Before := Region.copies_before _ _ _

theorem areas_before (hoffset : 24 ≤ boot.fatOffset)
    (hheap : boot.fatOffset + boot.fatLength * boot.numberOfFats ≤ boot.clusterHeapOffset) :
    boot.areas.Pairwise Region.Before := by
  have hlow := Nat.mul_le_mul_right boot.sectorSize hoffset
  have hhigh := Nat.mul_le_mul_right boot.sectorSize hheap
  rw [Nat.add_mul, Nat.mul_right_comm, Nat.mul_comm _ boot.numberOfFats] at hhigh
  have hboot : boot.bootRegions.stop = 24 * boot.sectorSize := Nat.zero_add _
  rw [areas, cons_append]
  refine pairwise_cons.mpr ⟨fun region hmem => ?_, ?_⟩
  · rw [Region.Before, hboot]
    rcases mem_append.mp hmem with hmem | hmem
    · exact hlow.trans (Region.copies_bounds hmem).1
    · obtain rfl := mem_singleton.mp hmem
      exact hlow.trans ((Nat.le_add_right _ _).trans hhigh)
  · refine pairwise_append.mpr ⟨fatCopies_before, pairwise_singleton _ _, ?_⟩
    intro a ha b hb
    obtain rfl := mem_singleton.mp hb
    exact (Region.copies_bounds ha).2.trans hhigh

theorem fats_of_copies (hfats : boot.numberOfFats = 1 ∨ boot.numberOfFats = 2) {base : Nat}
    (h : base ∈ boot.geometry.fats) : ∃ copy ∈ boot.fatCopies, base = copy.start := by
  have hcopy (index : Nat) (hindex : index < boot.numberOfFats) :
      ∃ copy ∈ boot.fatCopies, boot.fatAt index = copy.start := by
    refine ⟨_, mem_map.mpr ⟨index, mem_range.mpr hindex, rfl⟩, ?_⟩
    simp only [fatAt, sectorSize, Nat.add_mul, Nat.mul_comm index, Nat.mul_right_comm]
  have hactive := boot.active_le
  simp only [Geometry.fats, mem_append, Option.mem_toList, mem_singleton] at h
  rcases h with h | rfl
  · simp only [geometry] at h
    split at h
    · cases h
      exact hcopy _ (by omega)
    · cases h
  · refine hcopy _ ?_
    rcases hfats with hone | htwo
    · rw [active_of_single hone, hone]
      exact Nat.zero_lt_one
    · omega

theorem isCluster_iff {geo : Geometry} {cluster : Nat} :
    geo.isCluster cluster = true ↔ firstCluster ≤ cluster ∧ cluster ≤ geo.clusterCount + 1 := by
  rw [Geometry.isCluster, Bool.and_eq_true, decide_eq_true_iff, decide_eq_true_iff]
  rfl

theorem entry_within {cluster : Nat} {copy : Region} (hcluster : boot.geometry.isCluster cluster)
    (hlength : (boot.clusterCount + 2) * 4 ≤ boot.fatLength * boot.sectorSize)
    (hcopy : copy ∈ boot.fatCopies) :
    Region.Within ⟨Geometry.entryAt copy.start cluster, 4⟩ copy := by
  simp only [fatCopies, Region.copies, mem_map] at hcopy
  rcases hcopy with ⟨index, -, rfl⟩
  have hlast : cluster ≤ boot.clusterCount + 1 := (isCluster_iff.mp hcluster).2
  simp only [Region.Within, Region.stop, Geometry.entryAt]
  omega

theorem cluster_within {cluster offset : Nat}
    (h : boot.geometry.clusterOffset cluster = some offset) :
    Region.Within ⟨offset, boot.geometry.clusterSize⟩ boot.heap := by
  simp only [Geometry.clusterOffset] at h
  split at h
  · rename_i hcluster
    obtain ⟨hlow, hhigh⟩ := isCluster_iff.mp hcluster
    have hmul := Nat.mul_le_mul_right boot.geometry.clusterSize
      (show cluster - firstCluster + 1 ≤ boot.geometry.clusterCount by
        simp only [firstCluster] at *
        omega)
    rw [Nat.succ_mul] at hmul
    have hstart : boot.geometry.heapStart = boot.heap.start := rfl
    have hlength : boot.heap.length = boot.geometry.clusterCount *
      boot.geometry.clusterSize := rfl
    obtain rfl := Option.some.inj h
    simp only [Region.Within, Region.stop]
    omega
  · cases h

end RawBoot

theorem parseBoot_sound {sector : List UInt8} {geo : Geometry} (h : parseBoot sector = .ok geo) :
    (RawBoot.read sector).Sound geo := by
  have hvalid := parseBoot_valid h
  obtain ⟨rfl, hchecks⟩ := parseBoot_ok h
  generalize RawBoot.read sector = boot at hchecks hvalid ⊢
  simp only [RawBoot.checks, mem_cons, not_mem_nil, or_false, forall_eq_or_imp,
    forall_eq, Bool.or_eq_false_iff, decide_eq_false_iff_not, Nat.not_lt, Bool.not_eq_false',
    Bool.and_eq_false_iff, bne_eq_false_iff_eq] at hchecks
  obtain ⟨-, -, -, -, -, -, hfats, -, hoffset, hlength, -, -, hroot⟩ := hchecks
  exact {
    areas := Region.inOrder_of_before (RawBoot.areas_before hoffset.1 hoffset.2)
    fats := fun base hbase => RawBoot.fats_of_copies hfats hbase
    entry := fun cluster hcluster copy hcopy => RawBoot.entry_within hcluster hlength hcopy
    heap := rfl
    cluster := fun cluster offset hoffset => RawBoot.cluster_within hoffset
    total := hvalid.heap
    root := hroot }

end Hadris.Exfat

namespace Hadris

open List

/-- Every boot sector is parsed without leaving an integer type, and one that
is accepted describes a sound layout. -/
theorem parse_boot_admits_only_sound_geometry :
    (∀ sector : List UInt8, ∃ result : Except BootError Geometry,
      Machine.parseBoot sector = Checked.lift result ∧
      ∀ geo, result = .ok geo →
        geo.Sound (totalSectors (RawBpb.read sector) * (RawBpb.read sector).bytesPerSector)) ∧
    ∀ sector : List UInt8, ∃ result : Except String Exfat.Geometry,
      Exfat.Machine.parseBoot sector = Checked.lift result ∧
      ∀ geo, result = .ok geo → (Exfat.RawBoot.read sector).Sound geo := by
  constructor
  · intro sector
    exact ⟨_, Machine.parseBoot_eq sector, fun geo hgeo => parseBoot_sound hgeo⟩
  · intro sector
    exact ⟨_, Exfat.Machine.parseBoot_eq sector, fun geo hgeo => Exfat.parseBoot_sound hgeo⟩

def floppySector : List UInt8 :=
  replicate 11 0 ++ [0, 2, 1, 1, 0, 2, 0xE0, 0, 0x40, 0x0B, 0xF0, 9, 0] ++
    replicate 486 0 ++ [0x55, 0xAA]

def mebibyteSector : List UInt8 :=
  [0xEB, 0x76, 0x90] ++ Exfat.fileSystemName ++ replicate 61 0 ++
    [0, 8, 0, 0, 0, 0, 0, 0, 24, 0, 0, 0, 8, 0, 0, 0, 32, 0, 0, 0, 0xF4, 1, 0, 0, 4, 0, 0, 0] ++
    [1, 2, 3, 4, 0, 1, 0, 0, 9, 0, 1, 0x80, 0xFF] ++ replicate 397 0 ++ [0x55, 0xAA]

theorem parse_boot_admits_only_sound_geometry_sample :
    (∃ geo, Machine.parseBoot floppySector = Checked.lift (.ok geo) ∧ geo.Sound (2880 * 512)) ∧
    ∃ geo, Exfat.Machine.parseBoot mebibyteSector = Checked.lift (.ok geo) ∧
      (Exfat.RawBoot.read mebibyteSector).Sound geo := by
  constructor
  · obtain ⟨result, hrun, hsound⟩ := parse_boot_admits_only_sound_geometry.1 floppySector
    have hreturns : (Machine.parseBoot floppySector).returns = true := by decide +kernel
    rw [hrun] at hreturns
    cases result with
    | ok geo => exact ⟨geo, hrun, hsound geo rfl⟩
    | error error => cases hreturns
  · obtain ⟨result, hrun, hsound⟩ := parse_boot_admits_only_sound_geometry.2 mebibyteSector
    have hreturns : (Exfat.Machine.parseBoot mebibyteSector).returns = true := by decide +kernel
    rw [hrun] at hreturns
    cases result with
    | ok geo => exact ⟨geo, hrun, hsound geo rfl⟩
    | error error => cases hreturns

end Hadris
