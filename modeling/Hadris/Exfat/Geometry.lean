import Hadris.Meta
import Hadris.Geometry

namespace Hadris.Exfat

/-- What is wrong with an exFAT volume, in errors and in check findings. -/
inductive Detail where
  | bootSector
  | bootChecksum
  | backupBootRegion
  | upcaseTable
  | setChecksum
  | nameHash
  | validDataLength
  | bitmap
  | invalidCluster
  | brokenChain
  | cyclicChain
  | crossLink
  | lostClusters
  | badName
  | dirty
  | percentInUse
  | fatEntries
  | rootEntry
  | entrySet
  | directorySize
  | badCluster
  | sizeMismatch
  | tooDeep
  | limitExceeded
deriving DecidableEq, Repr

namespace Detail

def description : Detail → String
  | .bootSector => "invalid boot sector"
  | .bootChecksum => "boot region checksum does not match"
  | .backupBootRegion => "backup boot region differs from the main one"
  | .upcaseTable => "invalid up-case table"
  | .setChecksum => "entry set checksum does not match"
  | .nameHash => "name hash does not match the name"
  | .validDataLength => "valid data length exceeds the data length"
  | .bitmap => "allocation bitmap is missing or wrong"
  | .invalidCluster => "allocation starts at an invalid cluster"
  | .brokenChain => "chain links to a free, reserved or out-of-range cluster"
  | .cyclicChain => "chain links back to itself"
  | .crossLink => "cluster is in more than one allocation"
  | .lostClusters => "allocated clusters no allocation reaches"
  | .badName => "invalid name"
  | .dirty => "volume is marked dirty"
  | .percentInUse => "PercentInUse is wrong"
  | .fatEntries => "FAT entries 0 and 1 are not the media type and end marks"
  | .rootEntry => "misplaced or repeated root directory entry"
  | .entrySet => "incomplete entry set"
  | .directorySize => "invalid directory size"
  | .badCluster => "chain runs into a bad cluster"
  | .sizeMismatch => "allocation length does not match the data length"
  | .tooDeep => "directory nested too deep to check"
  | .limitExceeded => "tree is too cross-linked to check; the walk stopped"

def number : Detail → Nat
  | .bootSector => 1
  | .bootChecksum => 2
  | .backupBootRegion => 3
  | .upcaseTable => 4
  | .setChecksum => 5
  | .nameHash => 6
  | .validDataLength => 7
  | .bitmap => 8
  | .invalidCluster => 9
  | .brokenChain => 10
  | .cyclicChain => 11
  | .crossLink => 12
  | .lostClusters => 13
  | .badName => 14
  | .dirty => 15
  | .percentInUse => 16
  | .fatEntries => 17
  | .rootEntry => 18
  | .entrySet => 19
  | .directorySize => 20
  | .badCluster => 21
  | .sizeMismatch => 22
  | .tooDeep => 23
  | .limitExceeded => 24

def code (detail : Detail) : DetailCode := ⟨"hadris-fat::exfat", detail.number⟩

def error (detail : Detail) (kind : ErrorKind) : Stop :=
  .error ((Error.new kind detail.description).withDetail detail.code)

def corrupt (detail : Detail) : Stop := detail.error .corrupt

end Detail

def firstCluster : Nat := 2

def fatBad : Nat := 0xFFFFFFF7

def fatEnd : Nat := 0xFFFFFFFF

def maxClusterCount : Nat := 0xFFFFFFF5

def entrySize : Nat := 32

def inUse : Nat := 0x80

def bootRegionSectors : Nat := 12

def volumeActiveFat : Nat := 0x0001

def volumeDirty : Nat := 0x0002

def volumeClearToZero : Nat := 0x0008

def fileSystemName : List UInt8 := [0x45, 0x58, 0x46, 0x41, 0x54, 0x20, 0x20, 0x20]

def checksumSkipped : List Nat := [106, 107, 112]

/-- Where the structures of an exFAT volume are. -/
structure Geometry where
  sectorShift : Nat
  clusterShift : Nat
  volumeLen : Nat
  fatStart : Nat
  mirrorFat : Option Nat
  active : Nat
  heapStart : Nat
  clusterCount : Nat
  root : Nat
  serial : Nat
  flags : Nat
  percentInUse : Nat
deriving DecidableEq, Repr

namespace Geometry

def sectorSize (geo : Geometry) : Nat := 2 ^ geo.sectorShift

def clusterSize (geo : Geometry) : Nat := 2 ^ geo.clusterShift

def maxCluster (geo : Geometry) : Nat := geo.clusterCount + 1

def isCluster (geo : Geometry) (cluster : Nat) : Bool :=
  firstCluster ≤ cluster && cluster ≤ geo.maxCluster

def clusterOffset (geo : Geometry) (cluster : Nat) : Option Nat :=
  if geo.isCluster cluster then
    some (geo.heapStart + (cluster - firstCluster) * geo.clusterSize)
  else none

def fats (geo : Geometry) : List Nat := geo.mirrorFat.toList ++ [geo.fatStart]

def entryAt (base cluster : Nat) : Nat := base + cluster * 4

end Geometry

/-- The fields of a boot sector that the driver reads. -/
structure RawBoot where
  fileSystemName : List UInt8
  mustBeZero : List UInt8
  volumeLength : Nat
  fatOffset : Nat
  fatLength : Nat
  clusterHeapOffset : Nat
  clusterCount : Nat
  firstClusterOfRootDirectory : Nat
  volumeSerialNumber : Nat
  fileSystemRevision : Nat
  volumeFlags : Nat
  bytesPerSectorShift : Nat
  sectorsPerClusterShift : Nat
  numberOfFats : Nat
  percentInUse : Nat
  bootSignature : Nat

namespace RawBoot

def read (sector : List UInt8) : RawBoot where
  fileSystemName := (sector.drop 3).take 8
  mustBeZero := (sector.drop 11).take 53
  volumeLength := u32At sector 72 + u32At sector 76 * 4294967296
  fatOffset := u32At sector 80
  fatLength := u32At sector 84
  clusterHeapOffset := u32At sector 88
  clusterCount := u32At sector 92
  firstClusterOfRootDirectory := u32At sector 96
  volumeSerialNumber := u32At sector 100
  fileSystemRevision := u16At sector 104
  volumeFlags := u16At sector 106
  bytesPerSectorShift := byteAt sector 108
  sectorsPerClusterShift := byteAt sector 109
  numberOfFats := byteAt sector 110
  percentInUse := byteAt sector 112
  bootSignature := u16At sector 510

variable (boot : RawBoot)

def fatAt (index : Nat) : Nat :=
  (boot.fatOffset + boot.fatLength * index) * 2 ^ boot.bytesPerSectorShift

def active : Nat :=
  if boot.numberOfFats = 2 ∧ boot.volumeFlags &&& volumeActiveFat ≠ 0 then 1 else 0

def geometry : Geometry where
  sectorShift := boot.bytesPerSectorShift
  clusterShift := boot.bytesPerSectorShift + boot.sectorsPerClusterShift
  volumeLen := boot.volumeLength * 2 ^ boot.bytesPerSectorShift
  fatStart := boot.fatAt boot.active
  mirrorFat := if boot.numberOfFats = 2 then some (boot.fatAt (1 - boot.active)) else none
  active := boot.active
  heapStart := boot.clusterHeapOffset * 2 ^ boot.bytesPerSectorShift
  clusterCount := boot.clusterCount
  root := boot.firstClusterOfRootDirectory
  serial := boot.volumeSerialNumber
  flags := boot.volumeFlags
  percentInUse := boot.percentInUse

/-- The checks of a boot sector, in order: whether a field is wrong, and its
name. -/
def checks : List (Bool × String) :=
  [(boot.fileSystemName != Exfat.fileSystemName, "FileSystemName"),
    (boot.bootSignature != Hadris.bootSignature, "BootSignature"),
    (boot.mustBeZero.any (· != 0), "MustBeZero"),
    (boot.fileSystemRevision / 256 != 1, "FileSystemRevision"),
    (boot.bytesPerSectorShift < 9 || 12 < boot.bytesPerSectorShift, "BytesPerSectorShift"),
    (25 - boot.bytesPerSectorShift < boot.sectorsPerClusterShift, "SectorsPerClusterShift"),
    (boot.numberOfFats != 1 && boot.numberOfFats != 2, "NumberOfFats"),
    (boot.volumeLength < 2 ^ 20 / 2 ^ boot.bytesPerSectorShift ||
      2 ^ 64 ≤ boot.volumeLength * 2 ^ boot.bytesPerSectorShift, "VolumeLength"),
    (boot.fatOffset < 24 ||
      boot.clusterHeapOffset < boot.fatOffset + boot.fatLength * boot.numberOfFats, "FatOffset"),
    (boot.fatLength * 2 ^ boot.bytesPerSectorShift < (boot.clusterCount + 2) * 4, "FatLength"),
    (boot.volumeLength < boot.clusterHeapOffset, "ClusterHeapOffset"),
    (boot.clusterCount == 0 || maxClusterCount < boot.clusterCount ||
      (boot.volumeLength - boot.clusterHeapOffset) / 2 ^ boot.sectorsPerClusterShift <
        boot.clusterCount, "ClusterCount"),
    (!boot.geometry.isCluster boot.firstClusterOfRootDirectory, "FirstClusterOfRootDirectory")]

end RawBoot

/-- Checks a boot sector and returns its geometry, or the name of the first
field that is wrong. -/
def parseBoot (sector : List UInt8) : Except String Geometry :=
  let boot := RawBoot.read sector
  match boot.checks.find? (·.1) with
  | some (_, field) => .error field
  | none => .ok boot.geometry

def checksumStep (sum : Nat) (byte : UInt8) : Nat :=
  (sum / 2 + sum % 2 * 2 ^ 31 + byte.toNat) % 2 ^ 32

def bootChecksum (sum index : Nat) (bytes : List UInt8) : Nat :=
  bytes.zipIdx.foldl (fun sum (byte, at_) =>
    if index = 0 ∧ checksumSkipped.contains at_ then sum else checksumStep sum byte) sum

/-- What a boot sector that parses says of the layout. -/
structure Geometry.Valid (geo : Geometry) : Prop where
  sectorShift : 9 ≤ geo.sectorShift ∧ geo.sectorShift ≤ 12
  clusterShift : geo.sectorShift ≤ geo.clusterShift ∧ geo.clusterShift ≤ 25
  clusterCount : 0 < geo.clusterCount ∧ geo.clusterCount ≤ maxClusterCount
  fats : ∀ base ∈ geo.fats, 24 * geo.sectorSize ≤ base ∧
    base + (geo.clusterCount + 2) * 4 ≤ geo.heapStart
  mirror : ∀ base, geo.mirrorFat = some base → base + (geo.clusterCount + 2) * 4 ≤ geo.fatStart ∨
    geo.fatStart + (geo.clusterCount + 2) * 4 ≤ base
  heap : geo.heapStart + geo.clusterCount * geo.clusterSize ≤ geo.volumeLen
  root : geo.isCluster geo.root = true

theorem RawBoot.active_le (boot : RawBoot) : boot.active ≤ 1 := by
  simp only [active]
  split <;> omega

theorem RawBoot.active_of_single {boot : RawBoot} (h : boot.numberOfFats = 1) :
    boot.active = 0 := by
  simp [active, h]

/-- The FATs of a boot sector that passes its checks lie between the boot
regions and the cluster heap. -/
theorem RawBoot.fatAt_mem {boot : RawBoot} {count index : Nat} (hoffset : 24 ≤ boot.fatOffset)
    (hheap : boot.fatOffset + boot.fatLength * boot.numberOfFats ≤ boot.clusterHeapOffset)
    (hlength : count ≤ boot.fatLength * 2 ^ boot.bytesPerSectorShift)
    (hindex : index < boot.numberOfFats) :
    24 * 2 ^ boot.bytesPerSectorShift ≤ boot.fatAt index ∧
      boot.fatAt index + count ≤ boot.clusterHeapOffset * 2 ^ boot.bytesPerSectorShift := by
  have hlen : boot.fatLength * index + boot.fatLength ≤ boot.fatLength * boot.numberOfFats := by
    rw [← Nat.mul_succ]
    exact Nat.mul_le_mul_left _ hindex
  have hlow := Nat.mul_le_mul_right (2 ^ boot.bytesPerSectorShift)
    (show 24 ≤ boot.fatOffset + boot.fatLength * index by omega)
  have hhigh := Nat.mul_le_mul_right (2 ^ boot.bytesPerSectorShift)
    (show boot.fatOffset + boot.fatLength * index + boot.fatLength ≤ boot.clusterHeapOffset by
      omega)
  rw [Nat.add_mul _ boot.fatLength] at hhigh
  exact ⟨hlow, (Nat.add_le_add_left hlength _).trans hhigh⟩

theorem parseBoot_ok {sector : List UInt8} {geo : Geometry} (h : parseBoot sector = .ok geo) :
    geo = (RawBoot.read sector).geometry ∧
      ∀ check ∈ (RawBoot.read sector).checks, check.1 = false := by
  simp only [parseBoot] at h
  split at h
  · cases h
  · rename_i hnone
    refine ⟨(Except.ok.inj h).symm, fun check hmem => ?_⟩
    simpa using List.find?_eq_none.mp hnone check hmem

theorem RawBoot.geometry_valid {boot : RawBoot}
    (hchecks : ∀ check ∈ boot.checks, check.1 = false) :
    boot.geometry.Valid := by
  simp only [RawBoot.checks, List.forall_mem_cons, Bool.or_eq_false_iff, decide_eq_false_iff_not,
    Nat.not_lt, Bool.not_eq_false', Bool.and_eq_false_iff, bne_eq_false_iff_eq] at hchecks
  obtain ⟨-, -, -, -, hsector, hcluster, hfats, -, hoffset, hlength, hheap, hcount, hroot, -⟩ :=
    hchecks
  have hcount₀ : boot.clusterCount ≠ 0 := by simpa using hcount.1.1
  have hindex (index : Nat) (h : index ≤ 1) (h' : boot.numberOfFats = 1 → index = 0) :
      index < boot.numberOfFats := by
    rcases hfats with hfats | hfats
    · rw [h' hfats, hfats]
      omega
    · omega
  have hactive := boot.active_le
  have hfat := RawBoot.fatAt_mem hoffset.1 hoffset.2 hlength
    (hindex boot.active hactive RawBoot.active_of_single)
  refine ⟨hsector, ?_, ⟨Nat.pos_of_ne_zero hcount₀, hcount.1.2⟩, ?_, ?_, ?_, hroot⟩
  · simp only [RawBoot.geometry]
    omega
  · intro base hbase
    simp only [Geometry.fats, List.mem_append, Option.mem_toList, List.mem_singleton] at hbase
    rcases hbase with hbase | rfl
    · simp only [RawBoot.geometry] at hbase
      split at hbase
      · rename_i htwo
        cases hbase
        exact RawBoot.fatAt_mem hoffset.1 hoffset.2 hlength
          (hindex (1 - boot.active) (by omega) fun hone => by omega)
      · cases hbase
    · exact hfat
  · intro base hbase
    simp only [RawBoot.geometry] at hbase ⊢
    split at hbase
    · cases hbase
      have hstep : boot.fatAt 0 + boot.fatLength * 2 ^ boot.bytesPerSectorShift =
          boot.fatAt 1 := by
        simp only [RawBoot.fatAt, Nat.mul_zero, Nat.mul_one, Nat.add_zero, Nat.add_mul]
      rcases Nat.le_one_iff_eq_zero_or_eq_one.mp hactive with h | h <;> rw [h]
      · right
        rw [Nat.sub_zero]
        omega
      · left
        rw [Nat.sub_self]
        omega
    · cases hbase
  · have hfit := (Nat.le_div_iff_mul_le (Nat.two_pow_pos _)).mp hcount.2
    have hmul := Nat.mul_le_mul_right (2 ^ boot.bytesPerSectorShift)
      (show boot.clusterHeapOffset + boot.clusterCount * 2 ^ boot.sectorsPerClusterShift ≤
        boot.volumeLength by omega)
    rw [Nat.add_mul, Nat.mul_assoc, ← Nat.pow_add,
      Nat.add_comm boot.sectorsPerClusterShift] at hmul
    exact hmul

theorem parseBoot_valid {sector : List UInt8} {geo : Geometry} (h : parseBoot sector = .ok geo) :
    geo.Valid := by
  obtain ⟨rfl, hchecks⟩ := parseBoot_ok h
  exact RawBoot.geometry_valid hchecks

end Hadris.Exfat
