import Mathlib.Data.List.GetD
import Mathlib.Data.Nat.Bitwise
import Mathlib.Tactic.Common

namespace Hadris

/-- The FAT variant of a volume, named by its allocation-table entry width. -/
inductive FatKind where
  | fat12
  | fat16
  | fat32
deriving DecidableEq, Repr

/-- Why a FAT entry does not name a next cluster. -/
inductive ChainError where
  | bad
  | outOfBounds (value : Nat)
deriving DecidableEq, Repr

def firstDataCluster : Nat := 2

def fat12MaxClusters : Nat := 4084

def fat16MaxClusters : Nat := 65524

def fat32MaxClusters : Nat := 0x0FFFFFF5

def byteAt (bytes : List UInt8) (i : Nat) : Nat := (bytes.getD i 0).toNat

def u8 (n : Nat) : UInt8 := UInt8.ofNat n

def u16At (bytes : List UInt8) (i : Nat) : Nat := byteAt bytes i + byteAt bytes (i + 1) * 256

def u32At (bytes : List UInt8) (i : Nat) : Nat := u16At bytes i + u16At bytes (i + 2) * 65536

def u16Bytes (n : Nat) : List UInt8 := [u8 n, u8 (n / 256)]

def u32Bytes (n : Nat) : List UInt8 := [u8 n, u8 (n / 256), u8 (n / 65536), u8 (n / 16777216)]

theorem byteAt_lt (bytes : List UInt8) (i : Nat) : byteAt bytes i < 256 :=
  (bytes.getD i 0).toNat_lt

theorem u16At_lt (bytes : List UInt8) (i : Nat) : u16At bytes i < 65536 := by
  have h₀ := byteAt_lt bytes i
  have h₁ := byteAt_lt bytes (i + 1)
  simp only [u16At]
  omega

theorem u32At_lt (bytes : List UInt8) (i : Nat) : u32At bytes i < 4294967296 := by
  have h₀ := u16At_lt bytes i
  have h₁ := u16At_lt bytes (i + 2)
  simp only [u32At]
  omega

@[simp] theorem u8_toNat (n : Nat) : (u8 n).toNat = n % 256 := by simp [u8]

theorem and_two_pow_eq_zero {byte : UInt8} {k : Nat} (hk : k < 8) :
    byte &&& u8 (2 ^ k) = 0 ↔ byte.toNat / 2 ^ k % 2 = 0 := by
  have hpow : 2 ^ k % 256 = 2 ^ k := Nat.mod_eq_of_lt (Nat.pow_lt_pow_right (by omega) hk)
  rw [← UInt8.toNat_inj, UInt8.toNat_and, u8_toNat, hpow, Nat.and_two_pow,
    Nat.testBit_eq_decide_div_mod_eq]
  have hpos : 2 ^ k ≠ 0 := (Nat.two_pow_pos k).ne'
  by_cases h : byte.toNat / 2 ^ k % 2 = 1
  · simp [h]
  · simp [h]
    omega

theorem and_two_pow_eq_zero_iff {byte : UInt8} {k : Nat} (hk : k < 8) :
    byte &&& u8 (2 ^ k) = 0 ↔ byte.toNat.testBit k = false := by
  rw [and_two_pow_eq_zero hk, Nat.testBit_eq_decide_div_mod_eq, decide_eq_false_iff_not]
  omega

theorem u8_and_two_pow_eq_zero (n : Nat) {k : Nat} (hk : k < 8) :
    u8 n &&& u8 (2 ^ k) = 0 ↔ n.testBit k = false := by
  have hmod : n % 256 = n % 2 ^ 8 := rfl
  rw [and_two_pow_eq_zero_iff hk, u8_toNat, hmod, Nat.testBit_mod_two_pow]
  simp [hk]

@[simp] theorem byteAt_cons_zero (b : UInt8) (bytes : List UInt8) :
    byteAt (b :: bytes) 0 = b.toNat := rfl

@[simp] theorem byteAt_cons_succ (b : UInt8) (bytes : List UInt8) (i : Nat) :
    byteAt (b :: bytes) (i + 1) = byteAt bytes i := rfl

namespace FatKind

def mask : FatKind → Nat
  | .fat12 => 0x0FFF
  | .fat16 => 0xFFFF
  | .fat32 => 0x0FFFFFFF

def endOfChain : FatKind → Nat
  | .fat12 => 0x0FF8
  | .fat16 => 0xFFF8
  | .fat32 => 0x0FFFFFF8

def badCluster : FatKind → Nat
  | .fat12 => 0x0FF7
  | .fat16 => 0xFFF7
  | .fat32 => 0x0FFFFFF7

def entryOffset (kind : FatKind) (cluster : Nat) : Nat :=
  match kind with
  | .fat12 => cluster * 3 / 2
  | .fat16 => cluster * 2
  | .fat32 => cluster * 4

def entryLen : FatKind → Nat
  | .fat12 => 2
  | .fat16 => 2
  | .fat32 => 4

/-- The bit of FAT entry 1 that is set while the volume is cleanly unmounted,
0 on FAT12, which has none. -/
def cleanBit : FatKind → Nat
  | .fat12 => 0
  | .fat16 => 0x8000
  | .fat32 => 0x08000000

def isEndOfChain (kind : FatKind) (value : Nat) : Bool := kind.endOfChain ≤ value

def isBad (kind : FatKind) (value : Nat) : Bool := value == kind.badCluster

/-- Decodes the stored entry of `cluster`. The reserved high nibble of FAT32 is
kept. -/
def decode (kind : FatKind) (cluster : Nat) (bytes : List UInt8) : Nat :=
  match kind with
  | .fat12 =>
    if cluster % 2 = 0 then byteAt bytes 0 + byteAt bytes 1 % 16 * 256
    else byteAt bytes 0 / 16 + byteAt bytes 1 * 16
  | .fat16 => u16At bytes 0
  | .fat32 => u32At bytes 0

/-- Stores `value` as the entry of `cluster` into the bytes at its offset,
keeping the neighbouring FAT12 nibble and the reserved high nibble of FAT32. -/
def encode (kind : FatKind) (cluster value : Nat) (bytes : List UInt8) : List UInt8 :=
  match kind with
  | .fat12 =>
    if cluster % 2 = 0 then
      [u8 value, u8 (byteAt bytes 1 / 16 * 16 + value / 256 % 16)]
    else
      [u8 (byteAt bytes 0 % 16 + value % 16 * 16), u8 (value / 16)]
  | .fat16 => u16Bytes value
  | .fat32 => u32Bytes (u32At bytes 0 / 0x10000000 * 0x10000000 + value % 0x10000000)

/-- Interprets a stored entry as the link to the next cluster: `none` at the
end of the chain. -/
def next (kind : FatKind) (stored maxCluster : Nat) : Except ChainError (Option Nat) :=
  let value := stored &&& kind.mask
  if kind.isEndOfChain value then .ok none
  else if kind.isBad value then .error .bad
  else if value < firstDataCluster ∨ maxCluster < value then .error (.outOfBounds value)
  else .ok (some value)

theorem and_mask (kind : FatKind) (n : Nat) : n &&& kind.mask = n % (kind.mask + 1) := by
  cases kind
  · exact Nat.and_two_pow_sub_one_eq_mod n 12
  · exact Nat.and_two_pow_sub_one_eq_mod n 16
  · exact Nat.and_two_pow_sub_one_eq_mod n 28

theorem encode_length (kind : FatKind) (cluster value : Nat) (bytes : List UInt8) :
    (kind.encode cluster value bytes).length = kind.entryLen := by
  cases kind
  · simp only [encode]
    split <;> rfl
  · rfl
  · rfl

theorem decode_encode (kind : FatKind) (cluster value : Nat) (bytes : List UInt8) :
    kind.decode cluster (kind.encode cluster value bytes) &&& kind.mask =
      value &&& kind.mask := by
  simp only [and_mask]
  cases kind with
  | fat12 =>
    have h₀ := byteAt_lt bytes 0
    have h₁ := byteAt_lt bytes 1
    simp only [decode, encode, mask]
    split
    · simp only [byteAt_cons_zero, byteAt_cons_succ, u8_toNat]
      omega
    · simp only [byteAt_cons_zero, byteAt_cons_succ, u8_toNat]
      omega
  | fat16 =>
    simp only [decode, encode, mask, u16At, u16Bytes, byteAt_cons_zero, byteAt_cons_succ,
      u8_toNat]
    omega
  | fat32 =>
    have h := u32At_lt bytes 0
    simp only [decode, encode, mask]
    generalize u32At bytes 0 = old at h ⊢
    simp only [u32At, u16At, u32Bytes, byteAt_cons_zero, byteAt_cons_succ, u8_toNat]
    omega

end FatKind

end Hadris

namespace Hadris

/-- Why a boot sector was rejected. -/
inductive BootError where
  | notFat (field : String)
  | corrupt (field : String)
  | signature (found : Nat)
  | rootCluster (cluster max : Nat)
deriving DecidableEq, Repr

/-- Where the root directory lives. -/
inductive RootLocation where
  | fixed (start size : Nat)
  | cluster (first : Nat)
deriving DecidableEq, Repr

/-- Byte layout of a FAT volume. -/
structure Geometry where
  kind : FatKind
  sectorSize : Nat
  clusterSize : Nat
  clusterShift : Nat
  reservedSectors : Nat
  fatStart : Nat
  fatSize : Nat
  fatCount : Nat
  activeFat : Nat
  mirrored : Bool
  root : RootLocation
  dataStart : Nat
  maxCluster : Nat
  fsInfoSector : Option Nat
  volumeSerial : Option Nat
deriving DecidableEq, Repr

namespace Geometry

def copies (geo : Geometry) : Nat := if geo.mirrored then geo.fatCount else 1

def fatCopy (geo : Geometry) (copy : Nat) : Nat := geo.fatStart + copy * geo.fatSize

def dataEnd (geo : Geometry) : Nat := geo.dataStart + (geo.maxCluster - 1) * geo.clusterSize

def clusterOffset (geo : Geometry) (cluster : Nat) : Option Nat :=
  if cluster < firstDataCluster ∨ geo.maxCluster < cluster then none
  else some (geo.dataStart + (cluster - firstDataCluster) * geo.clusterSize)

end Geometry

/-- The fields of the BIOS parameter block and its two extensions that the
driver reads. -/
structure RawBpb where
  bytesPerSector : Nat
  sectorsPerCluster : Nat
  reservedSectorCount : Nat
  fatCount : Nat
  rootEntryCount : Nat
  totalSectors16 : Nat
  mediaType : Nat
  sectorsPerFat16 : Nat
  totalSectors32 : Nat

structure RawBpbExt16 where
  extBootSignature : Nat
  volumeId : Nat
  signatureWord : Nat

structure RawBpbExt32 where
  sectorsPerFat32 : Nat
  extFlags : Nat
  version : Nat
  rootCluster : Nat
  fsInfoSector : Nat
  bootSector : Nat
  extBootSignature : Nat
  volumeId : Nat
  signatureWord : Nat

def bootSectorLen : Nat := 512

def bootSignature : Nat := 0xAA55

def RawBpb.read (sector : List UInt8) : RawBpb where
  bytesPerSector := u16At sector 11
  sectorsPerCluster := byteAt sector 13
  reservedSectorCount := u16At sector 14
  fatCount := byteAt sector 16
  rootEntryCount := u16At sector 17
  totalSectors16 := u16At sector 19
  mediaType := byteAt sector 21
  sectorsPerFat16 := u16At sector 22
  totalSectors32 := u32At sector 32

def RawBpbExt16.read (sector : List UInt8) : RawBpbExt16 where
  extBootSignature := byteAt sector 38
  volumeId := u32At sector 39
  signatureWord := u16At sector 510

def RawBpbExt32.read (sector : List UInt8) : RawBpbExt32 where
  sectorsPerFat32 := u32At sector 36
  extFlags := u16At sector 40
  version := u16At sector 42
  rootCluster := u32At sector 44
  fsInfoSector := u16At sector 48
  bootSector := u16At sector 50
  extBootSignature := byteAt sector 66
  volumeId := u32At sector 67
  signatureWord := u16At sector 510

def isSectorsPerCluster (n : Nat) : Bool := [1, 2, 4, 8, 16, 32, 64, 128].contains n

def checkBpb (bpb : RawBpb) : Except BootError Unit :=
  if ¬ [512, 1024, 2048, 4096].contains bpb.bytesPerSector then
    .error (.corrupt "BPB bytes_per_sector must be 512, 1024, 2048, or 4096")
  else if ¬ isSectorsPerCluster bpb.sectorsPerCluster then
    .error (.corrupt "BPB sectors_per_cluster must be a power of two from 1 through 128")
  else if 64 * 1024 < bpb.sectorsPerCluster * bpb.bytesPerSector then
    .error (.corrupt "BPB cluster size must not exceed 64 KiB")
  else .ok ()

def isFat32 (bpb : RawBpb) : Bool := bpb.rootEntryCount == 0 && bpb.sectorsPerFat16 == 0

def checkCounts (bpb : RawBpb) : Except BootError Unit :=
  if bpb.fatCount ≠ 1 ∧ bpb.fatCount ≠ 2 then
    .error (.corrupt "BPB fat_count must be 1 or 2")
  else if bpb.reservedSectorCount = 0 then
    .error (.corrupt "BPB reserved_sector_count must not be zero")
  else .ok ()

def checkExt16 (bpb : RawBpb) (ext : RawBpbExt16) : Except BootError Unit :=
  if ext.signatureWord ≠ bootSignature then .error (.signature ext.signatureWord)
  else checkCounts bpb

def checkExt32 (bpb : RawBpb) (ext : RawBpbExt32) : Except BootError Unit :=
  if ext.signatureWord ≠ bootSignature then .error (.signature ext.signatureWord)
  else if ext.version ≠ 0 then .error (.corrupt "unsupported FAT32 filesystem version")
  else checkCounts bpb

def totalSectors (bpb : RawBpb) : Nat :=
  if bpb.totalSectors16 ≠ 0 then bpb.totalSectors16 else bpb.totalSectors32

def clusters (bpb : RawBpb) (metadataSectors : Nat) : Except BootError Nat :=
  if bpb.sectorsPerCluster = 0 then
    .error (.corrupt "BPB sectors_per_cluster must not be zero")
  else .ok ((totalSectors bpb - metadataSectors) / bpb.sectorsPerCluster)

def serial (signature id : Nat) : Option Nat :=
  if signature = 0x28 ∨ signature = 0x29 then some id else none

def divCeil (a b : Nat) : Nat := (a + b - 1) / b

def geometry16 (bpb : RawBpb) : Except BootError Geometry := do
  let sectorSize := bpb.bytesPerSector
  let reserved := bpb.reservedSectorCount
  let fatSectors := bpb.sectorsPerFat16
  let rootSize := bpb.rootEntryCount * 32
  if rootSize = 0 then
    .error (.corrupt "BPB root_entry_count must not be zero on FAT12/16")
  else
    let rootSectors := divCeil rootSize sectorSize
    let fatStart := reserved * sectorSize
    let rootStart := fatStart + bpb.fatCount * fatSectors * sectorSize
    let count ← clusters bpb (reserved + bpb.fatCount * fatSectors + rootSectors)
    if fat16MaxClusters < count then
      .error (.corrupt "FAT12/16 layout has more clusters than FAT16 can address")
    else .ok {
        kind := if count ≤ fat12MaxClusters then .fat12 else .fat16
        sectorSize := sectorSize
        clusterSize := bpb.sectorsPerCluster * sectorSize
        clusterShift := Nat.log2 (bpb.sectorsPerCluster * sectorSize)
        reservedSectors := reserved
        fatStart := fatStart
        fatSize := fatSectors * sectorSize
        fatCount := bpb.fatCount
        activeFat := 0
        mirrored := true
        root := .fixed rootStart rootSize
        dataStart := rootStart + rootSectors * sectorSize
        maxCluster := count + 1
        fsInfoSector := none
        volumeSerial := none }

def geometry32 (bpb : RawBpb) (ext : RawBpbExt32) : Except BootError Geometry := do
  let sectorSize := bpb.bytesPerSector
  let reserved := bpb.reservedSectorCount
  let fatSectors := ext.sectorsPerFat32
  let fatStart := reserved * sectorSize
  let count ← clusters bpb (reserved + fatSectors * bpb.fatCount)
  if fat32MaxClusters < count then
    .error (.corrupt "FAT32 layout has more clusters than FAT32 can address")
  else
    let maxCluster := count + 1
    let root := ext.rootCluster
    if root < firstDataCluster ∨ maxCluster < root then .error (.rootCluster root maxCluster)
    else .ok {
        kind := .fat32
        sectorSize := sectorSize
        clusterSize := bpb.sectorsPerCluster * sectorSize
        clusterShift := Nat.log2 (bpb.sectorsPerCluster * sectorSize)
        reservedSectors := reserved
        fatStart := fatStart
        fatSize := fatSectors * sectorSize
        fatCount := bpb.fatCount
        activeFat := 0
        mirrored := true
        root := .cluster root
        dataStart := fatStart + bpb.fatCount * fatSectors * sectorSize
        maxCluster := maxCluster
        fsInfoSector := none
        volumeSerial := none }

/-- The BPB sizes are checked before anything else, and a sector that fails
there holds no FAT volume. -/
def checkBpbSizes (bpb : RawBpb) : Except BootError Unit :=
  match checkBpb bpb with
  | .error (.corrupt field) => .error (.notFat field)
  | other => other

/-- The geometry with what the FAT32 extension says of mirroring, FSInfo and
the serial. -/
def withExt32 (geo : Geometry) (ext : RawBpbExt32) : Geometry :=
  let mirrored := ext.extFlags &&& 0x80 == 0
  { geo with
    mirrored := mirrored
    activeFat := if mirrored then 0 else ext.extFlags &&& 0x0F
    fsInfoSector :=
      if ext.fsInfoSector ≠ 0 ∧ ext.fsInfoSector < geo.reservedSectors then
        some ext.fsInfoSector else none
    volumeSerial := serial ext.extBootSignature ext.volumeId }

def bootGeometry (sector : List UInt8) : Except BootError Geometry := do
  let bpb := RawBpb.read sector
  if isFat32 bpb then
    let ext := RawBpbExt32.read sector
    checkExt32 bpb ext
    let geo ← geometry32 bpb ext
    .ok (withExt32 geo ext)
  else
    let ext := RawBpbExt16.read sector
    checkExt16 bpb ext
    let geo ← geometry16 bpb
    .ok { geo with volumeSerial := serial ext.extBootSignature ext.volumeId }

def parseBoot (sector : List UInt8) : Except BootError Geometry := do
  checkBpbSizes (RawBpb.read sector)
  let geo ← bootGeometry sector
  if geo.maxCluster < firstDataCluster then .error (.corrupt "volume has no data cluster")
  else if geo.fatCount ≤ geo.activeFat then
    .error (.corrupt "BPB_ExtFlags names a FAT that does not exist")
  else if geo.fatSize < geo.kind.entryOffset geo.maxCluster + geo.kind.entryLen then
    .error (.corrupt "FAT is too small for the cluster count")
  else .ok geo

/-- What a boot sector that parses says of the layout. -/
structure Geometry.Valid (geo : Geometry) : Prop where
  sectorSize : 512 ≤ geo.sectorSize ∧ geo.sectorSize ≤ 4096 ∧ 32 ∣ geo.sectorSize
  clusterSize : geo.clusterSize = 2 ^ geo.clusterShift
  clusterShift : 9 ≤ geo.clusterShift ∧ geo.clusterShift ≤ 16
  reserved : 0 < geo.reservedSectors
  fatStart : geo.fatStart = geo.reservedSectors * geo.sectorSize
  fatCount : geo.fatCount = 1 ∨ geo.fatCount = 2
  activeFat : geo.activeFat < geo.fatCount
  mirrored : geo.mirrored = true → geo.activeFat = 0
  fsInfo : ∀ sector, geo.fsInfoSector = some sector → 0 < sector ∧ sector < geo.reservedSectors
  fatSize : geo.kind.entryOffset geo.maxCluster + geo.kind.entryLen ≤ geo.fatSize
  dataStart : geo.fatStart + geo.fatCount * geo.fatSize ≤ geo.dataStart
  root : match geo.root with
    | .fixed start size =>
      geo.kind ≠ .fat32 ∧ start = geo.fatStart + geo.fatCount * geo.fatSize ∧
        32 ∣ size ∧ start + size ≤ geo.dataStart
    | .cluster first =>
      geo.kind = .fat32 ∧ firstDataCluster ≤ first ∧ first ≤ geo.maxCluster
  maxCluster : firstDataCluster ≤ geo.maxCluster ∧ geo.maxCluster < geo.kind.badCluster

theorem checkBpbSizes_ok {bpb : RawBpb} (h : checkBpbSizes bpb = .ok ()) :
    checkBpb bpb = .ok () := by
  simp only [checkBpbSizes] at h
  split at h
  · cases h
  · exact h

theorem checkBpb_ok {bpb : RawBpb} (h : checkBpb bpb = .ok ()) :
    (512 ≤ bpb.bytesPerSector ∧ bpb.bytesPerSector ≤ 4096 ∧ 32 ∣ bpb.bytesPerSector) ∧
      ∃ shift, 9 ≤ shift ∧ shift ≤ 16 ∧
      bpb.sectorsPerCluster * bpb.bytesPerSector = 2 ^ shift := by
  simp only [checkBpb] at h
  split at h
  · cases h
  split at h
  · cases h
  split at h
  · cases h
  rename_i hsector hper hcluster
  have hs : bpb.bytesPerSector = 2 ^ 9 ∨ bpb.bytesPerSector = 2 ^ 10 ∨
      bpb.bytesPerSector = 2 ^ 11 ∨ bpb.bytesPerSector = 2 ^ 12 := by
    have hlist := List.contains_iff_mem.mp (not_not.mp hsector)
    simpa using hlist
  have hp : ∃ k ≤ 7, bpb.sectorsPerCluster = 2 ^ k := by
    have hlist := List.contains_iff_mem.mp (not_not.mp hper)
    have hall : ∀ n ∈ [1, 2, 4, 8, 16, 32, 64, 128], ∃ k ≤ 7, n = 2 ^ k := by decide
    exact hall _ hlist
  obtain ⟨k, hk, hper⟩ := hp
  obtain ⟨j, hj, hj', hsector⟩ : ∃ j, 9 ≤ j ∧ j ≤ 12 ∧ bpb.bytesPerSector = 2 ^ j := by
    rcases hs with h | h | h | h
    · exact ⟨9, by omega, by omega, h⟩
    · exact ⟨10, by omega, by omega, h⟩
    · exact ⟨11, by omega, by omega, h⟩
    · exact ⟨12, by omega, by omega, h⟩
  refine ⟨by rcases hs with h | h | h | h <;> rw [h] <;> decide, k + j, by omega, ?_, ?_⟩
  · rw [hper, hsector, ← Nat.pow_add] at hcluster
    have hpow : 2 ^ (k + j) ≤ 2 ^ 16 := by omega
    exact (Nat.pow_le_pow_iff_right (by omega)).mp hpow
  · rw [hper, hsector, Nat.pow_add]

theorem checkCounts_ok {bpb : RawBpb} (h : checkCounts bpb = .ok ()) :
    (bpb.fatCount = 1 ∨ bpb.fatCount = 2) ∧ 0 < bpb.reservedSectorCount := by
  simp only [checkCounts] at h
  split at h
  · cases h
  split at h
  · cases h
  exact ⟨by omega, by omega⟩

theorem clusters_ok {bpb : RawBpb} {metadataSectors count : Nat}
    (h : clusters bpb metadataSectors = .ok count) :
    count = (totalSectors bpb - metadataSectors) / bpb.sectorsPerCluster := by
  simp only [clusters] at h
  split at h
  · cases h
  · exact (Except.ok.inj h).symm

theorem divCeil_mul_ge (a : Nat) {b : Nat} (hb : 0 < b) : a ≤ divCeil a b * b := by
  have h := Nat.div_add_mod (a + b - 1) b
  have hlt := Nat.mod_lt (a + b - 1) hb
  rw [Nat.mul_comm] at h
  simp only [divCeil]
  omega

/-- The last checks of `parseBoot`, which do not depend on the variant. -/
structure Geometry.Fits (geo : Geometry) : Prop where
  maxCluster : firstDataCluster ≤ geo.maxCluster
  activeFat : geo.activeFat < geo.fatCount
  fatSize : geo.kind.entryOffset geo.maxCluster + geo.kind.entryLen ≤ geo.fatSize

theorem geometry16_valid {bpb : RawBpb} {geo : Geometry} (hsizes : checkBpb bpb = .ok ())
    (hcounts : checkCounts bpb = .ok ()) (h : geometry16 bpb = .ok geo) (hfits : geo.Fits)
    (serial : Option Nat) : Geometry.Valid { geo with volumeSerial := serial } := by
  obtain ⟨hsector, shift, hlow, hhigh, hcluster⟩ := checkBpb_ok hsizes
  obtain ⟨hcount, hreserved⟩ := checkCounts_ok hcounts
  simp only [geometry16, bind, Except.bind] at h
  split at h
  · cases h
  split at h
  · cases h
  split at h
  · cases h
  rename_i hroot _ count _ hmax
  obtain rfl := Except.ok.inj h
  have hfit := hfits.fatSize
  have hlog : Nat.log2 (bpb.sectorsPerCluster * bpb.bytesPerSector) = shift := by
    rw [hcluster, Nat.log2_two_pow]
  refine ⟨hsector, by simp only [hlog]; exact hcluster, by simp only [hlog]; exact ⟨hlow, hhigh⟩,
    hreserved, rfl, hcount, hfits.activeFat, fun _ => rfl, fun _ hs => (nomatch hs), hfit, ?_, ?_,
    hfits.maxCluster, ?_⟩
  · simp only [Nat.mul_assoc]
    omega
  · refine ⟨by split <;> simp, by simp only [Nat.mul_assoc], ⟨_, Nat.mul_comm _ _⟩, ?_⟩
    have hceil := divCeil_mul_ge (bpb.rootEntryCount * 32) (b := bpb.bytesPerSector) (by omega)
    simp only
    omega
  · simp only [fat16MaxClusters] at hmax
    by_cases hkind : count ≤ fat12MaxClusters
    · simp only [if_pos hkind, FatKind.badCluster]
      simp only [fat12MaxClusters] at hkind
      omega
    · simp only [if_neg hkind, FatKind.badCluster]
      omega

theorem geometry32_valid {bpb : RawBpb} {ext : RawBpbExt32} {geo : Geometry}
    (hsizes : checkBpb bpb = .ok ()) (hcounts : checkCounts bpb = .ok ())
    (h : geometry32 bpb ext = .ok geo) (hfits : (withExt32 geo ext).Fits) :
    (withExt32 geo ext).Valid := by
  obtain ⟨hsector, shift, hlow, hhigh, hcluster⟩ := checkBpb_ok hsizes
  obtain ⟨hcount, hreserved⟩ := checkCounts_ok hcounts
  simp only [geometry32, bind, Except.bind] at h
  split at h
  · cases h
  split at h
  · cases h
  split at h
  · cases h
  rename_i _ count _ hmax hroot
  obtain rfl := Except.ok.inj h
  have hlog : Nat.log2 (bpb.sectorsPerCluster * bpb.bytesPerSector) = shift := by
    rw [hcluster, Nat.log2_two_pow]
  refine ⟨hsector, by simp only [withExt32, hlog]; exact hcluster,
    by simp only [withExt32, hlog]; exact ⟨hlow, hhigh⟩, hreserved, rfl, hcount, hfits.activeFat,
    ?_, ?_, hfits.fatSize, ?_, ?_, hfits.maxCluster, ?_⟩
  · intro hm
    simp only [withExt32] at hm ⊢
    rw [if_pos hm]
  · intro sector hs
    simp only [withExt32] at hs ⊢
    split at hs
    · cases hs
      omega
    · cases hs
  · simp only [withExt32, Nat.mul_assoc]
    omega
  · exact ⟨rfl, by omega, by simp only [withExt32]; omega⟩
  · simp only [fat32MaxClusters] at hmax
    simp only [withExt32, FatKind.badCluster]
    omega

theorem bootGeometry_ok {sector : List UInt8} {geo : Geometry}
    (h : bootGeometry sector = .ok geo) :
    checkCounts (RawBpb.read sector) = .ok () ∧
      ((∃ g, geometry32 (RawBpb.read sector) (RawBpbExt32.read sector) = .ok g ∧
          geo = withExt32 g (RawBpbExt32.read sector)) ∨
        ∃ g serial, geometry16 (RawBpb.read sector) = .ok g ∧
          geo = { g with volumeSerial := serial }) := by
  simp only [bootGeometry, bind, Except.bind] at h
  split at h
  · split at h
    · cases h
    rename_i hext
    split at h
    · cases h
    rename_i g hg
    refine ⟨?_, .inl ⟨g, hg, (Except.ok.inj h).symm⟩⟩
    simp only [checkExt32] at hext
    split at hext
    · cases hext
    split at hext
    · cases hext
    exact hext
  · split at h
    · cases h
    rename_i hext
    split at h
    · cases h
    rename_i g hg
    refine ⟨?_, .inr ⟨g, _, hg, (Except.ok.inj h).symm⟩⟩
    simp only [checkExt16] at hext
    split at hext
    · cases hext
    exact hext

theorem parseBoot_ok {sector : List UInt8} {geo : Geometry} (h : parseBoot sector = .ok geo) :
    checkBpb (RawBpb.read sector) = .ok () ∧ bootGeometry sector = .ok geo ∧ geo.Fits := by
  simp only [parseBoot, bind, Except.bind] at h
  split at h
  · cases h
  rename_i hsizes
  split at h
  · cases h
  rename_i g hg
  split at h
  · cases h
  split at h
  · cases h
  split at h
  · cases h
  obtain rfl := Except.ok.inj h
  exact ⟨checkBpbSizes_ok hsizes, hg, by omega, by omega, by omega⟩

theorem parseBoot_of_fits {sector : List UInt8} {geo : Geometry}
    (hsizes : checkBpbSizes (RawBpb.read sector) = .ok ()) (hgeo : bootGeometry sector = .ok geo)
    (hfits : geo.Fits) : parseBoot sector = .ok geo := by
  simp only [parseBoot, bind, Except.bind, hsizes, hgeo]
  rw [if_neg (not_lt.mpr hfits.maxCluster), if_neg (not_le.mpr hfits.activeFat),
    if_neg (not_lt.mpr hfits.fatSize)]

theorem parseBoot_valid {sector : List UInt8} {geo : Geometry} (h : parseBoot sector = .ok geo) :
    geo.Valid := by
  obtain ⟨hbpb, hgeo, hfits⟩ := parseBoot_ok h
  rcases bootGeometry_ok hgeo with ⟨hcounts, ⟨g, hg, rfl⟩ | ⟨g, serial, hg, rfl⟩⟩
  · exact geometry32_valid hbpb hcounts hg hfits
  · exact geometry16_valid hbpb hcounts hg ⟨hfits.1, hfits.2, hfits.3⟩ _

end Hadris
