import Hadris.Checked
import Hadris.Geometry
import Hadris.Region

namespace Hadris

/-- The fields of a parameter block have the widths of their types. -/
structure RawBpb.Bounded (bpb : RawBpb) : Prop where
  bytesPerSector : bpb.bytesPerSector < 2 ^ 16
  sectorsPerCluster : bpb.sectorsPerCluster < 2 ^ 8
  reservedSectorCount : bpb.reservedSectorCount < 2 ^ 16
  fatCount : bpb.fatCount < 2 ^ 8
  rootEntryCount : bpb.rootEntryCount < 2 ^ 16
  totalSectors : totalSectors bpb < 2 ^ 32
  sectorsPerFat16 : bpb.sectorsPerFat16 < 2 ^ 16

theorem RawBpb.read_bounded (sector : List UInt8) : (RawBpb.read sector).Bounded where
  bytesPerSector := u16At_lt _ _
  sectorsPerCluster := byteAt_lt _ _
  reservedSectorCount := u16At_lt _ _
  fatCount := byteAt_lt _ _
  rootEntryCount := u16At_lt _ _
  totalSectors := by
    have h₁₆ := u16At_lt sector 19
    have h₃₂ := u32At_lt sector 32
    by_cases h : (RawBpb.read sector).totalSectors16 = 0
    · rw [Hadris.totalSectors, if_neg (not_not.mpr h)]
      exact h₃₂
    · rw [Hadris.totalSectors, if_pos h]
      exact h₁₆.trans (by decide)
  sectorsPerFat16 := u16At_lt _ _

namespace Machine

open Checked

def checkBpb (bpb : RawBpb) : Checked BootError Unit := do
  reject (!([512, 1024, 2048, 4096].contains bpb.bytesPerSector))
    (.corrupt "BPB bytes_per_sector must be 512, 1024, 2048, or 4096")
  reject (!isSectorsPerCluster bpb.sectorsPerCluster)
    (.corrupt "BPB sectors_per_cluster must be a power of two from 1 through 128")
  let clusterSize ← mul 32 bpb.sectorsPerCluster bpb.bytesPerSector
  reject (64 * 1024 < clusterSize) (.corrupt "BPB cluster size must not exceed 64 KiB")

def checkBpbSizes (bpb : RawBpb) : Checked BootError Unit :=
  ExceptT.mk ((checkBpb bpb).run.map fun
    | .error (.corrupt field) => .error (.notFat field)
    | other => other)

def clusters (bpb : RawBpb) (metadataSectors : Nat) : Checked BootError Nat :=
  lift (Hadris.clusters bpb metadataSectors)

def geometry16 (bpb : RawBpb) : Checked BootError Geometry := do
  let sectorSize := bpb.bytesPerSector
  let reserved := bpb.reservedSectorCount
  let fatSectors := bpb.sectorsPerFat16
  let rootSize ← mul 64 bpb.rootEntryCount 32
  reject (rootSize == 0) (.corrupt "BPB root_entry_count must not be zero on FAT12/16")
  let rootSectors ← Checked.divCeil 64 rootSize sectorSize
  let fatStart ← mul 64 reserved sectorSize
  let fatsSectors ← mul 64 bpb.fatCount fatSectors
  let fatsSize ← mul 64 fatsSectors sectorSize
  let rootStart ← add 64 fatStart fatsSize
  let beforeRoot ← add 64 reserved fatsSectors
  let metadata ← add 64 beforeRoot rootSectors
  let count ← clusters bpb metadata
  reject (fat16MaxClusters < count)
    (.corrupt "FAT12/16 layout has more clusters than FAT16 can address")
  let clusterSize ← mul 32 bpb.sectorsPerCluster (cast 32 sectorSize)
  let fatSize ← mul 64 fatSectors sectorSize
  let rootLength ← mul 64 rootSectors sectorSize
  let dataStart ← add 64 rootStart rootLength
  let maxCluster ← add 32 (cast 32 count) 1
  pure {
    kind := if count ≤ fat12MaxClusters then .fat12 else .fat16
    sectorSize := cast 32 sectorSize
    clusterSize := clusterSize
    clusterShift := cast 8 (trailingZeros 32 clusterSize)
    reservedSectors := cast 16 reserved
    fatStart := fatStart
    fatSize := fatSize
    fatCount := bpb.fatCount
    activeFat := 0
    mirrored := true
    root := .fixed rootStart rootSize
    dataStart := dataStart
    maxCluster := maxCluster
    fsInfoSector := none
    volumeSerial := none }

def geometry32 (bpb : RawBpb) (ext : RawBpbExt32) : Checked BootError Geometry := do
  let sectorSize := bpb.bytesPerSector
  let reserved := bpb.reservedSectorCount
  let fatSectors := ext.sectorsPerFat32
  let fatStart ← mul 64 reserved sectorSize
  let fatsSectors ← mul 64 fatSectors bpb.fatCount
  let metadata ← add 64 reserved fatsSectors
  let count ← clusters bpb metadata
  reject (fat32MaxClusters < count)
    (.corrupt "FAT32 layout has more clusters than FAT32 can address")
  let maxCluster ← add 32 (cast 32 count) 1
  let root := ext.rootCluster
  reject (root < firstDataCluster || maxCluster < root) (.rootCluster root maxCluster)
  let clusterSize ← mul 32 bpb.sectorsPerCluster (cast 32 sectorSize)
  let fatSize ← mul 64 fatSectors sectorSize
  let fatsLength ← mul 64 bpb.fatCount fatSectors
  let fatsSize ← mul 64 fatsLength sectorSize
  let dataStart ← add 64 fatStart fatsSize
  pure {
    kind := .fat32
    sectorSize := cast 32 sectorSize
    clusterSize := clusterSize
    clusterShift := cast 8 (trailingZeros 32 clusterSize)
    reservedSectors := cast 16 reserved
    fatStart := fatStart
    fatSize := fatSize
    fatCount := bpb.fatCount
    activeFat := 0
    mirrored := true
    root := .cluster root
    dataStart := dataStart
    maxCluster := maxCluster
    fsInfoSector := none
    volumeSerial := none }

/-- The geometry with what the FAT32 extension says of mirroring, FSInfo and
the serial. -/
def withExt32 (geo : Geometry) (ext : RawBpbExt32) : Geometry :=
  let mirrored := ext.extFlags &&& 0x80 == 0
  { geo with
    mirrored := mirrored
    activeFat := if mirrored then 0 else cast 8 (ext.extFlags &&& 0x0F)
    fsInfoSector :=
      if ext.fsInfoSector ≠ 0 ∧ ext.fsInfoSector < geo.reservedSectors then
        some ext.fsInfoSector else none
    volumeSerial := serial ext.extBootSignature ext.volumeId }

def bootGeometry (sector : List UInt8) : Checked BootError Geometry :=
  let bpb := RawBpb.read sector
  if isFat32 bpb then do
    let ext := RawBpbExt32.read sector
    lift (checkExt32 bpb ext)
    let geo ← geometry32 bpb ext
    pure (withExt32 geo ext)
  else do
    let ext := RawBpbExt16.read sector
    lift (checkExt16 bpb ext)
    let geo ← geometry16 bpb
    pure { geo with volumeSerial := serial ext.extBootSignature ext.volumeId }

def entryOffset (kind : FatKind) (cluster : Nat) : Checked BootError Nat :=
  match kind with
  | .fat12 => do
    let tripled ← mul 64 cluster 3
    pure (tripled / 2)
  | .fat16 => mul 64 cluster 2
  | .fat32 => mul 64 cluster 4

def parseBoot (sector : List UInt8) : Checked BootError Geometry := do
  checkBpbSizes (RawBpb.read sector)
  let geo ← bootGeometry sector
  reject (geo.maxCluster < firstDataCluster) (.corrupt "volume has no data cluster")
  reject (geo.fatCount ≤ geo.activeFat)
    (.corrupt "BPB_ExtFlags names a FAT that does not exist")
  let offset ← entryOffset geo.kind geo.maxCluster
  let fatEnd ← add 64 offset geo.kind.entryLen
  reject (geo.fatSize < fatEnd) (.corrupt "FAT is too small for the cluster count")
  pure geo

section

variable {bpb : RawBpb} {ext : RawBpbExt32}

theorem checkBpb_eq (hb : bpb.Bounded) : checkBpb bpb = lift (Hadris.checkBpb bpb) := by
  have hmul := mul_lt_two_pow hb.sectorsPerCluster hb.bytesPerSector
  rw [checkBpb, Hadris.checkBpb, reject_bind, mul_of_lt (hmul.trans (by decide)), pure_bind,
    reject_bind, reject]
  simp only [Bool.not_eq_true', decide_eq_true_eq, Bool.not_eq_true]
  split
  · rfl
  split
  · rfl
  rfl

theorem checkBpbSizes_eq (hb : bpb.Bounded) :
    checkBpbSizes bpb = lift (Hadris.checkBpbSizes bpb) := by
  rw [checkBpbSizes, checkBpb_eq hb, Hadris.checkBpbSizes]
  cases Hadris.checkBpb bpb with
  | ok _ => rfl
  | error error => cases error <;> rfl

theorem clusters_lt {metadataSectors count : Nat} (hb : bpb.Bounded)
    (h : Hadris.clusters bpb metadataSectors = .ok count) : count < 2 ^ 32 := by
  rw [clusters_ok h]
  exact (Nat.div_le_self _ _).trans_lt ((Nat.sub_le _ _).trans_lt hb.totalSectors)

theorem geometry16_eq (hb : bpb.Bounded) (hsizes : Hadris.checkBpb bpb = .ok ()) :
    geometry16 bpb = lift (Hadris.geometry16 bpb) := by
  obtain ⟨⟨hlow, hhigh, -⟩, shift, -, hshift, hcluster⟩ := checkBpb_ok hsizes
  have hsector : bpb.bytesPerSector < 2 ^ 13 := by omega
  have hfats := mul_lt_two_pow hb.fatCount hb.sectorsPerFat16
  have hfatsSize := mul_lt_two_pow hfats hsector
  have hstart := mul_lt_two_pow hb.reservedSectorCount hsector
  have hfat := mul_lt_two_pow hb.sectorsPerFat16 hsector
  have hsize := mul_lt_two_pow hb.sectorsPerCluster hb.bytesPerSector
  have hrootSize : bpb.rootEntryCount * 32 < 2 ^ 21 := by
    have := hb.rootEntryCount
    omega
  have hdiv := Nat.div_le_self (bpb.rootEntryCount * 32) bpb.bytesPerSector
  have hceil : Hadris.divCeil (bpb.rootEntryCount * 32) bpb.bytesPerSector < 2 ^ 22 := by
    rw [Hadris.divCeil, add_sub_one_div _ (by omega)]
    split <;> omega
  have hrootSectors : (Checked.divCeil 64 (bpb.rootEntryCount * 32) bpb.bytesPerSector :
      Checked BootError Nat) = pure (Hadris.divCeil (bpb.rootEntryCount * 32)
        bpb.bytesPerSector) :=
    divCeil_of_lt (by omega) (by omega)
  have hrootLength := mul_lt_two_pow hceil hsector
  have hreserved := hb.reservedSectorCount
  simp only [geometry16, Hadris.geometry16]
  rw [mul_of_lt (hrootSize.trans (by decide)), pure_bind, reject_bind]
  simp only [beq_iff_eq]
  split
  · rfl
  rw [hrootSectors, pure_bind, mul_of_lt (hstart.trans (by decide)),
    pure_bind, mul_of_lt (hfats.trans (by decide)), pure_bind,
      mul_of_lt (hfatsSize.trans (by decide)),
    pure_bind, add_of_lt (by omega), pure_bind, add_of_lt (by omega), pure_bind,
    add_of_lt (by omega), pure_bind, lift_bind, clusters]
  cases hclusters : Hadris.clusters bpb _ with
  | error error => rfl
  | ok count =>
    have hcount := clusters_lt hb hclusters
    have hbytes : cast 32 bpb.bytesPerSector = bpb.bytesPerSector := cast_of_lt (by omega)
    rw [lift_ok, pure_bind, pure_bind, reject_bind]
    simp only [decide_eq_true_eq]
    split
    · rfl
    rename_i hmax
    rw [fat16MaxClusters] at hmax
    rw [hbytes, mul_of_lt (hsize.trans (by decide)), pure_bind,
      mul_of_lt (hfat.trans (by decide)),
      pure_bind, mul_of_lt (hrootLength.trans (by decide)), pure_bind, add_of_lt (by omega),
      pure_bind, cast_of_lt hcount, add_of_lt (by omega), pure_bind,
      cast_of_lt (hb.reservedSectorCount), hcluster, trailingZeros_two_pow (by omega),
      cast_of_lt (by omega), Nat.log2_two_pow]
    rfl

theorem geometry32_eq (hb : bpb.Bounded) (hsizes : Hadris.checkBpb bpb = .ok ())
    (hfats : ext.sectorsPerFat32 < 2 ^ 32) :
    geometry32 bpb ext = lift (Hadris.geometry32 bpb ext) := by
  obtain ⟨⟨hlow, hhigh, -⟩, shift, -, hshift, hcluster⟩ := checkBpb_ok hsizes
  have hsector : bpb.bytesPerSector < 2 ^ 13 := by omega
  have hsectors := mul_lt_two_pow hfats hb.fatCount
  have hlength := mul_lt_two_pow hb.fatCount hfats
  have hlengthSize := mul_lt_two_pow hlength hsector
  have hstart := mul_lt_two_pow hb.reservedSectorCount hsector
  have hfat := mul_lt_two_pow hfats hsector
  have hsize := mul_lt_two_pow hb.sectorsPerCluster hb.bytesPerSector
  have hreserved := hb.reservedSectorCount
  simp only [geometry32, Hadris.geometry32]
  rw [mul_of_lt (hstart.trans (by decide)), pure_bind, mul_of_lt (hsectors.trans (by decide)),
    pure_bind, add_of_lt (by omega), pure_bind, lift_bind, clusters]
  cases hclusters : Hadris.clusters bpb _ with
  | error error => rfl
  | ok count =>
    have hcount := clusters_lt hb hclusters
    have hbytes : cast 32 bpb.bytesPerSector = bpb.bytesPerSector := cast_of_lt (by omega)
    rw [lift_ok, pure_bind, pure_bind, reject_bind]
    simp only [decide_eq_true_eq]
    split
    · rfl
    rename_i hmax
    rw [fat32MaxClusters] at hmax
    rw [cast_of_lt hcount, add_of_lt (by omega), pure_bind, reject_bind]
    simp only [Bool.or_eq_true, decide_eq_true_eq]
    split
    · rfl
    rw [hbytes, mul_of_lt (hsize.trans (by decide)), pure_bind,
      mul_of_lt (hfat.trans (by decide)),
      pure_bind, mul_of_lt (hlength.trans (by decide)), pure_bind,
      mul_of_lt (hlengthSize.trans (by decide)), pure_bind, add_of_lt (by omega), pure_bind,
      cast_of_lt (hb.reservedSectorCount), hcluster, trailingZeros_two_pow (by omega),
      cast_of_lt (by omega), Nat.log2_two_pow]
    rfl

theorem withExt32_eq (geo : Geometry) : withExt32 geo ext = Hadris.withExt32 geo ext := by
  have hactive : ext.extFlags &&& 0x0F < 2 ^ 8 := Nat.and_le_right.trans_lt (by decide)
  rw [withExt32, Hadris.withExt32, cast_of_lt hactive]

theorem bootGeometry_eq {sector : List UInt8}
    (hsizes : Hadris.checkBpb (RawBpb.read sector) = .ok ()) :
    bootGeometry sector = lift (Hadris.bootGeometry sector) := by
  have hb := RawBpb.read_bounded sector
  simp only [bootGeometry, Hadris.bootGeometry]
  split
  · rw [geometry32_eq hb hsizes (u32At_lt _ _), lift_bind]
    congr 1
    funext _
    rw [lift_bind]
    congr 1
    funext geo
    rw [withExt32_eq]
    rfl
  · rw [geometry16_eq hb hsizes, lift_bind]
    congr 1
    funext _
    rw [lift_bind]
    rfl

theorem entryOffset_eq {kind : FatKind} {cluster : Nat} (h : cluster < 2 ^ 32) :
    entryOffset kind cluster = pure (kind.entryOffset cluster) := by
  cases kind with
  | fat12 => rw [entryOffset, mul_of_lt (by omega), pure_bind, FatKind.entryOffset]
  | fat16 => rw [entryOffset, mul_of_lt (by omega), FatKind.entryOffset]
  | fat32 => rw [entryOffset, mul_of_lt (by omega), FatKind.entryOffset]

theorem entryOffset_add_lt (kind : FatKind) {cluster : Nat} (h : cluster < 2 ^ 32) :
    kind.entryOffset cluster + kind.entryLen < 2 ^ 64 := by
  cases kind <;> simp only [FatKind.entryOffset, FatKind.entryLen] <;> omega

theorem geometry16_maxCluster_le {geo : Geometry} (h : Hadris.geometry16 bpb = .ok geo) :
    geo.maxCluster ≤ fat32MaxClusters + 1 := by
  simp only [Hadris.geometry16, bind, Except.bind] at h
  split at h
  · cases h
  split at h
  · cases h
  split at h
  · cases h
  rename_i hmax
  obtain rfl := Except.ok.inj h
  simp only [fat16MaxClusters, fat32MaxClusters] at *
  omega

theorem geometry32_maxCluster_le {geo : Geometry} (h : Hadris.geometry32 bpb ext = .ok geo) :
    geo.maxCluster ≤ fat32MaxClusters + 1 := by
  simp only [Hadris.geometry32, bind, Except.bind] at h
  split at h
  · cases h
  split at h
  · cases h
  split at h
  · cases h
  obtain rfl := Except.ok.inj h
  simp only at *
  omega

theorem bootGeometry_maxCluster_le {sector : List UInt8} {geo : Geometry}
    (h : Hadris.bootGeometry sector = .ok geo) : geo.maxCluster ≤ fat32MaxClusters + 1 := by
  rcases bootGeometry_ok h with ⟨-, ⟨g, hg, rfl⟩ | ⟨g, serial, hg, rfl⟩⟩
  · have hmax := geometry32_maxCluster_le hg
    exact hmax
  · have hmax := geometry16_maxCluster_le hg
    exact hmax

theorem parseBoot_eq (sector : List UInt8) :
    parseBoot sector = lift (Hadris.parseBoot sector) := by
  rw [parseBoot, Hadris.parseBoot, checkBpbSizes_eq (RawBpb.read_bounded sector), lift_bind]
  cases hsizes : Hadris.checkBpbSizes (RawBpb.read sector) with
  | error error => rfl
  | ok _ =>
    rw [lift_ok, pure_bind, pure_bind, bootGeometry_eq (checkBpbSizes_ok hsizes), lift_bind]
    cases hgeo : Hadris.bootGeometry sector with
    | error error => rfl
    | ok geo =>
      have hmax : geo.maxCluster < 2 ^ 32 :=
        (bootGeometry_maxCluster_le hgeo).trans_lt (by decide)
      rw [lift_ok, pure_bind, pure_bind, reject_bind]
      simp only [decide_eq_true_eq]
      split
      · rfl
      rw [reject_bind]
      simp only [decide_eq_true_eq]
      split
      · rfl
      rw [entryOffset_eq hmax, pure_bind, add_of_lt (entryOffset_add_lt geo.kind hmax), pure_bind,
        reject_bind]
      simp only [decide_eq_true_eq]
      split <;> rfl

end

end Machine

end Hadris

namespace Hadris

namespace Geometry

variable (geo : Geometry)

def reservedArea : Region := ⟨0, geo.reservedSectors * geo.sectorSize⟩

def fatCopies : List Region := Region.copies geo.fatStart geo.fatSize geo.fatCount

def fixedRoot : List Region :=
  match geo.root with
  | .fixed start size => [⟨start, size⟩]
  | .cluster _ => []

def dataArea : Region := ⟨geo.dataStart, (geo.maxCluster - 1) * geo.clusterSize⟩

def areas : List Region := geo.reservedArea :: geo.fatCopies ++ geo.fixedRoot ++ [geo.dataArea]

def entryRegion (copy cluster : Nat) : Region :=
  ⟨geo.fatCopy copy + geo.kind.entryOffset cluster, geo.kind.entryLen⟩

/-- What the accesses to a volume of `size` bytes rely on. -/
structure Sound (size : Nat) : Prop where
  areas : Region.InOrder geo.areas
  entry : ∀ cluster offset, geo.clusterOffset cluster = some offset → ∀ copy < geo.fatCount,
    (geo.entryRegion copy cluster).Within ⟨geo.fatCopy copy, geo.fatSize⟩
  cluster : ∀ cluster offset, geo.clusterOffset cluster = some offset →
    Region.Within ⟨offset, geo.clusterSize⟩ geo.dataArea
  total : geo.dataEnd ≤ size
  root : ∀ first, geo.root = .cluster first → ∃ offset, geo.clusterOffset first = some offset

variable {geo}

theorem entryOffset_mono (kind : FatKind) {a b : Nat} (h : a ≤ b) :
    kind.entryOffset a ≤ kind.entryOffset b := by
  rcases kind with _ | _ | _ <;> simp only [FatKind.entryOffset]
  · exact Nat.div_le_div_right (Nat.mul_le_mul_right 3 h)
  · omega
  · omega

theorem clusterOffset_eq_some {cluster offset : Nat}
    (h : geo.clusterOffset cluster = some offset) :
    (firstDataCluster ≤ cluster ∧ cluster ≤ geo.maxCluster) ∧
      offset = geo.dataStart + (cluster - firstDataCluster) * geo.clusterSize := by
  simp only [clusterOffset] at h
  split at h
  · cases h
  · exact ⟨by omega, (Option.some.inj h).symm⟩

theorem Valid.areas_before (hv : geo.Valid) : geo.areas.Pairwise Region.Before := by
  have hreserved : geo.reservedArea.stop = geo.fatStart := by
    rw [hv.fatStart]
    exact Nat.zero_add _
  have hroot : ∀ region ∈ geo.fixedRoot,
      geo.fatStart + geo.fatCount * geo.fatSize ≤ region.start ∧ region.stop ≤ geo.dataStart := by
    intro region hmem
    have h := hv.root
    simp only [fixedRoot] at hmem
    split at hmem
    · rename_i start size hfixed
      obtain rfl := List.mem_singleton.mp hmem
      simp only [hfixed] at h
      exact ⟨h.2.1.ge, h.2.2.2⟩
    · cases hmem
  have hone : geo.fixedRoot.Pairwise Region.Before := by
    simp only [fixedRoot]
    split <;> simp
  simp only [areas, List.cons_append]
  refine List.pairwise_cons.mpr ⟨fun region hmem => ?_, ?_⟩
  · simp only [List.mem_append, List.mem_singleton] at hmem
    change geo.reservedArea.stop ≤ region.start
    rw [hreserved]
    rcases hmem with (hmem | hmem) | rfl
    · exact (Region.copies_bounds hmem).1
    · exact (Nat.le_add_right _ _).trans (hroot region hmem).1
    · exact (Nat.le_add_right _ _).trans hv.dataStart
  · refine List.pairwise_append.mpr ⟨List.pairwise_append.mpr
      ⟨Region.copies_before _ _ _, hone, ?_⟩, List.pairwise_singleton _ _, ?_⟩
    · intro a ha b hb
      exact (Region.copies_bounds ha).2.trans (hroot b hb).1
    · intro a ha b hb
      obtain rfl := List.mem_singleton.mp hb
      rcases List.mem_append.mp ha with ha | ha
      · exact (Region.copies_bounds ha).2.trans hv.dataStart
      · exact (hroot a ha).2

theorem Valid.sound (hv : geo.Valid) {size : Nat} (htotal : geo.dataEnd ≤ size) :
    geo.Sound size where
  areas := Region.inOrder_of_before hv.areas_before
  entry := by
    intro cluster offset hc copy hcopy
    have hmono := entryOffset_mono geo.kind (clusterOffset_eq_some hc).1.2
    have hfit := hv.fatSize
    simp only [Region.Within, entryRegion, Region.stop]
    omega
  cluster := by
    intro cluster offset hc
    obtain ⟨⟨hlow, hhigh⟩, rfl⟩ := clusterOffset_eq_some hc
    have hmul := Nat.mul_le_mul_right geo.clusterSize
      (show cluster - firstDataCluster + 1 ≤ geo.maxCluster - 1 by
        simp only [firstDataCluster] at *
        omega)
    rw [Nat.succ_mul] at hmul
    simp only [Region.Within, dataArea, Region.stop]
    omega
  total := htotal
  root := by
    intro first hfirst
    have h := hv.root
    simp only [hfirst] at h
    refine ⟨_, if_neg ?_⟩
    omega

end Geometry

theorem clusters_le {bpb : RawBpb} {metadataSectors count : Nat}
    (h : clusters bpb metadataSectors = .ok count) (hcount : 1 ≤ count) :
    metadataSectors + count * bpb.sectorsPerCluster ≤ totalSectors bpb := by
  have hmul := Nat.div_mul_le_self (totalSectors bpb - metadataSectors) bpb.sectorsPerCluster
  rw [← clusters_ok h] at hmul
  have hpos : 0 < totalSectors bpb - metadataSectors := by
    by_contra hzero
    rw [clusters_ok h, Nat.eq_zero_of_not_pos hzero, Nat.zero_div] at hcount
    omega
  omega

theorem geometry16_dataEnd_le {bpb : RawBpb} {geo : Geometry} (h : geometry16 bpb = .ok geo)
    (hmax : firstDataCluster ≤ geo.maxCluster) :
    geo.dataEnd ≤ totalSectors bpb * bpb.bytesPerSector := by
  simp only [geometry16, bind, Except.bind] at h
  split at h
  · cases h
  split at h
  · cases h
  split at h
  · cases h
  rename_i count hclusters _
  obtain rfl := Except.ok.inj h
  simp only [firstDataCluster] at hmax
  have hmul := Nat.mul_le_mul_right bpb.bytesPerSector (clusters_le hclusters (by omega))
  simp only [Nat.add_mul] at hmul
  simp only [Geometry.dataEnd, Nat.add_sub_cancel, ← Nat.mul_assoc]
  exact hmul

theorem geometry32_dataEnd_le {bpb : RawBpb} {ext : RawBpbExt32} {geo : Geometry}
    (h : geometry32 bpb ext = .ok geo) (hmax : firstDataCluster ≤ geo.maxCluster) :
    geo.dataEnd ≤ totalSectors bpb * bpb.bytesPerSector := by
  simp only [geometry32, bind, Except.bind] at h
  split at h
  · cases h
  split at h
  · cases h
  split at h
  · cases h
  rename_i count hclusters _ _
  obtain rfl := Except.ok.inj h
  simp only [firstDataCluster] at hmax
  have hmul := Nat.mul_le_mul_right bpb.bytesPerSector (clusters_le hclusters (by omega))
  simp only [Nat.add_mul, Nat.mul_comm ext.sectorsPerFat32] at hmul
  simp only [Geometry.dataEnd, Nat.add_sub_cancel, ← Nat.mul_assoc]
  exact hmul

theorem parseBoot_sound {sector : List UInt8} {geo : Geometry} (h : parseBoot sector = .ok geo) :
    geo.Sound (totalSectors (RawBpb.read sector) * (RawBpb.read sector).bytesPerSector) := by
  refine (parseBoot_valid h).sound ?_
  obtain ⟨-, hgeo, hfits⟩ := parseBoot_ok h
  rcases bootGeometry_ok hgeo with ⟨-, ⟨g, hg, rfl⟩ | ⟨g, serial, hg, rfl⟩⟩
  · have hend := geometry32_dataEnd_le hg hfits.maxCluster
    exact hend
  · have hend := geometry16_dataEnd_le hg hfits.maxCluster
    exact hend

end Hadris
