import Hadris.Format.Planned

namespace Hadris.Format

def fsInfoSector : Nat := 1

def backupBootSector : Nat := 6

def rootCluster : Nat := 2

def bootStub : List UInt8 := [0xCD, 0x18, 0xF4, 0xEB, 0xFD]

def ascii (text : String) : List UInt8 := text.toList.map fun c => u8 c.toNat

def zeros (n : Nat) : List UInt8 := List.replicate n 0

@[simp] theorem zeros_length (n : Nat) : (zeros n).length = n := List.length_replicate

/-- Boot sector fields that do not follow from the layout. -/
structure BootFields where
  oemName : Vector UInt8 8
  media : UInt8
  hiddenSectors : UInt32
  volumeId : UInt32
  label : Option (Vector UInt8 11)

def BootFields.new : BootFields where
  oemName := #v[0x48, 0x41, 0x44, 0x52, 0x49, 0x53, 0x46, 0x54]
  media := 0xF8
  hiddenSectors := 0
  volumeId := 0
  label := none

def BootFields.volumeLabel (fields : BootFields) : List UInt8 :=
  fields.label.elim (ascii "NO NAME    ") Vector.toList

@[simp] theorem BootFields.volumeLabel_length (fields : BootFields) :
    fields.volumeLabel.length = 11 := by
  rw [volumeLabel]
  cases fields.label with
  | none => rfl
  | some label => exact label.length_toList

def driveNumber (media : UInt8) : UInt8 := if media = 0xF8 then 0x80 else 0

def codeStart (kind : FatKind) : Nat := if kind = .fat32 then 0x5A else 0x3E

def smallTotal (layout : Layout) : Option Nat :=
  if layout.totalSectors < 2 ^ 16 ∧ layout.kind ≠ .fat32 then some layout.totalSectors else none

section

variable (layout : Layout) (fields : BootFields)

def encodeBpb : List UInt8 :=
  [0xEB, u8 (codeStart layout.kind - 2), 0x90] ++ (fields.oemName.toList ++
    (u16Bytes layout.sectorSize ++ ([u8 layout.clusterSectors] ++
    (u16Bytes layout.reservedSectors ++ ([u8 layout.fatCount] ++ (u16Bytes layout.rootEntries ++
    (u16Bytes ((smallTotal layout).getD 0) ++ ([fields.media] ++
    (u16Bytes (if layout.kind = .fat32 then 0 else layout.fatSectors) ++
    (u16Bytes 63 ++ (u16Bytes 255 ++ (u32Bytes fields.hiddenSectors.toNat ++
    u32Bytes (if (smallTotal layout).isSome then 0 else layout.totalSectors)))))))))))))

def encodeExt16 : List UInt8 :=
  [driveNumber fields.media, 0, 0x29] ++ (u32Bytes fields.volumeId.toNat ++
    (fields.volumeLabel ++ (ascii (if layout.kind = .fat12 then "FAT12   " else "FAT16   ") ++
    (zeros 448 ++ u16Bytes bootSignature))))

def encodeExt32 : List UInt8 :=
  u32Bytes layout.fatSectors ++ (u16Bytes 0 ++ (u16Bytes 0 ++ (u32Bytes rootCluster ++
    (u16Bytes fsInfoSector ++ (u16Bytes backupBootSector ++ (zeros 12 ++
    ([driveNumber fields.media, 0, 0x29] ++ (u32Bytes fields.volumeId.toNat ++
    (fields.volumeLabel ++ (ascii "FAT32   " ++ (zeros 420 ++
    u16Bytes bootSignature)))))))))))

def bootRecords : List UInt8 :=
  encodeBpb layout fields ++
    (if layout.kind = .fat32 then encodeExt32 layout fields else encodeExt16 layout fields)

def encodeBootSector : List UInt8 :=
  overwrite (bootRecords layout fields) (codeStart layout.kind) bootStub

@[simp] theorem encodeBpb_length : (encodeBpb layout fields).length = 36 := by
  simp [encodeBpb]

theorem type_length :
    (ascii (if layout.kind = .fat12 then "FAT12   " else "FAT16   ")).length = 8 := by
  split <;> rfl

@[simp] theorem encodeExt16_length : (encodeExt16 layout fields).length = 476 := by
  simp [encodeExt16, type_length]

@[simp] theorem encodeExt32_length : (encodeExt32 layout fields).length = 476 := by
  have htype : (ascii "FAT32   ").length = 8 := rfl
  simp [encodeExt32, htype]

@[simp] theorem bootRecords_length : (bootRecords layout fields).length = 512 := by
  rw [bootRecords, List.length_append]
  split <;> simp

theorem bootStub_fits :
    codeStart layout.kind + bootStub.length ≤ (bootRecords layout fields).length := by
  rw [bootRecords_length, codeStart]
  split <;> decide

theorem encodeBootSector_length : (encodeBootSector layout fields).length = 512 := by
  rw [encodeBootSector, overwrite_length (bootStub_fits layout fields), bootRecords_length]

theorem code_outside {i width : Nat} (hi : i + width ≤ 62 ∨
    i + width ≤ 90 ∧ layout.kind = .fat32 ∨ 95 ≤ i) :
    i + width ≤ codeStart layout.kind ∨ codeStart layout.kind + bootStub.length ≤ i := by
  have hlen : bootStub.length = 5 := rfl
  rw [hlen, codeStart]
  split
  · omega
  · rename_i hkind
    simp only [hkind, and_false, false_or] at hi
    omega

theorem byteAt_encode {i : Nat} (hi : i + 1 ≤ 62 ∨ i + 1 ≤ 90 ∧ layout.kind = .fat32 ∨ 95 ≤ i) :
    byteAt (encodeBootSector layout fields) i = byteAt (bootRecords layout fields) i := by
  have hout := code_outside layout hi
  exact byteAt_overwrite (bootStub_fits layout fields) (by omega)

theorem byteAt_bpb {i : Nat} (hi : i < 36) :
    byteAt (encodeBootSector layout fields) i = byteAt (encodeBpb layout fields) i := by
  rw [byteAt_encode layout fields (by omega), bootRecords,
    byteAt_append_of_lt _ (by rw [encodeBpb_length]; exact hi)]

theorem byteAt_ext32 (hkind : layout.kind = .fat32) {i : Nat} (hlow : 36 ≤ i)
    (hi : i < 90 ∨ 95 ≤ i) :
    byteAt (encodeBootSector layout fields) i = byteAt (encodeExt32 layout fields) (i - 36) := by
  have hi' : i + 1 ≤ 62 ∨ i + 1 ≤ 90 ∧ layout.kind = .fat32 ∨ 95 ≤ i :=
    hi.elim (fun h => .inr (.inl ⟨h, hkind⟩)) fun h => .inr (.inr h)
  rw [byteAt_encode layout fields hi', bootRecords, if_pos hkind, byteAt_append,
    encodeBpb_length, if_neg (by omega)]

theorem byteAt_ext16 (hkind : layout.kind ≠ .fat32) {i : Nat} (hlow : 36 ≤ i)
    (hi : i < 62 ∨ 95 ≤ i) :
    byteAt (encodeBootSector layout fields) i = byteAt (encodeExt16 layout fields) (i - 36) := by
  rw [byteAt_encode layout fields (by omega), bootRecords, if_neg hkind, byteAt_append,
    encodeBpb_length, if_neg (by omega)]

theorem read_encode : RawBpb.read (encodeBootSector layout fields) = {
    bytesPerSector := layout.sectorSize % 65536
    sectorsPerCluster := layout.clusterSectors % 256
    reservedSectorCount := layout.reservedSectors % 65536
    fatCount := layout.fatCount % 256
    rootEntryCount := layout.rootEntries % 65536
    totalSectors16 := (smallTotal layout).getD 0 % 65536
    mediaType := fields.media.toNat
    sectorsPerFat16 := (if layout.kind = .fat32 then 0 else layout.fatSectors) % 65536
    totalSectors32 :=
      (if (smallTotal layout).isSome then 0 else layout.totalSectors) % 4294967296 } := by
  have hread : ∀ i < 36, byteAt (encodeBootSector layout fields) i =
      byteAt (encodeBpb layout fields) i := fun i hi => byteAt_bpb layout fields hi
  simp only [RawBpb.read, u16At, u32At, RawBpb.mk.injEq]
  refine ⟨?_, ?_, ?_, ?_, ?_, ?_, ?_, ?_, ?_⟩ <;>
  · simp only [Nat.reduceAdd, hread, Nat.reduceLT]
    simp [encodeBpb, byteAt_append, u16Bytes, u32Bytes]
    try omega

theorem read_encode32 (hkind : layout.kind = .fat32) :
    RawBpbExt32.read (encodeBootSector layout fields) = {
      sectorsPerFat32 := layout.fatSectors % 4294967296
      extFlags := 0
      version := 0
      rootCluster := rootCluster
      fsInfoSector := fsInfoSector
      bootSector := backupBootSector
      extBootSignature := 0x29
      volumeId := fields.volumeId.toNat
      signatureWord := bootSignature } := by
  have hread := fun i => byteAt_ext32 layout fields hkind (i := i)
  have hlt := fields.volumeId.toNat_lt
  have htype : (ascii "FAT32   ").length = 8 := rfl
  simp only [RawBpbExt32.read, u16At, u32At, RawBpbExt32.mk.injEq]
  refine ⟨?_, ?_, ?_, ?_, ?_, ?_, ?_, ?_, ?_⟩ <;>
  · simp only [Nat.reduceAdd, Nat.reduceLeDiff, Nat.reduceLT, true_or, or_true,
      hread, Nat.reduceSub]
    simp [encodeExt32, byteAt_append, u16Bytes, u32Bytes, rootCluster, fsInfoSector, htype,
      backupBootSector, bootSignature]
    try omega

theorem read_encode16 (hkind : layout.kind ≠ .fat32) :
    RawBpbExt16.read (encodeBootSector layout fields) = {
      extBootSignature := 0x29
      volumeId := fields.volumeId.toNat
      signatureWord := bootSignature } := by
  have hread := fun i => byteAt_ext16 layout fields hkind (i := i)
  have hlt := fields.volumeId.toNat_lt
  simp only [RawBpbExt16.read, u16At, u32At, RawBpbExt16.mk.injEq]
  refine ⟨?_, ?_, ?_⟩ <;>
  · simp only [Nat.reduceAdd, Nat.reduceLeDiff, Nat.reduceLT, true_or, or_true,
      hread, Nat.reduceSub]
    simp [encodeExt16, byteAt_append, u16Bytes, u32Bytes, type_length, bootSignature]
    try omega

end

end Hadris.Format

namespace Hadris.Format

def Layout.geometry (layout : Layout) (fields : BootFields) : Geometry where
  kind := layout.kind
  sectorSize := layout.sectorSize
  clusterSize := layout.clusterSize
  clusterShift := Nat.log2 layout.clusterSize
  reservedSectors := layout.reservedSectors
  fatStart := layout.fatStart
  fatSize := layout.fatSectors * layout.sectorSize
  fatCount := layout.fatCount
  activeFat := 0
  mirrored := true
  root := if layout.kind = .fat32 then .cluster rootCluster
    else .fixed layout.rootStart (layout.rootEntries * 32)
  dataStart := layout.dataStart
  maxCluster := layout.clusters + 1
  fsInfoSector := if layout.kind = .fat32 then some fsInfoSector else none
  volumeSerial := some fields.volumeId.toNat

def Layout.bpb (layout : Layout) (fields : BootFields) : RawBpb where
  bytesPerSector := layout.sectorSize
  sectorsPerCluster := layout.clusterSectors
  reservedSectorCount := layout.reservedSectors
  fatCount := layout.fatCount
  rootEntryCount := layout.rootEntries
  totalSectors16 := (smallTotal layout).getD 0
  mediaType := fields.media.toNat
  sectorsPerFat16 := if layout.kind = .fat32 then 0 else layout.fatSectors
  totalSectors32 := if (smallTotal layout).isSome then 0 else layout.totalSectors

namespace Layout.Planned

variable {layout : Layout} (fields : BootFields)

theorem sectorSize_bounds (h : layout.Planned) :
    512 ≤ layout.sectorSize ∧ layout.sectorSize ≤ 4096 := by
  have hall : ∀ size ∈ [512, 1024, 2048, 4096], 512 ≤ size ∧ size ≤ 4096 := by decide
  exact hall _ h.sectorSize

theorem clusterSectors_bounds (h : layout.Planned) :
    0 < layout.clusterSectors ∧ layout.clusterSectors ≤ 128 := by
  obtain ⟨k, hk, hpow⟩ := h.clusterSectors
  rw [hpow]
  exact ⟨Nat.two_pow_pos k, Nat.pow_le_pow_right (by decide) hk⟩

theorem read_encode (h : layout.Planned) :
    RawBpb.read (encodeBootSector layout fields) = layout.bpb fields := by
  have hsector := h.sectorSize_bounds
  have hcluster := h.clusterSectors_bounds
  have hreserved := h.reserved
  have hcount := h.fatCount
  have htotal := h.totalSectors
  have hentries : layout.rootEntries < 65536 := by
    have hroot := h.rootEntries
    split at hroot <;> omega
  have hsmall : (smallTotal layout).getD 0 < 65536 := by
    rw [smallTotal]
    split
    · rename_i hlt
      exact hlt.1
    · decide
  have hfat : (if layout.kind = .fat32 then 0 else layout.fatSectors) < 65536 := by
    split
    · decide
    · exact h.fatSectors16 ‹_›
  have hlarge : (if (smallTotal layout).isSome then 0 else layout.totalSectors) < 4294967296 := by
    split <;> omega
  rw [Format.read_encode, Nat.mod_eq_of_lt (by omega), Nat.mod_eq_of_lt (by omega),
    Nat.mod_eq_of_lt (by omega), Nat.mod_eq_of_lt (by omega), Nat.mod_eq_of_lt hentries,
    Nat.mod_eq_of_lt hsmall, Nat.mod_eq_of_lt hfat, Nat.mod_eq_of_lt hlarge]
  rfl

theorem totalSectors_bpb (h : layout.Planned) :
    Hadris.totalSectors (layout.bpb fields) = layout.totalSectors := by
  have hpos := h.metadata
  have h₁₆ : (layout.bpb fields).totalSectors16 = (smallTotal layout).getD 0 := rfl
  have h₃₂ : (layout.bpb fields).totalSectors32 =
      if (smallTotal layout).isSome then 0 else layout.totalSectors := rfl
  rw [Hadris.totalSectors, h₁₆, h₃₂, smallTotal]
  split
  · rw [Option.getD_some, if_pos (by omega)]
  · rw [Option.getD_none, if_neg (not_not.mpr rfl)]
    rfl

theorem checkBpb_bpb (h : layout.Planned) : checkBpb (layout.bpb fields) = .ok () := by
  obtain ⟨k, hk, hpow⟩ := h.clusterSectors
  have hper : isSectorsPerCluster layout.clusterSectors = true := by
    rw [hpow]
    have hall : ∀ k ≤ 7, isSectorsPerCluster (2 ^ k) = true := by decide
    exact hall k hk
  have hsize : ¬ 64 * 1024 < layout.clusterSectors * layout.sectorSize :=
    not_lt.mpr (h.clusterSize.trans (by decide))
  have hsector : [512, 1024, 2048, 4096].contains layout.sectorSize = true :=
    List.contains_iff_mem.mpr h.sectorSize
  simp only [checkBpb, bpb, hsector, hper, hsize, not_true_eq_false, if_false]

theorem checkCounts_bpb (h : layout.Planned) : checkCounts (layout.bpb fields) = .ok () := by
  have hcount := h.fatCount
  have hreserved := h.reserved
  have hcounts : ¬ ((layout.bpb fields).fatCount ≠ 1 ∧ (layout.bpb fields).fatCount ≠ 2) := by
    simp only [bpb]
    omega
  have hsectors : (layout.bpb fields).reservedSectorCount ≠ 0 := hreserved.1.ne'
  rw [checkCounts, if_neg hcounts, if_neg hsectors]

theorem clusters_bpb (h : layout.Planned) (metadata : Nat)
    (hmetadata : metadata = layout.reservedSectors + layout.fatCount * layout.fatSectors +
      layout.rootSectors) :
    Hadris.clusters (layout.bpb fields) metadata = .ok layout.clusters := by
  rw [Hadris.clusters, totalSectors_bpb fields h, hmetadata, h.clusters]
  exact if_neg h.clusterSectors_bounds.1.ne'

theorem isFat32_bpb (h : layout.Planned) :
    isFat32 (layout.bpb fields) = true ↔ layout.kind = .fat32 := by
  have hroot := h.rootEntries
  simp only [isFat32, bpb, Bool.and_eq_true, beq_iff_eq]
  split at hroot
  · rename_i hkind
    simp only [hkind, hroot, if_true, and_self]
  · rename_i hkind
    exact ⟨fun hzero => by omega, fun hfat => absurd hfat hkind⟩

theorem kind_of_clusters (h : layout.Planned) (hkind : layout.kind ≠ .fat32) :
    layout.clusters ≤ fat16MaxClusters ∧
      (if layout.clusters ≤ fat12MaxClusters then FatKind.fat12 else .fat16) = layout.kind := by
  have hrange := h.clusterRange
  cases hfat : layout.kind with
  | fat12 =>
    rw [hfat] at hrange
    exact ⟨hrange.2.trans (by decide), if_pos hrange.2⟩
  | fat16 =>
    rw [hfat] at hrange
    exact ⟨hrange.2, if_neg (not_le.mpr hrange.1)⟩
  | fat32 => exact absurd hfat hkind

theorem geometry16_bpb (h : layout.Planned) (hkind : layout.kind ≠ .fat32) :
    geometry16 (layout.bpb fields) = .ok
      { layout.geometry fields with volumeSerial := none } := by
  have hroot := h.rootEntries
  rw [if_neg hkind] at hroot
  obtain ⟨hmax, hvariant⟩ := kind_of_clusters h hkind
  have hclusters := h.clusters_bpb fields (layout.reservedSectors +
    layout.fatCount * layout.fatSectors + divCeil (layout.rootEntries * 32) layout.sectorSize) rfl
  simp only [geometry16, bpb, if_neg hkind] at hclusters ⊢
  rw [if_neg (by omega), hclusters]
  simp only [bind, Except.bind]
  rw [if_neg (not_lt.mpr hmax), hvariant]
  simp only [geometry, if_neg hkind]
  rfl

theorem geometry32_bpb (h : layout.Planned) (hkind : layout.kind = .fat32) :
    ∃ geo, geometry32 (layout.bpb fields) (RawBpbExt32.read (encodeBootSector layout fields)) =
        .ok geo ∧
      withExt32 geo (RawBpbExt32.read (encodeBootSector layout fields)) =
        layout.geometry fields := by
  have hroot := h.rootEntries
  rw [if_pos hkind] at hroot
  have hrange := h.clusterRange
  rw [hkind] at hrange
  have hreserved := h.reserved32 hkind
  have hfat : layout.fatSectors < 4294967296 := h.fatSectors
  have hsectors : layout.rootSectors = 0 := by
    have hbounds := h.sectorSize_bounds
    rw [rootSectors, hroot, divCeil]
    exact Nat.div_eq_of_lt (by omega)
  have hmax : layout.clusters ≤ fat32MaxClusters := hrange.2
  have hmin : fat16MaxClusters + 1 ≤ layout.clusters := hrange.1
  have hclusters := h.clusters_bpb fields (layout.reservedSectors +
    layout.fatSectors * layout.fatCount) (by rw [hsectors, Nat.mul_comm, Nat.add_zero])
  rw [read_encode32 layout fields hkind, Nat.mod_eq_of_lt hfat]
  simp only [geometry32, bpb, if_pos hkind] at hclusters ⊢
  rw [hclusters]
  simp only [bind, Except.bind]
  have hroot : ¬ (rootCluster < firstDataCluster ∨ layout.clusters + 1 < rootCluster) := by
    simp only [rootCluster, firstDataCluster, fat16MaxClusters] at *
    omega
  rw [if_neg (not_lt.mpr hmax), if_neg hroot]
  refine ⟨_, rfl, ?_⟩
  have hinfo : fsInfoSector ≠ 0 ∧ fsInfoSector < layout.reservedSectors :=
    ⟨by decide, Nat.lt_of_lt_of_le (by decide) hreserved⟩
  simp only [withExt32, hinfo, geometry, hkind, Layout.dataStart, Layout.rootStart, hsectors,
    Nat.zero_mul, Nat.add_zero]
  rfl

theorem clusters_pos (h : layout.Planned) : 1 ≤ layout.clusters := by
  have hpos : ∀ kind, 1 ≤ (Format.clusterRange kind).1 := by
    intro kind
    cases kind <;> decide
  exact (hpos layout.kind).trans h.clusterRange.1

theorem entry_fits (h : layout.Planned) :
    layout.kind.entryOffset (layout.clusters + 1) + layout.kind.entryLen ≤
      layout.fatSectors * layout.sectorSize := by
  refine le_trans ?_ h.fatBytes
  cases layout.kind with
  | fat12 =>
    simp only [FatKind.entryOffset, FatKind.entryLen, Format.fatBytes, divCeil]
    omega
  | fat16 => exact Nat.le_of_eq (by
      simp only [FatKind.entryOffset, FatKind.entryLen, Format.fatBytes]; omega)
  | fat32 => exact Nat.le_of_eq (by
      simp only [FatKind.entryOffset, FatKind.entryLen, Format.fatBytes]; omega)

theorem parseBoot_encode (h : layout.Planned) :
    parseBoot (encodeBootSector layout fields) = .ok (layout.geometry fields) := by
  have hsizes : checkBpbSizes (layout.bpb fields) = .ok () := by
    rw [checkBpbSizes, checkBpb_bpb fields h]
  have hfits : (layout.geometry fields).Fits := by
    have hcount := h.fatCount
    exact ⟨Nat.succ_le_succ h.clusters_pos, by simp only [geometry]; omega, h.entry_fits⟩
  have hboot : bootGeometry (encodeBootSector layout fields) = .ok (layout.geometry fields) := by
    rw [bootGeometry, h.read_encode fields]
    by_cases hkind : layout.kind = .fat32
    · obtain ⟨geo, hgeo, hwith⟩ := geometry32_bpb fields h hkind
      simp only [if_pos ((isFat32_bpb fields h).mpr hkind)]
      rw [hgeo, read_encode32 layout fields hkind] at *
      simp only [checkExt32, checkCounts_bpb fields h, bind, Except.bind, hwith]
      rfl
    · have hfat : ¬ isFat32 (layout.bpb fields) = true := fun hfat =>
        hkind ((isFat32_bpb fields h).mp hfat)
      simp only [if_neg hfat]
      rw [geometry16_bpb fields h hkind, read_encode16 layout fields hkind]
      simp only [checkExt16, checkCounts_bpb fields h, bind, Except.bind]
      rfl
  exact parseBoot_of_fits (by rw [h.read_encode fields, hsizes]) hboot hfits

end Layout.Planned

def labelOffset (kind : FatKind) : Nat := if kind = .fat32 then 71 else 43

theorem bytesAt_eq_of_bytes {bytes : List UInt8} (bytes' : List UInt8) {start : Nat}
    (start' : Nat) {count : Nat}
    (h : ∀ i < count, byteAt bytes (start + i) = byteAt bytes' (start' + i)) :
    bytesAt bytes start count = bytesAt bytes' start' count := by
  apply List.map_congr_left
  intro i hi
  exact UInt8.toNat_inj.mp (h i (List.mem_range.mp hi))

theorem bytesAt_field (before field after : List UInt8) :
    bytesAt (before ++ (field ++ after)) before.length field.length = field := by
  have h := bytesAt_append_add before (field ++ after) 0 field.length
  rw [Nat.add_zero] at h
  rw [h, bytesAt_zero]

variable (layout : Layout) (fields : BootFields)

theorem oemName_encode :
    bytesAt (encodeBootSector layout fields) 3 8 = fields.oemName.toList := by
  rw [bytesAt_eq_of_bytes _ 3 fun i hi => byteAt_bpb layout fields (by omega)]
  have h := bytesAt_field [0xEB, u8 (codeStart layout.kind - 2), 0x90] fields.oemName.toList
  rw [Vector.length_toList] at h
  exact h _

theorem hiddenSectors_encode :
    u32At (encodeBootSector layout fields) 28 = fields.hiddenSectors.toNat := by
  have hread := fun i => byteAt_bpb layout fields (i := i)
  have hlt := fields.hiddenSectors.toNat_lt
  simp only [u32At, u16At, Nat.reduceAdd, Nat.reduceLT, hread]
  simp [encodeBpb, byteAt_append, u16Bytes, u32Bytes]
  omega

theorem label_encode :
    bytesAt (encodeBootSector layout fields) (labelOffset layout.kind) 11 =
      fields.volumeLabel := by
  by_cases hkind : layout.kind = .fat32
  · rw [labelOffset, if_pos hkind,
      bytesAt_eq_of_bytes (encodeExt32 layout fields) 35 fun i hi => by
        rw [byteAt_ext32 layout fields hkind (by omega) (by omega), Nat.sub_add_comm (by decide)]]
    have h := bytesAt_field (u32Bytes layout.fatSectors ++ (u16Bytes 0 ++ (u16Bytes 0 ++
      (u32Bytes rootCluster ++
        (u16Bytes fsInfoSector ++ (u16Bytes backupBootSector ++ (zeros 12 ++
      ([driveNumber fields.media, 0, 0x29] ++ u32Bytes fields.volumeId.toNat))))))))
        fields.volumeLabel
      (ascii "FAT32   " ++ (zeros 420 ++ u16Bytes bootSignature))
    rw [BootFields.volumeLabel_length] at h
    simpa [encodeExt32] using h
  · rw [labelOffset, if_neg hkind,
      bytesAt_eq_of_bytes (encodeExt16 layout fields) 7 fun i hi => by
        rw [byteAt_ext16 layout fields hkind (by omega) (by omega), Nat.sub_add_comm (by decide)]]
    have h := bytesAt_field
      ([driveNumber fields.media, 0, 0x29] ++ u32Bytes fields.volumeId.toNat)
      fields.volumeLabel
      (ascii (if layout.kind = .fat12 then "FAT12   " else "FAT16   ") ++
        (zeros 448 ++ u16Bytes bootSignature))
    rw [BootFields.volumeLabel_length] at h
    simpa [encodeExt16] using h

/-- The boot sector of a layout that is planned is read back as that layout. -/
theorem plan_round_trip {request : Request} {layout : Layout} (fields : BootFields)
    (h : plan request = .ok layout) :
    (encodeBootSector layout fields).length = bootSectorLen ∧
      parseBoot (encodeBootSector layout fields) = .ok (layout.geometry fields) ∧
      RawBpb.read (encodeBootSector layout fields) = layout.bpb fields ∧
      totalSectors (RawBpb.read (encodeBootSector layout fields)) = layout.totalSectors ∧
      bytesAt (encodeBootSector layout fields) 3 8 = fields.oemName.toList ∧
      u32At (encodeBootSector layout fields) 28 = fields.hiddenSectors.toNat ∧
      bytesAt (encodeBootSector layout fields) (labelOffset layout.kind) 11 =
        fields.volumeLabel := by
  have hplanned := plan_planned h
  refine ⟨encodeBootSector_length layout fields, hplanned.parseBoot_encode fields,
    hplanned.read_encode fields, ?_, oemName_encode layout fields,
    hiddenSectors_encode layout fields, label_encode layout fields⟩
  rw [hplanned.read_encode fields, hplanned.totalSectors_bpb fields]

def floppy : Request :=
  { Request.new 512 2880 with kind := some .fat12, clusterSize := some 512, rootEntries := 224 }

def floppyLayout : Layout where
  kind := .fat12
  sectorSize := 512
  clusterSectors := 1
  reservedSectors := 1
  fatCount := 2
  rootEntries := 224
  totalSectors := 2880
  fatSectors := 9
  clusters := 2847

theorem plan_floppy : plan floppy = .ok floppyLayout := by
  decide +kernel

theorem plan_round_trip_floppy :
    parseBoot (encodeBootSector floppyLayout .new) = .ok (floppyLayout.geometry .new) :=
  (plan_round_trip .new plan_floppy).2.1

end Hadris.Format
