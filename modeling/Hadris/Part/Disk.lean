import Hadris.Bytes
import Hadris.Part.Mbr

namespace Hadris.Part

open Codec

def gptSignature : Vector UInt8 8 := #v[0x45, 0x46, 0x49, 0x20, 0x50, 0x41, 0x52, 0x54]
def gptRevision : UInt32 := 0x00010000
def gptHeaderSize : UInt32 := 92

/-- The first 92 bytes of the block of a GPT header. -/
structure RawGptHeader where
  signature : Vector UInt8 8
  revision : UInt32
  headerSize : UInt32
  headerCrc32 : UInt32
  reserved : Vector UInt8 4
  myLba : UInt64
  alternateLba : UInt64
  firstUsableLba : UInt64
  lastUsableLba : UInt64
  diskGuid : Guid
  partitionEntryLba : UInt64
  numPartitionEntries : UInt32
  sizeOfPartitionEntry : UInt32
  partitionEntryArrayCrc32 : UInt32
deriving DecidableEq

/-! How the structures are laid out. -/

def Guid.codec : Codec Guid :=
  (Codec.bytes 16).iso (fun v => ⟨v.toList, v.length_toList⟩)
    (fun guid => ⟨guid.bytes.toArray, guid.length_eq⟩) fun _ => rfl

def PartitionName.codec : Codec PartitionName :=
  (Codec.table 36 Codec.u16).iso (fun f => ⟨List.ofFn f, List.length_ofFn⟩)
    (fun name i => name.units.get (i.cast name.length_eq.symm)) fun name => by
      obtain ⟨units, hunits⟩ := name
      congr
      exact List.ext_getElem (List.length_ofFn.trans hunits.symm) fun i hi hi' => by
        rw [List.getElem_ofFn]
        rfl

def Chs.codec : Codec Chs :=
  (seq Codec.u8 (seq Codec.u8 Codec.u8)).iso (fun p => ⟨p.1, p.2.1, p.2.2⟩)
    (fun chs => (chs.b₀, chs.b₁, chs.b₂)) fun _ => rfl

def MbrType.codec : Codec MbrType := Codec.u8.iso MbrType.mk MbrType.code fun _ => rfl

def RawMbrEntry.codec : Codec RawMbrEntry :=
  (seq Codec.u8 (seq Chs.codec (seq MbrType.codec (seq Chs.codec (seq u32 u32))))).iso
    (fun p => ⟨p.1, p.2.1, p.2.2.1, p.2.2.2.1, p.2.2.2.2.1, p.2.2.2.2.2⟩)
    (fun e => (e.bootIndicator, e.startChs, e.kind, e.endChs, e.startLba, e.sectorCount))
      fun _ => rfl

def RawMbr.codec : Codec RawMbr :=
  (seq (bytes 440) (seq (bytes 4) (seq (bytes 2) (seq (table 4 RawMbrEntry.codec)
    (seq Codec.u8 Codec.u8))))).iso
      (fun p => ⟨p.1, p.2.1, p.2.2.1, p.2.2.2.1, p.2.2.2.2⟩)
      (fun m => (m.bootstrap, m.diskSignature, m.reserved, m.entries, m.signature)) fun _ => rfl

def RawGptEntry.codec : Codec RawGptEntry :=
  (seq Guid.codec (seq Guid.codec (seq u64 (seq u64 (seq u64 PartitionName.codec))))).iso
    (fun p => ⟨p.1, p.2.1, p.2.2.1, p.2.2.2.1, p.2.2.2.2.1, p.2.2.2.2.2⟩)
    (fun e => (e.typeGuid, e.uniqueGuid, e.firstLba, e.lastLba, e.attributes, e.name))
      fun _ => rfl

namespace RawGptHeader

def headCodec : Codec (Vector UInt8 8 × UInt32 × UInt32) := seq (bytes 8) (seq u32 u32)

def tailCodec :
    Codec (Vector UInt8 4 × UInt64 × UInt64 × UInt64 × UInt64 × Guid × UInt64 × UInt32 ×
    UInt32 × UInt32) :=
  seq (bytes 4) (seq u64 (seq u64 (seq u64 (seq u64 (seq Guid.codec (seq u64 (seq u32
    (seq u32 u32))))))))

def head (h : RawGptHeader) : Vector UInt8 8 × UInt32 × UInt32 :=
  (h.signature, h.revision, h.headerSize)

def tail (h : RawGptHeader) : Vector UInt8 4 × UInt64 × UInt64 × UInt64 × UInt64 × Guid × UInt64 ×
    UInt32 × UInt32 × UInt32 :=
  (h.reserved, h.myLba, h.alternateLba, h.firstUsableLba, h.lastUsableLba, h.diskGuid,
    h.partitionEntryLba, h.numPartitionEntries, h.sizeOfPartitionEntry,
      h.partitionEntryArrayCrc32)

def codec : Codec RawGptHeader :=
  (seq headCodec (seq u32 tailCodec)).iso
    (fun p => ⟨p.1.1, p.1.2.1, p.1.2.2, p.2.1, p.2.2.1, p.2.2.2.1, p.2.2.2.2.1, p.2.2.2.2.2.1,
      p.2.2.2.2.2.2.1, p.2.2.2.2.2.2.2.1, p.2.2.2.2.2.2.2.2.1, p.2.2.2.2.2.2.2.2.2.1,
      p.2.2.2.2.2.2.2.2.2.2.1, p.2.2.2.2.2.2.2.2.2.2.2⟩)
    (fun h => (h.head, h.headerCrc32, h.tail)) fun _ => rfl

theorem encode_eq (h : RawGptHeader) : codec.encode h =
    headCodec.encode h.head ++ (u32.encode h.headerCrc32 ++ tailCodec.encode h.tail) := rfl

end RawGptHeader

theorem width_entryCodec : RawGptEntry.codec.width = gptEntrySize := rfl

theorem local_entryCodec : RawGptEntry.codec.Local := by
  have hguid : Guid.codec.Local := local_bytes.iso
  have hname : PartitionName.codec.Local := (local_word.table : (table 36 Codec.u16).Local).iso
  exact (hguid.seq (hguid.seq (local_word.seq (local_word.seq (local_word.seq hname))))).iso

/-! Checksums. -/

def crcTable (index : UInt32) : UInt32 :=
  Nat.repeat (fun crc => if crc &&& 1 != 0 then (crc >>> 1) ^^^ 0xEDB88320 else crc >>> 1) 8 index

/-- A checksum over the bytes so far. -/
structure Crc32 where
  state : UInt32
deriving DecidableEq

namespace Crc32

def new : Crc32 := ⟨0xFFFFFFFF⟩

def add (crc : UInt32) (byte : UInt8) : UInt32 :=
  crcTable ((crc ^^^ byte.toUInt32) &&& 0xFF) ^^^ (crc >>> 8)

def update (crc : Crc32) (bytes : List UInt8) : Crc32 := ⟨bytes.foldl add crc.state⟩

def finish (crc : Crc32) : UInt32 := ~~~crc.state

theorem update_append (crc : Crc32) (a b : List UInt8) :
    crc.update (a ++ b) = (crc.update a).update b := by
  rw [update, List.foldl_append]
  rfl

end Crc32

def crc32 (bytes : List UInt8) : UInt32 := (Crc32.new.update bytes).finish

def gptHeaderCrc (block : List UInt8) (headerSize : UInt32) : Option UInt32 :=
  if headerSize < gptHeaderSize ∨ block.length < headerSize.toNat then none
  else some (((Crc32.new.update (block.take 16)).update [0, 0, 0, 0]).update
    ((block.take headerSize.toNat).drop 20)).finish

theorem crc32_encode (h : RawGptHeader) :
    crc32 (RawGptHeader.codec.encode { h with headerCrc32 := 0 }) =
      (((Crc32.new.update (RawGptHeader.headCodec.encode h.head)).update [0, 0, 0, 0]).update
        (RawGptHeader.tailCodec.encode h.tail)).finish := by
  have hzero : u32.encode 0 = [0, 0, 0, 0] := by decide
  have hencode : RawGptHeader.codec.encode { h with headerCrc32 := 0 } =
      RawGptHeader.headCodec.encode h.head ++
        (u32.encode 0 ++ RawGptHeader.tailCodec.encode h.tail) :=
    RawGptHeader.encode_eq _
  rw [crc32, hencode, hzero, Crc32.update_append, Crc32.update_append]

theorem gptHeaderCrc_encode (h : RawGptHeader) (rest : List UInt8)
    (hsize : h.headerSize = gptHeaderSize) :
    gptHeaderCrc (RawGptHeader.codec.encode h ++ rest) h.headerSize =
      some (crc32 (RawGptHeader.codec.encode { h with headerCrc32 := 0 })) := by
  have hlength : (RawGptHeader.codec.encode h).length = 92 := RawGptHeader.codec.encode_length h
  have hnat : gptHeaderSize.toNat = 92 := rfl
  have htake : (RawGptHeader.codec.encode h ++ rest).take 92 = RawGptHeader.codec.encode h :=
    List.take_left' hlength
  have hhead : (RawGptHeader.codec.encode h ++ rest).take 16 =
      RawGptHeader.headCodec.encode h.head := by
    rw [RawGptHeader.encode_eq, List.append_assoc]
    exact List.take_left' (RawGptHeader.headCodec.encode_length h.head)
  have htail : (RawGptHeader.codec.encode h).drop 20 = RawGptHeader.tailCodec.encode h.tail := by
    rw [RawGptHeader.encode_eq, ← List.append_assoc]
    refine List.drop_left' ?_
    rw [List.length_append, Codec.encode_length, Codec.encode_length]
    rfl
  have hsmall : ¬ (gptHeaderSize < gptHeaderSize ∨
      (RawGptHeader.codec.encode h ++ rest).length < gptHeaderSize.toNat) := by
    rw [List.length_append, hlength, hnat]
    exact not_or.mpr ⟨by decide, by omega⟩
  rw [crc32_encode, gptHeaderCrc, hsize, if_neg hsmall, hnat, htake, hhead, htail]

end Hadris.Part

namespace Hadris.Part

inductive TableKind where
  | mbr
  | gpt
  | hybrid
deriving DecidableEq, Repr

/-- What the entries of a master boot record hold so far. -/
structure Seen where
  protective : Bool
  other : Bool
  extended : Nat
deriving DecidableEq

namespace Seen

def entry (seen : Seen) (entry : RawMbrEntry) : Except TableError Seen := do
  ensure (entry.bootIndicator &&& ~~~PartitionFlags.mbrActive == 0) (.new .corrupt .mbrEntry)
  if entry.kind.isEmpty then .ok seen
  else if entry.kind.isProtective then .ok { seen with protective := true }
  else if entry.kind.isExtended then do
    ensure (entry.startLba != 0) (.new .corrupt .ebrChain)
    .ok { seen with other := true, extended := seen.extended + 1 }
  else .ok { seen with other := true }

def entries : List RawMbrEntry → Seen → Except TableError Seen
  | [], seen => .ok seen
  | entry :: rest, seen => do
    let seen ← seen.entry entry
    entries rest seen

def kind (seen : Seen) : TableKind :=
  if seen.protective then if seen.other then .hybrid else .gpt else .mbr

end Seen

def classify (record : RawMbr) : Except TableError TableKind := do
  ensure record.hasSignature (.new .notRecognized .noTable)
  let seen ← Seen.entries (List.ofFn record.entries) ⟨false, false, 0⟩
  ensure (decide (seen.extended ≤ 1)) (.new .corrupt .mbrEntry)
  .ok seen.kind

/-- The entry array a validated header points to. -/
structure EntryArray where
  lba : Nat
  blocks : Nat
  bytes : Nat
  count : Nat
  entrySize : Nat
deriving DecidableEq

/-- The array of the header of block `lba` ends before the usable blocks, or starts
after them and ends before the header. -/
def arrayPlaced (lba start stop blocks first last : Nat) : Bool :=
  if lba = 1 then decide (2 ≤ start) && decide (stop ≤ first)
  else decide (last < start) && decide (stop ≤ lba) &&
    (checkedAdd blocks 2).any fun n => decide (n ≤ first)

/-- Validates the header in `block`, read from block `lba`, up to but not including
the checksum of the entry array. -/
def checkHeader (block : List UInt8) (lba blockCount : Nat) (size : BlockSize) :
    Except Detail (RawGptHeader × EntryArray) := do
  let header := RawGptHeader.codec.decode block
  ensure (header.signature == gptSignature && header.revision >>> 16 == 1) Detail.gptHeader
  let crc ← okOr (gptHeaderCrc block header.headerSize) Detail.gptHeader
  ensure (crc == header.headerCrc32) Detail.gptHeaderCrc
  let first := header.firstUsableLba.toNat
  let last := header.lastUsableLba.toNat
  ensure (!(header.myLba.toNat != lba || decide (blockCount ≤ last) ||
    decide (saturatingAdd last 1 < first) || (decide (first ≤ lba) && decide (lba ≤ last))))
      Detail.gptHeader
  let entrySize := header.sizeOfPartitionEntry.toNat
  ensure (decide (gptEntrySize ≤ entrySize) && isPowerOfTwo entrySize) Detail.gptEntries
  let count := header.numPartitionEntries.toNat
  let bytes := count * entrySize
  let blocks := blocksFor bytes size
  let start := header.partitionEntryLba.toNat
  let stop ← okOr (checkedAdd start blocks) Detail.gptEntries
  ensure (decide (bytes ≤ maxArrayBytes) && arrayPlaced lba start stop blocks first last &&
    decide (stop ≤ blockCount)) Detail.gptEntries
  .ok (header, ⟨start, blocks, bytes, count, entrySize⟩)

def sameTable (primary backup : RawGptHeader) : Bool :=
  backup.alternateLba == 1 && decide (primary.lastUsableLba < backup.myLba) &&
    primary.alternateLba == backup.myLba && primary.firstUsableLba == backup.firstUsableLba &&
      primary.lastUsableLba == backup.lastUsableLba && primary.diskGuid == backup.diskGuid &&
        primary.numPartitionEntries == backup.numPartitionEntries &&
          primary.sizeOfPartitionEntry == backup.sizeOfPartitionEntry &&
            primary.partitionEntryArrayCrc32 == backup.partitionEntryArrayCrc32

end Hadris.Part

namespace Hadris.Part

def Partition.stop (partition : Partition) : Nat := saturatingAdd partition.start partition.len

namespace Gpt

def entry (gpt : Gpt) (index : Nat) : Option Partition :=
  ((gpt.entries[index]?).filter (!·.isUnused)).map (Partition.fromGpt index · gpt.blockSize)

def fits (gpt : Gpt) (blockCount : Nat) : Bool :=
  let array := gpt.arrayBlocks
  decide (2 ≤ gpt.primaryEntriesLba) &&
    (checkedAdd gpt.primaryEntriesLba array).any (fun stop => decide (stop ≤ gpt.firstUsable)) &&
      decide (gpt.lastUsable < gpt.backupEntriesLba) &&
        (checkedAdd gpt.backupEntriesLba array).any (fun stop => decide (stop ≤ gpt.backupLba)) &&
          decide (gpt.backupLba < blockCount)

def backupFits (blockCount array lastUsable backup : Nat) : Bool :=
  decide (backup < blockCount) && (checkedSub backup array).any fun a => decide (lastUsable < a)

def fromDisk (header : RawGptHeader) (source : GptCopy) (entries : List RawGptEntry)
    (damaged : Option GptCopy) (backupEntries : Option Nat) (blockCount : Nat)
    (blockSize : BlockSize) : Gpt :=
  let array := blocksFor
    (header.numPartitionEntries.toNat * header.sizeOfPartitionEntry.toNat) blockSize
  let lastUsable := header.lastUsableLba.toNat
  let alternate := header.alternateLba.toNat
  let backupLba := match source with
    | .primary => if backupFits blockCount array lastUsable alternate
        then alternate else blockCount - 1
    | .backup => header.myLba.toNat
  { blockSize := blockSize
    blockCount := blockCount
    diskGuid := header.diskGuid
    firstUsable := header.firstUsableLba.toNat
    lastUsable := lastUsable
    backupLba := backupLba
    primaryEntriesLba := match source with
      | .primary => header.partitionEntryLba.toNat
      | .backup => 2
    backupEntriesLba := match source, backupEntries with
      | .backup, _ => header.partitionEntryLba.toNat
      | .primary, some lba => if damaged = none then lba else backupLba - array
      | .primary, none => backupLba - array
    entrySize := header.sizeOfPartitionEntry.toNat
    entries := entries
    damaged := damaged }

def slotBytes (entrySize : Nat) (entry : RawGptEntry) : List UInt8 :=
  RawGptEntry.codec.encode entry ++ List.replicate (entrySize - gptEntrySize) 0

def arrayImage (gpt : Gpt) : List UInt8 := gpt.entries.flatMap (slotBytes gpt.entrySize)

def bareHeader (gpt : Gpt) (copy : GptCopy) (arrayCrc : UInt32) : RawGptHeader where
  signature := gptSignature
  revision := gptRevision
  headerSize := gptHeaderSize
  headerCrc32 := 0
  reserved := .replicate 4 0
  myLba := UInt64.ofNat (match copy with | .backup => gpt.backupLba | .primary => 1)
  alternateLba := UInt64.ofNat (match copy with | .backup => 1 | .primary => gpt.backupLba)
  firstUsableLba := UInt64.ofNat gpt.firstUsable
  lastUsableLba := UInt64.ofNat gpt.lastUsable
  diskGuid := gpt.diskGuid
  partitionEntryLba := UInt64.ofNat
    (match copy with | .backup => gpt.backupEntriesLba | .primary => gpt.primaryEntriesLba)
  numPartitionEntries := UInt32.ofNat gpt.entries.length
  sizeOfPartitionEntry := UInt32.ofNat gpt.entrySize
  partitionEntryArrayCrc32 := arrayCrc

def header (gpt : Gpt) (copy : GptCopy) (arrayCrc : UInt32) : RawGptHeader :=
  let bare := gpt.bareHeader copy arrayCrc
  { bare with headerCrc32 := crc32 (RawGptHeader.codec.encode bare) }

end Gpt

/-- One GPT partition to mirror in a hybrid MBR. -/
structure Mirror where
  gptIndex : Nat
  kind : MbrType
  flags : PartitionFlags
deriving DecidableEq

/-- How to build a hybrid MBR. -/
structure HybridMbr where
  protectiveSlot : Nat
  mirrors : List Mirror
  length_le : mirrors.length ≤ 3

namespace HybridMbr

def mirrorSlots (config : HybridMbr) : List (Fin 4 × Mirror) :=
  ((List.finRange 4).filter fun slot => slot.val != config.protectiveSlot).zip config.mirrors

end HybridMbr

/-- A GPT together with a hybrid MBR that mirrors some of its partitions. -/
structure Hybrid where
  gpt : Gpt
  entries : Fin 4 → RawMbrEntry
deriving DecidableEq

namespace Hybrid

def mirrored (gpt : Gpt) (config : HybridMbr) (slot : Fin 4) (mirror : Mirror) :
    Except TableError Partition := do
  ensure (!(mirror.kind.isEmpty || mirror.kind.isProtective || mirror.kind.isExtended))
    (.invalid .mirror)
  ensure mirror.flags.fitsMbr (.invalid .flags)
  ensure (!config.mirrorSlots.any fun other =>
    decide (other.1 < slot) && other.2.gptIndex == mirror.gptIndex) (.invalid .mirror)
  let partition ← okOr (gpt.entry mirror.gptIndex) (.invalid .mirror)
  ensure (partition.len != 0) (.invalid .mirror)
  ensure (decide (partition.start < 2 ^ 32) && decide (partition.stop - 1 < 2 ^ 32))
    (.new .limitExceeded .fieldOverflow)
  .ok partition

/-- Places mirrors in their slots, and keeps the first block of the first one after
block 1. -/
def place (gpt : Gpt) (config : HybridMbr) : List (Fin 4 × Mirror) → (Fin 4 → RawMbrEntry) →
    Option Nat → Except TableError ((Fin 4 → RawMbrEntry) × Option Nat)
  | [], entries, first => .ok (entries, first)
  | (slot, mirror) :: rest, entries, first => do
    let partition ← mirrored gpt config slot mirror
    let entry := { RawMbrEntry.new mirror.kind (UInt32.ofNat partition.start)
      (UInt32.ofNat partition.len) with bootIndicator := mirror.flags.toMbr }
    let first := if 1 < partition.start
      then some (min partition.start (first.getD partition.start))
      else first
    place gpt config rest (Function.update entries slot entry) first

def protectiveEntry (stop : Nat) : RawMbrEntry where
  bootIndicator := 0
  startChs := .fromLba 1
  kind := .gptProtective
  endChs := .fromLba stop
  startLba := 1
  sectorCount := UInt32.ofNat stop

/-- The hybrid MBR for `gpt`. Its protective entry covers the blocks from 1 up to the
first mirrored partition, or the whole disk without mirrors. -/
def new (gpt : Gpt) (config : HybridMbr) : Except TableError Hybrid :=
  if h : config.protectiveSlot < 4 then do
    let (entries, first) ← place gpt config config.mirrorSlots (fun _ => .default) none
    let stop := max 1 (match first with
      | none => min (gpt.blockCount - 1) (2 ^ 32 - 1)
      | some first => min (first - 1) (2 ^ 32 - 1))
    .ok ⟨gpt, Function.update entries ⟨config.protectiveSlot, h⟩ (protectiveEntry stop)⟩
  else .error (.invalid .mirror)

end Hybrid

/-- The partition table of a disk. -/
inductive PartitionTable where
  | mbr (mbr : Mbr)
  | gpt (gpt : Gpt)
  | hybrid (hybrid : Hybrid)
deriving DecidableEq

def partitionsBelow (count : Nat) (entry : Nat → Option Partition) : List Partition :=
  (List.range count).filterMap entry

namespace Mbr

def listed (mbr : Mbr) (index : Nat) : Option Partition :=
  (mbr.entry index).filter fun partition =>
    !(decide (index < firstLogical) && match partition.kind with
      | .mbr kind => kind.isExtended
      | .gpt _ => false)

def partitions (mbr : Mbr) : List Partition :=
  partitionsBelow (firstLogical + mbr.logical.length) mbr.listed

def fromDisk (record : RawMbr) (logical : List Logical) (blockCount : Nat)
    (blockSize : BlockSize) :
    Mbr := ⟨blockCount, blockSize, record.entries, logical⟩

end Mbr

def Gpt.listing (gpt : Gpt) : List Partition := partitionsBelow gpt.entries.length gpt.entry

namespace PartitionTable

def kind : PartitionTable → TableKind
  | .mbr _ => .mbr
  | .gpt _ => .gpt
  | .hybrid _ => .hybrid

def blockSize : PartitionTable → BlockSize
  | .mbr table => table.blockSize
  | .gpt table => table.blockSize
  | .hybrid table => table.gpt.blockSize

def blockCount : PartitionTable → Nat
  | .mbr table => table.blockCount
  | .gpt table => table.blockCount
  | .hybrid table => table.gpt.blockCount

def partitions : PartitionTable → List Partition
  | .mbr table => table.partitions
  | .gpt table => table.listing
  | .hybrid table => table.gpt.listing

def gpt? : PartitionTable → Option Gpt
  | .mbr _ => none
  | .gpt table => some table
  | .hybrid table => some table.gpt

end PartitionTable

def padded (size : BlockSize) (bytes : List UInt8) : List UInt8 :=
  bytes ++ List.replicate (blocksFor bytes.length size * size.bytes - bytes.length) 0

/-- Bytes of a table that fill whole blocks from block `lba` on. -/
structure Run where
  lba : Nat
  bytes : List UInt8
deriving DecidableEq

/-- A table and the boot code in block 0. -/
structure Disk where
  table : PartitionTable
  bootstrap : Vector UInt8 446
deriving DecidableEq

namespace Disk

def fromDisk (table : PartitionTable) (record : RawMbr) : Disk where
  table := table
  bootstrap := Vector.ofFn fun i =>
    if h : i.val < 440 then record.bootstrap.get ⟨i.val, h⟩
    else if h' : i.val < 444 then record.diskSignature.get ⟨i.val - 440, by omega⟩
    else record.reserved.get ⟨i.val - 444, by omega⟩

def entries (disk : Disk) : Fin 4 → RawMbrEntry :=
  match disk.table with
  | .mbr mbr => mbr.primary
  | .gpt gpt => Function.update (fun _ => .default) 0
      (.new .gptProtective 1 (UInt32.ofNat (min (gpt.blockCount - 1) (2 ^ 32 - 1))))
  | .hybrid hybrid => hybrid.entries

def record (disk : Disk) : RawMbr where
  bootstrap := Vector.ofFn fun i => disk.bootstrap.get ⟨i.val, by omega⟩
  diskSignature := Vector.ofFn fun i => disk.bootstrap.get ⟨440 + i.val, by omega⟩
  reserved := Vector.ofFn fun i => disk.bootstrap.get ⟨444 + i.val, by omega⟩
  entries := disk.entries
  signature := (0x55, 0xAA)

def gptRuns (gpt : Gpt) : List Run :=
  let array := gpt.arrayImage
  let crc := crc32 array
  [⟨gpt.backupEntriesLba, padded gpt.blockSize array⟩,
    ⟨gpt.backupLba, padded gpt.blockSize (RawGptHeader.codec.encode (gpt.header .backup crc))⟩,
    ⟨gpt.primaryEntriesLba, padded gpt.blockSize array⟩,
    ⟨1, padded gpt.blockSize (RawGptHeader.codec.encode (gpt.header .primary crc))⟩]

def mbrRuns (mbr : Mbr) : List Run :=
  mbr.ebrRecords.map fun record => ⟨record.1, padded mbr.blockSize (RawMbr.codec.encode record.2)⟩

def runs (disk : Disk) : List Run :=
  (match disk.table with
    | .mbr mbr => mbrRuns mbr
    | .gpt gpt => gptRuns gpt
    | .hybrid hybrid => gptRuns hybrid.gpt) ++
      [⟨0, padded disk.table.blockSize (RawMbr.codec.encode disk.record)⟩]

end Disk

end Hadris.Part
