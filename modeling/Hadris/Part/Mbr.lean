import Mathlib.Data.Fintype.Pi
import Hadris.Part.Gpt

namespace Hadris.Part

/-- The type code of an MBR entry. -/
structure MbrType where
  code : UInt8
deriving DecidableEq

namespace MbrType

def extended : MbrType := ⟨0x05⟩
def gptProtective : MbrType := ⟨0xEE⟩

def isEmpty (kind : MbrType) : Bool := kind.code == 0

def isExtended (kind : MbrType) : Bool :=
  kind.code == 0x05 || kind.code == 0x0F || kind.code == 0x85

def isProtective (kind : MbrType) : Bool := kind.code == 0xEE

end MbrType

/-- A cylinder-head-sector address, its three bytes. -/
structure Chs where
  b₀ : UInt8
  b₁ : UInt8
  b₂ : UInt8
deriving DecidableEq

namespace Chs

def sectors : Nat := 63
def heads : Nat := 255

def outOfRange : Chs := ⟨0xFF, 0xFF, 0xFF⟩

def fromLba (lba : Nat) : Chs :=
  let cylinder := lba / (sectors * heads)
  if 1023 < cylinder then outOfRange
  else
    let rest := lba % (sectors * heads)
    ⟨u8 (rest / sectors), u8 (rest % sectors + 1) ||| (u8 (cylinder >>> 2) &&& 0xC0), u8 cylinder⟩

end Chs

/-- One entry of an MBR or of an extended boot record. -/
structure RawMbrEntry where
  bootIndicator : UInt8
  startChs : Chs
  kind : MbrType
  endChs : Chs
  startLba : UInt32
  sectorCount : UInt32
deriving DecidableEq

namespace RawMbrEntry

def default : RawMbrEntry := ⟨0, ⟨0, 0, 0⟩, ⟨0⟩, ⟨0, 0, 0⟩, 0, 0⟩

def new (kind : MbrType) (startLba sectorCount : UInt32) : RawMbrEntry :=
  let last := if sectorCount = 0 then startLba.toNat
    else min (startLba.toNat + (sectorCount.toNat - 1)) (2 ^ 32 - 1)
  { bootIndicator := 0
    startChs := .fromLba startLba.toNat
    kind := kind
    endChs := .fromLba last
    startLba := startLba
    sectorCount := sectorCount }

def isEmpty (entry : RawMbrEntry) : Bool := entry.kind.isEmpty

end RawMbrEntry

inductive PartitionKind where
  | mbr (kind : MbrType)
  | gpt (guid : Guid)
deriving DecidableEq

/-- One partition of a table, in blocks of the disk. -/
structure Partition where
  slot : Nat
  start : Nat
  len : Nat
  blockSize : BlockSize
  kind : PartitionKind
  flags : PartitionFlags
  attributes : UInt64
  uniqueGuid : Option Guid
  name : Option PartitionName
deriving DecidableEq

namespace Partition

def fromMbr (index start : Nat) (entry : RawMbrEntry) (blockSize : BlockSize) : Partition where
  slot := index
  start := start
  len := entry.sectorCount.toNat
  blockSize := blockSize
  kind := .mbr entry.kind
  flags := .fromMbr entry.bootIndicator
  attributes := 0
  uniqueGuid := none
  name := none

def fromGpt (index : Nat) (entry : RawGptEntry) (blockSize : BlockSize) : Partition where
  slot := index
  start := entry.firstLba.toNat
  len := entry.blockLen
  blockSize := blockSize
  kind := .gpt entry.typeGuid
  flags := .fromGpt entry.attributes
  attributes := entry.attributes
  uniqueGuid := some entry.uniqueGuid
  name := some entry.name

end Partition

end Hadris.Part

namespace Hadris.Part

/-- A new MBR partition. -/
structure MbrEntry where
  kind : MbrType
  start : UInt64
  len : UInt64
  flags : PartitionFlags
deriving DecidableEq

/-- A logical partition, with the block of its extended boot record. -/
structure Logical where
  ebr : Nat
  start : Nat
  len : Nat
  kind : MbrType
  boot : UInt8
deriving DecidableEq

namespace Logical

def stop (logical : Logical) : Nat := saturatingAdd logical.start logical.len

def entry (logical : Logical) : RawMbrEntry :=
  { RawMbrEntry.default with
    bootIndicator := logical.boot
    kind := logical.kind
    sectorCount := UInt32.ofNat logical.len }

end Logical

/-- The slots of a record are numbered from 0. -/
instance neZero_slots : NeZero 4 := ⟨by decide⟩

/-- A master or an extended boot record. -/
structure RawMbr where
  bootstrap : Vector UInt8 440
  diskSignature : Vector UInt8 4
  reserved : Vector UInt8 2
  entries : Fin 4 → RawMbrEntry
  signature : UInt8 × UInt8
deriving DecidableEq

namespace RawMbr

def default : RawMbr where
  bootstrap := .replicate 440 0
  diskSignature := .replicate 4 0
  reserved := .replicate 2 0
  entries := fun _ => .default
  signature := (0x55, 0xAA)

def hasSignature (record : RawMbr) : Bool := record.signature == (0x55, 0xAA)

end RawMbr

/-- An entry whose fields count from `relative` while its addresses use the
block `absolute`. -/
def located (kind : MbrType) (boot : UInt8) (absolute relative len : Nat) : RawMbrEntry :=
  let chs := fun lba => if lba < 2 ^ 32 then Chs.fromLba lba else .outOfRange
  { bootIndicator := boot
    startChs := chs absolute
    kind := kind
    endChs := chs (absolute + (len - 1))
    startLba := UInt32.ofNat relative
    sectorCount := UInt32.ofNat len }

def primaryEntry (entry : MbrEntry) : RawMbrEntry :=
  { RawMbrEntry.new entry.kind entry.start.toUInt32 entry.len.toUInt32 with
    bootIndicator := entry.flags.toMbr }

def checkFlags (flags : PartitionFlags) : Except TableError Unit :=
  ensure flags.fitsMbr (.invalid .flags)

def noSuch (index : Nat) : TableError := (TableError.new .notFound .noSuchPartition).atIndex index

def placeEbr (extStart k prevEnd : Nat) (logical : Logical) : Nat :=
  if k = 0 then extStart
  else if !(decide (prevEnd ≤ logical.ebr) && decide (logical.ebr < logical.start)) ||
      logical.ebr == extStart then logical.start - 1
  else logical.ebr

def placeFrom (extStart extEnd : Nat) :
    Nat → Nat → List Logical → Except TableError (List Logical)
  | _, _, [] => .ok []
  | k, prevEnd, logical :: rest => do
    let index := firstLogical + k
    ensure (logical.len != 0) (.invalid .size)
    ensure (!(decide (logical.start ≤ extStart) || decide (extEnd < logical.stop) ||
      decide (2 ^ 64 ≤ logical.start + logical.len)))
        ((TableError.invalid .outOfBounds).atIndex index)
    let ebr := placeEbr extStart k prevEnd logical
    ensure (!decide (ebr < prevEnd)) (((TableError.invalid .overlap).atIndex index).overlapping
      (if k = 0 then index else index - 1))
    let rest ← placeFrom extStart extEnd (k + 1) logical.stop rest
    .ok ({ logical with ebr := ebr } :: rest)

/-- Sorts logical partitions, places their records and checks that everything
fits in the extended partition. -/
def placeLogicals (extStart extEnd : Nat) (logical : List Logical) :
    Except TableError (List Logical) := do
  ensure (decide (logical.length ≤ maxLogical)) (.new .limitExceeded .tableFull)
  placeFrom extStart extEnd 0 extStart (logical.mergeSort fun a b => decide (a.start ≤ b.start))

/-- An MBR partition table. -/
structure Mbr where
  blockCount : Nat
  blockSize : BlockSize
  primary : Fin 4 → RawMbrEntry
  logical : List Logical
deriving DecidableEq

namespace Mbr

def new (blockCount : UInt64) (blockSize : BlockSize) : Except TableError Mbr := do
  checkBlockSize blockSize
  .ok ⟨blockCount.toNat, blockSize, fun _ => .default, []⟩

def entry (mbr : Mbr) (index : Nat) : Option Partition :=
  if h : index < firstLogical then
    let entry := mbr.primary ⟨index, h⟩
    if entry.isEmpty then none
    else some (.fromMbr index entry.startLba.toNat entry mbr.blockSize)
  else (mbr.logical[index - firstLogical]?).map fun logical =>
    .fromMbr index logical.start logical.entry mbr.blockSize

def extendedSlot (mbr : Mbr) : Option (Fin 4) :=
  (List.finRange 4).find? fun slot => (mbr.primary slot).kind.isExtended

def span (entry : RawMbrEntry) : Nat × Nat :=
  (entry.startLba.toNat, entry.startLba.toNat + entry.sectorCount.toNat)

def extendedRange (mbr : Mbr) : Option (Nat × Nat) :=
  mbr.extendedSlot.map fun slot => span (mbr.primary slot)

def conflict (mbr : Mbr) (slot : Fin 4) (entry : MbrEntry) (stop : Nat) : Option TableError :=
  (List.finRange 4).findSome? fun other =>
    let existing := mbr.primary other
    if other = slot ∨ existing.isEmpty then none
    else if entry.kind.isExtended && existing.kind.isExtended then some (.invalid .extended)
    else if entry.start.toNat < (span existing).2 ∧ (span existing).1 < stop then
      some (((TableError.invalid .overlap).atIndex slot).overlapping other)
    else none

def checkPrimary (mbr : Mbr) (slot : Fin 4) (entry : MbrEntry) : Except TableError Unit := do
  ensure (!(entry.kind.isEmpty || entry.kind.isProtective)) (.invalid .kind)
  checkFlags entry.flags
  ensure (entry.len != 0) (.invalid .size)
  ensure (decide (entry.start.toNat < 2 ^ 32) && decide (entry.len.toNat < 2 ^ 32))
    (.new .limitExceeded .fieldOverflow)
  let stop := entry.start.toNat + entry.len.toNat
  ensure (!(entry.kind.isExtended && entry.start == 0)) (.invalid .extended)
  ensure (decide (stop ≤ mbr.blockCount)) ((TableError.invalid .outOfBounds).atIndex slot)
  match mbr.conflict slot entry stop with
  | some error => .error error
  | none => .ok ()

abbrev Run := Prog Mbr TableError

def table : Run Mbr := Prog.gets id

def setPrimary (slot : Fin 4) (entry : RawMbrEntry) : Run Unit :=
  Prog.modify fun mbr => { mbr with primary := Function.update mbr.primary slot entry }

def setLogical (logical : List Logical) : Run Unit :=
  Prog.modify fun mbr => { mbr with logical := logical }

def add (entry : MbrEntry) : Run Nat := do
  let mbr ← table
  let slot ← Prog.ofExcept (okOr ((List.finRange 4).find? fun slot => (mbr.primary slot).isEmpty)
    (.new .limitExceeded .tableFull))
  Prog.ofExcept (mbr.checkPrimary slot entry)
  setPrimary slot (primaryEntry entry)
  pure slot

def addLogical (entry : MbrEntry) : Run Nat := do
  let mbr ← table
  Prog.ofExcept
    (ensure (!(entry.kind.isEmpty || entry.kind.isExtended || entry.kind.isProtective))
    (.invalid .kind))
  Prog.ofExcept (checkFlags entry.flags)
  let (extStart, extEnd) ← Prog.ofExcept (okOr mbr.extendedRange (.invalid .extended))
  let logical ← Prog.ofExcept (placeLogicals extStart extEnd
    (mbr.logical ++ [⟨0, entry.start.toNat, entry.len.toNat, entry.kind, entry.flags.toMbr⟩]))
  setLogical logical
  pure (firstLogical + (logical.findIdx? (·.start == entry.start.toNat)).getD 0)

def removePrimary (slot : Fin 4) : Run Unit := do
  let mbr ← table
  Prog.ofExcept (ensure (!(mbr.primary slot).isEmpty) (noSuch slot))
  Prog.ofExcept (ensure (!((mbr.primary slot).kind.isExtended && !mbr.logical.isEmpty))
    (.invalid .extendedInUse))
  setPrimary slot .default

def removeLogical (index : Nat) : Run Unit := do
  let mbr ← table
  let k := index - firstLogical
  Prog.ofExcept (ensure (decide (k < mbr.logical.length)) (noSuch index))
  let (extStart, extEnd) ← Prog.ofExcept (okOr mbr.extendedRange (.invalid .extended))
  let logical ← Prog.ofExcept (placeLogicals extStart extEnd (mbr.logical.eraseIdx k))
  setLogical logical

def remove (index : Nat) : Run Unit :=
  if h : index < firstLogical then removePrimary ⟨index, h⟩ else removeLogical index

def current (mbr : Mbr) (index : Nat) : Except TableError MbrEntry := do
  let partition ← okOr (mbr.entry index) (noSuch index)
  match partition.kind with
  | .mbr kind =>
    .ok ⟨kind, UInt64.ofNat partition.start, UInt64.ofNat partition.len, partition.flags⟩
  | .gpt _ => .error (noSuch index)

def editPrimary (slot : Fin 4) (f : MbrEntry → MbrEntry) : Run Unit := do
  let mbr ← table
  let current ← Prog.ofExcept (mbr.current slot)
  let entry := f current
  Prog.ofExcept (mbr.checkPrimary slot entry)
  if current.kind.isExtended then do
    let logical ← Prog.ofExcept (placeLogicals entry.start.toNat
      (saturatingAdd entry.start.toNat entry.len.toNat) mbr.logical)
    setLogical logical
    setPrimary slot (primaryEntry entry)
  else setPrimary slot (primaryEntry entry)

def editLogical (index : Nat) (f : MbrEntry → MbrEntry) : Run Unit := do
  let mbr ← table
  let current ← Prog.ofExcept (mbr.current index)
  let entry := f current
  Prog.ofExcept (checkFlags entry.flags)
  Prog.ofExcept (ensure (!(entry.kind.isEmpty || entry.kind.isProtective)) (.invalid .kind))
  let (extStart, extEnd) ← Prog.ofExcept (okOr mbr.extendedRange (.invalid .extended))
  let logical ← Prog.ofExcept (placeLogicals extStart extEnd
    (mbr.logical.modify (index - firstLogical) fun target =>
      { target with len := entry.len.toNat, kind := entry.kind, boot := entry.flags.toMbr }))
  setLogical logical

def edit (index : Nat) (f : MbrEntry → MbrEntry) : Run Unit :=
  if h : index < firstLogical then editPrimary ⟨index, h⟩ f else editLogical index f

def resize (index : Nat) (len : UInt64) : Run Unit :=
  edit index fun entry => { entry with len := len }

def setKind (index : Nat) (kind : MbrType) : Run Unit := do
  let mbr ← table
  let current ← Prog.ofExcept (mbr.current index)
  Prog.ofExcept (ensure (current.kind.isExtended == kind.isExtended) (.invalid .extended))
  edit index fun entry => { entry with kind := kind }

def setFlags (index : Nat) (flags : PartitionFlags) : Run Unit :=
  edit index fun entry => { entry with flags := flags }

def ebrBlock (extStart k : Nat) (logical : Logical) : Nat :=
  if k = 0 then extStart else logical.ebr

def fits32 (value : Option Nat) : Bool := value.any fun v => decide (v < 2 ^ 32)

def recordFits (extStart : Nat) (logical : List Logical) (k : Nat) : Bool :=
  (logical[k]?).all fun this =>
    fits32 (checkedSub this.start (ebrBlock extStart k this)) && decide (this.len < 2 ^ 32) &&
      (logical[k + 1]?).all fun next =>
        fits32 (checkedSub next.ebr extStart) && fits32 (some (next.stop - next.ebr))

def validate (mbr : Mbr) : Except TableError Unit :=
  match mbr.extendedRange with
  | none => .ok ()
  | some (extStart, _) =>
    match (List.range mbr.logical.length).find? fun k => !recordFits extStart mbr.logical k with
    | some k => .error ((TableError.new .limitExceeded .fieldOverflow).atIndex (firstLogical + k))
    | none => .ok ()

def ebrRecord (extStart ebr : Nat) (logical : Logical) (next : Option Logical) : RawMbr :=
  let link := match next with
    | none => .default
    | some next =>
      located .extended 0 next.ebr (next.ebr - extStart) (next.stop - next.ebr)
  { RawMbr.default with
    entries := fun slot =>
      if slot = 0 then located logical.kind logical.boot logical.start
        (logical.start - ebr) logical.len
      else if slot = 1 then link
      else .default }

def recordsFrom (extStart : Nat) : Nat → List Logical → List (Nat × RawMbr)
  | _, [] => []
  | k, logical :: rest =>
    let ebr := ebrBlock extStart k logical
    (ebr, ebrRecord extStart ebr logical rest.head?) :: recordsFrom extStart (k + 1) rest

def ebrRecords (mbr : Mbr) : List (Nat × RawMbr) :=
  match mbr.extendedRange with
  | none => []
  | some (extStart, _) =>
    if mbr.logical.isEmpty then [(extStart, .default)] else recordsFrom extStart 0 mbr.logical

/-- A call that edits a table. -/
inductive Op where
  | add (entry : MbrEntry)
  | addLogical (entry : MbrEntry)
  | remove (index : Nat)
  | resize (index : Nat) (len : UInt64)
  | setKind (index : Nat) (kind : MbrType)
  | setFlags (index : Nat) (flags : PartitionFlags)

def Op.call : Op → Run Unit
  | .add entry => Mbr.add entry >>= fun _ => pure ()
  | .addLogical entry => Mbr.addLogical entry >>= fun _ => pure ()
  | .remove index => Mbr.remove index
  | .resize index len => Mbr.resize index len
  | .setKind index kind => Mbr.setKind index kind
  | .setFlags index flags => Mbr.setFlags index flags

/-- A table made by `new` and any calls after it, those that fail included. -/
inductive Built : Mbr → Prop
  | new {blockCount : UInt64} {blockSize : BlockSize} {mbr : Mbr}
      (h : Mbr.new blockCount blockSize = .ok mbr) : Built mbr
  | call {mbr : Mbr} (h : Built mbr) (op : Op) : Built (op.call.run mbr).2

end Mbr

end Hadris.Part
