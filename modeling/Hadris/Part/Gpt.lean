import Hadris.Bytes
import Hadris.Meta
import Hadris.Program
import Mathlib.Data.List.TakeDrop
import Mathlib.Data.Nat.Log

namespace Hadris.Part

/-- Which structure or partition an error concerns. -/
inductive Detail where
  | noTable
  | mbrEntry
  | ebrChain
  | gptHeader
  | gptHeaderCrc
  | gptEntries
  | gptEntriesCrc
  | blockSize
  | overlap
  | outOfBounds
  | tableFull
  | noSuchPartition
  | extended
  | extendedInUse
  | name
  | mirror
  | diskTooSmall
  | fieldOverflow
  | kind
  | flags
  | size
  | bootstrap
deriving DecidableEq, Repr

namespace Detail

def number : Detail → Nat
  | noTable => 1
  | mbrEntry => 2
  | ebrChain => 3
  | gptHeader => 4
  | gptHeaderCrc => 5
  | gptEntries => 6
  | gptEntriesCrc => 7
  | blockSize => 8
  | overlap => 9
  | outOfBounds => 10
  | tableFull => 11
  | noSuchPartition => 12
  | extended => 13
  | extendedInUse => 14
  | name => 15
  | mirror => 16
  | diskTooSmall => 17
  | fieldOverflow => 18
  | kind => 19
  | flags => 20
  | size => 21
  | bootstrap => 22

def description : Detail → String
  | noTable => "no partition table signature"
  | mbrEntry => "invalid MBR partition entry"
  | ebrChain => "invalid extended boot record chain"
  | gptHeader => "invalid GPT header"
  | gptHeaderCrc => "GPT header CRC mismatch"
  | gptEntries => "invalid GPT partition entry array"
  | gptEntriesCrc => "GPT partition entry array CRC mismatch"
  | blockSize => "unsupported or mismatched block size"
  | overlap => "partitions overlap"
  | outOfBounds => "partition outside the usable area"
  | tableFull => "partition table is full"
  | noSuchPartition => "no such partition"
  | extended => "logical partitions need exactly one extended partition"
  | extendedInUse => "extended partition holds logical partitions"
  | name => "invalid partition name"
  | mirror => "invalid hybrid MBR mirror"
  | diskTooSmall => "disk too small"
  | fieldOverflow => "value does not fit a 32-bit MBR field"
  | kind => "partition kind does not fit the table"
  | flags => "flag not supported by the table"
  | size => "invalid partition size"
  | bootstrap => "boot code longer than 446 bytes"

def error (detail : Detail) (kind : ErrorKind) : Error :=
  (Error.new kind detail.description).withDetail ⟨"hadris-part", detail.number⟩

def corrupt (detail : Detail) : Error := detail.error .corrupt

end Detail

/-- Why an edit of a table fails, and at which partitions. -/
structure TableError where
  kind : ErrorKind
  detail : Detail
  index : Option Nat
  other : Option Nat
deriving DecidableEq, Repr

namespace TableError

def new (kind : ErrorKind) (detail : Detail) : TableError := ⟨kind, detail, none, none⟩

def invalid (detail : Detail) : TableError := new .invalidInput detail

def atIndex (error : TableError) (index : Nat) : TableError := { error with index := some index }

def overlapping (error : TableError) (other : Nat) : TableError :=
  { error with other := some other }

def toError (error : TableError) : Error := error.detail.error error.kind

end TableError

/-- The size of a block, a `u32` that is not zero. -/
structure BlockSize where
  bytes : Nat
  pos : 0 < bytes
  lt : bytes < 2 ^ 32
deriving DecidableEq

theorem sectorBytes_pos : 0 < 512 := by decide

theorem sectorBytes_lt : 512 < 2 ^ 32 := by decide

def isPowerOfTwo (n : Nat) : Bool := n == 2 ^ Nat.log2 n

def maxArrayBytes : Nat := 64 <<< 20

def firstLogical : Nat := 4

def maxLogical : Nat := 256

def checkBlockSize (size : BlockSize) : Except TableError Unit :=
  ensure (decide (512 ≤ size.bytes) && isPowerOfTwo size.bytes) (.new .unsupported .blockSize)

def blocksFor (bytes : Nat) (size : BlockSize) : Nat := (bytes + size.bytes - 1) / size.bytes

def checkedAdd (a b : Nat) : Option Nat := if a + b < 2 ^ 64 then some (a + b) else none

def checkedSub (a b : Nat) : Option Nat := if b ≤ a then some (a - b) else none

def saturatingAdd (a b : Nat) : Nat := min (a + b) (2 ^ 64 - 1)

def okOr {ε α : Type} (o : Option α) (error : ε) : Except ε α :=
  match o with
  | some a => .ok a
  | none => .error error

theorem okOr_ok {ε α : Type} {o : Option α} {error : ε} {a : α} :
    okOr o error = .ok a ↔ o = some a := by
  cases o with
  | none => exact iff_of_false (fun h => nomatch h) (fun h => nomatch h)
  | some b => rw [okOr, Except.ok.injEq, Option.some.injEq]

theorem checkedAdd_some {a b c : Nat} : checkedAdd a b = some c ↔ a + b < 2 ^ 64 ∧ a + b = c := by
  rw [checkedAdd]
  split
  · rename_i h
    rw [Option.some.injEq]
    exact (and_iff_right h).symm
  · rename_i h
    exact iff_of_false (fun hnone => nomatch hnone) fun hlt => h hlt.1

theorem checkedSub_some {a b c : Nat} : checkedSub a b = some c ↔ b ≤ a ∧ a - b = c := by
  rw [checkedSub]
  split
  · rename_i h
    rw [Option.some.injEq]
    exact (and_iff_right h).symm
  · rename_i h
    exact iff_of_false (fun hnone => nomatch hnone) fun hle => h hle.1

structure Guid where
  bytes : List UInt8
  length_eq : bytes.length = 16
deriving DecidableEq

namespace Guid

def nil : Guid := ⟨List.replicate 16 0, rfl⟩

def isNil (guid : Guid) : Bool := guid.bytes.all (· == 0)

end Guid

/-- The 36 code units of a partition's name. -/
structure PartitionName where
  units : List UInt16
  length_eq : units.length = 36
deriving DecidableEq

namespace PartitionName

def empty : PartitionName := ⟨List.replicate 36 0, rfl⟩

def stored (name : PartitionName) : PartitionName :=
  ⟨(name.units.takeWhile (· != 0)).takeD 36 0, List.takeD_length ..⟩

end PartitionName

/-- Flags of a partition, of which an MBR stores only the first. -/
structure PartitionFlags where
  bits : UInt32
deriving DecidableEq

namespace PartitionFlags

def bootable : UInt32 := 1
def required : UInt32 := 2
def noBlockIo : UInt32 := 4

def gptRequired : UInt64 := 1
def gptNoBlockIo : UInt64 := 2
def gptLegacyBiosBootable : UInt64 := 4

def mbrActive : UInt8 := 0x80

def contains (flags : PartitionFlags) (bit : UInt32) : Bool := flags.bits &&& bit == bit

def toGpt (flags : PartitionFlags) (attributes : UInt64) : UInt64 :=
  let out := attributes &&& ~~~(gptLegacyBiosBootable ||| gptRequired ||| gptNoBlockIo)
  let out := if flags.contains bootable then out ||| gptLegacyBiosBootable else out
  let out := if flags.contains required then out ||| gptRequired else out
  if flags.contains noBlockIo then out ||| gptNoBlockIo else out

def fromGpt (attributes : UInt64) : PartitionFlags :=
  let bits := if attributes &&& gptLegacyBiosBootable != 0 then bootable else 0
  let bits := if attributes &&& gptRequired != 0 then bits ||| required else bits
  ⟨if attributes &&& gptNoBlockIo != 0 then bits ||| noBlockIo else bits⟩

def fromMbr (bootIndicator : UInt8) : PartitionFlags :=
  ⟨if bootIndicator &&& mbrActive != 0 then bootable else 0⟩

def fitsMbr (flags : PartitionFlags) : Bool := bootable &&& flags.bits == flags.bits

def toMbr (flags : PartitionFlags) : UInt8 := if flags.contains bootable then mbrActive else 0

end PartitionFlags

end Hadris.Part

namespace Hadris.Part

inductive GptCopy where
  | primary
  | backup
deriving DecidableEq, Repr

def gptEntrySize : Nat := 128
def gptDefaultEntries : Nat := 128

/-- An entry of the array. -/
structure RawGptEntry where
  typeGuid : Guid
  uniqueGuid : Guid
  firstLba : UInt64
  lastLba : UInt64
  attributes : UInt64
  name : PartitionName
deriving DecidableEq

namespace RawGptEntry

def default : RawGptEntry := ⟨.nil, .nil, 0, 0, 0, .empty⟩

def isUnused (entry : RawGptEntry) : Bool := entry.typeGuid.isNil

def blockLen (entry : RawGptEntry) : Nat :=
  if entry.lastLba < entry.firstLba then 0
  else saturatingAdd (entry.lastLba.toNat - entry.firstLba.toNat) 1

end RawGptEntry

/-- A new partition. -/
structure GptEntry where
  typeGuid : Guid
  uniqueGuid : Guid
  start : UInt64
  len : UInt64
  name : PartitionName
  attributes : UInt64
deriving DecidableEq

def GptEntry.raw (entry : GptEntry) : RawGptEntry where
  typeGuid := entry.typeGuid
  uniqueGuid := entry.uniqueGuid
  firstLba := entry.start
  lastLba := entry.start + entry.len - 1
  attributes := entry.attributes
  name := entry.name.stored

def RawGptEntry.entry (raw : RawGptEntry) : GptEntry where
  typeGuid := raw.typeGuid
  uniqueGuid := raw.uniqueGuid
  start := raw.firstLba
  len := UInt64.ofNat raw.blockLen
  name := raw.name
  attributes := raw.attributes

/-- A GUID partition table. -/
structure Gpt where
  blockSize : BlockSize
  blockCount : Nat
  diskGuid : Guid
  firstUsable : Nat
  lastUsable : Nat
  backupLba : Nat
  primaryEntriesLba : Nat
  backupEntriesLba : Nat
  entrySize : Nat
  entries : List RawGptEntry
  damaged : Option GptCopy
deriving DecidableEq

namespace Gpt

def tooSmall : TableError := .new .noSpace .diskTooSmall

def new (diskGuid : Guid) (blockCount : UInt64) (blockSize : BlockSize) :
    Except TableError Gpt := do
  checkBlockSize blockSize
  let array := blocksFor (gptDefaultEntries * gptEntrySize) blockSize
  let firstUsable := 2 + array
  let lastUsable ← okOr ((checkedSub blockCount.toNat (2 + array)).filter (firstUsable ≤ ·))
    tooSmall
  .ok {
    blockSize := blockSize
    blockCount := blockCount.toNat
    diskGuid := diskGuid
    firstUsable := firstUsable
    lastUsable := lastUsable
    backupLba := blockCount.toNat - 1
    primaryEntriesLba := 2
    backupEntriesLba := blockCount.toNat - 1 - array
    entrySize := gptEntrySize
    entries := List.replicate gptDefaultEntries .default
    damaged := none }

def arrayBlocks (gpt : Gpt) : Nat := blocksFor (gpt.entries.length * gpt.entrySize) gpt.blockSize

/-- The usable range left by arrays of `array` blocks after the start of the
primary array and before the backup header at `backupLba`. -/
def usable (gpt : Gpt) (backupLba array : Nat) : Except TableError (Nat × Nat) :=
  match checkedAdd gpt.primaryEntriesLba array,
      (checkedSub backupLba array).bind (checkedSub · 1) with
  | some first, some last => if first ≤ last then .ok (first, last) else .error tooSmall
  | _, _ => .error tooSmall

def outside (firstUsable lastUsable : Nat) (entry : RawGptEntry) : Bool :=
  !entry.isUnused &&
    (decide (entry.firstLba.toNat < firstUsable) || decide (lastUsable < entry.lastLba.toNat))

def checkUsable (gpt : Gpt) (firstUsable lastUsable : Nat) : Except TableError Unit :=
  match gpt.entries.findIdx? (outside firstUsable lastUsable) with
  | some index => .error ((TableError.invalid .overlap).atIndex index)
  | none => .ok ()

/-- The first used entry, other than slot `index`, that shares a block with
`start` to before `stop`. -/
def overlapping (index start stop : Nat) (entries : List RawGptEntry) : Option Nat :=
  (List.range entries.length).find? fun other =>
    let existing := entries.getD other .default
    other != index && !existing.isUnused &&
      (decide (start ≤ existing.lastLba.toNat) && decide (existing.firstLba.toNat < stop))

def check (gpt : Gpt) (index : Nat) (entry : GptEntry) : Except TableError Unit := do
  ensure (!entry.typeGuid.isNil) (.invalid .kind)
  ensure (entry.len != 0) (.invalid .size)
  let stop ← okOr (checkedAdd entry.start.toNat entry.len.toNat)
    ((TableError.invalid .outOfBounds).atIndex index)
  ensure (!(decide (entry.start.toNat < gpt.firstUsable) || decide (gpt.lastUsable < stop - 1)))
    ((TableError.invalid .outOfBounds).atIndex index)
  match overlapping index entry.start.toNat stop gpt.entries with
  | some other => .error (((TableError.invalid .overlap).atIndex index).overlapping other)
  | none => .ok ()

def usedEntry (gpt : Gpt) (index : Nat) : Except TableError RawGptEntry :=
  okOr ((gpt.entries[index]?).filter (!·.isUnused))
    ((TableError.new .notFound .noSuchPartition).atIndex index)

abbrev Run := Prog Gpt TableError

def table : Run Gpt := Prog.gets id

def setEntry (index : Nat) (entry : RawGptEntry) : Run Unit :=
  Prog.modify fun gpt => { gpt with entries := gpt.entries.set index entry }

def add (entry : GptEntry) : Run Nat := do
  let gpt ← table
  let slot ← Prog.ofExcept
    (okOr (gpt.entries.findIdx? (·.isUnused)) (.new .limitExceeded .tableFull))
  Prog.ofExcept (gpt.check slot entry)
  setEntry slot entry.raw
  pure slot

def remove (index : Nat) : Run Unit := do
  let gpt ← table
  let _ ← Prog.ofExcept (gpt.usedEntry index)
  setEntry index .default

def edit (index : Nat) (f : GptEntry → GptEntry) : Run Unit := do
  let gpt ← table
  let raw ← Prog.ofExcept (gpt.usedEntry index)
  let entry := f raw.entry
  Prog.ofExcept (gpt.check index entry)
  setEntry index entry.raw

def resize (index : Nat) (len : UInt64) : Run Unit :=
  edit index fun entry => { entry with len := len }

def setType (index : Nat) (typeGuid : Guid) : Run Unit :=
  edit index fun entry => { entry with typeGuid := typeGuid }

def setUniqueGuid (index : Nat) (uniqueGuid : Guid) : Run Unit :=
  edit index fun entry => { entry with uniqueGuid := uniqueGuid }

def setName (index : Nat) (name : PartitionName) : Run Unit :=
  edit index fun entry => { entry with name := name }

def setFlags (index : Nat) (flags : PartitionFlags) : Run Unit :=
  edit index fun entry => { entry with attributes := flags.toGpt entry.attributes }

def setAttributes (index : Nat) (attributes : UInt64) : Run Unit :=
  edit index fun entry => { entry with attributes := attributes }

def setDiskGuid (diskGuid : Guid) : Run Unit :=
  Prog.modify fun gpt => { gpt with diskGuid := diskGuid }

def arrayBytes (gpt : Gpt) (count : Nat) : Except TableError Nat :=
  let bytes := count * gpt.entrySize
  if bytes ≤ maxArrayBytes then .ok bytes else .error (.new .limitExceeded .gptEntries)

def dropped (gpt : Gpt) (count : Nat) : Option Nat :=
  (gpt.entries.drop (min count gpt.entries.length)).findIdx? (!·.isUnused)

def resized (entries : List RawGptEntry) (count : Nat) : List RawGptEntry :=
  entries.takeD count .default

/-- Changes the number of entry slots, and moves the first and last usable blocks
so that both arrays fit. -/
def setEntryCount (count : Nat) : Run Unit := do
  let gpt ← table
  Prog.ofExcept (ensure (count != 0) (.invalid .gptEntries))
  match gpt.dropped count with
  | some slot => Prog.fail ((TableError.invalid .gptEntries).atIndex (count + slot))
  | none => do
    let bytes ← Prog.ofExcept (gpt.arrayBytes count)
    let (firstUsable, lastUsable) ←
      Prog.ofExcept (gpt.usable gpt.backupLba (blocksFor bytes gpt.blockSize))
    Prog.ofExcept (gpt.checkUsable firstUsable lastUsable)
    Prog.modify fun gpt => { gpt with
      entries := resized gpt.entries count
      firstUsable := firstUsable
      lastUsable := lastUsable
      backupEntriesLba := lastUsable + 1 }

/-- Moves the backup header to the last block of a disk of `blockCount` blocks
and its array right before it. -/
def relocateBackup (blockCount : UInt64) : Run Unit := do
  let gpt ← table
  let backupLba ← Prog.ofExcept (okOr (checkedSub blockCount.toNat 1) tooSmall)
  let (_, lastUsable) ← Prog.ofExcept (gpt.usable backupLba gpt.arrayBlocks)
  Prog.ofExcept (ensure (decide (gpt.firstUsable ≤ lastUsable)) tooSmall)
  Prog.ofExcept (gpt.checkUsable gpt.firstUsable lastUsable)
  Prog.modify fun gpt => { gpt with
    blockCount := blockCount.toNat
    backupLba := backupLba
    lastUsable := lastUsable
    backupEntriesLba := lastUsable + 1 }

/-- A call that edits a table. -/
inductive Op where
  | add (entry : GptEntry)
  | remove (index : Nat)
  | resize (index : Nat) (len : UInt64)
  | setType (index : Nat) (typeGuid : Guid)
  | setUniqueGuid (index : Nat) (uniqueGuid : Guid)
  | setName (index : Nat) (name : PartitionName)
  | setFlags (index : Nat) (flags : PartitionFlags)
  | setAttributes (index : Nat) (attributes : UInt64)
  | setDiskGuid (diskGuid : Guid)
  | setEntryCount (count : Nat)
  | relocateBackup (blockCount : UInt64)

def Op.call : Op → Run Unit
  | .add entry => Gpt.add entry >>= fun _ => pure ()
  | .remove index => Gpt.remove index
  | .resize index len => Gpt.resize index len
  | .setType index typeGuid => Gpt.setType index typeGuid
  | .setUniqueGuid index uniqueGuid => Gpt.setUniqueGuid index uniqueGuid
  | .setName index name => Gpt.setName index name
  | .setFlags index flags => Gpt.setFlags index flags
  | .setAttributes index attributes => Gpt.setAttributes index attributes
  | .setDiskGuid diskGuid => Gpt.setDiskGuid diskGuid
  | .setEntryCount count => Gpt.setEntryCount count
  | .relocateBackup blockCount => Gpt.relocateBackup blockCount

/-- A table made by `new` and any calls after it, those that fail included. -/
inductive Built : Gpt → Prop
  | new {diskGuid : Guid} {blockCount : UInt64} {blockSize : BlockSize} {gpt : Gpt}
      (h : Gpt.new diskGuid blockCount blockSize = .ok gpt) : Built gpt
  | call {gpt : Gpt} (h : Built gpt) (op : Op) : Built (op.call.run gpt).2

end Gpt

end Hadris.Part
