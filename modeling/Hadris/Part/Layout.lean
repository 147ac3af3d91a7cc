import Hadris.Checked
import Hadris.Part.Rebuild

namespace Hadris.Part

/-- The size of a partition of a layout. -/
inductive Size where
  | blocks (n : UInt64)
  | bytes (n : UInt64)
  | kib (n : UInt64)
  | mib (n : UInt64)
  | gib (n : UInt64)
  | remaining
deriving DecidableEq

def Size.blocksOf (size : Size) (blockSize : BlockSize) : Except TableError (Option Nat) :=
  let counted : Option Nat → Except TableError (Option Nat) := fun bytes =>
    (okOr bytes (.new .limitExceeded .size)).map fun bytes => some (blocksFor bytes blockSize)
  match size with
  | blocks n => .ok (some n.toNat)
  | remaining => .ok none
  | bytes n => counted (some n.toNat)
  | kib n => counted (Checked.checkedMul 64 n.toNat (1 <<< 10))
  | mib n => counted (Checked.checkedMul 64 n.toNat (1 <<< 20))
  | gib n => counted (Checked.checkedMul 64 n.toNat (1 <<< 30))

/-- Where a layout starts each partition. -/
inductive Alignment where
  | block
  | mib1
  | blocks (n : UInt64)
deriving DecidableEq

def Alignment.blocksOf (alignment : Alignment) (blockSize : BlockSize) : Except TableError Nat :=
  match alignment with
  | block => .ok 1
  | mib1 => .ok (max ((1 <<< 20) / blockSize.bytes) 1)
  | blocks n => if n = 0 then .error (.invalid .size) else .ok n.toNat

/-- One partition of a layout. -/
structure PartitionSpec where
  kind : PartitionKind
  size : Size
  start : Option UInt64
  name : Option (Except TableError PartitionName)
  uniqueGuid : Option Guid
  flags : PartitionFlags
  mirror : Option MbrType

inductive Scheme where
  | mbr
  | gpt (diskGuid : Guid)
  | hybrid (diskGuid : Guid)

/-- A partition layout, turned into a `Disk` for the geometry of a device. -/
structure DiskLayout where
  scheme : Scheme
  alignment : Alignment
  partitions : List PartitionSpec

def MbrType.extendedLba : MbrType := ⟨0x0F⟩

def Disk.new (table : PartitionTable) : Disk := ⟨table, .replicate 446 0⟩

namespace DiskLayout

def alignUp (block align : Nat) : Nat :=
  let next := (block + align - 1) / align * align
  if next < 2 ^ 64 then next else 2 ^ 64 - 1

def wanted (start stop : Nat) : Option Nat → Except TableError Nat
  | some n => if n = 0 then .error (.invalid .size) else .ok n
  | none => okOr ((checkedSub stop start).filter fun n => decide (0 < n)) Gpt.tooSmall

/-- The length of a partition of size `size` from `start`, with `stop` the block after the
usable area. -/
def length (size : Size) (blockSize : BlockSize) (start stop : Nat) : Except TableError Nat := do
  let blocks ← size.blocksOf blockSize
  let len ← wanted start stop blocks
  if (checkedAdd start len).any fun last => decide (last ≤ stop) then .ok len
    else .error Gpt.tooSmall

/-- A partition that the layout placed past the usable area itself means that the disk is too
small; one that the caller placed is invalid input. -/
def fit (spec : PartitionSpec) (error : TableError) : TableError :=
  if error.detail = .outOfBounds ∧ spec.start = none then Gpt.tooSmall else error

def fnv (hash : UInt64) (bytes : List UInt8) : UInt64 :=
  bytes.foldl (fun hash byte => (hash ^^^ byte.toUInt64) * 0x100000001b3) hash

def deriveBytes (guid : Guid) (index : Nat) : List UInt8 :=
  let mixed := leBytes 8 (fnv (fnv 0xcbf29ce484222325 guid.bytes) (leBytes 8 index)).toNat
  let bytes := List.zipWith (· ^^^ ·) guid.bytes (mixed ++ mixed.reverse)
  (bytes.modify 7 fun byte => byte &&& 0x0F ||| 0x40).modify 8 fun byte => byte &&& 0x3F ||| 0x80

theorem length_deriveBytes (guid : Guid) (index : Nat) :
    (deriveBytes guid index).length = 16 := by
  simp [deriveBytes, guid.length_eq]

def deriveGuid (guid : Guid) (index : Nat) : Guid :=
  ⟨deriveBytes guid index, length_deriveBytes guid index⟩

def edited {σ α : Type} (spec : PartitionSpec) (edit : Prog σ TableError α) (table : σ) :
    Checked TableError σ :=
  match edit.run table with
  | (.ok _, table) => pure table
  | (.error error, _) => Checked.lift (.error (fit spec error))

def startOf (spec : PartitionSpec) (cursor align : Nat) : Nat :=
  match spec.start with
  | some start => start.toNat
  | none => alignUp cursor align

def placeGpt (hybrid : Bool) (diskGuid : Guid) (blockSize : BlockSize) (align stop : Nat) :
    Nat → List PartitionSpec → Nat → Gpt → Checked TableError Gpt
  | _, [], _, gpt => pure gpt
  | index, spec :: rest, cursor, gpt =>
    match spec.kind with
    | .mbr _ => Checked.lift (.error (.invalid .kind))
    | .gpt typeGuid => do
      Checked.reject (spec.mirror.isSome && !hybrid) (.invalid .mirror)
      let start := startOf spec cursor align
      let len ← Checked.lift (length spec.size blockSize start stop)
      let name ← Checked.lift (spec.name.getD (.ok .empty))
      let gpt ← edited spec (Gpt.add ⟨typeGuid, spec.uniqueGuid.getD (deriveGuid diskGuid index),
        UInt64.ofNat start, UInt64.ofNat len, name, spec.flags.toGpt 0⟩) gpt
      let cursor ← Checked.add 64 start len
      placeGpt hybrid diskGuid blockSize align stop (index + 1) rest cursor gpt

def buildGpt (layout : DiskLayout) (hybrid : Bool) (diskGuid : Guid) (blockCount : UInt64)
    (blockSize : BlockSize) (align : Nat) : Checked TableError Gpt := do
  let gpt ← Checked.lift (Gpt.new diskGuid blockCount blockSize)
  let stop ← Checked.add 64 gpt.lastUsable 1
  placeGpt hybrid diskGuid blockSize align stop 0 layout.partitions gpt.firstUsable gpt

def checkSpec (spec : PartitionSpec) : Except TableError Unit :=
  match spec.kind with
  | .gpt _ => .error (.invalid .kind)
  | .mbr kind => do
    ensure (!(spec.name.isSome || spec.uniqueGuid.isSome || spec.mirror.isSome)) (.invalid .kind)
    ensure (!kind.isExtended) (.invalid .extended)

def entry (spec : PartitionSpec) (start len : Nat) : MbrEntry :=
  match spec.kind with
  | .mbr kind => ⟨kind, UInt64.ofNat start, UInt64.ofNat len, spec.flags⟩
  | .gpt _ => ⟨⟨0⟩, UInt64.ofNat start, UInt64.ofNat len, ⟨0⟩⟩

def placePrimaries (blockSize : BlockSize) (align stop : Nat) :
    List PartitionSpec → Nat → Mbr → Checked TableError (Nat × Mbr)
  | [], cursor, mbr => pure (cursor, mbr)
  | spec :: rest, cursor, mbr => do
    let start := startOf spec cursor align
    let len ← Checked.lift (length spec.size blockSize start stop)
    let len := if spec.size = .remaining then min len (2 ^ 32 - 1) else len
    let mbr ← edited spec (Mbr.add (entry spec start len)) mbr
    let cursor ← Checked.add 64 start len
    placePrimaries blockSize align stop rest cursor mbr

/-- The length of a logical partition: what remains ends where the 32-bit length of the
extended partition does. -/
def logicalLen (spec : PartitionSpec) (extStart start len : Nat) : Checked TableError Nat :=
  if spec.size = .remaining then do
    let offset ← Checked.sub start extStart
    pure (min len (max (2 ^ 32 - 1 - offset) 1))
  else pure len

def placeLogicals (blockSize : BlockSize) (align extStart stop : Nat) :
    Nat → List PartitionSpec → Nat → Checked TableError (List (PartitionSpec × Nat × Nat))
  | _, [], _ => pure []
  | k, spec :: rest, ebr => do
    let start := startOf spec (saturatingAdd ebr 1) align
    Checked.reject (decide (start ≤ extStart))
      ((TableError.invalid .outOfBounds).atIndex (firstLogical + k))
    let len ← Checked.lift (length spec.size blockSize start stop)
    let len ← logicalLen spec extStart start len
    let ebr ← Checked.add 64 start len
    let placed ← placeLogicals blockSize align extStart stop (k + 1) rest ebr
    pure ((spec, start, len) :: placed)

def lastStop : List (PartitionSpec × Nat × Nat) → Checked TableError Nat
  | [] => pure 0
  | (_, start, len) :: rest => do
    let stop ← Checked.add 64 start len
    let last ← lastStop rest
    pure (max stop last)

def addLogicals : List (PartitionSpec × Nat × Nat) → Mbr → Checked TableError Mbr
  | [], mbr => pure mbr
  | (spec, start, len) :: rest, mbr => do
    let mbr ← edited spec (Mbr.addLogical (entry spec start len)) mbr
    addLogicals rest mbr

def primaries (layout : DiskLayout) : Nat :=
  if 4 < layout.partitions.length then 3 else layout.partitions.length

def buildMbr (layout : DiskLayout) (blockCount : UInt64) (blockSize : BlockSize) (align : Nat) :
    Checked TableError Mbr := do
  let mbr ← Checked.lift (Mbr.new blockCount blockSize)
  Checked.lift (layout.partitions.forM checkSpec)
  let (cursor, mbr) ← placePrimaries blockSize align blockCount.toNat
    (layout.partitions.take layout.primaries) align mbr
  match layout.partitions.drop layout.primaries with
  | [] => pure mbr
  | first :: rest => do
    let extStart := alignUp cursor align
    let placed ← placeLogicals blockSize align extStart blockCount.toNat 0
      (first :: rest) extStart
    let extEnd ← lastStop placed
    let extLen ← Checked.sub extEnd extStart
    let mbr ← edited first
      (Mbr.add ⟨.extendedLba, UInt64.ofNat extStart, UInt64.ofNat extLen, ⟨0⟩⟩) mbr
    addLogicals placed mbr

def selectMirrors : Nat → List PartitionSpec → HybridMbr → Except TableError HybridMbr
  | _, [], config => .ok config
  | index, spec :: rest, config =>
    match spec.mirror with
    | none => selectMirrors (index + 1) rest config
    | some kind => do
      let config ← config.addMirrored
        ⟨index, kind, ⟨spec.flags.bits &&& PartitionFlags.bootable⟩⟩
      selectMirrors (index + 1) rest config

def checkRemaining (partitions : List PartitionSpec) : Except TableError Unit :=
  ensure (!(partitions.dropLast.any fun spec => decide (spec.size = .remaining))) (.invalid .size)

def build (layout : DiskLayout) (blockCount : UInt64) (blockSize : BlockSize) :
    Checked TableError Disk := do
  Checked.lift (checkBlockSize blockSize)
  let align ← Checked.lift (layout.alignment.blocksOf blockSize)
  Checked.lift (checkRemaining layout.partitions)
  match layout.scheme with
  | .mbr => do
    let mbr ← layout.buildMbr blockCount blockSize align
    pure (.new (.mbr mbr))
  | .gpt diskGuid => do
    let gpt ← layout.buildGpt false diskGuid blockCount blockSize align
    pure (.new (.gpt gpt))
  | .hybrid diskGuid => do
    let gpt ← layout.buildGpt true diskGuid blockCount blockSize align
    let config ← Checked.lift (selectMirrors 0 layout.partitions .new)
    let hybrid ← Checked.lift (Hybrid.new gpt config)
    pure (.new (.hybrid hybrid))

end DiskLayout

end Hadris.Part
