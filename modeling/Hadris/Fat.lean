import Hadris.Meta
import Hadris.Geometry
import Hadris.Borrow

namespace Hadris

/-- What is wrong with a FAT volume, in errors and in check findings. -/
inductive Detail where
  | bootSector
  | backupBootSector
  | reservedEntries
  | fsInfo
  | freeCount
  | fatCopiesDiffer
  | invalidCluster
  | brokenChain
  | cyclicChain
  | sizeMismatch
  | crossLink
  | lostClusters
  | dotEntries
  | badName
  | lfnChecksum
  | orphanLfn
  | dirty
  | badCluster
  | directorySize
  | label
deriving DecidableEq, Repr

namespace Detail

def description : Detail → String
  | .bootSector => "invalid boot sector"
  | .backupBootSector => "backup boot sector differs from the boot sector"
  | .reservedEntries => "FAT entries 0 and 1 are not the media byte and end marks"
  | .fsInfo => "invalid FSInfo sector"
  | .freeCount => "FSInfo free count is wrong"
  | .fatCopiesDiffer => "FAT copies differ"
  | .invalidCluster => "chain starts at an invalid cluster"
  | .brokenChain => "chain links to a free, reserved or out-of-range cluster"
  | .cyclicChain => "chain links back to itself"
  | .sizeMismatch => "chain length does not match the file size"
  | .crossLink => "cluster is in more than one chain"
  | .lostClusters => "allocated clusters no chain reaches"
  | .dotEntries => "missing or wrong dot entry"
  | .badName => "invalid short name"
  | .lfnChecksum => "long name checksum does not match its short entry"
  | .orphanLfn => "long name fragments without a short entry"
  | .dirty => "volume was not unmounted cleanly"
  | .badCluster => "chain runs into a bad cluster"
  | .directorySize => "directory entry records a size"
  | .label => "misplaced volume label entry"

def number : Detail → Nat
  | .bootSector => 1
  | .backupBootSector => 2
  | .reservedEntries => 3
  | .fsInfo => 4
  | .freeCount => 5
  | .fatCopiesDiffer => 6
  | .invalidCluster => 7
  | .brokenChain => 8
  | .cyclicChain => 9
  | .sizeMismatch => 10
  | .crossLink => 11
  | .lostClusters => 12
  | .dotEntries => 13
  | .badName => 14
  | .lfnChecksum => 15
  | .orphanLfn => 16
  | .dirty => 17
  | .badCluster => 18
  | .directorySize => 19
  | .label => 20

def code (detail : Detail) : DetailCode := ⟨"hadris-fat", detail.number⟩

def corrupt (detail : Detail) : Stop :=
  .error ((Error.new .corrupt detail.description).withDetail detail.code)

def boot (err : BootError) : Stop :=
  let message := match err with
    | .notFat field => field
    | .corrupt field => field
    | .signature _ => "boot sector signature is not 0xAA55"
    | .rootCluster _ _ => "FAT32 root cluster is not a data cluster"
  let kind := match err with
    | .notFat _ => .notRecognized
    | _ => .corrupt
  .error ((Error.new kind message).withDetail bootSector.code)

end Detail

end Hadris

namespace Hadris

namespace Geometry

/-- Byte offset of the entry of `cluster` in the FAT copy `step` copies after
the active one. -/
def entryAt (geo : Geometry) (step cluster : Nat) : Nat :=
  geo.fatCopy (geo.activeFat ^^^ step) + geo.kind.entryOffset cluster

end Geometry

namespace FatKind

def cleanByte (kind : FatKind) : Nat := Nat.log2 kind.cleanBit / 8

def cleanMask (kind : FatKind) : UInt8 := u8 (kind.cleanBit >>> (kind.cleanByte * 8))

def withClean (kind : FatKind) (clean : Bool) (byte : UInt8) : UInt8 :=
  if clean then byte ||| kind.cleanMask else byte &&& ~~~kind.cleanMask

end FatKind

/-- Byte offset of the clean bit in the FAT copy `step` copies after the active
one. -/
def Geometry.cleanAt (geo : Geometry) (step : Nat) : Nat :=
  geo.entryAt step 1 + geo.kind.cleanByte

/-- What the driver knows of the clean bit. -/
inductive Dirty where
  | clean
  | marking
  | marked
  | clearing
  | preserve
deriving DecidableEq, Repr

/-- What a driver tracks about the FATs of a volume between calls. -/
structure Fat where
  geo : Geometry
  free : Option Nat
  counted : Bool
  nextFree : Nat
  fsInfo : Option Nat
  infoDirty : Bool
  unmirrored : Option (Nat × Nat)
  split : Option (Nat × Nat × Bool)
  dirty : Dirty
  wasDirty : Bool
  keepDirty : Bool
deriving DecidableEq, Repr

namespace Fat

def new (geo : Geometry) : Fat where
  geo := geo
  free := .none
  counted := false
  nextFree := firstDataCluster
  fsInfo := .none
  infoDirty := false
  unmirrored := .none
  split := .none
  dirty := .clean
  wasDirty := false
  keepDirty := false

def opened (geo : Geometry) (wasDirty : Bool) : Fat :=
  { Fat.new geo with
    wasDirty := wasDirty
    dirty := if wasDirty then .preserve else .clean
    keepDirty := wasDirty }

def preserveDirty (fat : Fat) : Fat := { fat with keepDirty := true }

def markClean (fat : Fat) : Fat :=
  { fat with
    keepDirty := false
    dirty := if fat.dirty = .preserve then .marked else fat.dirty }

def forgetUnmirrored (fat : Fat) : Fat := { fat with unmirrored := .none, split := .none }

def isCluster (fat : Fat) (cluster : Nat) : Bool :=
  firstDataCluster ≤ cluster && cluster ≤ fat.geo.maxCluster

def checkCluster {σ : Type} (fat : Fat) (cluster : Nat) : Prog σ Stop Nat :=
  if fat.isCluster cluster then pure cluster else Prog.fail (.ofKind .corrupt)

def full (fat : Fat) : Bool := fat.free == some 0 && fat.counted

def adjustFree (fat : Fat) (freed taken : Nat) : Fat :=
  let total := fat.geo.maxCluster - 1
  { fat with
    free := (fat.free.bind fun free =>
      if free + freed < taken then .none else some (free + freed - taken)).map (min · total)
    infoDirty := true }

/-- Whether the entries of `a` and `b` lie in one device block of every FAT
copy written. -/
def sameFatBlock (fat : Fat) (size a b : Nat) : Bool :=
  (List.range fat.geo.copies).all fun step =>
    let a := fat.geo.entryAt step a
    let b := fat.geo.entryAt step b
    a / size == b / size &&
      (a + fat.geo.kind.entryLen - 1) / size == a / size &&
      (b + fat.geo.kind.entryLen - 1) / size == b / size

/-- The first cluster whose entry lies in the device block of the active copy
that holds the entry of `cluster`. -/
def blockBase (fat : Fat) (size cluster : Nat) : Nat :=
  let at_ := fat.geo.entryAt 0 cluster
  (at_ / size * size - fat.geo.fatCopy fat.geo.activeFat) / fat.geo.kind.entryLen

/-- Whether `cluster` was free before a write of its entry, which reads as
`stored`: the entry of an interrupted write across two blocks is half old. -/
def wasFree (fat : Fat) (cluster stored : Nat) : Bool :=
  match fat.split with
  | some (pending, _, free) => if pending = cluster then free
      else stored &&& fat.geo.kind.mask == 0
  | .none => stored &&& fat.geo.kind.mask == 0

def after (fat : Fat) (cluster : Nat) : Nat :=
  if cluster = fat.geo.maxCluster then firstDataCluster else cluster + 1

def get (fat : Fat) (cluster : Nat) : Prog Io Stop Nat := do
  let _ ← fat.checkCluster cluster
  let bytes ← Io.readBytes (fat.geo.entryAt 0 cluster) fat.geo.kind.entryLen
  pure (fat.geo.kind.decode cluster bytes)

def next (fat : Fat) (cluster : Nat) : Prog Io Stop (Option Nat) := do
  let stored ← fat.get cluster
  match fat.geo.kind.next stored fat.geo.maxCluster with
  | .ok next => pure next
  | .error .bad => Prog.fail Detail.badCluster.corrupt
  | .error (.outOfBounds _) => Prog.fail Detail.brokenChain.corrupt

def walkLoop (fat : Fat) : Nat → ChainPos → Prog Io Stop ChainPos
  | 0, at_ => pure at_
  | steps + 1, at_ => do
      match ← fat.next at_.cluster with
      | .none => pure at_
      | some next =>
        match at_.advance next with
        | some at_ => walkLoop fat steps at_
        | .none => Prog.fail Detail.cyclicChain.corrupt

/-- Walks the chain at `first` towards cluster index `want`, from `from_` when
that is a known position at or before `want`. -/
def walk (fat : Fat) (first : Nat) (from_ : ChainPos) (want : Nat) : Prog Io Stop ChainPos :=
  if from_.cluster ≠ 0 ∧ from_.index ≤ want then fat.walkLoop (want - from_.index) from_
  else do
    let first ← fat.checkCluster first
    fat.walkLoop want (ChainPos.start first)

def runLoop (fat : Fat) (max : Nat) : Nat → Nat → ChainPos → Prog Io Stop (Nat × ChainPos)
  | 0, n, at_ => pure (n, at_)
  | fuel + 1, n, at_ =>
    if n < max then do
      match ← fat.next at_.cluster with
      | some next =>
        if next = at_.cluster + 1 then
          match at_.advance next with
          | .none => Prog.fail Detail.cyclicChain.corrupt
          | some at_ => runLoop fat max fuel (min (n + fat.geo.clusterSize) max) at_
        else pure (n, at_)
      | .none => pure (n, at_)
    else pure (n, at_)

/-- Extends `n` bytes that start in the cluster at `at_` over the clusters that
follow it on disk and in its chain, up to `max` bytes. -/
def run (fat : Fat) (at_ : ChainPos) (n max : Nat) : Prog Io Stop (Nat × ChainPos) :=
  fat.runLoop max max n at_

def writeCleanBitAt (fat : Fat) (clean : Bool) (step : Nat) : Prog Io Stop Unit := do
  let size ← Io.blockSize
  let at_ := fat.geo.cleanAt step
  let index := at_ / size
  let within := at_ % size
  Io.load index
  let data ← Io.contents
  let before := data.getD within 0
  let after := fat.geo.kind.withClean clean before
  Prog.when (before ≠ after) do
    Io.contentsMut fun data => data.set within after
    Io.store index

def writeCleanBit (fat : Fat) (clean : Bool) : Prog Io Stop Unit :=
  Prog.each (fat.writeCleanBitAt clean) (List.range' 0 fat.geo.copies)

/-- The bytes of the device block at byte `start` with the entries of `members`,
the highest first, stored in it: each points to the one before it in the list,
the first to `value`; without links, all are freed. Also counts the clusters
taken and freed. `none` when an entry is not in the block. -/
def patchEntries (kind : FatKind) (link : Bool) (start : Nat) (entryAt : Nat → Nat) :
    List Nat → Nat → List UInt8 → Nat × Nat → Option (List UInt8 × Nat × Nat)
  | [], _, data, counts => some (data, counts)
  | cluster :: rest, value, data, (taken, freed) =>
    let at_ := entryAt cluster - start
    let len := kind.entryLen
    if entryAt cluster < start ∨ data.length < at_ + len then .none
    else
      let entry := (data.drop at_).take len
      let wasFree : Bool := kind.decode cluster entry &&& kind.mask == 0
      let isFree : Bool := value &&& kind.mask == 0
      let data := data.take at_ ++ kind.encode cluster value entry ++ data.drop (at_ + len)
      let counts := if wasFree && !isFree then (taken + 1, freed)
        else if !wasFree && isFree then (taken, freed + 1)
        else (taken, freed)
      patchEntries kind link start entryAt rest (if link then cluster else value) data counts

/-- The device block at byte `start` with the entries of `group` stored in it,
and that of `tail`, which is linked to the group. -/
def patchBlock (kind : FatKind) (start : Nat) (entryAt : Nat → Nat) (group : ClusterGroup)
    (chain tail : Option Nat) (block : List UInt8) : Option (List UInt8 × Nat × Nat) := do
  let (data, counts) ← patchEntries kind chain.isSome start entryAt group.members (chain.getD 0)
    block (0, 0)
  match tail with
  | .none => some (data, counts)
  | some tail => do
      let (data, _) ← patchEntries kind false start entryAt [tail] group.lowest data (0, 0)
      some (data, counts)

def storeGroup (fat : Fat) (group : ClusterGroup) (chain tail : Option Nat) (step : Nat) :
    Prog Io Stop (Nat × Nat) := do
  let size ← Io.blockSize
  let index := fat.geo.entryAt step group.lowest / size
  Io.update index (patchBlock fat.geo.kind (index * size) (fat.geo.entryAt step) group chain tail)

end Fat

/-- A volume as a primitive borrows it. -/
abbrev Vol := Borrow Fat

namespace Vol

open Borrow (getState onIo reading setHeld setState)

/-- Clears and flushes the FAT16/32 clean bit before the first write after
mounting or `clearDirty`. FAT12 and a volume already dirty at mount need no
marker write. -/
def beginWrite : Prog Vol Stop Unit := do
  let fat ← getState
  if fat.geo.kind.cleanBit = 0 ∨ fat.dirty = .marked ∨ fat.dirty = .preserve then pure ()
  else do
    setState fun fat => { fat with dirty := .marking }
    onIo (fat.writeCleanBit false)
    onIo Io.flush
    setState fun fat => { fat with dirty := .marked }

def clearDirty : Prog Vol Stop Unit := do
  onIo Io.flush
  let fat ← getState
  if fat.keepDirty then do
    Prog.when (¬ (fat.dirty = .marked ∨ fat.dirty = .preserve)) beginWrite
    setState fun fat => { fat with dirty := .preserve }
  else if fat.dirty = .marking ∨ fat.dirty = .marked ∨ fat.dirty = .clearing then do
    setState fun fat => { fat with dirty := .clearing }
    onIo (fat.writeCleanBit true)
    onIo Io.flush
    setState fun fat => { fat with dirty := .clean }
  else pure ()

/-- Stores `value` as the entry of `cluster` in the FAT copy `step` copies
after the active one. -/
def putEntry (step cluster value : Nat) : Prog Vol Stop Unit := do
  beginWrite
  let fat ← getState
  let size ← onIo Io.blockSize
  let kind := fat.geo.kind
  let at_ := fat.geo.entryAt step cluster
  let bytes ← onIo (Io.readBytes at_ kind.entryLen)
  let split : Bool := step == 0 && decide (size < at_ % size + kind.entryLen)
  let wasFree := fat.wasFree cluster (kind.decode cluster bytes)
  Prog.when (split = true) (setState fun fat => { fat with
    split := some (cluster, value, wasFree), unmirrored := some (cluster, cluster) })
  onIo (Io.put false at_ (kind.encode cluster value bytes))
  let isFree : Bool := value &&& kind.mask == 0
  Prog.when (step = 0 ∧ wasFree ≠ isFree)
    (setState fun fat => if isFree then fat.adjustFree 1 0 else fat.adjustFree 0 1)
  Prog.when (split = true) (setState fun fat => { fat with split := .none })

def mirrorEntry (cluster : Nat) : Prog Vol Stop Unit := do
  let fat ← getState
  let kind := fat.geo.kind
  let stored ← onIo (fat.get cluster)
  let value := stored &&& kind.mask
  Prog.each (fun step => do
    let bytes ← onIo (Io.readBytes (fat.geo.entryAt step cluster) kind.entryLen)
    Prog.when (kind.decode cluster bytes &&& kind.mask ≠ value) (putEntry step cluster value))
    (List.range' 1 (fat.geo.fatCount - 1))

/-- Copies the active FAT entries an interrupted `set`, `allocateRun` or
`freeChain` left unmirrored to the other copies, where they differ. An
interrupted active FAT12 entry spanning two device blocks is completed
first. -/
def mirror : Prog Vol Stop Unit := do
  let fat ← getState
  Prog.whenSome fat.split fun (cluster, value, _) => putEntry 0 cluster value
  let fat ← getState
  Prog.whenSome fat.unmirrored fun (first, last) => do
    Prog.when (fat.geo.mirrored = true)
      (Prog.each mirrorEntry (List.range' first (min last fat.geo.maxCluster + 1 - first)))
    setState fun fat => { fat with unmirrored := .none }

/-- Stores `value` as the FAT entry of `cluster`, in the active copy first,
then in the others when the volume mirrors its FATs. -/
def set (cluster value : Nat) : Prog Vol Stop Unit := do
  let fat ← getState
  let _ ← fat.checkCluster cluster
  let copies := fat.geo.copies
  Prog.when (fat.split.isSome ∨ fat.unmirrored.any (· ≠ (cluster, cluster))) mirror
  Prog.when (1 < copies) (setState fun fat => { fat with unmirrored := some (cluster, cluster) })
  Prog.each (fun step => putEntry step cluster value) (List.range' 0 copies)
  setState fun fat => { fat with unmirrored := .none }

def patchCopy (group : ClusterGroup) (chain tail : Option Nat) (step : Nat) :
    Prog Vol Stop Unit := do
  let fat ← getState
  let (taken, freed) ← onIo (fat.storeGroup group chain tail step)
  Prog.when (step = 0 ∧ taken ≠ freed) (setState fun fat => fat.adjustFree freed taken)

/-- Writes the entries of `group`, which share a device block in every copy,
one block write per copy, active copy first. With `chain`, the clusters are
linked in ascending order and the highest points to `chain`; without, they are
freed. `tail` shares the block and is linked to the group. -/
def patch (group : ClusterGroup) (chain tail : Option Nat) : Prog Vol Stop Unit := do
  beginWrite
  let fat ← getState
  let copies := fat.geo.copies
  Prog.when (1 < copies) do
    let low := group.lowest
    let high := group.highest?.getD low
    let range := (min low (tail.getD low), max high (tail.getD high))
    Prog.when (fat.unmirrored.any (· ≠ range)) mirror
    setState fun fat => { fat with unmirrored := some range }
  Prog.each (patchCopy group chain tail) (List.range' 0 copies)
  setState fun fat => { fat with unmirrored := .none }

def findFreeLoop (fat : Fat) : Nat → Nat → Prog Io Stop (Option Nat)
  | 0, _ => pure .none
  | turns + 1, cluster => do
      let stored ← fat.get cluster
      if stored &&& fat.geo.kind.mask = 0 then pure (some cluster)
      else findFreeLoop fat turns (fat.after cluster)

def clampCluster (fat : Fat) (cluster : Nat) : Nat :=
  min (max cluster firstDataCluster) fat.geo.maxCluster

def findFree : Prog Vol Stop Nat := do
  let fat ← getState
  if fat.full then Prog.fail (.ofKind .noSpace)
  else do
    let count := fat.geo.maxCluster - firstDataCluster + 1
    match ← onIo (findFreeLoop fat count (clampCluster fat fat.nextFree)) with
    | some cluster => pure cluster
    | .none => do
        Prog.when (fat.free ≠ some 0)
          (setState fun fat => { fat with free := some 0, infoDirty := true })
        setState fun fat => { fat with counted := true }
        Prog.fail (.ofKind .noSpace)

def setNextFree (cluster : Nat) : Prog Vol Stop Unit :=
  setState fun fat => { fat with nextFree := fat.after cluster }

/-- Takes a free cluster and marks it as the end of a chain. The cluster is
recorded before it is marked: as the head when there is none, else as the extra
cluster. -/
def allocate : Prog Vol Stop Nat := do
  let cluster ← findFree
  setHeld fun held =>
    if held.head = 0 then { held with head := cluster } else { held with extra := cluster }
  let fat ← getState
  set cluster fat.geo.kind.endOfChain
  setNextFree cluster
  setState fun fat => { fat with infoDirty := true }
  pure cluster

/-- Marks `cluster` as the end of a chain and links `tail` to it, with one block
write per copy when their entries share a block. -/
def linkAfter (share : Bool) (tail cluster end_ : Nat) : Prog Vol Stop Unit :=
  if share then patch ((ClusterGroup.new cluster).add cluster) (some end_) (some tail)
  else do
    set cluster end_
    set tail cluster

/-- Allocates one cluster and links the end of a chain, `tail`, to it. When
both entries share a device block in every written FAT copy, both updates use
one block write per copy. -/
def allocateAfter (tail : Nat) : Prog Vol Stop Nat := do
  let held ← Prog.gets fun vol : Vol => vol.held
  if held ≠ some Held.none then Prog.fail (.ofKind .invalidInput)
  else do
    match ← reading fun fat => fat.next tail with
    | some _ => Prog.fail (.ofKind .invalidInput)
    | .none => do
        let cluster ← findFree
        setHeld fun held => { held with head := cluster }
        let fat ← getState
        let size ← onIo Io.blockSize
        let end_ := fat.geo.kind.endOfChain
        linkAfter (fat.sameFatBlock size tail cluster) tail cluster end_
        setNextFree cluster
        setState fun fat => { fat with infoDirty := true }
        pure cluster

def cyclicAt (total from_ step : Nat) : Nat :=
  let relative := from_ + step
  firstDataCluster + if total ≤ relative then relative - total else relative

/-- Scans `turns` clusters from `step` on until `count` free ones are found:
the number found and the step of the last. -/
def scanFree (fat : Fat) (total from_ count : Nat) :
    Nat → Nat → Nat → Prog Io Stop (Nat × Option Nat)
  | 0, _, found => pure (found, .none)
  | turns + 1, step, found => do
      let stored ← fat.get (cyclicAt total from_ step)
      if stored &&& fat.geo.kind.mask = 0 then
        if found + 1 = count then pure (found + 1, some step)
        else scanFree fat total from_ count turns (step + 1) (found + 1)
      else scanFree fat total from_ count turns (step + 1) found

/-- Gathers free clusters downwards from step `top`, as long as their entries
share a device block with that of `high`. -/
def gatherFree (fat : Fat) (size total from_ high : Nat) :
    Nat → ClusterGroup → Prog Io Stop (Nat × ClusterGroup)
  | 0, group => pure (0, group)
  | top + 1, group => do
      let cluster := cyclicAt total from_ top
      if high < cluster ∨ ¬ group.spans cluster ∨ ¬ fat.sameFatBlock size cluster high then
        pure (top + 1, group)
      else do
        let stored ← fat.get cluster
        gatherFree fat size total from_ high top
          (if stored &&& fat.geo.kind.mask = 0 then group.add cluster else group)

/-- Links the free clusters below step `top` into a chain before `head`, a
device block at a time. Returns the head of the chain and whether `tail` was
linked to it. Every turn lowers `top`, so it bounds the turns. -/
def linkGroups (total from_ : Nat) (tail : Option Nat) :
    Nat → Nat → Nat → Nat → Bool → Prog Vol Stop (Nat × Bool)
  | 0, _, _, head, linked => pure (head, linked)
  | _ + 1, 0, _, head, linked => pure (head, linked)
  | fuel + 1, top + 1, left, head, linked => do
      let fat ← getState
      let size ← onIo Io.blockSize
      let kind := fat.geo.kind
      let end_ := kind.endOfChain
      let high := cyclicAt total from_ top
      if ¬ fat.sameFatBlock size high high then do
        let stored ← onIo (fat.get high)
        if stored &&& kind.mask = 0 then do
          setHeld fun _ => ⟨if head = end_ then 0 else head, high⟩
          set high head
          setHeld fun _ => ⟨high, 0⟩
          linkGroups total from_ tail fuel top (left - 1) high linked
        else linkGroups total from_ tail fuel top left head linked
      else do
        let (top, group) ← onIo (gatherFree fat size total from_ high (top + 1)
          (ClusterGroup.new (high - (ClusterGroup.span - 1))))
        if group.count = 0 then linkGroups total from_ tail fuel top left head linked
        else do
          let link := tail.filter fun tail =>
            left = group.count && fat.sameFatBlock size tail group.lowest
          setHeld fun _ => ⟨if head = end_ then 0 else head, group.lowest⟩
          patch group (some head) link
          setHeld fun _ => ⟨group.lowest, 0⟩
          linkGroups total from_ tail fuel top (left - group.count) group.lowest
            (linked || link.isSome)

def allocateAtMostOne (count : Nat) : Prog Vol Stop Nat :=
  if count = 0 then pure 0 else allocate

def allocateFew (count : Nat) (tail : Option Nat) : Prog Vol Stop Nat := do
  let first ← allocateAtMostOne count
  Prog.whenSome tail fun tail => set tail first
  pure first

def allocateRunInner (count : Nat) (tail : Option Nat) : Prog Vol Stop Nat := do
  if count ≤ 1 then allocateFew count tail
  else do
    let fat ← getState
    if fat.full then Prog.fail (.ofKind .noSpace)
    else do
      let total := fat.geo.maxCluster - firstDataCluster + 1
      let from_ := clampCluster fat fat.nextFree - firstDataCluster
      match ← onIo (scanFree fat total from_ count total 0 0) with
      | (found, .none) => do
          Prog.when (fat.free ≠ some found)
            (setState fun fat => { fat with free := some found, infoDirty := true })
          setState fun fat => { fat with counted := true }
          Prog.fail (.ofKind .noSpace)
      | (_, some last) => do
          let (head, linked) ← linkGroups total from_ tail (last + 1) (last + 1) count
            fat.geo.kind.endOfChain false
          Prog.whenSome (tail.filter fun _ => !linked) fun tail => set tail head
          setNextFree (cyclicAt total from_ last)
          pure head

/-- Allocates a chain of `count` clusters, the first `count` free ones from the
allocation hint on, and returns its first cluster, 0 when `count` is 0. -/
def allocateRun (count : Nat) : Prog Vol Stop Nat := allocateRunInner count .none

def allocateRunAfter (tail count : Nat) : Prog Vol Stop Nat := do
  if count = 1 then allocateAfter tail
  else do
    let held ← Prog.gets fun vol : Vol => vol.held
    if count = 0 ∨ held ≠ some Held.none then Prog.fail (.ofKind .invalidInput)
    else do
      match ← reading fun fat => fat.next tail with
      | some _ => Prog.fail (.ofKind .invalidInput)
      | .none => allocateRunInner count (some tail)

def freeEach : Nat → Nat → Prog Vol Stop Unit
  | 0, _ => Prog.fail .diverged
  | fuel + 1, cluster => do
      let next ← reading fun fat => fat.next cluster
      setHeld fun _ => ⟨next.getD 0, cluster⟩
      set cluster 0
      match next with
      | some next => freeEach fuel next
      | .none => setHeld fun _ => Held.none

/-- How the clusters gathered to be freed end: with the cluster of the chain
that comes after them, or with the error met there. -/
abbrev ChainEnd := Except Stop (Option Nat)

/-- Gathers consecutive clusters of the chain at `cluster` whose entries share
a device block with it. -/
def gatherChain (fat : Fat) (size base : Nat) :
    Nat → Nat → ClusterGroup → Prog Io Stop (ChainEnd × ClusterGroup)
  | 0, _, _ => Prog.fail .diverged
  | fuel + 1, cluster, group =>
    if group.has cluster then pure (.error Detail.cyclicChain.corrupt, group)
    else do
      match ← Prog.attempt (fat.next cluster) with
      | .ok (some next) =>
        if base ≤ next ∧ fat.sameFatBlock size cluster next then
          gatherChain fat size base fuel next (group.add cluster)
        else pure (.ok (some next), group.add cluster)
      | .ok .none => pure (.ok .none, group.add cluster)
      | .error e => pure (.error e, group)

def freeGroups (turns : Nat) : Nat → Nat → Prog Vol Stop Unit
  | 0, _ => Prog.fail .diverged
  | fuel + 1, cluster => do
      let fat ← getState
      let size ← onIo Io.blockSize
      let base := fat.blockBase size cluster
      let (next, group) ← onIo (gatherChain fat size base turns cluster (ClusterGroup.new base))
      Prog.when (0 < group.count) do
        let after := (next.toOption.getD .none).getD 0
        setHeld fun _ => ⟨after, cluster⟩
        patch group .none .none
      match next with
      | .error e => Prog.fail e
      | .ok (some next) => freeGroups turns fuel next
      | .ok .none => setHeld fun _ => Held.none

/-- Frees the chain at `first`, which nothing links any more, in at most `turns` turns. -/
def freeChainFor (turns first : Nat) : Prog Vol Stop Unit := do
  let fat ← getState
  let cluster ← fat.checkCluster first
  if fat.geo.kind = .fat12 then freeEach turns cluster
  else freeGroups turns turns cluster

def countFreeLoop (fat : Fat) : List Nat → Nat → Prog Io Stop Nat
  | [], free => pure free
  | cluster :: rest, free => do
      let stored ← fat.get cluster
      countFreeLoop fat rest (if stored &&& fat.geo.kind.mask = 0 then free + 1 else free)

def countFree : Prog Vol Stop Nat := do
  let fat ← getState
  let free ← onIo (countFreeLoop fat
    (List.range' firstDataCluster (fat.geo.maxCluster + 1 - firstDataCluster)) 0)
  setState fun fat => { fat with free := some free, counted := true }
  pure free

def fsInfoFreeCount : Nat := 488

def unknownFree : Nat := 4294967295

/-- Writes the free count and allocation hint to the FAT32 FSInfo sector when
they changed since it was read or last written. -/
def writeFsInfo : Prog Vol Stop Unit := do
  let fat ← getState
  Prog.whenSome fat.fsInfo fun at_ => Prog.when (fat.infoDirty = true) do
    beginWrite
    onIo (Io.writeBytes (at_ + fsInfoFreeCount)
      (u32Bytes (fat.free.getD unknownFree) ++ u32Bytes fat.nextFree))
    setState fun fat => { fat with infoDirty := false }

end Vol

/-- The FSInfo sector as the driver reads it: whether its signatures are right,
the free count and the allocation hint. -/
structure RawFsInfo where
  valid : Bool
  freeCount : Nat
  nextFree : Nat

def RawFsInfo.read (sector : List UInt8) : RawFsInfo where
  valid := u32At sector 0 == 0x41615252 && u32At sector 484 == 0x61417272 &&
    u32At sector 508 == 0xAA550000
  freeCount := u32At sector 488
  nextFree := u32At sector 492

/-- Reads and checks the boot sector, and checks that the volume fits the
device. -/
def readGeometry : Prog Io Stop Geometry := do
  let sector ← Io.readBytes 0 bootSectorLen
  match parseBoot sector with
  | .error err => Prog.fail (Detail.boot err)
  | .ok geo => do
      let size ← Prog.gets fun io : Io => io.dev.size
      if size < geo.dataEnd then
        Prog.fail (.error ((Error.new .corrupt "volume is larger than the device").withDetail
          Detail.bootSector.code))
      else pure geo

def readDirty (fat : Fat) : Prog Io Stop Bool := do
  if fat.geo.kind.cleanBit = 0 then pure false
  else do
    let entry ← Io.readBytes (fat.geo.entryAt 0 1) fat.geo.kind.entryLen
    pure (fat.geo.kind.decode 1 entry &&& fat.geo.kind.cleanBit == 0)

/-- The state of a volume with geometry `geo`, with the free count and
allocation hint of its FAT32 FSInfo sector when that is valid. -/
def readFat (geo : Geometry) : Prog Io Stop Fat := do
  let wasDirty ← readDirty (Fat.new geo)
  let fat := Fat.opened geo wasDirty
  match geo.fsInfoSector with
  | none => pure fat
  | some at_ => do
      let offset := at_ * geo.sectorSize
      let sector ← Io.readBytes offset bootSectorLen
      let info := RawFsInfo.read sector
      pure { fat with
        free := if info.valid ∧ ¬ fat.wasDirty ∧ info.freeCount < geo.maxCluster then
          some info.freeCount else none
        nextFree := if info.valid ∧ firstDataCluster ≤ info.nextFree ∧
          info.nextFree ≤ geo.maxCluster then info.nextFree else fat.nextFree
        fsInfo := if info.valid then some offset else none }

end Hadris
