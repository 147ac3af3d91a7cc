import Hadris.Borrow
import Hadris.Exfat.Geometry
import Mathlib.Data.Nat.Count

namespace Hadris.Exfat

/-- A chain of clusters that holds a system structure. -/
structure Extent where
  first : Nat
  len : Nat
  contiguous : Bool
deriving DecidableEq, Repr

/-- The state of a bitmap bit. -/
inductive ClusterState where
  | free
  | used
deriving DecidableEq, Repr

/-- Whether `VolumeDirty` was set, and by whom. -/
inductive Dirty where
  | clean
  | marked
  | inherited
deriving DecidableEq, Repr

/-- What a driver tracks about an exFAT volume between calls. -/
structure ExFat where
  geo : Geometry
  flags : Nat
  dirty : Dirty
  wasDirty : Bool
  bitmap : Extent
  mirror : Option Extent
  hint : ChainPos
  free : Option Nat
  nextFree : Nat
  changed : Bool
deriving DecidableEq, Repr

namespace ExFat

def new (geo : Geometry) (bitmap : Extent) (mirror : Option Extent) : ExFat where
  geo := geo
  flags := geo.flags
  dirty := if geo.flags &&& volumeDirty ≠ 0 then .inherited else .clean
  wasDirty := geo.flags &&& volumeDirty != 0
  bitmap := bitmap
  mirror := mirror
  hint := ChainPos.none
  free := none
  nextFree := firstCluster
  changed := false

def markClean (ex : ExFat) : ExFat :=
  { ex with dirty := if ex.dirty = .inherited then .marked else ex.dirty }

def adjustFree (ex : ExFat) (flips : Nat) (state : ClusterState) : ExFat :=
  { ex with
    changed := true
    free := ex.free.bind fun free => match state with
      | .used => if free < flips then none else some (free - flips)
      | .free => some (min (free + flips) ex.geo.clusterCount) }

end ExFat

def bitAt (bytes : List UInt8) (i : Nat) : Bool := (byteAt bytes (i / 8)).testBit (i % 8)

def bitsSetLoop (bytes : List UInt8) (end_ : Nat) : Nat → Nat → Bool
  | 0, _ => true
  | fuel + 1, bit =>
    if bit < end_ then
      let base := bit / 8 * 8
      let mask := (0xFF <<< (bit - base)) &&& (1 <<< min (end_ - base) 8 - 1)
      if byteAt bytes (base / 8) &&& mask ≠ mask then false
      else bitsSetLoop bytes end_ fuel (base + 8)
    else true

/-- Whether `count` bits from bit `from_` on are all set. Bits past the end
count as clear. -/
def bitsSet (bytes : List UInt8) (from_ count : Nat) : Bool :=
  if bytes.length * 8 < from_ + count then false
  else bitsSetLoop bytes (from_ + count) count from_

section Chains

variable {σ : Type} (geo : Geometry)

def checkCluster (cluster : Nat) : Prog σ Stop Nat :=
  if geo.isCluster cluster then pure cluster else Prog.fail (.ofKind .corrupt)

def clusterAt (cluster : Nat) : Prog σ Stop Nat :=
  match geo.clusterOffset cluster with
  | some at_ => pure at_
  | none => Prog.fail (.ofKind .corrupt)

def fatEntry (cluster : Nat) : Prog Io Stop Nat := do
  let bytes ← Io.readBytes (Geometry.entryAt geo.fatStart cluster) 4
  pure (u32At bytes 0)

def get (cluster : Nat) : Prog Io Stop Nat :=
  if geo.maxCluster < cluster then Prog.fail (.ofKind .corrupt) else fatEntry geo cluster

def next (cluster : Nat) : Prog Io Stop (Option Nat) := do
  let entry ← get geo cluster
  if entry = fatEnd then pure none
  else if geo.isCluster entry then pure (some entry)
  else if entry = fatBad then Prog.fail Detail.badCluster.corrupt
  else Prog.fail Detail.brokenChain.corrupt

def locateLoop : Nat → ChainPos → Prog Io Stop ChainPos
  | 0, at_ => pure at_
  | turns + 1, at_ => do
      match ← next geo at_.cluster with
      | none => Prog.fail (.ofKind .corrupt)
      | some next =>
        match at_.advance next with
        | some at_ => locateLoop turns at_
        | none => Prog.fail Detail.cyclicChain.corrupt

/-- The position of cluster `want` of `extent`, walked from `from_` when it is
not past `want`. -/
def locate (extent : Extent) (from_ : ChainPos) (want : Nat) : Prog Io Stop ChainPos :=
  if extent.contiguous then do
    let cluster ← checkCluster geo (extent.first + want)
    pure (ChainPos.new want cluster)
  else if from_.cluster ≠ 0 ∧ from_.index ≤ want then locateLoop geo (want - from_.index) from_
  else do
    let first ← checkCluster geo extent.first
    locateLoop geo want (ChainPos.start first)

def sameFatBlock (size a b : Nat) : Bool :=
  geo.fats.all fun base => Geometry.entryAt base a / size == Geometry.entryAt base b / size

end Chains

/-- A volume as a primitive borrows it. -/
abbrev Vol := Borrow ExFat

namespace Vol

open Borrow (getState onIo setHeld setState)

def volumeFlagsAt : Nat := 106

def percentAt : Nat := 112

def clearFlag (flags mask : Nat) : Nat := flags &&& (0xFFFF ^^^ mask)

def writeFlags (flags : Nat) : Prog Vol Stop Unit := do
  onIo (Io.writeBytes volumeFlagsAt (u16Bytes flags))
  setState fun ex => { ex with flags := flags }

/-- Sets `VolumeDirty` and flushes the device before the first write after
mounting or `clearDirty`, unless it was set at mount. -/
def beginWrite : Prog Vol Stop Unit := do
  let ex ← getState
  Prog.when (ex.dirty = .clean) do
    writeFlags (clearFlag (ex.flags ||| volumeDirty) volumeClearToZero)
    -- the state moves on before the flush that makes the flag durable
    setState fun ex => { ex with dirty := .marked }
    onIo Io.flush

def clearDirty : Prog Vol Stop Unit := do
  let ex ← getState
  Prog.when (ex.dirty = .marked) do
    onIo Io.flush
    writeFlags (clearFlag ex.flags volumeDirty)
    setState fun ex => { ex with dirty := .clean }

def write (offset : Nat) (data : List UInt8) : Prog Vol Stop Unit := do
  beginWrite
  onIo (Io.writeBytes offset data)

/-- Stores `value` as the FAT entry of `cluster`, in the FAT that is not active
first. -/
def set (cluster value : Nat) : Prog Vol Stop Unit := do
  let ex ← getState
  let _ ← checkCluster ex.geo cluster
  Prog.each (fun base => write (Geometry.entryAt base cluster) (u32Bytes value)) ex.geo.fats

def bitmapOffset (pos : Nat) : Prog Vol Stop Nat := do
  let ex ← getState
  let hint ← onIo (locate ex.geo ex.bitmap ex.hint (pos / ex.geo.clusterSize))
  setState fun ex => { ex with hint := hint }
  let at_ ← clusterAt ex.geo hint.cluster
  pure (at_ + pos % ex.geo.clusterSize)

def mirrorOffset (mirror : Extent) (pos : Nat) : Prog Vol Stop Nat := do
  let ex ← getState
  let other ← onIo (locate ex.geo mirror ChainPos.none (pos / ex.geo.clusterSize))
  let at_ ← clusterAt ex.geo other.cluster
  pure (at_ + pos % ex.geo.clusterSize)

/-- At most `len` bytes of the active bitmap from byte `pos` on, to the end of a
cluster. -/
def bitmapBytes (pos len : Nat) : Prog Vol Stop (List UInt8) := do
  let ex ← getState
  let at_ ← bitmapOffset pos
  onIo (Io.readBytes at_ (min len (ex.geo.clusterSize - pos % ex.geo.clusterSize)))

def bit (cluster : Nat) : Prog Vol Stop Bool := do
  let ex ← getState
  let cluster ← checkCluster ex.geo cluster
  let index := cluster - firstCluster
  let byte ← bitmapBytes (index / 8) 1
  pure (bitAt byte (index % 8))

def runUsedLoop (end_ : Nat) : Nat → Nat → Prog Vol Stop Bool
  | 0, _ => pure true
  | fuel + 1, bit =>
    if bit < end_ then do
      let chunk ← bitmapBytes (bit / 8) (min (divCeil end_ 8 - bit / 8) 64)
      let span := min (chunk.length * 8 - bit % 8) (end_ - bit)
      if bitsSet chunk (bit % 8) span then runUsedLoop end_ fuel (bit + span) else pure false
    else pure true

/-- Whether the active bitmap marks the `count` clusters from `first` on
used. -/
def runUsed (first count : Nat) : Prog Vol Stop Bool := do
  if count = 0 then pure true
  else do
    let ex ← getState
    let first ← checkCluster ex.geo first
    let _ ← checkCluster ex.geo (first + (count - 1))
    let start := first - firstCluster
    runUsedLoop (start + count) count start

def withBit (state : ClusterState) (i : Nat) (byte : UInt8) : UInt8 :=
  match state with
  | .used => byte ||| u8 (2 ^ i)
  | .free => byte &&& ~~~u8 (2 ^ i)

/-- Sets the bitmap bit of `cluster`, in the bitmap of the FAT that is not
active first. A bit already in that state is not written. -/
def setBit (cluster : Nat) (state : ClusterState) : Prog Vol Stop Unit := do
  let ex ← getState
  let cluster ← checkCluster ex.geo cluster
  let index := cluster - firstCluster
  let at_ ← bitmapOffset (index / 8)
  let byte ← onIo (Io.readBytes at_ 1)
  Prog.when (bitAt byte (index % 8) ≠ decide (state = .used)) do
    Prog.whenSome ex.mirror fun mirror => do
      let otherAt ← mirrorOffset mirror (index / 8)
      let other ← onIo (Io.readBytes otherAt 1)
      write otherAt [withBit state (index % 8) (other.getD 0 0)]
    write at_ [withBit state (index % 8) (byte.getD 0 0)]
    setState fun ex => ex.adjustFree 1 state

/-- A device block of a bitmap, and the offset its byte 0 would have if the
bitmap were contiguous up to that block. -/
abbrev Place := Nat × Nat

/-- Where the bits around `cluster` are, in the active bitmap and in the one of
the other FAT. -/
def bitPlace (cluster : Nat) : Prog Vol Stop (Place × Place) := do
  let size ← onIo Io.blockSize
  let ex ← getState
  let cluster ← checkCluster ex.geo cluster
  let byte := (cluster - firstCluster) / 8
  let at_ ← bitmapOffset byte
  match ex.mirror with
  | none => pure ((at_ / size, at_ - byte), (0, 0))
  | some mirror => do
      let other ← mirrorOffset mirror byte
      pure ((at_ / size, at_ - byte), (other / size, other - byte))

/-- The block at byte `start` with the bits of `clusters` in `state`, `origin`
being the offset of the byte of bit 0, and how many bits flipped. `none` when a
bit is not in the block. -/
def patchBitmap (state : ClusterState) (start origin : Nat) :
    List Nat → List UInt8 → Nat → Option (List UInt8 × Nat)
  | [], data, flips => some (data, flips)
  | cluster :: rest, data, flips =>
    let bit := cluster - firstCluster
    let at_ := origin + bit / 8 - start
    if origin + bit / 8 < start ∨ data.length ≤ at_ then none
    else
      let byte := data.getD at_ 0
      let flips := if byte.toNat.testBit (bit % 8) = decide (state = .used)
        then flips else flips + 1
      patchBitmap state start origin rest (data.set at_ (withBit state (bit % 8) byte)) flips

/-- Writes the bits of `group`, which lie in one device block of a bitmap, and
says how many flipped. -/
def storeBits (group : ClusterGroup) (place : Place) (state : ClusterState) :
    Prog Io Stop Nat := do
  let size ← Io.blockSize
  Io.update place.1 fun block => patchBitmap state (place.1 * size) place.2 group.members block 0

def patchBits (group : ClusterGroup) (place : Place × Place) (state : ClusterState) :
    Prog Vol Stop Unit := do
  beginWrite
  let ex ← getState
  Prog.when (ex.mirror.isSome = true) do
    let _ ← onIo (storeBits group place.2 state)
    pure ()
  let flips ← onIo (storeBits group place.1 state)
  setState fun ex => ex.adjustFree flips state

/-- Gathers the clusters from `cluster` on, below `end_`, whose bits share
`place`. -/
def gatherBits (place : Place × Place) (end_ : Nat) :
    Nat → Nat → ClusterGroup → Prog Vol Stop (Nat × ClusterGroup)
  | 0, cluster, group => pure (cluster, group)
  | fuel + 1, cluster, group =>
    if cluster < end_ ∧ group.spans cluster then do
      let other ← bitPlace cluster
      if other = place then gatherBits place end_ fuel (cluster + 1) (group.add cluster)
      else pure (cluster, group)
    else pure (cluster, group)

def setBitsLoop (end_ : Nat) (state : ClusterState) : Nat → Nat → Prog Vol Stop Unit
  | 0, _ => pure ()
  | fuel + 1, cluster =>
    if cluster < end_ then do
      let place ← bitPlace cluster
      let (next, group) ← gatherBits place end_ fuel (cluster + 1)
        ((ClusterGroup.new cluster).add cluster)
      patchBits group place state
      setBitsLoop end_ state fuel next
    else pure ()

/-- Sets the bits of the `count` clusters from `first` on, with one write for
the bits that share a device block of each bitmap. -/
def setBits (first count : Nat) (state : ClusterState) : Prog Vol Stop Unit :=
  Prog.when (count ≠ 0) do
    let ex ← getState
    let first ← checkCluster ex.geo first
    let _ ← checkCluster ex.geo (first + count - 1)
    setBitsLoop (first + count) state count first

/-- The block at byte `start` with the entries of `clusters` in the FAT at
`base` stored in it, the highest first: that points to `next`, and each other to
the one before it in the list. `none` when an entry is not in the block. -/
def patchLinks (start base : Nat) : List Nat → Nat → List UInt8 → Option (List UInt8)
  | [], _, data => some data
  | cluster :: rest, next, data =>
    let at_ := Geometry.entryAt base cluster - start
    if Geometry.entryAt base cluster < start ∨ data.length < at_ + 4 then none
    else patchLinks start base rest cluster
      (data.take at_ ++ u32Bytes next ++ data.drop (at_ + 4))

def storeLinks (group : ClusterGroup) (next base : Nat) : Prog Io Stop Unit := do
  let size ← Io.blockSize
  let index := Geometry.entryAt base group.lowest / size
  Io.update index fun block =>
    (patchLinks (index * size) base group.members next block).map fun data => (data, ())

/-- Writes the entries of `group`, which share a device block of every FAT,
linked in ascending order, the highest to `next`: the mirror FAT first. -/
def patchFat (group : ClusterGroup) (next : Nat) : Prog Vol Stop Unit := do
  beginWrite
  let ex ← getState
  Prog.each (fun base => onIo (storeLinks group next base)) ex.geo.fats

/-- Gathers the clusters below `top`, down to `first`, whose entries share a
device block of every FAT with that of `high`. -/
def gatherRun (geo : Geometry) (size first high : Nat) : Nat → ClusterGroup → Nat × ClusterGroup
  | 0, group => (0, group)
  | top + 1, group =>
    if first < top + 1 ∧ sameFatBlock geo size top high ∧ group.spans top then
      gatherRun geo size first high top (group.add top)
    else (top + 1, group)

def linkRunLoop (first : Nat) : Nat → Nat → Nat → Prog Vol Stop Unit
  | 0, _, _ => pure ()
  | fuel + 1, top, head =>
    if first < top then do
      let ex ← getState
      let size ← onIo Io.blockSize
      let (top, group) := gatherRun ex.geo size first (top - 1) top
        (ClusterGroup.new (top - 1 - (ClusterGroup.span - 1)))
      patchFat group head
      linkRunLoop first fuel top group.lowest
    else pure ()

/-- Links the `count` clusters from `first` on into one chain, from its end back
to its start, as a contiguous allocation becomes a chained one. -/
def linkRun (first count : Nat) : Prog Vol Stop Unit :=
  Prog.when (count ≠ 0) do
    let ex ← getState
    let first ← checkCluster ex.geo first
    let _ ← checkCluster ex.geo (first + count - 1)
    linkRunLoop first count (first + count) fatEnd

def clusterMask (count first : Nat) : Nat :=
  if count < first + 8 then (1 <<< (count - first)) % 256 - 1 else 0xFF

def countOnes (byte : Nat) : Nat := Nat.count (fun i => byte.testBit i) 8

/-- The used clusters among the first `count`, of the bits of a chunk from byte
`pos` on. -/
def usedIn (count : Nat) : Nat → List UInt8 → Nat
  | _, [] => 0
  | pos, byte :: rest => countOnes (byte.toNat &&& clusterMask count (pos * 8)) +
    usedIn count (pos + 1) rest

def countFreeLoop (count : Nat) : Nat → Nat → Nat → Prog Vol Stop Nat
  | 0, _, used => pure used
  | fuel + 1, pos, used =>
    if pos < divCeil count 8 then do
      let chunk ← bitmapBytes pos (min (divCeil count 8 - pos) 64)
      countFreeLoop count fuel (pos + chunk.length) (used + usedIn count pos chunk)
    else pure used

def countFree : Prog Vol Stop Nat := do
  let ex ← getState
  match ex.free with
  | some free => pure free
  | none => do
      let count := ex.geo.clusterCount
      let used ← countFreeLoop count (divCeil count 8) 0 0
      let free := count - min used count
      setState fun ex => { ex with free := some free }
      pure free

def writePercentInUse : Prog Vol Stop Unit := do
  let free ← countFree
  let ex ← getState
  let count := ex.geo.clusterCount
  write percentAt [u8 ((count - free) * 100 / count)]
  setState fun ex => { ex with changed := false }

/-- The clear bits of a bitmap chunk from byte `pos` on that are cluster
indices, without those below `from_` in the first chunk scanned. -/
def candidates (count from_ scanned pos : Nat) (chunk : List UInt8) : List Nat :=
  ((List.range (chunk.length * 8)).map (pos * 8 + ·)).filter fun candidate =>
    candidate < count && !bitAt chunk (candidate - pos * 8) &&
      !(scanned == 0 && candidate < from_)

def firstGood (geo : Geometry) : List Nat → Prog Io Stop (Option Nat)
  | [] => pure none
  | candidate :: rest => do
      let entry ← get geo (candidate + firstCluster)
      if entry = fatBad then firstGood geo rest else pure (some (candidate + firstCluster))

/-- Scans the bitmap from byte `index / 8` on, until `count + 8` bits were
scanned. Every turn scans eight bits or more. -/
def findFreeLoop (from_ : Nat) : Nat → Nat → Nat → Prog Vol Stop (Option Nat)
  | 0, _, _ => pure none
  | fuel + 1, scanned, index => do
      let ex ← getState
      let count := ex.geo.clusterCount
      if scanned < count + 8 then do
        let pos := index / 8
        let chunk ← bitmapBytes pos (min (divCeil count 8 - pos) 64)
        match ← onIo (firstGood ex.geo (candidates count from_ scanned pos chunk)) with
        | some cluster => pure (some cluster)
        | none =>
          let index := index + chunk.length * 8
          findFreeLoop from_ fuel (scanned + chunk.length * 8)
            (if count ≤ index then 0 else index)
      else pure none

def hintIndex (ex : ExFat) : Nat :=
  min (max ex.nextFree firstCluster) ex.geo.maxCluster - firstCluster

def setNextFree (cluster : Nat) : Prog Vol Stop Unit :=
  setState fun ex =>
    { ex with nextFree := if cluster = ex.geo.maxCluster then firstCluster else cluster + 1 }

/-- Takes a free cluster that is not marked bad, from the allocation hint on:
its FAT entry ends a chain and its bit is set. The cluster is recorded before
anything is written. -/
def allocate : Prog Vol Stop Nat := do
  let ex ← getState
  if ex.free = some 0 then Prog.fail (.ofKind .noSpace)
  else do
    let from_ := hintIndex ex
    match ← findFreeLoop from_ (ex.geo.clusterCount + 8) 0 (from_ / 8 * 8) with
    | none => do
        setState fun ex => { ex with free := some 0 }
        Prog.fail (.ofKind .noSpace)
    | some cluster => do
        setHeld fun held =>
          if held.head = 0 then { held with head := cluster } else { held with extra := cluster }
        set cluster fatEnd
        setBit cluster .used
        setNextFree cluster
        pure cluster

/-- Bitmap bytes from byte `start` on, kept across calls. -/
structure BitmapWindow where
  start : Nat
  bytes : List UInt8

namespace BitmapWindow

def new : BitmapWindow := ⟨0, []⟩

def refresh (window : BitmapWindow) (byte : Nat) : Prog Vol Stop BitmapWindow :=
  if byte < window.start ∨ window.bytes.length ≤ byte - window.start then do
    let bytes ← bitmapBytes (byte / 64 * 64) 64
    pure ⟨byte / 64 * 64, bytes⟩
  else pure window

def used (window : BitmapWindow) (cluster : Nat) : Prog Vol Stop (Bool × BitmapWindow) := do
  let index := cluster - firstCluster
  let window ← window.refresh (index / 8)
  let at_ := index / 8 - window.start
  if window.bytes.length ≤ at_ then Prog.fail (.ofKind .corrupt)
  else pure (bitAt window.bytes (at_ * 8 + index % 8), window)

/-- Whether `cluster` can be allocated: its bit is clear and its FAT entry does
not mark it bad. -/
def available (window : BitmapWindow) (cluster : Nat) : Prog Vol Stop (Bool × BitmapWindow) := do
  let (used, window) ← window.used cluster
  if used then pure (false, window)
  else do
    let ex ← getState
    let entry ← onIo (get ex.geo cluster)
    pure (entry != fatBad, window)

end BitmapWindow

def cyclicAt (total from_ step : Nat) : Nat := firstCluster + (from_ + step) % total

/-- Scans `turns` clusters from `step` on until `count` are found that can be
allocated: the number found and the step of the last. -/
def scanFree (total from_ count : Nat) :
    Nat → Nat → Nat → BitmapWindow → Prog Vol Stop (Nat × Option Nat)
  | 0, _, found, _ => pure (found, none)
  | turns + 1, step, found, window => do
      let (available, window) ← window.available (cyclicAt total from_ step)
      if available then
        if found + 1 = count then pure (found + 1, some step)
        else scanFree total from_ count turns (step + 1) (found + 1) window
      else scanFree total from_ count turns (step + 1) found window

/-- Gathers the clusters that can be allocated downwards from step `top`, as
long as their entries share a device block with that of `high`. -/
def gatherFree (size total from_ high : Nat) :
    Nat → ClusterGroup → BitmapWindow → Prog Vol Stop (Nat × ClusterGroup × BitmapWindow)
  | 0, group, window => pure (0, group, window)
  | top + 1, group, window => do
      let ex ← getState
      let cluster := cyclicAt total from_ top
      if high < cluster ∨ ¬ sameFatBlock ex.geo size cluster high then
        pure (top + 1, group, window)
      else do
        let (available, window) ← window.available cluster
        gatherFree size total from_ high top
          (if available then group.add cluster else group) window

def linkFreeLoop (total from_ : Nat) : Nat → Nat → Nat → BitmapWindow → Prog Vol Stop Nat
  | 0, _, head, _ => pure head
  | fuel + 1, top, head, window =>
    if top = 0 then pure head
    else do
      let size ← onIo Io.blockSize
      let high := cyclicAt total from_ (top - 1)
      let (top, group, window) ← gatherFree size total from_ high top
        (ClusterGroup.new (high - (ClusterGroup.span - 1))) window
      if group.count = 0 then linkFreeLoop total from_ fuel top head window
      else do
        patchFat group head
        linkFreeLoop total from_ fuel top group.lowest window

/-- Links the clusters that can be allocated among the `last + 1` from cluster
index `from_` on into a chain, and returns its first cluster. -/
def linkFree (total from_ last : Nat) : Prog Vol Stop Nat :=
  linkFreeLoop total from_ (last + 1) (last + 1) fatEnd BitmapWindow.new

/-- How the clusters gathered of a chain end: with the cluster that comes after
them, or with the error met there. -/
abbrev ChainEnd := Except Stop (Option Nat)

/-- The cluster after `cluster`, or the error met there. The last cluster to be
taken is not followed. -/
def nextOf (stop : Bool) (cluster : Nat) : Prog Vol Stop ChainEnd := do
  let ex ← getState
  if stop then pure (.ok none) else onIo (Prog.attempt (next ex.geo cluster))

/-- Gathers clusters of the chain at `cluster` whose bits share `place`, of the
`left` clusters that may still be taken. -/
def gatherMark (used : Bool) (place : Place × Place) :
    Nat → Nat → ClusterGroup → Prog Vol Stop (ChainEnd × ClusterGroup × Nat)
  | 0, _, group => pure (.error (.ofKind .corrupt), group, 0)
  | left + 1, cluster, group => do
      match ← nextOf (used && left == 0) cluster with
      | .error e => pure (.error e, group, left)
      | .ok none => pure (.ok none, group.add cluster, left)
      | .ok (some next) =>
        let group := group.add cluster
        if group.spans next ∧ ¬ group.has next then do
          let other ← bitPlace next
          if other = place then gatherMark used place left next group
          else pure (.ok (some next), group, left)
        else pure (.ok (some next), group, left)

def markChainLoop (record : Bool) (state : ClusterState) :
    Nat → Nat → Nat → Prog Vol Stop Unit
  | 0, _, _ => Prog.fail .diverged
  | fuel + 1, left, cluster => do
      let place ← bitPlace cluster
      let (next, group, left) ← gatherMark (state == .used) place left cluster
        (ClusterGroup.new cluster)
      Prog.when (0 < group.count) do
        Prog.when (record = true)
          (setHeld fun _ => ⟨(next.toOption.getD none).getD 0, cluster⟩)
        patchBits group place state
      match next with
      | .error e => Prog.fail e
      | .ok (some next) => markChainLoop record state fuel left next
      | .ok none => pure ()

/-- Sets the bits of the chain at `cluster`, of at most `limit` clusters. With
`record`, what is left of the chain is recorded before each write. -/
def markChain (record : Bool) (cluster limit : Nat) (state : ClusterState) : Prog Vol Stop Unit :=
  markChainLoop record state (limit + 1) limit cluster

/-- Allocates a chain of `count` clusters from the allocation hint on, and
returns its first cluster, 0 when `count` is 0. -/
def allocateRun (count : Nat) : Prog Vol Stop Nat := do
  if count = 0 then pure 0
  else if count = 1 then allocate
  else do
    let ex ← getState
    if ex.free = some 0 then Prog.fail (.ofKind .noSpace)
    else do
      let total := ex.geo.clusterCount
      let from_ := hintIndex ex
      match ← scanFree total from_ count total 0 0 BitmapWindow.new with
      | (found, none) => do
          setState fun ex => { ex with free := some found }
          Prog.fail (.ofKind .noSpace)
      | (_, some last) => do
          let head ← linkFree total from_ last
          setHeld fun held => { held with head := head }
          markChain false head count .used
          setNextFree (cyclicAt total from_ last)
          pure head

def freeChain (first : Nat) : Prog Vol Stop Unit := do
  let ex ← getState
  let cluster ← checkCluster ex.geo first
  markChain true cluster ex.geo.clusterCount .free
  setHeld fun _ => Held.none

/-- Runs of entries that follow each other within one device block, with the
offset of each run. -/
def segments (size : Nat) : List (Nat × List UInt8) → List (Nat × List UInt8)
  | [] => []
  | (at_, entry) :: rest =>
    match segments size rest with
    | [] => [(at_, entry)]
    | (next, bytes) :: more =>
      if next = at_ + entrySize ∧ next / size = at_ / size then (at_, entry ++ bytes) :: more
      else (at_, entry) :: (next, bytes) :: more

/-- Writes entries at their offsets, one device write for each run, the one that
holds the File entry first or last. -/
def putEntries (primaryFirst : Bool) (entries : List (Nat × List UInt8)) :
    Prog Vol Stop Unit := do
  let size ← onIo Io.blockSize
  let runs := segments size entries
  Prog.each (fun run => write run.1 run.2) (if primaryFirst then runs else runs.reverse)

def writeSet (entries : List (Nat × List UInt8)) : Prog Vol Stop Unit := putEntries false entries

def clearEntry (entry : List UInt8) : List UInt8 :=
  entry.set 0 (entry.getD 0 0 &&& ~~~u8 inUse)

def clearSet (entries : List (Nat × List UInt8)) : Prog Vol Stop Unit :=
  putEntries true (entries.map fun (at_, entry) => (at_, clearEntry entry))

end Vol

/-- Which boot region a volume was read from. -/
inductive BootRegion where
  | main
  | backup
deriving DecidableEq, Repr

def bootSum (base : Nat) : Nat → Nat → Nat → Prog Io Stop Nat
  | 0, _, sum => pure sum
  | turns + 1, at_, sum => do
      let chunk ← Io.readBytes (base + at_) 128
      bootSum base turns (at_ + 128) (bootChecksum sum (min at_ 1) chunk)

def sumStored (base sum : Nat) : Nat → Nat → Prog Io Stop Bool
  | 0, _ => pure true
  | turns + 1, at_ => do
      let chunk ← Io.readBytes (base + at_) 128
      if (List.range 32).any fun word => u32At chunk (word * 4) != sum then pure false
      else sumStored base sum turns (at_ + 128)

/-- The geometry of the boot region at `base`, if its boot sector is valid and
its checksum matches. -/
def bootRegion (base : Nat) : Prog Io Stop (Option Geometry) := do
  let boot ← Io.readBytes base bootSectorLen
  match parseBoot boot with
  | .error _ => pure none
  | .ok geo => do
      let covered := (bootRegionSectors - 1) * geo.sectorSize
      let sum ← bootSum base (covered / 128) 0 0
      let stored ← sumStored base sum (geo.sectorSize / 128) covered
      pure (if stored then some geo else none)

def backupBoot : List Nat → Prog Io Stop (Option Geometry)
  | [] => pure none
  | shift :: rest => do
      let len ← Prog.gets fun io : Io => io.dev.size
      let base := bootRegionSectors * 2 ^ shift
      if len < base + base then pure none
      else do
        match (← bootRegion base).filter (·.sectorShift == shift) with
        | some geo => pure (some geo)
        | none => backupBoot rest

def fitting (geo : Geometry) (region : BootRegion) : Prog Io Stop (Geometry × BootRegion) := do
  let len ← Prog.gets fun io : Io => io.dev.size
  if len < geo.volumeLen ∨ geo.volumeLen < geo.heapStart + geo.clusterCount * geo.clusterSize then
    Prog.fail Detail.bootSector.corrupt
  else pure (geo, region)

def noBootRegion {α : Type} : Prog Io Stop α := do
  let head ← Io.readBytes 0 11
  if head.drop 3 = fileSystemName then Prog.fail Detail.bootSector.corrupt
  else Prog.fail (Detail.bootSector.error .notRecognized)

def mainBoot (main : Bool) : Prog Io Stop (Option Geometry) :=
  if main then bootRegion 0 else pure none

/-- Reads the boot region, the main one first when `main` is set, and checks
that the volume fits the device. -/
def bootFrom (main : Bool) : Prog Io Stop (Geometry × BootRegion) := do
  let sized ← Prog.gets fun io : Io => io.block.data.length == io.dev.blockSize
  if ¬ sized then Prog.fail (.ofKind .invalidInput)
  else do
    match ← mainBoot main with
    | some geo => fitting geo .main
    | none => do
        match ← backupBoot [9, 10, 11, 12] with
        | some geo => fitting geo .backup
        | none => noBootRegion

def readBoot : Prog Io Stop (Geometry × BootRegion) := bootFrom true

end Hadris.Exfat
