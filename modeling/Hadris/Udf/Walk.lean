import Hadris.Meta
import Hadris.Udf.Identifier

namespace Hadris.Udf

/-- A device whose blocks do not change: what it answers to a read of whole blocks. -/
structure Device where
  blockSize : Nat
  readBlocks : Nat → Nat → Except Error (List UInt8)
  blockSize_pos : 0 < blockSize

namespace Device

def taken (dev : Device) (pos left : Nat) : Nat :=
  if pos % dev.blockSize = 0 ∧ dev.blockSize ≤ left then left - left % dev.blockSize
  else min (dev.blockSize - pos % dev.blockSize) left

def readPart (dev : Device) (pos left : Nat) : Except Error (List UInt8) := do
  let within := pos % dev.blockSize
  if within = 0 ∧ dev.blockSize ≤ left then
    dev.readBlocks (pos / dev.blockSize) (left - left % dev.blockSize)
  else
    let scratch ← dev.readBlocks (pos / dev.blockSize) dev.blockSize
    .ok ((scratch.drop within).take (min (dev.blockSize - within) left))

theorem left_decreases (dev : Device) (pos : Nat) {left : Nat} (h : left ≠ 0) :
    left - dev.taken pos left < left := by
  have hmod := Nat.mod_lt pos dev.blockSize_pos
  have hleft := Nat.mod_lt left dev.blockSize_pos
  rw [taken]
  split <;> omega

def readParts (dev : Device) (pos left : Nat) : Except Error (List UInt8) :=
  if _ : left = 0 then .ok []
  else do
    let part ← dev.readPart pos left
    let rest ← readParts dev (pos + dev.taken pos left) (left - dev.taken pos left)
    .ok (part ++ rest)
termination_by left
decreasing_by exact dev.left_decreases pos ‹_›

end Device

def readBytes (dev : Device) (len offset count : Nat) : Except Error (List UInt8) := do
  ensure (decide (offset + count < 2 ^ 64)) (Detail.corrupt .outsideImage)
  ensure (decide (offset + count ≤ len)) (Detail.corrupt .outsideImage)
  dev.readParts offset count

/-- A partition of the logical volume, in blocks. -/
structure PartitionInfo where
  start : Nat
  len : Nat

/-- What a mounted volume needs to find anything. -/
structure Info where
  blockSize : Nat
  len : Nat
  partitions : List PartitionInfo

/-- The byte offset of `count` bytes from block `block` of partition `partition`, checked
against the partition. -/
def Info.offset (info : Info) (at_ : Location) (count : Nat) : Except Error Nat := do
  let part ← (info.partitions[at_.partition]?).elim (.error (Detail.corrupt .partition)) .ok
  let blocks := (count + info.blockSize - 1) / info.blockSize
  ensure (decide (at_.block + blocks ≤ part.len)) (Detail.corrupt .partition)
  .ok ((part.start + at_.block) * info.blockSize)

def Tag.isCrcValid (tag : Tag) (body : List UInt8) : Bool :=
  decide (tag.crcLength ≤ body.length) && crc16 (body.take tag.crcLength) == tag.crc

/-- Checks a descriptor tag: checksum, version, reserved byte, the identifier when `id` is
given, the location, and the checksum of the bytes after it. -/
def checkTag (data : List UInt8) (id : Option Nat) (location : Nat) : Option Tag :=
  let tag := Tag.read data
  if decide (16 ≤ data.length) && tag.isChecksumValid && (tag.version == 2 || tag.version == 3) &&
      tag.reserved == 0 && !(id.any fun id => tag.identifier != id) && tag.location == location &&
      tag.isCrcValid (data.drop 16)
  then some tag else none

def tagAllocationExtent : Nat := 258
def tagFileEntry : Nat := 261
def tagExtendedFileEntry : Nat := 266

namespace IcbFlags

def allocation : Nat := 0x0007
def transformed : Nat := 0x0800

end IcbFlags

namespace Allocation

def short : Nat := 0
def long : Nat := 1
def extended : Nat := 2
def embedded : Nat := 3

end Allocation

namespace Extent

def recorded : Nat := 0
def allocated : Nat := 1
def unallocated : Nat := 2
def continuation : Nat := 3
def maxLength : Nat := 2 ^ 30 - 1

end Extent

/-- A file entry, decoded, with the block that holds it for its allocation descriptors. -/
structure Icb where
  at_ : Location
  fileType : Nat
  flags : Nat
  size : Nat
  adStart : Nat
  adLen : Nat
  block : List UInt8

namespace Icb

def bad : Error := Detail.corrupt .icb

/-- Decodes an entry with a fixed part of `fixed` bytes. The two forms of it differ in where
the lengths of what follows are. -/
def parseFixed (at_ : Location) (block : List UInt8) (blockSize fixed : Nat) :
    Except Error Icb := do
  ensure (decide (fixed ≤ blockSize)) bad
  let adStart := fixed + u32At block (fixed - 8)
  let adLen := u32At block (fixed - 4)
  ensure (decide (adStart + adLen ≤ blockSize)) bad
  .ok ⟨at_, byteAt block 27, u16At block 34, u32At block 56 + u32At block 60 * 2 ^ 32,
    adStart, adLen, block⟩

def parse (at_ : Location) (block : List UInt8) (blockSize : Nat) : Except Error Icb :=
  match checkTag (block.take blockSize) none at_.block with
  | none => .error bad
  | some tag =>
    if tag.identifier = tagFileEntry then parseFixed at_ block blockSize 176
    else if tag.identifier = tagExtendedFileEntry then parseFixed at_ block blockSize 216
    else .error bad

def allocation (icb : Icb) : Nat := icb.flags &&& IcbFlags.allocation

def fsType (icb : Icb) : Option FileType :=
  match icb.fileType with
  | 4 | 13 => some .dir
  | 5 | 0 | 249 => some .file
  | 12 => some .symlink
  | 6 => some .blockDevice
  | 7 => some .charDevice
  | 9 => some .fifo
  | 10 => some .socket
  | _ => none

end Icb

def icbAt (info : Info) (dev : Device) (at_ : Location) : Except Error Icb := do
  let offset ← info.offset at_ info.blockSize
  let block ← readBytes dev info.len offset info.blockSize
  Icb.parse at_ block info.blockSize

def maxBlock : Nat := 4096

def maxDescriptors : Nat := 2 ^ 20

def maxContinuations : Nat := 2 ^ 12

/-- One stretch of a file's data. -/
inductive Piece where
  | disk (offset : Nat) (location : Location) (len : Nat)
  /-- Reads as zeros; `offset` is where an allocated but unrecorded extent lies. -/
  | zero (len : Nat) (offset : Option Nat)
  | embedded (start len : Nat)

def Piece.len : Piece → Nat
  | disk _ _ len | zero len _ | embedded _ len => len

/-- A walk over the allocation descriptors of an entry, following continuation extents. -/
structure Walk where
  aed : List UInt8
  /-- The allocation extent descriptor in `aed`, once one is followed. -/
  aedAt : Option Location
  pos : Nat
  stop : Nat
  steps : Nat
  hops : Nat
  done : Bool

/-- Where a walk stood before the piece that holds the start of the last read. -/
structure Resume where
  icb : Option Location
  aedAt : Option Location
  pos : Nat
  stop : Nat
  steps : Nat
  hops : Nat
  /-- The byte of the data the next piece starts at. -/
  offset : Nat
  location : Option Nat

def Resume.default : Resume := ⟨none, none, 0, 0, 0, 0, 0, none⟩

/-- An allocation descriptor of any form. -/
structure AllocationDescriptor where
  length : Nat
  information : Nat
  kind : Nat
  at_ : Location

def badAd : Error := Detail.corrupt .allocationDescriptor

def unsupportedAd : Error := Detail.error .allocationDescriptor .unsupported

namespace AllocationDescriptor

def len (bytes : List UInt8) : Nat := u32At bytes 0 % (Extent.maxLength + 1)

def extentType (bytes : List UInt8) : Nat := u32At bytes 0 / (Extent.maxLength + 1)

def size (allocation : Nat) : Option Nat :=
  if allocation = Allocation.short then some 8
  else if allocation = Allocation.long then some 16
  else if allocation = Allocation.extended then some 20
  else none

def checkRecorded (length recorded information kind : Nat) : Except Error Unit := do
  ensure (decide (recorded ≤ length)) badAd
  if kind = Extent.recorded then ensure (recorded == information) unsupportedAd
  else if kind = Extent.allocated ∨ kind = Extent.unallocated then
    ensure (recorded == 0 && decide (information ≤ length)) badAd
  else .ok ()

def read (partition size : Nat) (bytes : List UInt8) : Except Error AllocationDescriptor :=
  if size = 8 then .ok ⟨len bytes, len bytes, extentType bytes, ⟨partition, u32At bytes 4⟩⟩
  else if size = 16
    then .ok ⟨len bytes, len bytes, extentType bytes, ⟨u16At bytes 8, u32At bytes 4⟩⟩
  else do
    let recorded := u32At bytes 4
    let information := u32At bytes 8
    checkRecorded (len bytes) recorded information (extentType bytes)
    .ok ⟨len bytes, information, extentType bytes, ⟨u16At bytes 16, u32At bytes 12⟩⟩

end AllocationDescriptor

/-- How one turn of a walk goes on. -/
inductive Turn where
  | ends
  | piece (piece : Piece) (walk : Walk)
  | again (walk : Walk)

def Turn.walk? : Turn → Option Walk
  | ends => none
  | piece _ walk | again walk => some walk

namespace Walk

variable (info : Info) (dev : Device) (icb : Icb)

def new : Walk :=
  ⟨List.replicate maxBlock 0, none, icb.adStart, icb.adStart + icb.adLen, 0, 0, false⟩

def load (walk : Walk) (at_ : Location) : Except Error (Walk × Nat) := do
  let offset ← info.offset at_ info.blockSize
  let aed ← readBytes dev info.len offset info.blockSize
  ensure (checkTag aed (some tagAllocationExtent) at_.block).isSome badAd
  let stop := 24 + u32At aed 20
  ensure (decide (stop ≤ info.blockSize)) badAd
  .ok ({ walk with aed := aed, aedAt := some at_ }, stop)

/-- Resumes a new walk, or keeps its first descriptor when `resume` is of another entry or
after `offset`. Tells the byte of the data the next piece starts at. -/
def resume (walk : Walk) (resume : Resume) (offset : Nat) : Except Error (Walk × Nat) :=
  if resume.icb ≠ some icb.at_ ∨ offset < resume.offset then .ok (walk, 0)
  else do
    let walk ← resume.aedAt.elim (.ok walk) fun at_ => (walk.load info dev at_).map Prod.fst
    .ok ({ walk with
      pos := resume.pos
      stop := resume.stop
      steps := resume.steps
      hops := resume.hops }, resume.offset)

def mark (walk : Walk) (offset : Nat) : Resume :=
  ⟨some icb.at_, walk.aedAt, walk.pos, walk.stop, walk.steps, walk.hops, offset, none⟩

def follow (walk : Walk) (ad : AllocationDescriptor) : Except Error Turn :=
  if ad.kind = Extent.continuation then
    if maxContinuations < walk.hops + 1 then .error badAd
    else do
      let hopped : Walk := { walk with hops := walk.hops + 1 }
      let (walk, stop) ← hopped.load info dev ad.at_
      ensure (decide (stop ≤ max ad.length 24)) badAd
      .ok (.again { walk with pos := 24, stop := stop })
  else if ad.kind = Extent.recorded then do
    let offset ← info.offset ad.at_ ad.length
    .ok (if ad.information ≠ 0 then .piece (.disk offset ad.at_ ad.information) walk
      else .again walk)
  else
    let offset := if ad.kind = Extent.allocated
      then (info.offset ad.at_ ad.length).toOption else none
    .ok (if ad.information ≠ 0 then .piece (.zero ad.information offset) walk else .again walk)

def source (walk : Walk) (size : Nat) : List UInt8 :=
  ((if walk.aedAt.isSome then walk.aed else icb.block).drop walk.pos).take size

def turnOf (walk : Walk) (size : Nat) : Except Error Turn :=
  if walk.stop < walk.pos + size then .ok .ends
  else if maxDescriptors < walk.steps + 1 then .error badAd
  else do
    let ad ← AllocationDescriptor.read icb.at_.partition size (walk.source icb size)
    if ad.length = 0 then
      ensure (ad.information == 0) badAd
      .ok .ends
    else
      let stepped : Walk := { walk with steps := walk.steps + 1, pos := walk.pos + size }
      stepped.follow info dev ad

def turn (walk : Walk) : Except Error Turn :=
  if walk.done then .ok .ends
  else if icb.allocation = Allocation.embedded then
    .ok (.piece (.embedded icb.adStart icb.adLen) { walk with done := true })
  else (AllocationDescriptor.size icb.allocation).elim (.error badAd) (walk.turnOf info dev icb)

def budget (walk : Walk) : Nat :=
  (if walk.done then 0 else maxDescriptors + 1) + (maxDescriptors - walk.steps)

variable {info dev icb} {walk walk' : Walk}

theorem load_ok {at_ : Location} {stop : Nat} (h : walk.load info dev at_ = .ok (walk', stop)) :
    walk' = { walk with aed := walk'.aed, aedAt := some at_ } := by
  rw [load] at h
  obtain ⟨offset, -, h⟩ := except_bind_ok.mp h
  obtain ⟨aed, -, h⟩ := except_bind_ok.mp h
  obtain ⟨_, -, h⟩ := except_bind_ok.mp h
  obtain ⟨_, -, h⟩ := except_bind_ok.mp h
  cases h
  rfl

theorem follow_ok {ad : AllocationDescriptor} {turn : Turn}
    (h : walk.follow info dev ad = .ok turn)
    (hwalk : turn.walk? = some walk') : walk'.done = walk.done ∧ walk'.steps = walk.steps := by
  rw [follow] at h
  split at h
  · split at h
    · cases h
    · obtain ⟨⟨loaded, stop⟩, hload, h⟩ := except_bind_ok.mp h
      obtain ⟨_, -, h⟩ := except_bind_ok.mp h
      cases h
      cases hwalk
      rw [load_ok hload]
      exact ⟨rfl, rfl⟩
  · split at h
    · obtain ⟨offset, -, h⟩ := except_bind_ok.mp h
      cases h
      split at hwalk <;> cases hwalk <;> exact ⟨rfl, rfl⟩
    · cases h
      split at hwalk <;> cases hwalk <;> exact ⟨rfl, rfl⟩

theorem turnOf_ok {size : Nat} {turn : Turn} (h : walk.turnOf info dev icb size = .ok turn)
    (hwalk : turn.walk? = some walk') :
    walk'.done = walk.done ∧ walk'.steps = walk.steps + 1 ∧ walk.steps < maxDescriptors := by
  rw [turnOf] at h
  split at h
  · cases h
    cases hwalk
  · split at h
    · cases h
    · rename_i hsteps
      obtain ⟨ad, -, h⟩ := except_bind_ok.mp h
      split at h
      · obtain ⟨_, -, h⟩ := except_bind_ok.mp h
        cases h
        cases hwalk
      · obtain ⟨hdone, hcount⟩ := follow_ok h hwalk
        exact ⟨hdone, hcount, by omega⟩

theorem turn_decreases {turn : Turn} (h : walk.turn info dev icb = .ok turn)
    (hwalk : turn.walk? = some walk') : walk.done = false ∧ walk'.budget < walk.budget := by
  rw [Walk.turn] at h
  split at h
  · cases h
    cases hwalk
  · rename_i hdone
    rw [Bool.not_eq_true] at hdone
    refine ⟨hdone, ?_⟩
    split at h
    · cases h
      cases hwalk
      rw [budget, budget, hdone, if_pos rfl, if_neg Bool.false_ne_true]
      exact Nat.add_lt_add_right (Nat.succ_pos _) _
    · rcases hsize : AllocationDescriptor.size icb.allocation with _ | size
      · rw [hsize] at h
        cases h
      · rw [hsize] at h
        obtain ⟨hsame, hcount, hlt⟩ := turnOf_ok h hwalk
        simp only [budget, hsame, hcount]
        omega

def next (info : Info) (dev : Device) (icb : Icb) (walk : Walk) :
    Except Error (Option (Piece × Walk)) :=
  if icb.flags &&& IcbFlags.transformed ≠ 0 then .error unsupportedAd
  else
    match _h : walk.turn info dev icb with
    | .error error => .error error
    | .ok .ends => .ok none
    | .ok (.piece piece walk) => .ok (some (piece, walk))
    | .ok (.again walk') => next info dev icb walk'
termination_by walk.budget
decreasing_by exact (turn_decreases _h rfl).2

theorem next_decreases {piece : Piece} (h : walk.next info dev icb = .ok (some (piece, walk'))) :
    walk'.budget < walk.budget := by
  fun_induction next info dev icb walk with
  | case1 => cases h
  | case2 => cases h
  | case3 => cases h
  | case4 walk _ piece after hturn =>
    cases h
    exact (turn_decreases hturn rfl).2
  | case5 walk _ after hturn ih => exact (ih h).trans (turn_decreases hturn rfl).2

end Walk

/-- The sector of a directory that was read last. -/
structure DirectoryWindow where
  bytes : List UInt8
  offset : Option Nat

namespace DirectoryWindow

variable (info : Info) (dev : Device)

def new : DirectoryWindow := ⟨List.replicate maxBlock 0, none⟩

def hold (window : DirectoryWindow) (base len : Nat) : Except Error Unit × DirectoryWindow :=
  if window.offset = some base then (.ok (), window)
  else
    match readBytes dev info.len base len with
    | .error error => (.error error, { window with offset := none })
    | .ok bytes => (.ok (), ⟨bytes, some base⟩)

def size : Nat := max info.blockSize dev.blockSize

def base (offset : Nat) : Nat := offset / size info dev * size info dev

def held (offset : Nat) : Nat := min (info.len - base info dev offset) (size info dev)

def taken (offset left : Nat) : Nat :=
  min (held info dev offset - (offset - base info dev offset)) left

theorem left_decreases {offset left : Nat} (h : left ≠ 0)
    (hheld : ¬ held info dev offset ≤ offset - base info dev offset) :
    left - taken info dev offset left < left := by
  rw [taken]
  omega

def read (window : DirectoryWindow) (offset left : Nat) :
    Except Error (List UInt8) × DirectoryWindow :=
  if _hleft : left = 0 then (.ok [], window)
  else if _hheld : held info dev offset ≤ offset - base info dev offset
    then (.error badFid, window)
  else
    match window.hold info dev (base info dev offset) (held info dev offset) with
    | (.error error, window) => (.error error, window)
    | (.ok _, window) =>
      let take := taken info dev offset left
      match read window (offset + take) (left - take) with
      | (.error error, window') => (.error error, window')
      | (.ok rest, window') =>
        (.ok ((window.bytes.drop (offset - base info dev offset)).take take ++ rest), window')
termination_by left
decreasing_by exact left_decreases info dev _hleft _hheld

end DirectoryWindow

def readData (info : Info) (dev : Device) (offset count : Nat) :
    Option DirectoryWindow → Except Error (List UInt8) × Option DirectoryWindow
  | none => (readBytes dev info.len offset count, none)
  | some window => (window.read info dev offset count).map id some

namespace Piece

def locate (info : Info) (icb : Icb) (within : Nat) : Piece → Option Nat
  | disk _ location _ =>
    let block := location.block + within / info.blockSize % 2 ^ 32
    if block < 2 ^ 32 then some block else none
  | embedded _ _ => some icb.at_.block
  | zero _ _ => none

def read (info : Info) (dev : Device) (icb : Icb) (window : Option DirectoryWindow)
    (within count : Nat) :
    Piece → Except Error (List UInt8) × Option DirectoryWindow
  | disk offset _ _ => readData info dev (offset + within) count window
  | zero _ _ => (.ok (List.replicate count 0), window)
  | embedded start _ => (.ok ((icb.block.drop (start + within)).take count), window)

end Piece

/-- What a read leaves behind: the bytes or the error, where it started in the
walk, and the window. -/
structure Outcome where
  result : Except Error (List UInt8)
  resume : Resume
  window : Option DirectoryWindow

def Resume.record (info : Info) (icb : Icb) (walk : Walk) (pos : Nat)
    (piece : Piece) (within done : Nat) (resume : Resume) : Resume :=
  if done = 0 then { walk.mark icb pos with location := piece.locate info icb within } else resume

/-- Reads the `want` bytes of the data from byte `offset` on, of which `out` were read, along a
walk whose next piece starts at byte `pos` of the data. -/
def readPieces (info : Info) (dev : Device) (icb : Icb) (offset want : Nat)
    (walk : Walk) (pos : Nat)
    (out : List UInt8) (done : Nat) (resume : Resume) (window : Option DirectoryWindow) :
    Outcome :=
  if done < want then
    match _h : walk.next info dev icb with
    | .error error => ⟨.error error, resume, window⟩
    | .ok none => ⟨.error badAd, resume, window⟩
    | .ok (some (piece, walk')) =>
      if offset + done < pos + piece.len then
        let within := offset + done - pos
        let resume := resume.record info icb walk pos piece within done
        let take := min (piece.len - within) (want - done)
        match piece.read info dev icb window within take with
        | (.error error, window) => ⟨.error error, resume, window⟩
        | (.ok data, window) =>
          readPieces info dev icb offset want walk' (pos + piece.len) (out ++ data)
            (done + take) resume window
      else readPieces info dev icb offset want walk' (pos + piece.len) out done resume window
  else ⟨.ok out, resume, window⟩
termination_by walk.budget
decreasing_by all_goals exact Walk.next_decreases _h

/-- Reads up to `len` bytes of the data of `icb` from `offset`, fewer only at the end of the
data. Resumes the walk that `resume` records, and records where this read started in it. -/
def readStreamWindow (info : Info) (dev : Device) (icb : Icb) (resume : Resume) (offset len : Nat)
    (window : Option DirectoryWindow) : Outcome :=
  if icb.size ≤ offset then ⟨.ok [], resume, window⟩
  else
    match (Walk.new icb).resume info dev icb resume offset with
    | .error error => ⟨.error error, resume, window⟩
    | .ok (walk, pos) =>
      readPieces info dev icb offset (min (icb.size - offset) len) walk pos [] 0 resume window

def readStream (info : Info) (dev : Device) (icb : Icb) (resume : Resume) (offset len : Nat) :
    Except Error (List UInt8) × Resume :=
  let outcome := readStreamWindow info dev icb resume offset len none
  (outcome.result, outcome.resume)

def Location.ofNode (node : Nat) : Option Location :=
  if node = 0 ∨ 2 ^ 48 < node then none else some ⟨(node - 1) / 2 ^ 32, (node - 1) % 2 ^ 32⟩

/-- An open volume. -/
structure UdfFs where
  dev : Device
  info : Info
  /-- The walk of the directory read last. -/
  dirWalk : Resume
  /-- The walk of the file read last. -/
  fileWalk : Resume
  directoryWindow : DirectoryWindow

namespace UdfFs

def icb (fs : UdfFs) (node : Nat) : Except Error Icb :=
  match (Location.ofNode node).filter fun at_ => (fs.info.offset at_ 1).isOk with
  | none => .error (.ofKind .invalidHandle)
  | some at_ => icbAt fs.info fs.dev at_

def dir (fs : UdfFs) (node : Nat) : Except Error Icb := do
  let icb ← fs.icb node
  ensure (icb.fsType == some .dir) (.ofKind .notADirectory)
  .ok icb

def checkFile (icb : Icb) : Except Error Unit :=
  match icb.fsType with
  | some .dir => .error (.ofKind .isADirectory)
  | some .symlink => .error (.ofKind .symlink)
  | none => .error (Detail.corrupt .icb)
  | _ => .ok ()

def file (fs : UdfFs) (node : Nat) : Except Error Icb := do
  let icb ← fs.icb node
  checkFile icb
  .ok icb

def read (fs : UdfFs) (node offset len : Nat) : Except Error (List UInt8) × UdfFs :=
  match fs.file node with
  | .error error => (.error error, fs)
  | .ok icb =>
    let (result, fileWalk) := readStream fs.info fs.dev icb fs.fileWalk offset len
    (result, { fs with fileWalk := fileWalk })

def readFid (fs : UdfFs) (node offset len : Nat) : Except Error (List UInt8) × UdfFs :=
  match fs.dir node with
  | .error error => (.error error, fs)
  | .ok icb =>
    let outcome := readStreamWindow fs.info fs.dev icb fs.dirWalk offset len
      (some fs.directoryWindow)
    (outcome.result, { fs with
      dirWalk := outcome.resume
      directoryWindow := outcome.window.getD fs.directoryWindow })

end UdfFs

end Hadris.Udf
