import Hadris.Meta
import Hadris.Cpio.Header
import Hadris.Program

namespace Hadris

/-- A metadata field that a format may not store. -/
inductive Field where
  | created
  | accessed
  | modified
  | attributes
deriving DecidableEq, Repr

/-- A loss that a format makes of `field`, with the nodes it affects. -/
structure Warning where
  field : Field
  message : String
  count : Nat
deriving DecidableEq, Repr

/-- A tree path as reports key it, from its parts: no empty ones, and no leading
`.`. -/
def normalizeParts : List (List UInt8) → List (List UInt8)
  | [] => []
  | first :: rest =>
    let rest := rest.filter (· ≠ [])
    if first = [] ∨ first = [0x2E] then rest else first :: rest

def normalize (path : List UInt8) : List UInt8 :=
  [0x2F].intercalate (normalizeParts (path.splitOn 0x2F))

/-- What a writer or a planner returns. Extents stand in the order they were
pushed, each with the path that keys it. -/
structure Report where
  size : Nat
  warnings : List Warning
  pushed : List (List UInt8 × Extent)
deriving DecidableEq, Repr

namespace Report

def new : Report := ⟨0, [], []⟩

def setSize (report : Report) (size : Nat) : Report := { report with size := size }

def pushWarning (report : Report) (warning : Warning) : Report :=
  { report with warnings := report.warnings ++ [warning] }

def pushExtent (report : Report) (path : List UInt8) (extent : Extent) : Report :=
  { report with pushed := report.pushed ++ [(normalize path, extent)] }

end Report

end Hadris

namespace Hadris.Cpio

/-- Options of a writer. -/
structure CpioOptions where
  format : Format
  time : Option DateTime
deriving DecidableEq, Repr

/-- The header fields of one entry, before encoding. -/
structure Fields where
  ino : Nat
  mode : UInt32
  uid : UInt32
  gid : UInt32
  nlink : Nat
  mtime : Nat
  len : Nat
  rdev : DeviceNumber
  check : UInt32
deriving DecidableEq, Repr

def Fields.trailer : Fields := ⟨0, 0, 0, 0, 1, 0, 0, ⟨0, 0⟩, 0⟩

def limit : Error := Detail.field.error .limitExceeded

def small (value : Nat) : Except Error UInt32 :=
  if value < 2 ^ 32 then .ok (UInt32.ofNat value) else .error limit

def orLimit {α : Type} : Option α → Except Error α
  | some a => .ok a
  | none => .error limit

def encodeNewc (crc : Bool) (fields : Fields) (namesize : Nat) : Except Error (List UInt8) := do
  let ino ← small fields.ino
  let nlink ← small fields.nlink
  let mtime ← small fields.mtime
  let filesize ← small fields.len
  let namesize ← small namesize
  pure (NewcHeader.new crc
    { ino := ino
      mode := fields.mode
      uid := fields.uid
      gid := fields.gid
      nlink := nlink
      mtime := mtime
      filesize := filesize
      devmajor := 0
      devminor := 0
      rdevmajor := fields.rdev.major
      rdevminor := fields.rdev.minor
      namesize := namesize
      check := fields.check })

def encodeOdc (fields : Fields) (namesize : Nat) : Except Error (List UInt8) := do
  let ino ← small fields.ino
  let nlink ← small fields.nlink
  let rdev ← orLimit (joinDev fields.rdev)
  let namesize ← small namesize
  orLimit (OdcHeader.new
    { dev := 0
      ino := ino
      mode := fields.mode
      uid := fields.uid
      gid := fields.gid
      nlink := nlink
      rdev := rdev
      mtime := fields.mtime
      namesize := namesize
      filesize := fields.len })

def encode (format : Format) (fields : Fields) (namesize : Nat) : Except Error (List UInt8) :=
  if format.maxFileSize < fields.len then .error (Detail.field.error .fileTooLarge)
  else match format with
    | .newc => encodeNewc false fields namesize
    | .crc => encodeNewc true fields namesize
    | .odc => encodeOdc fields namesize
    | .binary => .error (Detail.format.error .unsupported)

def error (detail : Detail) (kind : ErrorKind) (path : List UInt8) : PathError :=
  ⟨detail.error kind, some path⟩

def namesize (path : List UInt8) : Except PathError Nat :=
  if path = [] ∨ 0 ∈ path ∨ path = trailerName then .error (error .name .invalidInput path)
  else if pathMax < path.length + 1 then .error (error .name .nameTooLong path)
  else .ok (path.length + 1)

def losses : List (Field × String) :=
  [(.created, "cpio stores no creation time"),
    (.accessed, "cpio stores no access time"),
    (.modified, "cpio stores whole seconds"),
    (.attributes, "cpio stores no attributes")]

def isLost (attrs : SetAttr) : Field → Bool
  | .created => attrs.created.isSome
  | .accessed => attrs.accessed.isSome
  | .modified => attrs.modified.any fun time => time.nanoseconds != 0
  | .attributes => attrs.attributes.any fun value => value != 0

/-- What goes after an entry's name. -/
inductive Data where
  | none
  | bytes (data : List UInt8)
  | content (content : Content)
deriving DecidableEq, Repr

/-- One entry of a planned archive. -/
structure Planned where
  path : List UInt8
  fields : Fields
  data : Data
deriving DecidableEq, Repr

/-- Lays out entries one at a time: inode numbers, offsets, warnings and
extents. -/
structure Planner where
  format : Format
  time : Option DateTime
  nextIno : Nat
  offset : Nat
  entries : Nat
  lost : List Nat
  clamped : Nat
  report : Report
deriving DecidableEq, Repr

namespace Planner

def new (options : CpioOptions) : Planner :=
  ⟨options.format, options.time, 1, 0, 0, losses.map fun _ => 0, 0, .new⟩

def ino (planner : Planner) : Nat := planner.nextIno

def takeIno (planner : Planner) : Nat × Planner :=
  (planner.nextIno, { planner with nextIno := planner.nextIno + 1 })

def maxTime (planner : Planner) : Nat :=
  match planner.format with
  | .odc => OdcHeader.max 11
  | _ => 2 ^ 32 - 1

def asked (planner : Planner) (attrs : SetAttr) : Option DateTime :=
  attrs.modified <|> planner.time

def outOfRange (planner : Planner) (attrs : SetAttr) : Bool :=
  (planner.asked attrs).any fun time =>
    time.unixSeconds < 0 || planner.maxTime < time.unixSeconds.toNat

def mtime (planner : Planner) (attrs : SetAttr) : Nat :=
  match planner.asked attrs with
  | some time => if time.unixSeconds < 0 then 0
      else Nat.min time.unixSeconds.toNat planner.maxTime
  | none => 0

/-- Mode bits, owner and modification time of `attrs`, with the defaults where it
sets none. -/
def fields (planner : Planner) (attrs : SetAttr) (kind defaultMode : UInt32) : Fields :=
  { ino := 0
    mode := kind ||| (attrs.permissions.map Permissions.bits).getD defaultMode
    uid := (attrs.owner.map Owner.uid).getD 0
    gid := (attrs.owner.map Owner.gid).getD 0
    nlink := 1
    mtime := planner.mtime attrs
    len := 0
    rdev := ⟨0, 0⟩
    check := 0 }

def header (planner : Planner) (path : List UInt8) (fields : Fields) (namesize : Nat) :
    Except PathError (List UInt8) :=
  (encode planner.format fields namesize).mapError fun e => ⟨e, some path⟩

def check (planner : Planner) (path : List UInt8) (fields : Fields) : Except PathError Nat := do
  let namesize ← namesize path
  let header ← planner.header path fields namesize
  pure (header.length + namesize + namePadding planner.format namesize)

def entry (planner : Planner) (path : List UInt8) (fields : Fields) (attrs : SetAttr) :
    Except PathError (Nat × Planner) := do
  let len ← planner.check path fields
  let data := planner.offset + len
  pure (data, { planner with
    offset := data + fields.len + dataPadding planner.format fields.len
    entries := planner.entries + 1
    clamped := planner.clamped + (planner.outOfRange attrs).toNat
    lost := List.zipWith (fun count loss => count + (isLost attrs loss.1).toNat)
      planner.lost losses })

def trailer (planner : Planner) : Except PathError Planner := do
  let namesize := trailerName.length + 1
  let header ← (encode planner.format .trailer namesize).mapError fun e => ⟨e, none⟩
  pure { planner with
    offset := planner.offset + (header.length + namesize + namePadding planner.format namesize) }

def extent (planner : Planner) (path : List UInt8) (offset len : Nat) : Planner :=
  { planner with report := planner.report.pushExtent path ⟨offset, len⟩ }

def finish (planner : Planner) : Report :=
  let lost := (losses.zip planner.lost).filterMap fun loss =>
    if 0 < loss.2 then some ⟨loss.1.1, loss.1.2, loss.2⟩ else none
  let clamped := if 0 < planner.clamped
    then [⟨.modified, "cpio stores no time before 1970 or past its field", planner.clamped⟩]
      else []
  ((lost ++ clamped).foldl Report.pushWarning planner.report).setSize planner.offset

def modeOf : FileType → UInt32 × UInt32
  | .file => (sIfreg, 0o644)
  | .dir => (sIfdir, 0o755)
  | .symlink => (sIflnk, 0o777)
  | .charDevice => (sIfchr, 0o644)
  | .blockDevice => (sIfblk, 0o644)
  | .fifo => (sIfifo, 0o644)
  | .socket => (sIfsock, 0o755)

def node (planner : Planner) (node : Node) (path : List UInt8) :
    Except PathError (Fields × Data) :=
  let mode := modeOf node.fileType
  let fields := planner.fields node.attrs mode.1 mode.2
  let fields := { fields with rdev := node.device.getD fields.rdev }
  match node.content, node.target with
  | some content, _ => .ok ({ fields with len := content.len }, .content content)
  | none, some target =>
    if target = [] then .error (error .entry .invalidInput path)
    else .ok ({ fields with len := target.length }, .bytes target)
  | none, none =>
    .ok (if node.fileType = .dir then { fields with nlink := 2 } else fields, .none)

end Planner

end Hadris.Cpio

namespace Hadris.Cpio

def chunk : Nat := 64 * 1024

def pieces (size : Nat) : Nat → List UInt8 → List (List UInt8)
  | 0, _ => []
  | fuel + 1, data => if data = [] then []
    else data.take size :: pieces size fuel (data.drop size)

def requests (content : Content) : List (List UInt8) := pieces chunk content.len content.data

/-- A streaming archive writer, over an output that takes every byte. -/
structure Writer where
  out : List UInt8
  planner : Planner
  bytes : Nat
  openEntry : Bool
deriving DecidableEq, Repr

/-- A file entry being written. -/
structure EntryWriter where
  path : List UInt8
  len : Nat
  remaining : Nat
deriving DecidableEq, Repr

def checkData (data : Data) (path : List UInt8) : Except PathError Unit :=
  match data with
  | .content content => content.check.mapError (·.withPath path)
  | _ => .ok ()

def invalid : PathError := ⟨Detail.entry.error .invalidInput, none⟩

namespace Writer

def new (options : CpioOptions) : Writer := ⟨[], .new options, 0, false⟩

def checkIdle : Prog Writer PathError Unit := do
  let opened ← Prog.gets Writer.openEntry
  if opened then Prog.fail (.new .invalidInput "an entry from append_file was not finished")
  else pure ()

def put (data : List UInt8) : Prog Writer PathError Unit :=
  Prog.modify fun w => { w with out := w.out ++ data, bytes := w.bytes + data.length }

def setPlanner (planner : Planner) : Prog Writer PathError Unit :=
  Prog.modify fun w => { w with planner := planner }

def namesizeOf (path : List UInt8) : Except PathError Nat :=
  if path = trailerName then .ok (trailerName.length + 1) else namesize path

def header (path : List UInt8) (fields : Fields) : Prog Writer PathError Unit := do
  let namesize ← Prog.ofExcept (namesizeOf path)
  let planner ← Prog.gets Writer.planner
  let header ← Prog.ofExcept (planner.header path fields namesize)
  put header
  put path
  put (.replicate (1 + namePadding planner.format namesize) 0)

def checkOf (data : Data) : UInt32 :=
  match data with
  | .bytes data => checksum 0 data
  | .content content => (requests content).foldl checksum 0
  | .none => 0

def direct : Data → Data
  | .content (.bytes data) => .bytes data
  | data => data

def payload : Data → Prog Writer PathError Unit
  | .bytes data => put data
  | .content content => Prog.each put (requests content)
  | .none => pure ()

def emit (path : List UInt8) (fields : Fields) (data : Data) : Prog Writer PathError Unit := do
  let data := direct data
  Prog.ofExcept (checkData data path)
  let planner ← Prog.gets Writer.planner
  let fields := if planner.format = .crc ∧ fields.mode &&& sIfmt = sIfreg
    then { fields with check := checkOf data } else fields
  header path fields
  payload data
  put (.replicate (dataPadding planner.format fields.len) 0)

def append (path : List UInt8) (node : Node) : Prog Writer PathError Unit := do
  checkIdle
  let planner ← Prog.gets Writer.planner
  let found ← Prog.ofExcept (planner.node node path)
  Prog.ofExcept (checkData found.2 path)
  let fields := { found.1 with ino := planner.ino }
  let entry ← Prog.ofExcept (planner.entry path fields node.attrs)
  let planner := entry.2.takeIno.2
  setPlanner (if node.fileType = .file then planner.extent path entry.1 fields.len else planner)
  emit path fields found.2

def checkAll (planner : Planner) (fields : Fields) : List (List UInt8) → Except PathError Unit
  | [] => .ok ()
  | path :: rest => do
    let _ ← planner.check path fields
    checkAll planner fields rest

/-- Lays out every name of a hard link group but the last. Each one has its own
extent when it has data. -/
def enterAll (fields : Fields) (attrs : SetAttr) (repeated : Bool) :
    List (List UInt8) → Prog Writer PathError Unit
  | [] => pure ()
  | path :: rest => do
    let planner ← Prog.gets Writer.planner
    let entry ← Prog.ofExcept (planner.entry path fields attrs)
    setPlanner (if repeated then entry.2.extent path entry.1 fields.len else entry.2)
    enterAll fields attrs repeated rest

def appendHardLinks (paths : List (List UInt8)) (node : Node) : Prog Writer PathError Unit := do
  checkIdle
  match paths.getLast? with
  | none => Prog.fail invalid
  | some last => do
    let first := paths.dropLast
    if node.fileType ≠ .file then Prog.fail (error .entry .invalidInput last)
    else do
      let planner ← Prog.gets Writer.planner
      let found ← Prog.ofExcept (planner.node node last)
      Prog.ofExcept (checkData found.2 last)
      let fields := { found.1 with ino := planner.ino, nlink := paths.length }
      let repeated := planner.format = .odc
      let preceding := if repeated then fields else { fields with len := 0 }
      Prog.ofExcept (checkAll planner preceding first)
      let _ ← Prog.ofExcept (planner.check last fields)
      enterAll preceding node.attrs repeated first
      let planner ← Prog.gets Writer.planner
      let entry ← Prog.ofExcept (planner.entry last fields node.attrs)
      let named := if repeated then [last] else paths
      setPlanner (named.foldl (fun planner path => planner.extent path entry.1 fields.len)
        entry.2.takeIno.2)
      Prog.each (fun path => emit path preceding (if repeated then found.2 else .none)) first
      emit last fields found.2

def appendFile (path : List UInt8) (attrs : SetAttr) (len : Nat) :
    Prog Writer PathError EntryWriter := do
  checkIdle
  let planner ← Prog.gets Writer.planner
  if planner.format = .crc then Prog.fail (error .entry .unsupported path)
  else do
    let fields := { planner.fields attrs sIfreg 0o644 with len := len, ino := planner.ino }
    let entry ← Prog.ofExcept (planner.entry path fields attrs)
    setPlanner (entry.2.takeIno.2.extent path entry.1 len)
    header path fields
    Prog.modify fun w => { w with openEntry := true }
    pure ⟨path, len, len⟩

def writeTrailer : Prog Writer PathError Unit := header trailerName .trailer

def finish : Prog Writer PathError (List UInt8 × Report) := do
  checkIdle
  let planner ← Prog.gets Writer.planner
  let planner ← Prog.ofExcept planner.trailer
  setPlanner planner
  writeTrailer
  let w ← Prog.gets id
  pure (w.out, w.planner.finish)

end Writer

namespace EntryWriter

def write (entry : EntryWriter) (buf : List UInt8) (most : Nat) :
    Prog Writer PathError EntryWriter :=
  if entry.remaining < buf.length then Prog.fail invalid
  else do
    let taken := buf.take most
    Writer.put taken
    pure { entry with remaining := entry.remaining - taken.length }

def writeAll : List (List UInt8 × Nat) → EntryWriter → Prog Writer PathError EntryWriter
  | [], entry => pure entry
  | write :: rest, entry => do
    let written ← Prog.attempt (entry.write write.1 write.2)
    writeAll rest (match written with
      | .ok entry => entry
      | .error _ => entry)

def finish (entry : EntryWriter) : Prog Writer PathError Unit :=
  if entry.remaining ≠ 0 then Prog.fail (error .entry .invalidInput entry.path)
  else do
    let planner ← Prog.gets Writer.planner
    Writer.put (.replicate (dataPadding planner.format entry.len) 0)
    Prog.modify fun w => { w with openEntry := false }

end EntryWriter

/-- A call on a writer. The entry writer of a file is used right away: its writes
and, unless it is dropped, its `finish`. -/
inductive Call where
  | append (path : List UInt8) (node : Node)
  | appendHardLinks (paths : List (List UInt8)) (node : Node)
  | appendFile (path : List UInt8) (attrs : SetAttr) (len : Nat)
      (writes : List (List UInt8 × Nat)) (finished : Bool)
deriving DecidableEq, Repr

namespace Call

def run : Call → Prog Writer PathError Unit
  | append path node => Writer.append path node
  | appendHardLinks paths node => Writer.appendHardLinks paths node
  | appendFile path attrs len writes finished => do
    let entry ← Writer.appendFile path attrs len
    let entry ← EntryWriter.writeAll writes entry
    if finished then entry.finish else pure ()

def runAll : List Call → Writer → Writer
  | [], w => w
  | call :: rest, w => runAll rest (call.run.run w).2

def accepted : List Call → Writer → List Call
  | [], _ => []
  | call :: rest, w =>
    if (call.run.run w).1.toBool then call :: accepted rest (call.run.run w).2
    else accepted rest (call.run.run w).2

end Call

end Hadris.Cpio
