import Hadris.Program
import Hadris.Directory.Name

namespace Hadris.Directory

/-- Where a directory's slots are: the fixed root, or a chain of clusters. -/
inductive DirStart where
  | fixed
  | chain (cluster : Nat)
deriving DecidableEq

/-- What stays as it is while a volume is mounted. -/
structure Config where
  page : CodePage
  upper : Char → List Char
  root : DirStart
  /-- Slots of a cluster. -/
  perCluster : Nat
  maxCluster : Nat
  appendLimit : Nat

/-- The short names of one dense directory and the slot a new entry goes to. -/
structure AppendIndex where
  dir : DirStart
  names : List ShortName
  slot : Nat

structure Volume where
  dirs : DirStart → List Slot
  appendIndex : Option AppendIndex

/-- A visible entry and where it is. -/
structure Located where
  first : Nat
  slot : Nat
  entry : ShortEntry
  long : Option (List UInt16)
deriving DecidableEq

/-- The visible entries among slots that follow slot `slot`; a long name that is
being read began at slot `start`. -/
def listing (start : Nat) (long : Assembler) (slot : Nat) : List Slot → List Located
  | [] => []
  | .endMark :: _ => []
  | .free :: rest => listing start .new (slot + 1) rest
  | .long part :: rest =>
    listing (if part.sequence &&& lastEntry = 0 then start else slot)
      (long.push part) (slot + 1) rest
  | .short entry :: rest =>
    if entry.isVisible then
      let units := long.finish entry.lfnChecksum
      { first := if units.isSome then start else slot
        slot := slot
        entry := entry
        long := units.filter (!·.isEmpty) } :: listing (slot + 1) .new (slot + 1) rest
    else listing start .new (slot + 1) rest

def reached (slots : List Slot) : List Slot := slots.take maxDirEntries

def visible (slots : List Slot) : List Located := listing 0 .new 0 (reached slots)

namespace AppendIndex

def limit : Nat := 2048

def insert (names : List ShortName) (name : ShortName) : List ShortName :=
  if names.contains name then names else name :: names

end AppendIndex

namespace Volume

abbrev Run := Prog Volume ErrorKind

variable (cfg : Config)

abbrev fold : UInt16 → UInt16 := foldUnicode cfg.upper

def named (query : Text) (located : Located) : Bool :=
  (Query.new query (fold cfg)).matches located.long located.entry cfg.page (fold cfg)

def findEntry (dir : DirStart) (query : Text) : Run (Option Located) :=
  Prog.gets fun vol => (visible (vol.dirs dir)).find? (named cfg query)

def isVisibleShort : Slot → Bool
  | .short entry => entry.isVisible
  | _ => false

def dirIsEmpty (first : Nat) : Run Bool :=
  Prog.gets fun vol =>
    !((reached (vol.dirs (.chain first))).takeWhile (· ≠ .endMark)).any isVisibleShort

def checkCluster (cluster : Nat) : Run Nat :=
  if 2 ≤ cluster ∧ cluster ≤ cfg.maxCluster then pure cluster else Prog.fail .corrupt

/-- The parent cluster the `..` entry of the directory at `first` records, none
for the root. -/
def dotDot (first : Nat) : Run (Option Nat) := do
  let _ ← checkCluster cfg first
  let slot : Option Slot ← Prog.gets fun vol => (vol.dirs (.chain first))[1]?
  match slot with
  | some (.short entry) =>
    if !entry.isDotDot then Prog.fail .corrupt
    else if entry.firstCluster = 0 ∨ cfg.root = .chain entry.firstCluster then pure none
    else some <$> checkCluster cfg entry.firstCluster
  | _ => Prog.fail .corrupt

def isWithinLoop (ancestor : Nat) : Nat → Nat → Run Bool
  | 0, _ => Prog.fail .corrupt
  | fuel + 1, cluster =>
    if cluster = ancestor then pure true
    else if cfg.root = .chain cluster then pure false
    else do
      let up ← dotDot cfg cluster
      match up with
      | some up => isWithinLoop ancestor fuel up
      | none => pure false

def isWithin (dir : DirStart) (ancestor : Nat) : Run Bool :=
  match dir with
  | .fixed => pure false
  | .chain cluster => isWithinLoop cfg ancestor (cfg.maxCluster + 1) cluster

def movesInside (dir : DirStart) (src : Located) : Run Bool :=
  if src.entry.isDir then do
    let first ← checkCluster cfg src.entry.firstCluster
    isWithin cfg dir first
  else pure false

def parentCluster (dir : DirStart) : Nat :=
  match dir with
  | .chain cluster => if cfg.root = dir then 0 else cluster
  | .fixed => 0

/-- Entries a new name may take the place of while it is planned. -/
structure Skip where
  /-- The slot of a short entry whose name does not count as taken. -/
  entry : Option Nat
  /-- Slots, inclusive, that count as free and whose names do not count. -/
  run : Option (Nat × Nat)

namespace Skip

def none : Skip := ⟨.none, .none⟩

def inRun (skip : Skip) (slot : Nat) : Bool :=
  skip.run.any fun run => decide (run.1 ≤ slot ∧ slot ≤ run.2)

def covers (skip : Skip) (slot : Nat) : Bool := skip.entry == some slot || skip.inRun slot

end Skip

/-- What planning knows of the slots it has looked at. -/
structure Scan where
  slot : Nat
  long : Assembler
  ended : Bool
  taken : Nat → Bool
  runStart : Nat
  runLen : Nat
  found : Option Nat
  append : Option (List ShortName)

/-- What is looked for: room for `new`, and a short name. -/
structure Wanted where
  text : Text
  checkExists : Bool
  new : NewName
  skip : Skip

namespace Scan

def start (wanted : Wanted) (append : Option (List ShortName)) : Scan where
  slot := 0
  long := .new
  ended := false
  taken := fun bit =>
    bit == candidateCount - 1 && (wanted.new.candidate (candidateCount - 1)).first == 0
  runStart := 0
  runLen := 0
  found := none
  append := append

def noteName (entry : ShortEntry) (names : List ShortName) : Option (List ShortName) :=
  if entry.isLabel then some names
  else if entry.name.first == 0x05 || !entry.name.bytes.all (· < 0x80) ||
      entry.name.bytes.any (fun byte => decide (0x61 ≤ byte ∧ byte ≤ 0x7A)) then none
  else if names.length = cfg.appendLimit then none
  else some (AppendIndex.insert names entry.name)

def lookShort (wanted : Wanted) (entry : ShortEntry) (scan : Scan) : Except ErrorKind Scan :=
  let units := (scan.long.finish entry.lfnChecksum).filter (!·.isEmpty)
  let scan := { scan with long := .new, append := scan.append.bind (noteName cfg entry) }
  if wanted.skip.covers scan.slot || entry.isLabel then .ok scan
  else if wanted.checkExists && entry.isVisible &&
      (Query.new wanted.text (fold cfg)).matches units entry cfg.page (fold cfg) then
    .error .alreadyExists
  else .ok { scan with
    taken := fun bit =>
      scan.taken bit || decide (bit < candidateCount) && entry.name == wanted.new.candidate bit }

def look (wanted : Wanted) (slot : Slot) (scan : Scan) : Except ErrorKind (Scan × Bool) :=
  let reused := wanted.skip.inRun scan.slot
  let scan := if reused then { scan with long := .new } else scan
  if scan.ended || reused then .ok (scan, true)
  else match slot with
    | .endMark => .ok ({ scan with ended := true }, true)
    | .free => .ok ({ scan with append := none, long := .new }, true)
    | .long part => .ok ({ scan with append := none, long := scan.long.push part }, false)
      | .short entry => (fun scan => (scan, false)) <$> lookShort cfg wanted entry scan

def track (needed : Nat) (free : Bool) (scan : Scan) : Scan :=
  if free then
    let start := if scan.runLen = 0 then scan.slot else scan.runStart
    { scan with
      slot := scan.slot + 1
      runStart := start
      runLen := scan.runLen + 1
      found := if scan.runLen + 1 = needed ∧ scan.found = none then some start else scan.found }
  else { scan with slot := scan.slot + 1, runLen := 0 }

def loop (wanted : Wanted) : List Slot → Scan → Except ErrorKind Scan
  | [], scan => .ok scan
  | slot :: rest, scan => do
    let (scan, free) ← look cfg wanted slot scan
    let scan := track wanted.new.slots free scan
    if scan.ended && scan.found.isSome then .ok scan else loop wanted rest scan

end Scan

def shortTaken (skip : Skip) (name : ShortName) (slot : Nat) : List Slot → Bool
  | [] => false
  | .endMark :: _ => false
  | .short entry :: rest =>
    entry.name == name && !entry.isLabel && !skip.covers slot ||
      shortTaken skip name (slot + 1) rest
  | .free :: rest => shortTaken skip name (slot + 1) rest
  | .long _ :: rest => shortTaken skip name (slot + 1) rest

def hashedShort (wanted : Wanted) (slots : List Slot) : Nat → Nat → Except ErrorKind ShortName
  | 0, _ => .error .alreadyExists
  | left + 1, suffix =>
    match shortName wanted.text suffix cfg.page (fold cfg) with
    | none => hashedShort wanted slots left (suffix + 1)
    | some name =>
      if shortTaken wanted.skip name.toDisk 0 slots
        then hashedShort wanted slots left (suffix + 1)
      else .ok name.toDisk

/-- Where a new entry goes. -/
structure Plan where
  /-- The first slot of the run. -/
  start : Nat
  slots : Nat
  /-- Clusters to append to the directory first. -/
  grow : Nat
  short : ShortName
  ntCase : UInt8

def place (dir : DirStart) (new : NewName) (scan : Scan) : Except ErrorKind (Nat × Nat) :=
  match scan.found with
  | some start => .ok (start, 0)
  | none =>
    let start := if scan.runLen = 0 then scan.slot else scan.runStart
    if dir = .fixed ∨ maxDirEntries < start + new.slots then .error .noSpace
    else .ok (start, (new.slots - scan.runLen + (cfg.perCluster - 1)) / cfg.perCluster)

def pickShort (wanted : Wanted) (slots : List Slot) (scan : Scan) : Except ErrorKind ShortName :=
  if wanted.new.lossless && !scan.taken 0 then .ok (wanted.new.candidate 0)
  else if wanted.new.shortOnly then .error .alreadyExists
  else match (List.range' 1 (candidateCount - 1)).find? fun bit => !scan.taken bit with
    | some bit => .ok (wanted.new.candidate bit)
    | none => hashedShort cfg wanted slots (256 - candidateCount) candidateCount

def setAppend (index : Option AppendIndex) : Run Unit :=
  Prog.modify fun vol => { vol with appendIndex := index }

def planAppend (dir : DirStart) (new : NewName) (index : AppendIndex) : Run Plan := do
  if index.names.contains (new.candidate 0) then Prog.fail .alreadyExists
  else do
    let available ← Prog.gets fun vol => decide (index.slot < (reached (vol.dirs dir)).length)
    if maxDirEntries ≤ index.slot ∨ available = false ∧ dir = .fixed then Prog.fail .noSpace
    else
      pure {
        start := index.slot
        slots := 1
        grow := if available then 0 else 1
        short := new.candidate 0
        ntCase := new.caseBits.getD 0 }

def planScan (dir : DirStart) (wanted : Wanted) (eligible : Bool) : Run Plan := do
  setAppend none
  let slots ← Prog.gets fun vol => reached (vol.dirs dir)
  let scan ← Prog.ofExcept (Scan.loop cfg wanted slots
    (Scan.start wanted (if eligible then some [] else none)))
  let (start, grow) ← Prog.ofExcept (place cfg dir wanted.new scan)
  let short ← Prog.ofExcept (pickShort cfg wanted slots scan)
  setAppend (scan.append.map fun names => ⟨dir, names, start⟩)
  pure {
    start := start
    slots := wanted.new.slots
    grow := grow
    short := short
    ntCase := if wanted.new.shortOnly then wanted.new.caseBits.getD 0 else 0 }

def plan (dir : DirStart) (wanted : Wanted) : Run Plan := do
  let eligible := cfg.appendLimit != 0 && wanted.checkExists && wanted.new.shortOnly &&
    wanted.skip.entry.isNone && wanted.skip.run.isNone
  let index ← Prog.gets Volume.appendIndex
  match index.filter fun index => eligible && index.dir == dir with
  | some index => planAppend dir wanted.new index
  | none => planScan cfg dir wanted eligible

def setSlots (dir : DirStart) (f : List Slot → List Slot) : Run Unit :=
  Prog.modify fun vol => { vol with dirs := Function.update vol.dirs dir (f (vol.dirs dir)) }

def writeSlot (dir : DirStart) (index : Nat) (slot : Slot) : Run Unit := do
  let there ← Prog.gets fun vol => decide (index < (reached (vol.dirs dir)).length)
  if there then setSlots dir (·.set index slot) else Prog.fail .corrupt

def writeSlots (dir : DirStart) (first : Nat) : List Slot → Run Unit
  | [] => pure ()
  | slot :: rest => do
    writeSlot dir first slot
    writeSlots dir (first + 1) rest

def clearSlots (dir : DirStart) (first stop : Nat) : Run Unit := do
  setAppend none
  writeSlots dir first (List.replicate (stop - first) .free)

def grow (dir : DirStart) (plan : Plan) : Run Unit :=
  setSlots dir (· ++ List.replicate (plan.grow * cfg.perCluster) .endMark)

def entrySlots (new : NewName) (plan : Plan) (entry : ShortEntry) : List Slot :=
  ((longRun new.text entry.lfnChecksum).take (plan.slots - 1)).map .long ++ [.short entry]

def insertEntry (dir : DirStart) (new : NewName) (plan : Plan) (entry : ShortEntry) :
    Run Unit := do
  setAppend none
  writeSlots dir plan.start (entrySlots new plan entry)

/-- Writes a new node's entries: a directory's cluster with `.` and `..` first,
then the name. -/
def createEntry (dir : DirStart) (new : NewName) (plan : Plan) (isDir : Bool) (cluster : Nat) :
    Run Unit := do
  let entry : ShortEntry :=
    { ShortEntry.new plan.short (if isDir then attrDirectory else attrArchive) with
      ntCase := plan.ntCase
      firstCluster := if isDir then cluster else 0 }
  grow cfg dir plan
  Prog.when isDir do
    let dot : ShortEntry :=
      ⟨ShortName.ofParts [0x2E] [], attrDirectory, 0, cluster⟩
    let dotDot : ShortEntry :=
      ⟨ShortEntry.dotDotName, attrDirectory, 0, parentCluster cfg dir⟩
    setSlots (.chain cluster) fun _ => (List.replicate cfg.perCluster .endMark)
    setAppend none
    writeSlots (.chain cluster) 0 [.short dot, .short dotDot]
  insertEntry dir new plan entry

def keepAppend (plan : Plan) (index : Option AppendIndex) : Run Unit :=
  match index with
  | none => pure ()
  | some index =>
    if index.names.length < cfg.appendLimit then
      setAppend (some ⟨index.dir, AppendIndex.insert index.names plan.short,
        plan.start + plan.slots⟩)
    else pure ()

def createNode (dir : DirStart) (name : Text) (isDir : Bool) (cluster : Nat) : Run Unit := do
  if !checkName name then Prog.fail .invalidInput
  else do
    let new ← Prog.ofExcept (NewName.new name cfg.page (fold cfg))
    let plan ← plan cfg dir ⟨name, true, new, .none⟩
    let append ← Prog.gets Volume.appendIndex
    setAppend none
    createEntry cfg dir new plan isDir cluster
    keepAppend cfg plan append

def create (dir : DirStart) (name : Text) : Run Unit := createNode cfg dir name false 0

def mkdir (dir : DirStart) (name : Text) (cluster : Nat) : Run Unit :=
  createNode cfg dir name true cluster

/-- Whether an existing target may be replaced. -/
inductive RenameMode where
  | replace
  | noReplace
deriving DecidableEq

/-- A rename whose new entry is about to be written. -/
structure Move where
  source : DirStart
  src : Located
  dest : DirStart
  new : NewName
  plan : Plan
  /-- The entry to write. -/
  entry : ShortEntry
  /-- A moved directory and its new parent. -/
  dotDot : Option (Nat × Nat)
  /-- The new run takes the end marker's place. -/
  ends : Bool

def Plan.last (plan : Plan) : Nat := plan.start + plan.slots - 1

def renameEnd (move : Move) : Run Unit :=
  Prog.when move.ends do
    let there ← Prog.gets fun vol =>
      decide (move.plan.last + 1 < (reached (vol.dirs move.dest)).length)
    Prog.when there (writeSlot move.dest (move.plan.last + 1) .endMark)

def setDotDot (dir parent : Nat) : Run Unit := do
  let _ ← checkCluster cfg dir
  let slot : Option Slot ← Prog.gets fun vol => (vol.dirs (.chain dir))[1]?
  match slot with
  | some (.short entry) =>
    if !entry.isDotDot then Prog.fail .corrupt
    else writeSlot (.chain dir) 1 (.short { entry with firstCluster := parent })
  | _ => Prog.fail .corrupt

def beginRename (source : DirStart) (src : Located) (dest : DirStart)
    (new : NewName) (plan : Plan)
    (moved : ShortEntry) (dotDot : Option (Nat × Nat)) : Run Move := do
  let run ← Prog.gets fun vol => ((reached (vol.dirs dest)).drop plan.start).take plan.slots
  if run.length < plan.slots then Prog.fail .corrupt
  else
    pure {
      source := source
      src := src
      dest := dest
      new := new
      plan := plan
      entry := { moved with name := plan.short, ntCase := plan.ntCase }
      dotDot := dotDot
      ends := run.any (· == .endMark) }

/-- Writes the new entry, then the moved directory's `..`, then clears the old
entry. -/
def moveEntry (move : Move) : Run Unit := do
  setAppend none
  writeSlot move.dest move.plan.last .free
  renameEnd move
  insertEntry move.dest move.new move.plan move.entry
  renameEnd move
  Prog.whenSome move.dotDot fun (dir, parent) => setDotDot cfg dir parent
  clearSlots move.source move.src.first (move.src.slot + 1)

def replaceEntry (source : DirStart) (src : Located) (dest : DirStart) (target : Located)
    (new : NewName) (moved : ShortEntry) (dotDot : Option (Nat × Nat)) : Run Unit := do
  if moved.isDir && !target.entry.isDir then Prog.fail .notADirectory
  else if !moved.isDir && target.entry.isDir then Prog.fail .isADirectory
  else do
    Prog.when target.entry.isDir do
      let first ← checkCluster cfg target.entry.firstCluster
      let empty ← dirIsEmpty first
      Prog.when (empty = false) (Prog.fail .directoryNotEmpty)
    let skip : Skip :=
      ⟨if source = dest then some src.slot else none, some (target.first, target.slot)⟩
    let plan ← plan cfg dest ⟨new.text, false, new, skip⟩
    if maxEntries + 1 < target.slot - target.first + 1 then Prog.fail .corrupt
    else do
      grow cfg dest plan
      let move ← beginRename source src dest new plan moved dotDot
      setAppend none
      writeSlot dest target.slot .free
      clearSlots dest target.first target.slot
      moveEntry cfg move
      -- the target's clusters are freed
      Prog.when target.entry.isDir (setSlots (.chain target.entry.firstCluster) fun _ => [])

def renameInto (source : DirStart) (src : Located) (dest : DirStart) (new : NewName)
    (moved : ShortEntry) (dotDot : Option (Nat × Nat)) : Run Unit := do
  let skip : Skip := ⟨if source = dest then some src.slot else none, none⟩
  let plan ← plan cfg dest ⟨new.text, false, new, skip⟩
  grow cfg dest plan
  let move ← beginRename source src dest new plan moved dotDot
  moveEntry cfg move

def rename (source : DirStart) (srcName : Text) (dest : DirStart) (name : Text)
    (mode : RenameMode) :
    Run Unit := do
  if !checkName srcName || !checkName name then Prog.fail .invalidInput
  else do
    let new ← Prog.ofExcept (NewName.new name cfg.page (fold cfg))
    let found ← findEntry cfg source srcName
    match found with
    | none => Prog.fail .notFound
    | some src => do
      let within ← movesInside cfg dest src
      if within then Prog.fail .invalidInput
      else do
        let moved := if src.entry.isDir then src.entry
          else { src.entry with attr := src.entry.attr ||| attrArchive }
        let dotDot := if src.entry.isDir && parentCluster cfg source != parentCluster cfg dest
          then some (src.entry.firstCluster, parentCluster cfg dest) else none
        let target ← findEntry cfg dest name
        match target with
        | some target =>
          if dest = source ∧ target.slot = src.slot then
            if isExact name target.long target.entry cfg.page then pure ()
            else renameInto cfg source src dest new moved dotDot
          else if mode = .noReplace then Prog.fail .alreadyExists
          else replaceEntry cfg source src dest target new moved dotDot
        | none => renameInto cfg source src dest new moved dotDot

end Volume

end Hadris.Directory
