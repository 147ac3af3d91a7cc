import Hadris.Iso.Shapes
import Hadris.Bytes
import Hadris.Iso.Dedup
import Mathlib.Data.List.Sort

namespace Hadris.Iso

open List
open Hadris.Directory (encodeUtf8)

def both (width n : Nat) : List UInt8 := leBytes width n ++ (leBytes width n).reverse

theorem length_both (width n : Nat) : (both width n).length = 2 * width := by
  rw [both, length_append, length_reverse, leBytes_length]
  omega

def ascii (text : String) : List UInt8 := encodeUtf8 text.toList

def entry (signature : String) (body : List UInt8) : List UInt8 :=
  ascii signature ++ (4 + body.length).toUInt8 :: 1 :: body

def ceLen : Nat := 28

def erId : String := "RRIP_1991A"

def erDescriptor : String :=
  "THE ROCK RIDGE INTERCHANGE PROTOCOL PROVIDES SUPPORT FOR POSIX FILE SYSTEM SEMANTICS"

def erSource : String :=
  "PLEASE CONTACT DISC PUBLISHER FOR SPECIFICATION SOURCE. SEE PUBLISHER IDENTIFIER IN PRIMARY VOLUME DESCRIPTOR FOR CONTACT INFORMATION."

/-- The fields of a directory record's time. -/
structure DirDateTime where
  year : UInt8
  month : UInt8
  day : UInt8
  hour : UInt8
  minute : UInt8
  second : UInt8
  offset : UInt8
deriving DecidableEq

def DirDateTime.toBytes (time : DirDateTime) : List UInt8 :=
  [time.year, time.month, time.day, time.hour, time.minute, time.second, time.offset]

def chunks (size : Nat) : Nat → List UInt8 → List (List UInt8)
  | 0, _ => []
  | fuel + 1, rest => if rest = [] then []
    else rest.take size :: chunks size fuel (rest.drop size)

/-- The entries of one system use area, most important first. -/
abbrev SuBuilder := List (List UInt8)

namespace SuBuilder

def sp : SuBuilder := [entry "SP" [0xBE, 0xEF, 0]]

def er : SuBuilder :=
  [entry "ER" ([(ascii erId).length.toUInt8, (ascii erDescriptor).length.toUInt8,
    (ascii erSource).length.toUInt8, 1] ++
    ascii erId ++ ascii erDescriptor ++ ascii erSource)]

def px (mode links uid gid serial : Nat) : SuBuilder :=
  [entry "PX" (both 4 mode ++ both 4 links ++ both 4 uid ++ both 4 gid ++ both 4 serial)]

def pn (high low : Nat) : SuBuilder := [entry "PN" (both 4 high ++ both 4 low)]

def nmChunks : List (List UInt8) → SuBuilder
  | [] => []
  | chunk :: rest => entry "NM" ((if rest = [] then 0 else 1) :: chunk) :: nmChunks rest

def nm (name : List UInt8) : SuBuilder := nmChunks (chunks 250 name.length name)

def logicalDirectory : SuBuilder := [entry "HD" (ascii "hadris.logical-directory")]

def nmCurrent : SuBuilder := [entry "NM" [0x02]]

def nmParent : SuBuilder := [entry "NM" [0x04]]

def slash : UInt8 := 0x2F

def slChunks : List (List UInt8) → List (UInt8 × List UInt8)
  | [] => []
  | chunk :: rest => ((if rest = [] then 0 else 1), chunk) :: slChunks rest

def slPart (part : List UInt8) : List (UInt8 × List UInt8) :=
  if part = [dot] then [(0x02, [])]
  else if part = [dot, dot] then [(0x04, [])]
  else slChunks (chunks 248 part.length part)

def slComponents (target : List UInt8) : List (UInt8 × List UInt8) :=
  (if target.head? = some slash then [(0x08, [])] else []) ++
    ((target.splitOn slash).filter (· ≠ [])).flatMap slPart

def slEntries : List UInt8 → Bool → List (UInt8 × List UInt8) → SuBuilder
  | body, pushed, [] => if pushed ∨ body.length = 1 then [entry "SL" body] else []
  | body, _, (flags, content) :: rest =>
    if 4 + body.length + 2 + content.length > 255 then
      entry "SL" (1 :: body.tail) ::
        slEntries (0 :: flags :: content.length.toUInt8 :: content) true rest
    else slEntries (body ++ flags :: content.length.toUInt8 :: content) true rest

def sl (target : List UInt8) : SuBuilder := slEntries [0] false (slComponents target)

def tf (created : Option DirDateTime) (modified accessed : DirDateTime) : SuBuilder :=
  [entry "TF" ((if created.isSome then 0x07 else 0x06) ::
    ((created.map DirDateTime.toBytes).getD [] ++ modified.toBytes ++ accessed.toBytes))]

def cl (block : Nat) : SuBuilder := [entry "CL" (both 4 block)]

def pl (block : Nat) : SuBuilder := [entry "PL" (both 4 block)]

def re : SuBuilder := [entry "RE" []]

end SuBuilder

def sector : Nat := 2048

/-- A system use area: the inline bytes and the continuation areas. -/
structure SplitSu where
  inline : List UInt8
  areas : List (List UInt8)
  ceOffset : Option Nat
deriving DecidableEq

namespace SplitSu

def empty : SplitSu := ⟨[], [], none⟩

end SplitSu

namespace SuBuilder

def fitting (budget : Nat) : Nat → SuBuilder → Nat
  | _, [] => 0
  | used, entry :: rest =>
    if used + entry.length > budget then 0 else fitting budget (used + entry.length) rest + 1

/-- The continuation areas of `rest`: each is at most a block, and each but the
last ends in a `CE` entry for the next. -/
def areas : Nat → SuBuilder → List (List UInt8)
  | 0, _ => []
  | fuel + 1, rest =>
    if rest = [] then []
    else if rest.flatten.length ≤ sector then [rest.flatten]
    else
      let take := fitting (sector - ceLen) 0 rest
      ((rest.take take).flatten ++ entry "CE" (replicate 24 0)) :: areas fuel (rest.drop take)

/-- Keeps whole entries inline while they fit `maxInline` bytes, leaving room for
a `CE` entry that points at the rest. -/
def split (entries : SuBuilder) (maxInline : Nat) : SplitSu :=
  if entries.flatten.length ≤ maxInline then ⟨entries.flatten, [], none⟩
  else
    let split := fitting (maxInline - ceLen) 0 entries
    let kept := (entries.take split).flatten
    ⟨kept ++ entry "CE" (replicate 24 0), areas entries.length (entries.drop split),
      some kept.length⟩

end SuBuilder

namespace SuBuilder

variable {entries others : SuBuilder} {maxInline budget used fuel : Nat}

theorem length_take_fitting (h : used ≤ budget) :
    used + ((entries.take (fitting budget used entries)).flatten).length ≤ budget := by
  induction entries generalizing used with
  | nil => exact h
  | cons entry rest ih =>
    rw [fitting]
    split
    · exact h
    · rename_i hfits
      have hrest := ih (Nat.le_of_not_lt hfits)
      rw [take_succ_cons, flatten_cons, length_append]
      omega

theorem length_entry (signature : String) (body : List UInt8) :
    (entry signature body).length = (ascii signature).length + 2 + body.length := by
  rw [entry, length_append, length_cons, length_cons]
  omega

theorem length_ce : (entry "CE" (replicate 24 0)).length = ceLen := rfl

theorem length_split (h : ceLen ≤ maxInline) :
    (split entries maxInline).inline.length ≤ maxInline := by
  rw [split]
  split
  · assumption
  · have hkept : 0 + ((entries.take (fitting (maxInline - ceLen) 0 entries)).flatten).length ≤
      maxInline - ceLen :=
      length_take_fitting (Nat.zero_le _)
    change (_ ++ _ : List UInt8).length ≤ _
    rw [length_append, length_ce]
    omega

/-- Entries of the same lengths. -/
def Alike (entries others : SuBuilder) : Prop := entries.map List.length = others.map List.length

theorem Alike.length_flatten (h : Alike entries others) :
    entries.flatten.length = others.flatten.length := by
  rw [List.length_flatten, List.length_flatten, h]

theorem Alike.take (h : Alike entries others) (n : Nat) :
    Alike (entries.take n) (others.take n) := by
  rw [Alike, map_take, map_take, h]

theorem Alike.drop (h : Alike entries others) (n : Nat) :
    Alike (entries.drop n) (others.drop n) := by
  rw [Alike, map_drop, map_drop, h]

theorem Alike.append {more rest : SuBuilder} (h : Alike entries others)
    (hmore : Alike more rest) :
    Alike (entries ++ more) (others ++ rest) := by
  rw [Alike, map_append, map_append, h, hmore]

theorem Alike.refl (entries : SuBuilder) : Alike entries entries := rfl

theorem Alike.fitting (h : Alike entries others) :
    fitting budget used entries = SuBuilder.fitting budget used others := by
  induction entries generalizing others used with
  | nil =>
    cases others with
    | nil => rfl
    | cons other others => cases h
  | cons entry rest ih =>
    cases others with
    | nil => cases h
    | cons other others =>
      obtain ⟨hhead, htail⟩ := List.cons.inj h
      rw [SuBuilder.fitting, SuBuilder.fitting, hhead, ih htail]

theorem Alike.areas (h : Alike entries others) :
    (areas fuel entries).map List.length = (SuBuilder.areas fuel others).map List.length := by
  induction fuel generalizing entries others with
  | zero => rfl
  | succ fuel ih =>
    have hnil : entries = [] ↔ others = [] := by
      rw [← length_eq_zero_iff, ← length_eq_zero_iff, ← length_map List.length, h, length_map]
    rw [SuBuilder.areas, SuBuilder.areas]
    by_cases hempty : entries = []
    · rw [if_pos hempty, if_pos (hnil.mp hempty)]
    · rw [if_neg hempty, if_neg (mt hnil.mpr hempty), h.length_flatten]
      split
      · rw [map_singleton, map_singleton, h.length_flatten]
      · rw [map_cons, map_cons, h.fitting, ih (h.drop _), length_append, length_append,
          (h.take _).length_flatten]

theorem Alike.split (h : Alike entries others) :
    (split entries maxInline).inline.length = (SuBuilder.split others maxInline).inline.length ∧
      (SuBuilder.split entries maxInline).areas.map List.length =
        (SuBuilder.split others maxInline).areas.map List.length := by
  have hcount : entries.length = others.length := by
    rw [← length_map List.length, h, length_map]
  rw [SuBuilder.split, SuBuilder.split, h.length_flatten]
  split
  · exact ⟨h.length_flatten, rfl⟩
  · dsimp only
    rw [length_append, length_append, h.fitting, (h.take _).length_flatten, hcount]
    exact ⟨rfl, (h.drop _).areas⟩

end SuBuilder

/-- The system use bytes that a record with an identifier of `nameLen` bytes can
hold inline: the record, padded to an even length, holds 254 bytes. -/
def inlineSpace (nameLen : Nat) : Nat := 254 - (33 + nameLen + 1) / 2 * 2

end Hadris.Iso

namespace Hadris.Iso

open List
open Hadris.Directory (Text)

/-- A directory record before it is written. -/
structure PendingRecord where
  name : Identifier
  split : SplitSu
  extent : Nat × Nat
  flags : UInt8
  time : DirDateTime
deriving DecidableEq

def FileFlags.directory : UInt8 := 0x02

def FileFlags.notFinal : UInt8 := 0x80

def PendingRecord.isNotFinal (record : PendingRecord) : Bool :=
  record.flags &&& FileFlags.notFinal ≠ 0

def isSpecial (name : Identifier) : Bool := name = [0] ∨ name = [1]

def unique (rules : Rules) (fuel : Nat) (seen : List Identifier) (original : Identifier) :
    Option Identifier :=
  if original ∈ seen then firstFree (rules.dedup original) seen fuel 1 else some original

/-- Gives names that repeat in a directory a `_n` suffix; the records of one
multi-extent file keep one name, that of `current`. -/
def dedup (rules : Rules) (fuel : Nat) : List Identifier → Option Identifier →
    List PendingRecord →
    Option (List PendingRecord)
  | _, _, [] => some []
  | seen, some name, record :: rest => do
    let rest ← dedup rules fuel seen (if record.isNotFinal then some name else none) rest
    some ({ record with name } :: rest)
  | seen, none, record :: rest =>
    if isSpecial record.name then do
      let rest ← dedup rules fuel seen none rest
      some (record :: rest)
    else do
      let name ← unique rules fuel seen record.name
      let rest ← dedup rules fuel (name :: seen)
        (if record.isNotFinal then some name else none) rest
      some ({ record with name } :: rest)

def rank (name : Identifier) : Nat := if name = [0] then 0 else if name = [1] then 1 else 2

/-- The order of the records of a directory. -/
def Before (a b : PendingRecord) : Prop :=
  rank a.name < rank b.name ∨ rank a.name = rank b.name ∧ a.name ≤ b.name

instance : DecidableRel Before := fun a b =>
  inferInstanceAs
    (Decidable (rank a.name < rank b.name ∨ rank a.name = rank b.name ∧ a.name ≤ b.name))

/-- The attributes asked for of a node. -/
structure SetAttr where
  permissions : Option Nat
  owner : Option (Nat × Nat)
  modified : Option DirDateTime
  accessed : Option DirDateTime
  created : Option DirDateTime

/-- The metadata Rock Ridge keeps. -/
structure Preserve where
  permissions : Bool
  owners : Bool
  times : Bool

inductive FileKind where
  | data (node len : Nat)
  | symlink (node : Nat)
  | blockDevice (node high low : Nat)
  | charDevice (node high low : Nat)
  | catalog (len : Nat)

structure PFile where
  name : Text
  raw : List UInt8
  path : List UInt8
  kind : FileKind
  attrs : SetAttr
  links : Nat

structure PDir where
  name : Text
  raw : List UInt8
  isoName : Text
  attrs : SetAttr
  parent : Nat
  dirs : List Nat
  files : List Nat
  movedTo : Option Nat
  placeholders : List Nat
  physical : List Nat
  serial : Nat

inductive TreeKind where
  | primary
  | enhanced
  | joliet
deriving DecidableEq

/-- What the planner knows when it makes the records of directories. -/
structure Planner where
  preserve : Preserve
  now : DirDateTime
  dirs : Nat → PDir
  files : Nat → PFile
  trees : Nat → TreeKind × Rules
  rockRidge : Bool
  rrMoved : Option Nat
  serials : Nat → Option Nat
  targets : List UInt8 → Option (List UInt8)
  extents : Option Nat → List (Nat × Nat)
  dirRefs : Nat × Nat → Option (Nat × Nat)

inductive Detail where
  | imageTooLarge
  | directoryRecord
deriving DecidableEq

namespace Planner

open SuBuilder

variable (p : Planner)

def posix (attrs : SetAttr) (typeMode default links serial : Nat) : SuBuilder :=
  let mode := if p.preserve.permissions then attrs.permissions.getD default else default
  let (uid, gid) := if p.preserve.owners then attrs.owner.getD (0, 0) else (0, 0)
  px (typeMode ||| mode) links uid gid serial ++
    if p.preserve.times then
      tf attrs.created (attrs.modified.getD p.now) (attrs.accessed.getD p.now)
    else []

def dirLinks (dir : Nat) : Nat :=
  2 + ((p.dirs dir).physical.length + (p.dirs dir).placeholders.length)

def parentIn (dir ti : Nat) : Nat :=
  if (p.trees ti).1 = .primary then (p.dirs dir).movedTo.getD (p.dirs dir).parent
    else (p.dirs dir).parent

def subdirsIn (dir ti : Nat) : List Nat :=
  if (p.trees ti).1 = .primary then (p.dirs dir).physical else (p.dirs dir).dirs

def dirRef (dir ti : Nat) : Nat × Nat := (p.dirRefs (dir, ti)).getD (0, 0)

def fileExtents (file : PFile) : List (Nat × Nat) :=
  let extents := match file.kind with
    | .data node _ => p.extents (some node)
    | .catalog _ => p.extents none
    | _ => []
  if extents = [] then [(0, 0)] else extents

def fileSerial (file : PFile) : Nat :=
  match file.kind with
  | .data node _ => (p.serials node).getD 0
  | .symlink node => (p.serials node).getD 0
  | .blockDevice node _ _ => (p.serials node).getD 0
  | .charDevice node _ _ => (p.serials node).getD 0
  | .catalog _ => 0

def recordTime (attrs : SetAttr) : DirDateTime := attrs.modified.getD p.now

def rockRidgeIn (ti : Nat) : Bool := p.rockRidge ∧ (p.trees ti).1 = .primary

def directoryPosix (dir : Nat) : SuBuilder :=
  p.posix (p.dirs dir).attrs 0o040000 0o755 (p.dirLinks dir) (p.dirs dir).serial

/-- The entries, where the tree has them, in a record with an identifier of
`nameLen` bytes. -/
def splitIn (ti nameLen : Nat) (entries : SuBuilder) : SplitSu :=
  if p.rockRidgeIn ti then entries.split (inlineSpace nameLen) else .empty

def specialEntries (ti dir : Nat) (parent : Bool) : SuBuilder :=
  let target := if parent then p.parentIn dir ti else dir
  (if ¬parent ∧ dir = 0 then sp else []) ++ p.directoryPosix target ++
    if parent then
      nmParent ++ if (p.dirs dir).movedTo.isSome
        then pl (p.dirRef (p.dirs dir).parent ti).1 else []
    else nmCurrent ++ if dir = 0 then er else []

def special (ti dir : Nat) (parent : Bool) : PendingRecord :=
  let target := if parent then p.parentIn dir ti else dir
  ⟨[if parent then 1 else 0], p.splitIn ti 1 (p.specialEntries ti dir parent), p.dirRef target ti,
    FileFlags.directory, p.recordTime (p.dirs target).attrs⟩

def childEntries (ti child : Nat) (placeholder : Bool) : SuBuilder :=
  let c := p.dirs child
  p.directoryPosix child ++ nm c.raw ++
    (if some child ≠ p.rrMoved ∧ c.physical.any (fun dir => (p.dirs dir).movedTo = some child)
      then
      logicalDirectory else []) ++
    if placeholder then cl (p.dirRef child ti).1 else if c.movedTo.isSome then re else []

def childText (ti child : Nat) (placeholder : Bool) : Text :=
  let c := p.dirs child
  if placeholder ∨ (p.trees ti).1 ≠ .primary then c.name else c.isoName

def childName (ti child : Nat) (placeholder : Bool) : Identifier :=
  (p.trees ti).2.directory (p.childText ti child placeholder)

def child (ti child : Nat) (placeholder : Bool) : PendingRecord :=
  let name := p.childName ti child placeholder
  ⟨name, p.splitIn ti name.length (p.childEntries ti child placeholder), p.dirRef child ti,
    if placeholder then 0 else FileFlags.directory, p.recordTime (p.dirs child).attrs⟩

def fileEntries (file : PFile) : SuBuilder :=
  let (typeMode, default) := match file.kind with
    | .symlink _ => (0o120000, 0o777)
    | .blockDevice _ _ _ => (0o060000, 0o600)
    | .charDevice _ _ _ => (0o020000, 0o600)
    | _ => (0o100000, 0o644)
  p.posix file.attrs typeMode default file.links (p.fileSerial file) ++ nm file.raw ++
    match file.kind with
    | .symlink _ => ((p.targets file.path).map sl).getD []
    | .blockDevice _ high low => pn high low
    | .charDevice _ high low => pn high low
    | _ => []

def extentRecords (name : Identifier) (split : SplitSu) (time : DirDateTime) :
    List (Nat × Nat) → Except Detail (List PendingRecord)
  | [] => .ok []
  | (block, len) :: rest =>
    if 2 ^ 32 ≤ len then .error .imageTooLarge
    else do
      let records ← extentRecords name split time rest
      .ok (⟨name, split, (block, len), if rest = [] then 0 else FileFlags.notFinal, time⟩ ::
        records)

def needsRockRidge : FileKind → Bool
  | .symlink _ => true
  | .blockDevice _ _ _ => true
  | .charDevice _ _ _ => true
  | _ => false

def shows (ti file : Nat) : Bool := p.rockRidgeIn ti || !needsRockRidge (p.files file).kind

def appendFile (ti file : Nat) : Except Detail (List PendingRecord) :=
  let f := p.files file
  if ¬p.shows ti file then .ok []
  else
    let name := (p.trees ti).2.file f.name
    extentRecords name (p.splitIn ti name.length (p.fileEntries f))
      (p.recordTime f.attrs) (p.fileExtents f)

def appendFiles (ti : Nat) : List Nat → Except Detail (List PendingRecord)
  | [] => .ok []
  | file :: rest => do
    let records ← p.appendFile ti file
    let more ← appendFiles ti rest
    .ok (records ++ more)

def placeholdersIn (dir ti : Nat) : List Nat :=
  if p.rockRidgeIn ti then (p.dirs dir).placeholders else []

/-- The records of what `dir` holds in the tree `ti`, with the identifiers that
the names are mapped to. -/
def children (dir ti : Nat) : Except Detail (List PendingRecord) := do
  let files ← p.appendFiles ti (p.dirs dir).files
  .ok ((p.subdirsIn dir ti).map (p.child ti · false) ++ (p.placeholdersIn dir ti).map
    (p.child ti · true) ++ files)

def texts (dir ti : Nat) : List Text :=
  (p.subdirsIn dir ti).map (p.childText ti · false) ++ (p.placeholdersIn dir ti).map
    (p.childText ti · true) ++
    ((p.dirs dir).files.filter (p.shows ti)).map fun file => (p.files file).name

def records (fuel dir ti : Nat) : Except Detail (Option (List PendingRecord)) := do
  let children ← p.children dir ti
  let records := p.special ti dir false :: p.special ti dir true :: children
  .ok ((dedup (p.trees ti).2 fuel [] none records).map (insertionSort Before))

end Planner

end Hadris.Iso
