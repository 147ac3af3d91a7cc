import Mathlib.Data.List.Basic
import Mathlib.Data.List.Count
import Mathlib.Tactic.Common
import Mathlib.Data.List.DropRight
import Mathlib.Data.List.TakeDrop
import Hadris.Meta

namespace Hadris.Directory

/-- A name as text: its characters in order. -/
abbrev Text := List Char

def charUnits (ch : Char) : List UInt16 :=
  if ch.toNat < 0x10000 then [UInt16.ofNat ch.toNat]
  else
    [UInt16.ofNat (0xD800 + (ch.toNat - 0x10000) / 0x400),
      UInt16.ofNat (0xDC00 + (ch.toNat - 0x10000) % 0x400)]

def encodeUtf16 (text : Text) : List UInt16 := text.flatMap charUnits

def encodeUtf8 (text : Text) : List UInt8 := text.flatMap String.utf8EncodeChar

def isAscii (ch : Char) : Bool := ch.toNat < 0x80

def toAsciiUppercase (byte : UInt8) : UInt8 :=
  if 0x61 ≤ byte ∧ byte ≤ 0x7A then byte - 0x20 else byte

def toAsciiLowercase (byte : UInt8) : UInt8 :=
  if 0x41 ≤ byte ∧ byte ≤ 0x5A then byte + 0x20 else byte

def fromU32 (code : Nat) : Option Char :=
  if h : code.isValidChar then some (Char.ofNatAux code h) else none

def foldAscii (unit : UInt16) : UInt16 :=
  if 0x61 ≤ unit ∧ unit ≤ 0x7A then unit - 0x20 else unit

def foldUnicode (upper : Char → List Char) (unit : UInt16) : UInt16 :=
  if unit < 0x80 then foldAscii unit
  else match fromU32 unit.toNat with
    | none => unit
    | some ch => match upper ch with
      | [single] => if single.toNat < 0x10000 then UInt16.ofNat single.toNat else unit
      | _ => unit

def foldChar (fold : UInt16 → UInt16) (ch : Char) : Char :=
  if ch.toNat < 0x10000 then (fromU32 (fold (UInt16.ofNat ch.toNat)).toNat).getD ch else ch

def isLow (unit : UInt16) : Bool := 0xDC00 ≤ unit.toNat ∧ unit.toNat < 0xE000

theorem toNat_ofNat_unit {n : Nat} (h : n < 0x10000) : (UInt16.ofNat n).toNat = n :=
  UInt16.toNat_ofNat_of_lt' h

theorem char_valid (ch : Char) :
    ch.toNat < 0xD800 ∨ 0xDFFF < ch.toNat ∧ ch.toNat < 0x110000 := ch.valid

theorem isLow_char {ch : Char} (h : ch.toNat < 0x10000) :
    isLow (UInt16.ofNat ch.toNat) = false := by
  have hvalid := char_valid ch
  rw [isLow, toNat_ofNat_unit h, decide_eq_false_iff_not]
  omega

theorem countP_charUnits (ch : Char) : (charUnits ch).countP (fun u => !isLow u) = 1 := by
  have hvalid := char_valid ch
  rw [charUnits]
  split
  · rename_i h
    rw [List.countP_singleton, isLow_char h]
    rfl
  · have hhigh : isLow (UInt16.ofNat (0xD800 + (ch.toNat - 0x10000) / 0x400)) = false := by
      rw [isLow, toNat_ofNat_unit (by omega), decide_eq_false_iff_not]
      omega
    have hlow : isLow (UInt16.ofNat (0xDC00 + (ch.toNat - 0x10000) % 0x400)) = true := by
      rw [isLow, toNat_ofNat_unit (by omega), decide_eq_true_eq]
      omega
    simp only [List.countP_cons, List.countP_nil, hhigh, hlow]
    rfl

theorem countP_encodeUtf16 (text : Text) :
    (encodeUtf16 text).countP (fun u => !isLow u) = text.length := by
  induction text with
  | nil => rfl
  | cons ch rest ih =>
    change ((charUnits ch ++ encodeUtf16 rest).countP _) = _
    rw [List.countP_append, ih, countP_charUnits, List.length_cons, Nat.add_comm]

theorem fromU32_toNat {code : Nat} {ch : Char} (h : fromU32 code = some ch) :
    ch.toNat = code := by
  by_cases hvalid : code.isValidChar
  · rw [fromU32, dif_pos hvalid] at h
    cases h
    rfl
  · rw [fromU32, dif_neg hvalid] at h
    cases h

theorem isLow_foldAscii (unit : UInt16) (h : unit < 0x80) : isLow (foldAscii unit) = false := by
  have hunit : unit.toNat < 128 := h
  rw [isLow, decide_eq_false_iff_not, foldAscii]
  split
  · rename_i hlower
    have hle : (0x20 : UInt16) ≤ unit := UInt16.le_trans (by decide) hlower.1
    have hsub := UInt16.toNat_sub_of_le _ _ hle
    omega
  · omega

theorem isLow_foldUnicode (upper : Char → List Char) (unit : UInt16) :
    isLow (foldUnicode upper unit) = isLow unit := by
  rw [foldUnicode]
  split
  · rename_i h
    have hunit : unit.toNat < 128 := h
    rw [isLow_foldAscii unit h, isLow, eq_comm, decide_eq_false_iff_not]
    omega
  · cases hch : fromU32 unit.toNat with
    | none => rfl
    | some ch =>
      have hplain : isLow unit = false := by
        have hvalid := char_valid ch
        rw [fromU32_toNat hch] at hvalid
        rw [isLow, decide_eq_false_iff_not]
        omega
      simp only
      split
      · split
        · rename_i h
          rw [isLow_char h, hplain]
        · rfl
      · rfl

theorem length_eq_of_folded {upper : Char → List Char} {a b : Text}
    (h : (encodeUtf16 a).map (foldUnicode upper) = (encodeUtf16 b).map (foldUnicode upper)) :
    a.length = b.length := by
  have hcount : ∀ text : Text, text.length =
      ((encodeUtf16 text).map (foldUnicode upper)).countP fun u => !isLow u := by
    intro text
    rw [List.countP_map, ← countP_encodeUtf16]
    refine List.countP_congr fun u _ => ?_
    rw [Function.comp_apply, isLow_foldUnicode]
  rw [hcount a, hcount b, h]

theorem encodeUtf16_ascii {ch : Char} (h : isAscii ch) :
    charUnits ch = [UInt16.ofNat ch.toNat] := by
  rw [isAscii, decide_eq_true_eq] at h
  rw [charUnits, if_pos (by omega)]

end Hadris.Directory

namespace Hadris.Directory

/-- The OEM code page of short names. -/
structure CodePage where
  decode : UInt8 → Char
  encode : Char → Option UInt8

/-- The 11 bytes of a short name, space padded, without the dot. -/
structure ShortName where
  bytes : List UInt8
  length_eq : bytes.length = 11
deriving DecidableEq

namespace ShortName

def allowedSymbols : List UInt8 :=
  [0x24, 0x25, 0x27, 0x2D, 0x5F, 0x40, 0x7E, 0x60, 0x21, 0x28, 0x29, 0x7B, 0x7D, 0x5E, 0x23, 0x26]

def lowerBase : UInt8 := 0x08
def lowerExt : UInt8 := 0x10
def displayChars : Nat := 12
def maxUnits : Nat := 255

def deleted : UInt8 := 0xE5
def kanjiLead : UInt8 := 0x05

def zero : ShortName := ⟨List.replicate 11 0, rfl⟩

def first (name : ShortName) : UInt8 := name.bytes.headD 0

def toDisk (name : ShortName) : ShortName :=
  if name.first = deleted then
    ⟨name.bytes.set 0 kanjiLead, (List.length_set ..).trans name.length_eq⟩
  else name

def fromDisk (name : ShortName) : ShortName :=
  if name.first = kanjiLead then
    ⟨name.bytes.set 0 deleted, (List.length_set ..).trans name.length_eq⟩
  else name

def trim (part : List UInt8) : List UInt8 := part.rdropWhile (· == 0x20)

def shownByte (decode : UInt8 → Char) (lower : Bool) (byte : UInt8) : Char :=
  if byte < 0x80 then Char.ofNat (if lower then toAsciiLowercase byte else byte).toNat
  else decode byte

def display (stored : ShortName) (ntCase : UInt8) (decode : UInt8 → Char) : Text :=
  let name := stored.fromDisk.bytes
  let base := trim (name.take 8)
  let ext := trim (name.drop 8)
  base.map (shownByte decode (ntCase &&& lowerBase != 0)) ++
    if ext = [] then [] else
      Char.ofNat 0x2E :: ext.map (shownByte decode (ntCase &&& lowerExt != 0))

def forbidden : List Nat := [0x22, 0x2A, 0x2F, 0x3A, 0x3C, 0x3E, 0x3F, 0x5C, 0x7C]

def isDot (ch : Char) : Bool := ch.toNat == 0x2E

def isSpace (ch : Char) : Bool := ch.toNat == 0x20

def isValidLongName (name : Text) : Bool :=
  !name.isEmpty && name != [Char.ofNat 0x2E] && name != [Char.ofNat 0x2E, Char.ofNat 0x2E] &&
    decide ((encodeUtf16 name).length ≤ maxUnits) &&
    !name.any fun ch => decide (ch.toNat ≤ 0x1F) || forbidden.contains ch.toNat

def processChar (encode : Char → Option UInt8) (ch : Char) : UInt8 :=
  if !isAscii ch then
    match encode ch with
    | some byte => if 0x80 ≤ byte then byte else 0x5F
    | none => 0x5F
  else
    let byte := UInt8.ofNat ch.toNat
    let upper := toAsciiUppercase byte
    if 0x41 ≤ upper ∧ upper ≤ 0x5A ∨ 0x30 ≤ byte ∧ byte ≤ 0x39 then upper
    else if allowedSymbols.contains byte then byte
    else if isSpace ch || isDot ch then 0
    else 0x5F

def hash (name : Text) (suffix : Nat) : UInt16 :=
  (encodeUtf8 name).foldl (fun hash byte => hash * 37 + byte.toUInt16) (UInt16.ofNat suffix)

def splitExt (name : Text) : Text × Text :=
  let base := (name.rdropWhile (!isDot ·)).dropLast
  if base = [] then (name, []) else (base, name.rtakeWhile (!isDot ·))

def fill (encode : Char → Option UInt8) : Nat → Text → List UInt8
  | 0, _ => []
  | _ + 1, [] => []
  | limit + 1, ch :: rest =>
    let byte := processChar encode ch
    if byte = 0 then fill encode (limit + 1) rest else byte :: fill encode limit rest

def nibble (value : UInt16) (shift : Nat) : UInt8 :=
  let digit := (value >>> UInt16.ofNat shift &&& 0xF).toUInt8
  if digit < 10 then 0x30 + digit else 0x41 + digit - 10

def tail (name : Text) (suffix : Nat) : List UInt8 :=
  if suffix ≤ 4 then [0x7E, 0x30 + UInt8.ofNat suffix]
  else
    let round := suffix - 5
    let value := hash name (round / 9)
    [nibble value 12, nibble value 8, nibble value 4, nibble value 0, 0x7E,
      0x31 + UInt8.ofNat (round % 9)]

def pad (width : Nat) (part : List UInt8) : List UInt8 := part.takeD width 0x20

theorem pad_length (width : Nat) (part : List UInt8) : (pad width part).length = width :=
  List.takeD_length ..

def ofParts (base ext : List UInt8) : ShortName where
  bytes := pad 8 base ++ pad 3 ext
  length_eq := by rw [List.length_append, pad_length, pad_length]

def parts (name : Text) (suffix : Nat) (encode : Char → Option UInt8) :
    List UInt8 × List UInt8 :=
  let (base, ext) := splitExt name
  let (base, ext) := if base.all (fun ch => isDot ch || isSpace ch) && !ext.isEmpty
    then (ext, []) else (base, ext)
  let stem := fill encode (if 0 < suffix then 6 else 8) base
  let tail := tail name suffix
  (if 0 < suffix then stem.take (8 - tail.length) ++ tail else stem, fill encode 3 ext)

def generate (name : Text) (suffix : Nat) (encode : Char → Option UInt8) : Option ShortName :=
  let (base, ext) := parts name suffix encode
  if base.isEmpty && ext.isEmpty then none else some (ofParts base ext)

def partIsLower (part : Text) : Option Bool :=
  let allowed := fun ch : Char =>
    let upper := toAsciiUppercase (UInt8.ofNat ch.toNat)
    isAscii ch && (decide (0x41 ≤ upper ∧ upper ≤ 0x5A ∨ 0x30 ≤ upper ∧ upper ≤ 0x39) ||
      allowedSymbols.contains upper)
  let seenLower := part.any fun ch => decide (0x61 ≤ ch.toNat ∧ ch.toNat ≤ 0x7A)
  let seenUpper := part.any fun ch => decide (0x41 ≤ ch.toNat ∧ ch.toNat ≤ 0x5A)
  if !part.all allowed then none
  else if seenLower && seenUpper then none
  else some seenLower

def caseBits (name : Text) : Option UInt8 := do
  let (base, ext) := splitExt name
  if base.isEmpty || 8 < base.length || 3 < ext.length then none
  else if 1 < name.countP isDot then none
  else do
    let base ← partIsLower base
    let ext ← partIsLower ext
    some ((if base then lowerBase else 0) ||| (if ext then lowerExt else 0))

example : (generate "long file name.txt".toList 1 fun _ => none).map (·.bytes) =
    some "LONGFI~1TXT".toUTF8.toList := by decide +kernel

end ShortName

end Hadris.Directory

namespace Hadris.Directory

def attrVolumeId : UInt8 := 0x08
def attrDirectory : UInt8 := 0x10
def attrArchive : UInt8 := 0x20
def lastEntry : UInt8 := 0x40
def sequenceMask : UInt8 := 0x3F
def unitsPerEntry : Nat := 13
def maxEntries : Nat := 20

def maxDirEntries : Nat := 65536

/-- One long-name fragment, its three name fields as their code units. -/
structure LongEntry where
  sequence : UInt8
  checksum : UInt8
  name : List UInt16
deriving DecidableEq

def LongEntry.units (entry : LongEntry) : List UInt16 :=
  entry.name.takeWhile fun unit => unit != 0x0000 && unit != 0xFFFF

structure ShortEntry where
  name : ShortName
  attr : UInt8
  ntCase : UInt8
  firstCluster : Nat
deriving DecidableEq

namespace ShortEntry

def new (name : ShortName) (attributes : UInt8) : ShortEntry := ⟨name, attributes, 0, 0⟩

def lfnChecksum (entry : ShortEntry) : UInt8 :=
  entry.name.bytes.foldl (fun sum byte => (sum >>> 1 ||| sum <<< 7) + byte) 0

def isDir (entry : ShortEntry) : Bool := entry.attr &&& attrDirectory != 0

def isLabel (entry : ShortEntry) : Bool := entry.attr &&& attrVolumeId != 0

def isDot (entry : ShortEntry) : Bool := entry.name.first == 0x2E

def dotDotName : ShortName := ShortName.ofParts [0x2E, 0x2E] []

def isDotDot (entry : ShortEntry) : Bool := entry.name == dotDotName

def isVisible (entry : ShortEntry) : Bool := !entry.isLabel && !entry.isDot

end ShortEntry

/-- What a directory slot holds. -/
inductive Slot where
  | endMark
  | free
  | long (part : LongEntry)
  | short (entry : ShortEntry)
deriving DecidableEq

def longEntries (name : Text) : Nat :=
  ((encodeUtf16 name).length + (unitsPerEntry - 1)) / unitsPerEntry

/-- The long-name entry at `index` in disk order: the last part of the name
comes first. -/
def longEntry (name : Text) (checksum : UInt8) (index : Nat) : LongEntry :=
  let number := longEntries name - index
  let units := ((encodeUtf16 name).drop ((number - 1) * unitsPerEntry)).take unitsPerEntry
  { sequence := if index = 0 then UInt8.ofNat number ||| lastEntry else UInt8.ofNat number
    checksum := checksum
    name := units ++
      (0x0000 :: List.replicate (unitsPerEntry - 1) 0xFFFF).take (unitsPerEntry - units.length) }

def longRun (name : Text) (checksum : UInt8) : List LongEntry :=
  (List.range (longEntries name)).map (longEntry name checksum)

/-- Collects long-name entries read in disk order into a name. -/
structure Assembler where
  units : List UInt16
  checksum : UInt8
  expected : UInt8
  building : Bool
deriving DecidableEq

namespace Assembler

def new : Assembler := ⟨[], 0, 0, false⟩

def start (long : Assembler) (entry : LongEntry) : Assembler :=
  if entry.sequence &&& lastEntry = 0 then long
  else
    let count := entry.sequence &&& sequenceMask
    if count = 0 ∨ maxEntries < count.toNat then new
    else ⟨[], entry.checksum, count, true⟩

def push (long : Assembler) (entry : LongEntry) : Assembler :=
  let long := long.start entry
  if long.building then
    let number := entry.sequence &&& sequenceMask
    if number = 0 ∨ number ≠ long.expected ∨ entry.checksum ≠ long.checksum then new
    else if ShortName.maxUnits < long.units.length + entry.units.length then new
    else { long with units := entry.units ++ long.units, expected := long.expected - 1 }
  else long

/-- The name ended by a short entry with checksum `short`, when it is complete
and matches; the assembler is reset. -/
def finish (long : Assembler) (short : UInt8) : Option (List UInt16) :=
  if long.building ∧ long.expected = 0 ∧ long.checksum = short then some long.units else none

end Assembler

theorem Assembler.finish_new (short : UInt8) : Assembler.new.finish short = none := by
  rw [finish, if_neg]
  exact fun h => Bool.false_ne_true h.1

end Hadris.Directory

namespace Hadris.Directory

def candidateCount : Nat := 6

def shortName (text : Text) (suffix : Nat) (page : CodePage) (fold : UInt16 → UInt16) :
    Option ShortName :=
  ShortName.generate text suffix fun ch => page.encode (foldChar fold ch)

def candidate (text : Text) (page : CodePage) (fold : UInt16 → UInt16) (suffix : Nat) :
    ShortName :=
  ((shortName text suffix page fold).map ShortName.toDisk).getD ShortName.zero

def upperChar (ch : Char) : Char :=
  if isAscii ch then Char.ofNat (toAsciiUppercase (UInt8.ofNat ch.toNat)).toNat else ch

/-- A name about to be written. -/
structure NewName where
  text : Text
  /-- Candidates for tails none, `~1` to `~4`, and the first hashed tail. -/
  candidates : List ShortName
  /-- The name is its own short name up to case. -/
  lossless : Bool
  caseBits : Option UInt8

namespace NewName

def candidate (new : NewName) (bit : Nat) : ShortName := new.candidates.getD bit ShortName.zero

def new (text : Text) (page : CodePage) (fold : UInt16 → UInt16) : Except ErrorKind NewName :=
  if ShortName.maxUnits < (encodeUtf16 text).length then .error .nameTooLong
  else if !ShortName.isValidLongName text ||
      text.getLast?.any (fun ch => ShortName.isDot ch || ShortName.isSpace ch) then
    .error .invalidInput
  else
    let basis := Directory.candidate text page fold 0
    .ok {
      text := text
      candidates := (List.range candidateCount).map (Directory.candidate text page fold)
      lossless := basis.first != 0 && text.all isAscii &&
        text.map upperChar == basis.display 0 page.decode
      caseBits := ShortName.caseBits text }

def shortOnly (new : NewName) : Bool := new.lossless && new.caseBits.isSome

def slots (new : NewName) : Nat := if new.shortOnly then 1 else longEntries new.text + 1

end NewName

/-- A name to look for, folded once. -/
structure Query where
  /-- Nothing matches a name that is too long. -/
  units : Option (List UInt16)
  short : Bool
  /-- The stored form of an ASCII name in 8.3 form. -/
  ascii : Option (List UInt16)

namespace Query

def rsplitDot (text : Text) : Option (Text × Text) :=
  let base := text.rdropWhile (!ShortName.isDot ·)
  if base = [] then none else some (base.dropLast, text.rtakeWhile (!ShortName.isDot ·))

def foldedPart (fold : UInt16 → UInt16) (width : Nat) (part : Text) : List UInt16 :=
  (part.map fun ch => fold (UInt16.ofNat ch.toNat)).takeD width (fold 0x20)

def asciiForm (text : Text) (fold : UInt16 → UInt16) : Option (List UInt16) :=
  if text.all isAscii then
    let (base, ext) := (rsplitDot text).getD (text, [])
    if !base.isEmpty && decide (base.length ≤ 8) && decide (ext.length ≤ 3) &&
        !base.any ShortName.isDot && !base.any ShortName.isSpace && !ext.any ShortName.isSpace &&
        !text.getLast?.any ShortName.isDot then
      some (foldedPart fold 8 base ++ foldedPart fold 3 ext)
    else none
  else none

def new (text : Text) (fold : UInt16 → UInt16) : Query :=
  let short := decide (text.length ≤ ShortName.displayChars)
  if ShortName.maxUnits < (encodeUtf16 text).length then ⟨none, short, none⟩
  else ⟨some ((encodeUtf16 text).map fold), short, asciiForm text fold⟩

def storedForm (entry : ShortEntry) (fold : UInt16 → UInt16) : List UInt16 :=
  let shown := fun bit (byte : UInt8) =>
    fold (if entry.ntCase &&& bit != 0 then toAsciiLowercase byte else byte).toUInt16
  (entry.name.bytes.take 8).map (shown ShortName.lowerBase) ++
    (entry.name.bytes.drop 8).map (shown ShortName.lowerExt)

def «matches» (query : Query) (long : Option (List UInt16)) (entry : ShortEntry) (page : CodePage)
    (fold : UInt16 → UInt16) : Bool :=
  match query.units with
  | none => false
  | some units =>
    if long.any fun stored => units == stored.map fold then true
    else if !query.short then false
    else
      let shown := units == (encodeUtf16 (entry.name.display entry.ntCase page.decode)).map fold
      match query.ascii with
      | none => shown
      | some ascii =>
        if entry.name.first != 0x05 && entry.name.bytes.all (· < 0x80) then
          storedForm entry fold == ascii
        else shown

end Query

def utf16Chars : List UInt16 → Text
  | [] => []
  | [unit] => [(fromU32 unit.toNat).getD (Char.ofNat 0xFFFD)]
  | high :: low :: rest =>
    if 0xD800 ≤ high.toNat ∧ high.toNat < 0xDC00 ∧ isLow low then
      Char.ofNat (0x10000 + (high.toNat - 0xD800) * 0x400 + (low.toNat - 0xDC00)) ::
        utf16Chars rest
    else (fromU32 high.toNat).getD (Char.ofNat 0xFFFD) :: utf16Chars (low :: rest)

def isExact (query : Text) (long : Option (List UInt16)) (entry : ShortEntry) (page : CodePage) :
    Bool :=
  match long with
  | some units => utf16Chars units == query
  | none => entry.name.display entry.ntCase page.decode == query

def checkName (name : Text) : Bool :=
  !name.isEmpty && name != [Char.ofNat 0x2E] && name != [Char.ofNat 0x2E, Char.ofNat 0x2E] &&
    !name.any fun ch => ch.toNat == 0x2F || ch.toNat == 0

end Hadris.Directory
