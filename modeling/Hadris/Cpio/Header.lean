import Hadris.Numeral
import Hadris.Meta

namespace Hadris.Cpio

def newcMagic : List UInt8 := [0x30, 0x37, 0x30, 0x37, 0x30, 0x31]

def newcCrcMagic : List UInt8 := [0x30, 0x37, 0x30, 0x37, 0x30, 0x32]

def odcMagic : List UInt8 := [0x30, 0x37, 0x30, 0x37, 0x30, 0x37]

def binaryMagic : UInt16 := 0o070707

def newcHeaderLen : Nat := 110

def odcHeaderLen : Nat := 76

def binaryHeaderLen : Nat := 26

def trailerName : List UInt8 := [0x54, 0x52, 0x41, 0x49, 0x4C, 0x45, 0x52, 0x21, 0x21, 0x21]

def pathMax : Nat := 4096

def sIfmt : UInt32 := 0o170000

def sIfsock : UInt32 := 0o140000

def sIflnk : UInt32 := 0o120000

def sIfreg : UInt32 := 0o100000

def sIfblk : UInt32 := 0o060000

def sIfdir : UInt32 := 0o040000

def sIfchr : UInt32 := 0o020000

def sIfifo : UInt32 := 0o010000

structure NewcFields where
  ino : UInt32
  mode : UInt32
  uid : UInt32
  gid : UInt32
  nlink : UInt32
  mtime : UInt32
  filesize : UInt32
  devmajor : UInt32
  devminor : UInt32
  rdevmajor : UInt32
  rdevminor : UInt32
  namesize : UInt32
  check : UInt32
deriving DecidableEq, Repr

structure OdcFields where
  dev : UInt32
  ino : UInt32
  mode : UInt32
  uid : UInt32
  gid : UInt32
  nlink : UInt32
  rdev : UInt32
  mtime : Nat
  namesize : UInt32
  filesize : Nat
deriving DecidableEq, Repr

def odcWidths : List Nat := [6, 6, 6, 6, 6, 6, 6, 11, 6, 11]

def toDigit (radix : Nat) (byte : UInt8) : Option Nat :=
  let value :=
    if 0x30 ≤ byte.toNat ∧ byte.toNat ≤ 0x39 then some (byte.toNat - 0x30)
    else if 0x41 ≤ byte.toNat ∧ byte.toNat ≤ 0x46 then some (byte.toNat - 0x41 + 10)
    else if 0x61 ≤ byte.toNat ∧ byte.toNat ≤ 0x66 then some (byte.toNat - 0x61 + 10)
    else none
  value.filter (· < radix)

def hexDigits : List UInt8 :=
  [0x30, 0x31, 0x32, 0x33, 0x34, 0x35, 0x36, 0x37, 0x38, 0x39, 0x41, 0x42, 0x43, 0x44, 0x45, 0x46]

def hexDigit (digit : Nat) : UInt8 := hexDigits.getD digit 0

def octalDigit (digit : Nat) : UInt8 := UInt8.ofNat (0x30 + digit)

def parseHex (bytes : List UInt8) : Option Nat := readNumeral 16 (toDigit 16) 0 bytes

def writeHex (value : UInt32) : List UInt8 := numeral 16 hexDigit 8 value.toNat

def parseOctal (bytes : List UInt8) : Option Nat := readNumeral 8 (toDigit 8) 0 bytes

def writeOctal (width value : Nat) : Option (List UInt8) :=
  if value / 8 ^ width = 0 then some (numeral 8 octalDigit width value) else none

namespace NewcHeader

def values (fields : NewcFields) : List UInt32 :=
  [fields.ino, fields.mode, fields.uid, fields.gid, fields.nlink, fields.mtime, fields.filesize,
    fields.devmajor, fields.devminor, fields.rdevmajor, fields.rdevminor,
      fields.namesize, fields.check]

def new (crc : Bool) (fields : NewcFields) : List UInt8 :=
  (if crc then newcCrcMagic else newcMagic) ++ (values fields).flatMap writeHex

def field (bytes : List UInt8) (index : Nat) : Option UInt32 :=
  (parseHex ((bytes.drop (6 + index * 8)).take 8)).map UInt32.ofNat

/-- The fields, or `none` when the magic is wrong or a field is not
hexadecimal. -/
def fields (bytes : List UInt8) : Option NewcFields :=
  if bytes.take 6 ≠ newcMagic ∧ bytes.take 6 ≠ newcCrcMagic then none
  else do
    let ino ← field bytes 0
    let mode ← field bytes 1
    let uid ← field bytes 2
    let gid ← field bytes 3
    let nlink ← field bytes 4
    let mtime ← field bytes 5
    let filesize ← field bytes 6
    let devmajor ← field bytes 7
    let devminor ← field bytes 8
    let rdevmajor ← field bytes 9
    let rdevminor ← field bytes 10
    let namesize ← field bytes 11
    let check ← field bytes 12
    pure ⟨ino, mode, uid, gid, nlink, mtime, filesize, devmajor, devminor, rdevmajor, rdevminor,
      namesize, check⟩

end NewcHeader

namespace OdcHeader

def max (digits : Nat) : Nat := 2 ^ (3 * digits) - 1

def values (fields : OdcFields) : List Nat :=
  [fields.dev.toNat, fields.ino.toNat, fields.mode.toNat, fields.uid.toNat, fields.gid.toNat,
    fields.nlink.toNat, fields.rdev.toNat, fields.mtime, fields.namesize.toNat, fields.filesize]

def write : List (Nat × Nat) → Option (List UInt8)
  | [] => some []
  | (value, width) :: rest => do
    let bytes ← writeOctal width value
    let more ← write rest
    pure (bytes ++ more)

def new (fields : OdcFields) : Option (List UInt8) :=
  (write ((values fields).zip odcWidths)).map (odcMagic ++ ·)

def read : List Nat → List UInt8 → Option (List Nat)
  | [], _ => some []
  | width :: widths, bytes => do
    let value ← parseOctal (bytes.take width)
    let more ← read widths (bytes.drop width)
    pure (value :: more)

def small (value : Nat) : Option UInt32 :=
  if value < 2 ^ 32 then some (UInt32.ofNat value) else none

def fields (bytes : List UInt8) : Option OdcFields :=
  if bytes.take 6 ≠ odcMagic then none
  else do
    let values ← read odcWidths (bytes.drop 6)
    let dev ← small (values.getD 0 0)
    let ino ← small (values.getD 1 0)
    let mode ← small (values.getD 2 0)
    let uid ← small (values.getD 3 0)
    let gid ← small (values.getD 4 0)
    let nlink ← small (values.getD 5 0)
    let rdev ← small (values.getD 6 0)
    let namesize ← small (values.getD 8 0)
    pure ⟨dev, ino, mode, uid, gid, nlink, rdev, values.getD 7 0, namesize, values.getD 9 0⟩

end OdcHeader

structure BinaryFields where
  dev : UInt16
  ino : UInt16
  mode : UInt16
  uid : UInt16
  gid : UInt16
  nlink : UInt16
  rdev : UInt16
  mtime : UInt32
  namesize : UInt16
  filesize : UInt32
deriving DecidableEq, Repr

namespace BinaryHeader

def littleWord (low high : UInt8) : UInt16 := UInt16.ofNat (low.toNat + 256 * high.toNat)

def bigWord (high low : UInt8) : UInt16 := littleWord low high

def isMagic (first second : UInt8) : Bool :=
  littleWord first second == binaryMagic || bigWord first second == binaryMagic

def word (little : Bool) (bytes : List UInt8) (index : Nat) : UInt16 :=
  let first := bytes.getD (index * 2) 0
  let second := bytes.getD (index * 2 + 1) 0
  if little then littleWord first second else bigWord first second

def long (little : Bool) (bytes : List UInt8) (index : Nat) : UInt32 :=
  ((word little bytes index).toUInt32 <<< 16) ||| (word little bytes (index + 1)).toUInt32

def fields (bytes : List UInt8) : Option BinaryFields :=
  let little := littleWord (bytes.getD 0 0) (bytes.getD 1 0) == binaryMagic
  if !little && bigWord (bytes.getD 0 0) (bytes.getD 1 0) != binaryMagic then none
  else
    let word := word little bytes
    some ⟨word 1, word 2, word 3, word 4, word 5, word 6, word 7, long little bytes 8, word 10,
      long little bytes 11⟩

end BinaryHeader

end Hadris.Cpio

namespace Hadris.Cpio

/-- What exactly went wrong, beyond the kind of error. -/
inductive Detail where
  | magic
  | field
  | name
  | padding
  | check
  | checksum
  | trailer
  | truncated
  | entry
  | format
deriving DecidableEq, Repr

namespace Detail

def description : Detail → String
  | magic => "unknown cpio magic"
  | field => "invalid or oversized header field"
  | name => "invalid entry name"
  | padding => "alignment padding is not zero"
  | check => "070701 check field is not zero"
  | checksum => "070702 checksum mismatch"
  | trailer => "invalid or missing trailer"
  | truncated => "archive ends inside an entry"
  | entry => "entry cannot be written"
  | format => "format cannot be written"

def number : Detail → Nat
  | magic => 1
  | field => 2
  | name => 3
  | padding => 4
  | check => 5
  | checksum => 6
  | trailer => 7
  | truncated => 8
  | entry => 10
  | format => 11

def error (detail : Detail) (kind : ErrorKind) : Error :=
  (Error.new kind detail.description).withDetail ⟨"hadris-cpio", detail.number⟩

def corrupt (detail : Detail) : Error := detail.error .corrupt

end Detail

/-- A cpio header format. -/
inductive Format where
  | newc
  | crc
  | odc
  | binary
deriving DecidableEq, Repr

def Format.maxFileSize : Format → Nat
  | .newc => 2 ^ 32 - 1
  | .crc => 2 ^ 32 - 1
  | .binary => 2 ^ 32 - 1
  | .odc => OdcHeader.max 11

/-- A decoded header, whatever the format. -/
structure Header where
  format : Format
  ino : Nat
  mode : UInt32
  uid : UInt32
  gid : UInt32
  nlink : UInt32
  mtime : Nat
  len : Nat
  dev : DeviceNumber
  rdev : DeviceNumber
  namesize : Nat
  check : UInt32
deriving DecidableEq, Repr

def Header.empty : Header := ⟨.newc, 0, 0, 0, 0, 0, 0, 0, ⟨0, 0⟩, ⟨0, 0⟩, 0, 0⟩

def fileType (mode : UInt32) : Option FileType :=
  if mode &&& sIfmt = sIfreg then some .file
  else if mode &&& sIfmt = sIfdir then some .dir
  else if mode &&& sIfmt = sIflnk then some .symlink
  else if mode &&& sIfmt = sIfchr then some .charDevice
  else if mode &&& sIfmt = sIfblk then some .blockDevice
  else if mode &&& sIfmt = sIfifo then some .fifo
  else if mode &&& sIfmt = sIfsock then some .socket
  else none

def splitDev (dev : UInt32) : DeviceNumber := ⟨dev >>> 8, dev &&& 0xFF⟩

def joinDev (dev : DeviceNumber) : Option UInt32 :=
  if dev.minor ≤ 0xFF ∧ dev.major.toNat * 256 < 2 ^ 32
    then some (dev.major * 256 ||| dev.minor) else none

def headerLen : Format → Nat
  | .odc => odcHeaderLen
  | .binary => binaryHeaderLen
  | _ => newcHeaderLen

def detect (start : List UInt8) : Option Format :=
  if BinaryHeader.isMagic (start.getD 0 0) (start.getD 1 0) then some .binary
  else if start = newcMagic then some .newc
  else if start = newcCrcMagic then some .crc
  else if start = odcMagic then some .odc
  else none

def decodeOdc (bytes : List UInt8) : Option Header :=
  (OdcHeader.fields bytes).map fun fields =>
    { format := .odc
      ino := fields.ino.toNat
      mode := fields.mode
      uid := fields.uid
      gid := fields.gid
      nlink := fields.nlink
      mtime := fields.mtime
      len := fields.filesize
      dev := splitDev fields.dev
      rdev := splitDev fields.rdev
      namesize := fields.namesize.toNat
      check := 0 }

def decodeBinary (bytes : List UInt8) : Option Header :=
  (BinaryHeader.fields bytes).map fun fields =>
    { format := .binary
      ino := fields.ino.toNat
      mode := fields.mode.toUInt32
      uid := fields.uid.toUInt32
      gid := fields.gid.toUInt32
      nlink := fields.nlink.toUInt32
      mtime := fields.mtime.toNat
      len := fields.filesize.toNat
      dev := splitDev fields.dev.toUInt32
      rdev := splitDev fields.rdev.toUInt32
      namesize := fields.namesize.toNat
      check := 0 }

def decodeNewc (format : Format) (bytes : List UInt8) : Option Header :=
  (NewcHeader.fields bytes).map fun fields =>
    { format := format
      ino := fields.ino.toNat
      mode := fields.mode
      uid := fields.uid
      gid := fields.gid
      nlink := fields.nlink
      mtime := fields.mtime.toNat
      len := fields.filesize.toNat
      dev := ⟨fields.devmajor, fields.devminor⟩
      rdev := ⟨fields.rdevmajor, fields.rdevminor⟩
      namesize := fields.namesize.toNat
      check := fields.check }

def decode (format : Format) (bytes : List UInt8) : Option Header :=
  match format with
  | .odc => decodeOdc bytes
  | .binary => decodeBinary bytes
  | _ => decodeNewc format bytes

def namePadding : Format → Nat → Nat
  | .odc, _ => 0
  | .binary, namesize => namesize % 2
  | _, namesize => (4 - (newcHeaderLen + namesize) % 4) % 4

def dataPadding : Format → Nat → Nat
  | .odc, _ => 0
  | .binary, len => len % 2
  | _, len => (4 - len % 4) % 4

def checksum (sum : UInt32) (data : List UInt8) : UInt32 :=
  data.foldl (fun sum byte => sum + byte.toUInt32) sum

end Hadris.Cpio
