import Hadris.Meta
import Hadris.Iso.Emitted

namespace Hadris.Iso

def errorOf (kind : ErrorKind) (description : String) (number : Nat) : Error :=
  (Error.new kind description).withDetail ⟨"hadris-iso", number⟩

def outsideImage : Error := errorOf .corrupt "a pointer lies outside the image" 8

def corruptSystemUse : Error := errorOf .corrupt "invalid system use area" 10

/-- The kinds of system use entries that a scan knows. -/
inductive Signature where
  | sp | ce | er | st | rr | px | pn | tf | nm | sl | cl | pl | re | hd | other
deriving DecidableEq

namespace Signature

def of (a b : UInt8) : Signature :=
  match String.ofList [Char.ofNat a.toNat, Char.ofNat b.toNat] with
  | "SP" => sp
  | "CE" => ce
  | "ER" => er
  | "ST" => st
  | "RR" => rr
  | "PX" => px
  | "PN" => pn
  | "TF" => tf
  | "NM" => nm
  | "SL" => sl
  | "CL" => cl
  | "PL" => pl
  | "RE" => re
  | "HD" => hd
  | _ => other

def isVersioned : Signature → Bool
  | hd | other => false
  | _ => true

end Signature

/-- A time as it is recorded: in 17 bytes when `long`, else in 7. -/
structure Stamp where
  long : Bool
  bytes : List UInt8
deriving DecidableEq

/-- The Rock Ridge entries of one node. -/
structure RockRidgeInfo where
  mode : Option Nat
  links : Option Nat
  owner : Option (Nat × Nat)
  serial : Option Nat
  times : List (Option Stamp)
  device : Option (Nat × Nat)
  hasName : Bool
  symlink : Bool
  childLink : Option Nat
  parentLink : Option Nat
  relocated : Bool
  logicalDirectory : Bool
deriving DecidableEq

def RockRidgeInfo.default : RockRidgeInfo :=
  ⟨none, none, none, none, [none, none, none, none], none, false, false, none, none, false, false⟩

/-- A buffer of `capacity` bytes that entries are joined into. `len` counts every byte
pushed, also those that did not fit and were dropped. -/
structure Sink where
  capacity : Nat
  bytes : List UInt8
  len : Nat
  overflow : Bool
  last : Option UInt8
deriving DecidableEq

namespace Sink

def new (capacity : Nat) : Sink := ⟨capacity, [], 0, false, none⟩

def push (sink : Sink) (bytes : List UInt8) : Sink :=
  match bytes.getLast? with
  | none => sink
  | some last =>
    let stop := sink.len + bytes.length
    let fits := decide (stop ≤ sink.capacity) && !sink.overflow
    { sink with
      bytes := if fits then sink.bytes ++ bytes else sink.bytes
      overflow := !fits
      len := stop
      last := some last }

end Sink

/-- Where a system use area goes on, and whether both copies of each number agree. -/
structure ContinuationArea where
  block : Nat
  offset : Nat
  length : Nat
deriving DecidableEq

def isConsistent (bytes : List UInt8) : Bool := bytes.take 4 == ((bytes.drop 4).take 4).reverse

/-- The entries of a node, across its system use area and continuation areas. -/
structure Scan where
  info : RockRidgeInfo
  next : Option ContinuationArea
  sp : Option Nat
  rrip : Bool
  name : Option Sink
  nameDone : Bool
  link : Option Sink
  linkDone : Bool
  componentOpen : Bool
  malformed : Bool
deriving DecidableEq

namespace NmFlags

def continue_ : UInt8 := 0x01
def current : UInt8 := 0x02
def parent : UInt8 := 0x04

end NmFlags

namespace SlComponentFlags

def continue_ : UInt8 := 0x01
def current : UInt8 := 0x02
def parent : UInt8 := 0x04
def root : UInt8 := 0x08

end SlComponentFlags

namespace TfFlags

def creation : UInt8 := 0x01
def modify : UInt8 := 0x02
def access : UInt8 := 0x04
def attributes : UInt8 := 0x08
def backup : UInt8 := 0x10
def expiration : UInt8 := 0x20
def effective : UInt8 := 0x40
def longForm : UInt8 := 0x80

def slots : List (UInt8 × Option Nat) :=
  [(creation, some 0), (modify, some 1), (access, some 2), (attributes, some 3), (backup, none),
    (expiration, none), (effective, none)]

end TfFlags

def rripIdentifiers : List (List UInt8) :=
  [ascii "RRIP_1991A", ascii "IEEE_P1282", ascii "IEEE_1282"]

def logicalDirectoryMark : List UInt8 := ascii "hadris.logical-directory"

namespace Scan

def new : Scan := ⟨.default, none, none, false, none, false, none, false, false, false⟩

def withName (scan : Scan) (capacity : Nat) : Scan := { scan with name := some (.new capacity) }

def withLink (scan : Scan) (capacity : Nat) : Scan := { scan with link := some (.new capacity) }

def nameOf (scan : Scan) : Except ErrorKind (Option (List UInt8)) :=
  match scan.name with
  | none => .ok none
  | some sink =>
    if sink.overflow then .error .nameTooLong
    else if scan.info.hasName ∧ 0 < sink.len then .ok (some sink.bytes) else .ok none

def linkOf (scan : Scan) : Except ErrorKind (List UInt8) :=
  match scan.link with
  | none => .ok []
  | some sink => if sink.overflow then .error .limitExceeded else .ok sink.bytes

def fail (scan : Scan) : Scan := { scan with malformed := true }

def continuation (scan : Scan) (data : List UInt8) : Scan :=
  let wrong := scan.next.isSome || !isConsistent data || !isConsistent (data.drop 8) ||
    !isConsistent (data.drop 16)
  { scan with
    malformed := scan.malformed || wrong
    next := some ⟨u32At data 0, u32At data 8, u32At data 16⟩ }

def extension (scan : Scan) (data : List UInt8) : Scan :=
  let idLen := byteAt data 0
  let total := 4 + idLen + byteAt data 1 + byteAt data 2
  let id := if 4 + idLen ≤ data.length then (data.drop 4).take idLen else []
  { scan with
    malformed := scan.malformed || decide (data.length < total)
    rrip := scan.rrip || rripIdentifiers.any fun known => decide (known = id) }

def posix (scan : Scan) (data : List UInt8) : Scan :=
  { scan with info := { scan.info with
      mode := some (u32At data 0)
      links := some (u32At data 8)
      owner := some (u32At data 16, u32At data 24)
      serial := if 40 ≤ data.length then some (u32At data 32) else scan.info.serial } }

def device (scan : Scan) (data : List UInt8) : Scan :=
  { scan with info := { scan.info with device := some (u32At data 0, u32At data 8) } }

def readTimes (flags : UInt8) (long : Bool) : List (UInt8 × Option Nat) → List UInt8 →
    List (Option Stamp) → List (Option Stamp) × Bool
  | [], _, times => (times, true)
  | (flag, slot) :: slots, rest, times =>
    let size := if long then 17 else 7
    if flags &&& flag = 0 then readTimes flags long slots rest times
    else if rest.length < size then (times, false)
    else
      let times := slot.elim times fun slot => times.set slot (some ⟨long, rest.take size⟩)
      readTimes flags long slots (rest.drop size) times

def times (scan : Scan) (data : List UInt8) : Scan :=
  let flags := data.headD 0
  let (times, whole) := readTimes flags (flags &&& TfFlags.longForm ≠ 0) TfFlags.slots
    data.tail scan.info.times
  { scan with info := { scan.info with times := times }, malformed := scan.malformed || !whole }

def alternateName (scan : Scan) (data : List UInt8) : Scan :=
  let flags := data.headD 0
  if flags &&& (NmFlags.current ||| NmFlags.parent) ≠ 0 ∨ scan.nameDone then scan
  else { scan with
    info := { scan.info with hasName := true }
    name := scan.name.map (·.push data.tail)
    nameDone := flags &&& NmFlags.continue_ = 0 }

def component (sink : Sink) (open_ : Bool) (flags : UInt8) (content : List UInt8) : Sink :=
  if open_ then sink.push content
  else if flags &&& SlComponentFlags.root ≠ 0 then
    if sink.len = 0 then sink.push [SuBuilder.slash] else sink
  else
    let sink := if sink.last.any (· ≠ SuBuilder.slash) then sink.push [SuBuilder.slash] else sink
    if flags &&& SlComponentFlags.current ≠ 0 then sink.push [dot]
    else if flags &&& SlComponentFlags.parent ≠ 0 then sink.push [dot, dot]
    else sink.push content

theorem component_decreases (flags len : UInt8) (rest : List UInt8) :
    (rest.drop len.toNat).length < (flags :: len :: rest).length := by
  rw [List.length_drop, List.length_cons, List.length_cons]
  omega

def components (link : Option Sink) (open_ : Bool) (rest : List UInt8) :
    Option Sink × Bool × Bool :=
  match rest with
  | flags :: len :: rest' =>
    if rest'.length < len.toNat then (link, open_, false)
    else
      match link with
      | none => components none open_ (rest'.drop len.toNat)
      | some sink =>
        components (some (component sink open_ flags (rest'.take len.toNat)))
          (flags &&& SlComponentFlags.continue_ ≠ 0) (rest'.drop len.toNat)
  | rest => (link, open_, rest.isEmpty)
termination_by rest.length
decreasing_by all_goals exact component_decreases flags len rest'

def symlink (scan : Scan) (data : List UInt8) : Scan :=
  if scan.linkDone then scan
  else
    let (link, open_, whole) := components scan.link scan.componentOpen data.tail
    { scan with
      info := { scan.info with symlink := true }
      link := link
      componentOpen := open_
      malformed := scan.malformed || !whole
      linkDone := data.headD 0 &&& 1 = 0 }

def checked (scan : Scan) (len : Nat) (data : List UInt8) (take : Scan → List UInt8 → Scan) :
    Scan :=
  if len ≤ data.length then take scan data else scan.fail

def entry (scan : Scan) (signature : Signature) (version : UInt8) (data : List UInt8) :
    Bool × Scan :=
  if version ≠ 1 ∧ signature.isVersioned then (true, scan.fail)
  else
    match signature with
    | .st => (true, { scan with malformed := scan.malformed || !data.isEmpty })
    | .sp => (false, if 3 ≤ data.length ∧ data.take 2 = [0xBE, 0xEF]
        then { scan with sp := some (byteAt data 2) }
        else scan.fail)
    | .ce => (false, scan.checked 24 data continuation)
    | .er => (false, scan.checked 4 data extension)
    | .rr => (false, { scan with rrip := true })
    | .px => (false, scan.checked 32 data posix)
    | .pn => (false, scan.checked 16 data device)
    | .tf => (false, scan.checked 1 data times)
    | .nm => (false, scan.checked 1 data alternateName)
    | .sl => (false, scan.checked 1 data symlink)
    | .cl => (false, scan.checked 8 data fun scan data =>
      { scan with info := { scan.info with childLink := some (u32At data 0) } })
    | .pl => (false, scan.checked 8 data fun scan data =>
      { scan with info := { scan.info with parentLink := some (u32At data 0) } })
    | .re => (false, { scan with info := { scan.info with relocated := true } })
    | .hd => (false, if version = 1 ∧ data = logicalDirectoryMark then
        { scan with info := { scan.info with logicalDirectory := true } } else scan)
    | .other => (false, scan)

theorem drop_decreases {rest : List UInt8} {len : Nat} (hlen : ¬(len < 4 ∨ rest.length < len)) :
    (rest.drop len).length < rest.length := by
  rw [List.length_drop]
  omega

def feed (scan : Scan) (rest : List UInt8) : Bool × Scan :=
  if rest.length < 4 then
    (false, { scan with malformed := scan.malformed || rest.any fun byte => byte != 0 })
  else if rest.headD 0 = 0 then (true, scan)
  else
    let len := byteAt rest 2
    if _hlen : len < 4 ∨ rest.length < len then (true, scan.fail)
    else
      match scan.entry (.of (rest.headD 0) (rest.getD 1 0)) (rest.getD 3 0)
        ((rest.take len).drop 4) with
      | (true, scan) => (true, scan)
      | (false, scan) => feed scan (rest.drop len)
termination_by rest.length
decreasing_by exact drop_decreases _hlen

end Scan

def readBytes (image : List UInt8) (offset count : Nat) : Except Error (List UInt8) := do
  ensure (decide (offset + count < 2 ^ 64)) outsideImage
  ensure (decide (offset + count ≤ image.length)) outsideImage
  .ok ((image.drop offset).take count)

def maxContinuations : Nat := 256

def maxContinuationBytes : Nat := 4 * 2 ^ 20

namespace Scan

theorem whole_decreases {rest : List UInt8} (hrest : ¬rest.length < 4)
    (hlen : ¬byteAt rest 2 < 4) :
    (rest.drop (byteAt rest 2)).length < rest.length := by
  rw [List.length_drop]
  omega

def wholeEntries (rest : List UInt8) : Nat :=
  if _hrest : rest.length < 4 then 0
  else if rest.headD 0 = 0 then rest.length
  else if _hlen : byteAt rest 2 < 4 then rest.length
  else if rest.length < byteAt rest 2 then 0
  else byteAt rest 2 + wholeEntries (rest.drop (byteAt rest 2))
termination_by rest.length
decreasing_by exact whole_decreases _hrest _hlen

theorem left_decreases {left held : Nat} (hleft : left ≠ 0) (hheld : held < 255) :
    left - min left (sector - held) < left := by
  rw [sector]
  omega

theorem kept_lt {area : List UInt8} {stop : Nat} (h : ¬255 ≤ area.length - stop) :
    (area.drop stop).length < 255 := by
  rw [List.length_drop]
  omega

/-- Reads `left` bytes of an area from byte `at'`, in pieces, after the `held` bytes of an entry
that was cut. -/
def readArea (image : List UInt8) (at' left : Nat) (held : List UInt8)
    (_hheld : held.length < 255) (scan : Scan) :
    Except Error Scan :=
  if _hleft : left = 0 then .ok scan
  else
    let take := min left (sector - held.length)
    match readBytes image at' take with
    | .error error => .error error
    | .ok bytes =>
      let area := held ++ bytes
      let stop := if left - take = 0 then area.length else wholeEntries area
      match scan.feed (area.take stop) with
      | (true, scan) => .ok scan
      | (false, scan) =>
        if scan.malformed then .ok scan
        else if h : 255 ≤ area.length - stop then .error corruptSystemUse
        else readArea image (at' + take) (left - take) (area.drop stop) (kept_lt h) scan
termination_by left
decreasing_by exact left_decreases _hleft _hheld

theorem nil_lt : ([] : List UInt8).length < 255 := by decide

/-- Follows the continuation areas that a scan leads to, at most `remaining` of them and `budget`
bytes. -/
def follow (image : List UInt8) (bs : Nat) : Nat → Nat → Scan → Except Error Scan
  | remaining, budget, scan =>
    if scan.malformed then .error corruptSystemUse
    else
      match scan.next with
      | none => .ok scan
      | some ce =>
        match remaining with
        | 0 => .error corruptSystemUse
        | remaining + 1 => do
          let offset := ce.block * bs + ce.offset
          ensure (!(decide (ce.length = 0 ∨ budget < ce.length ∨ bs ≤ ce.offset ∨
            2 ^ 64 ≤ offset + ce.length ∨ image.length < offset + ce.length))) corruptSystemUse
          let scan ← readArea image offset ce.length [] nil_lt { scan with next := none }
          follow image bs remaining (budget - ce.length) scan

def scan (image : List UInt8) (bs : Nat) (systemUse : List UInt8) (skip : Nat) (scan : Scan) :
    Except Error Scan :=
  follow image bs maxContinuations maxContinuationBytes
    ({ scan with next := none }.feed (systemUse.drop skip)).2

end Scan

end Hadris.Iso
