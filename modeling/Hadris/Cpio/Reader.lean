import Hadris.Cpio.Header
import Hadris.Program

namespace Hadris.Cpio

inductive State where
  | entries
  | trailer
  | done
deriving DecidableEq, Repr

/-- A streaming archive reader. `input` is what the stream has left, and `path`
the name of the current entry. -/
structure CpioReader where
  input : List UInt8
  strictTrailer : Bool
  capacity : Nat
  state : State
  offset : Nat
  header : Header
  path : List UInt8
  pending : Option UInt8
  headerOffset : Nat
  dataOffset : Nat
  remaining : Nat
  padding : Nat
  sum : Option UInt32
deriving DecidableEq, Repr

namespace CpioReader

def new (input : List UInt8) (strictTrailer : Bool) : CpioReader :=
  { input := input
    strictTrailer := strictTrailer
    capacity := pathMax
    state := .entries
    offset := 0
    header := .empty
    path := []
    pending := none
    headerOffset := 0
    dataOffset := 0
    remaining := 0
    padding := 0
    sum := none }

def fill (n : Nat) : Prog CpioReader Error (List UInt8) := do
  let input ← Prog.gets CpioReader.input
  if input.length < n then do
    Prog.modify fun r => { r with input := [] }
    Prog.fail Detail.truncated.corrupt
  else do
    Prog.modify fun r => { r with input := r.input.drop n, offset := r.offset + n }
    pure (input.take n)

def firstByte : Prog CpioReader Error (Option UInt8) := do
  let r ← Prog.gets id
  match r.pending, r.input with
  | some byte, _ => do
    Prog.modify fun r => { r with pending := none }
    pure (some byte)
  | none, [] => pure none
  | none, byte :: rest => do
    Prog.modify fun r => { r with input := rest, offset := r.offset + 1 }
    pure (some byte)

def skipPadding (len : Nat) : Prog CpioReader Error Unit := do
  let pad ← fill len
  if pad.any (· ≠ 0) then Prog.fail Detail.padding.corrupt else pure ()

def verify : Prog CpioReader Error Unit := do
  let r ← Prog.gets id
  Prog.modify fun r => { r with sum := none }
  if r.sum.any (· ≠ r.header.check) then Prog.fail Detail.checksum.corrupt else pure ()

def account (data : List UInt8) : Prog CpioReader Error Unit := do
  Prog.modify fun r =>
    { r with remaining := r.remaining - data.length, sum := r.sum.map (checksum · data) }
  let remaining ← Prog.gets CpioReader.remaining
  if remaining = 0 then verify else pure ()

def skipData : Nat → Prog CpioReader Error Unit
  | 0 => pure ()
  | fuel + 1 => do
    let remaining ← Prog.gets CpioReader.remaining
    if 0 < remaining then do
      let data ← fill (Nat.min remaining 512)
      account data
      skipData fuel
    else pure ()

def finishEntry : Prog CpioReader Error Unit := do
  let remaining ← Prog.gets CpioReader.remaining
  skipData remaining
  verify
  let padding ← Prog.gets CpioReader.padding
  Prog.modify fun r => { r with padding := 0 }
  skipPadding padding

def ensure (ok : Bool) (error : Error) : Prog CpioReader Error Unit :=
  if ok then pure () else Prog.fail error

def orFail {α : Type} (error : Error) : Option α → Prog CpioReader Error α
  | some a => pure a
  | none => Prog.fail error

/-- A header that starts with `first`. `atStart` tells whether it is the first
of the stream. -/
def readHeader (first : UInt8) (atStart : Bool) : Prog CpioReader Error Header := do
  let start ← fill 5
  let format ← orFail (Detail.magic.error (if atStart then .notRecognized else .corrupt))
    (detect (first :: start))
  let rest ← fill (headerLen format - 6)
  let header ← orFail Detail.field.corrupt (decode format (first :: start ++ rest))
  ensure (format ≠ .newc ∨ header.check = 0) Detail.check.corrupt
  ensure ((fileType header.mode).isSome ∨ header.mode = 0) Detail.field.corrupt
  ensure (2 ≤ header.namesize) Detail.name.corrupt
  let capacity ← Prog.gets CpioReader.capacity
  ensure (header.namesize ≤ capacity) (Detail.name.error .limitExceeded)
  pure header

/-- The name after a header: what comes before its first NUL, which must be a
name, and only zeros after it. -/
def readName (header : Header) : Prog CpioReader Error (List UInt8) := do
  let bytes ← fill header.namesize
  let name := bytes.takeWhile (· ≠ 0)
  ensure (name ≠ [] ∧ name.length ≠ header.namesize ∧ (bytes.drop name.length).all (· = 0))
    Detail.name.corrupt
  skipPadding (namePadding header.format header.namesize)
  pure name

def front : Prog CpioReader Error (Option (Header × List UInt8)) := do
  let offset ← Prog.gets CpioReader.offset
  let first ← firstByte
  match first with
  | none => do
    let strict ← Prog.gets CpioReader.strictTrailer
    if strict then Prog.fail Detail.trailer.corrupt
    else do
      Prog.modify fun r => { r with state := .done }
      pure none
  | some first => do
    Prog.modify fun r => { r with headerOffset := r.offset - 1 }
    let header ← readHeader first (offset = 0)
    let name ← readName header
    pure (some (header, name))

/-- Moves to the entry that a header and a name start, or to the end of the
archive. -/
def enter (header : Header) (name : List UInt8) : Prog CpioReader Error Bool :=
  if name = trailerName then do
    ensure (header.len = 0) Detail.trailer.corrupt
    ensure (header.format ≠ .crc ∨ header.check = 0) Detail.checksum.corrupt
    Prog.modify fun r => { r with state := .trailer }
    pure false
  else do
    ensure (header.mode ≠ 0) Detail.field.corrupt
    Prog.modify fun r =>
      { r with
        dataOffset := r.offset
        path := name
        header := header
        remaining := header.len
        padding := dataPadding header.format header.len
        sum := if header.format = .crc ∧ header.mode &&& sIfmt = sIfreg then some 0 else none }
    if header.len = 0 then do
      verify
      pure true
    else pure true

def advance : Prog CpioReader Error Bool := do
  let state ← Prog.gets CpioReader.state
  if state ≠ .entries then pure false
  else do
    finishEntry
    let found ← front
    match found with
    | none => pure false
    | some found => enter found.1 found.2

def nextEntry : Prog CpioReader Error Bool := ⟨fun r =>
  match advance.run r with
  | (.ok found, r) => (.ok found, r)
  | (.error e, r) => (.error e, { r with state := .done })⟩

def readData (want : Nat) : Prog CpioReader Error (List UInt8) := do
  let r ← Prog.gets id
  let data := r.input.take (Nat.min r.remaining want)
  if r.remaining = 0 ∨ want = 0 then pure []
  else if data = [] then Prog.fail Detail.truncated.corrupt
  else do
    Prog.modify fun r =>
      { r with input := r.input.drop data.length, offset := r.offset + data.length }
    account data
    pure data

def read (want : Nat) : Prog CpioReader Error (List UInt8) := ⟨fun r =>
  match (readData want).run r with
  | (.ok data, r) => (.ok data, r)
  | (.error e, r) => (.error e, { r with state := .done })⟩

def dataLen (len : Nat) : Except Error Nat :=
  if len < 2 ^ 63 then .ok len
    else .error (.new .limitExceeded "entry data does not fit in memory")

def loadRest (len size : Nat) : Nat → List UInt8 → Prog CpioReader Error (List UInt8)
  | 0, data => pure data
  | fuel + 1, data =>
    if data.length < len then do
      let more ← read (Nat.min (len - data.length) size)
      if more = [] then Prog.fail Detail.truncated.corrupt
      else loadRest len size fuel (data ++ more)
    else pure data

def load : Prog CpioReader Error (List UInt8) := do
  let remaining ← Prog.gets CpioReader.remaining
  let len ← Prog.ofExcept (dataLen remaining)
  loadRest len (Nat.min (64 * 1024) len) len []

end CpioReader

/-- An entry that was read, with its data. -/
structure ReadEntry where
  path : List UInt8
  header : Header
  data : List UInt8
deriving DecidableEq, Repr

namespace CpioReader

def readAll : Nat → Prog CpioReader Error (List ReadEntry)
  | 0 => pure []
  | fuel + 1 => do
    let found ← nextEntry
    if found then do
      let r ← Prog.gets id
      let data ← load
      let rest ← readAll fuel
      pure (⟨r.path, r.header, data⟩ :: rest)
    else pure []

end CpioReader

end Hadris.Cpio

namespace Hadris.Cpio

namespace CpioReader

def orDone {α : Type} (x : Prog CpioReader Error α) : Prog CpioReader Error α := ⟨fun r =>
  match x.run r with
  | (.ok a, r) => (.ok a, r)
  | (.error e, r) => (.error e, { r with state := .done })⟩

theorem nextEntry_eq : nextEntry = orDone advance := by
  ext1
  funext r
  simp only [nextEntry, orDone]
  rcases advance.run r with ⟨_ | _, _⟩ <;> rfl

theorem read_eq (want : Nat) : read want = orDone (readData want) := by
  ext1
  funext r
  simp only [read, orDone]
  rcases (readData want).run r with ⟨_ | _, _⟩ <;> rfl

def skipZeros : Nat → Prog CpioReader Error Bool
  | 0 => pure false
  | fuel + 1 => do
    match ← firstByte with
    | none => do
      Prog.modify fun r => { r with state := .done }
      pure false
    | some byte =>
      if byte = 0 then skipZeros fuel
      else do
        Prog.modify fun r => { r with pending := some byte, state := .entries }
        pure true

def nextSegment : Prog CpioReader Error Bool := do
  let r ← Prog.gets id
  if r.state = .done then pure false
  else if r.state ≠ .trailer
    then Prog.fail (.new .invalidInput "current cpio segment has not ended")
  else skipZeros (r.input.length + 2)

end CpioReader

/-- A reader whose stream may return fewer bytes than a read asks for: at most `n + 1` for each
`n` of `splits`, and all that are there after these. -/
structure ShortReader where
  reader : CpioReader
  splits : List Nat
deriving DecidableEq, Repr

namespace ShortReader

def onReader {α : Type} (x : Prog CpioReader Error α) : Prog ShortReader Error α :=
  Prog.zoom ⟨reader, fun r s => { s with reader := r }, fun _ _ => rfl⟩ x

def streamRead (want : Nat) : Prog ShortReader Error (List UInt8) := do
  let s ← Prog.gets id
  let data := s.reader.input.take (min want ((s.splits.head?.map (· + 1)).getD want))
  Prog.modify fun s => ⟨{ s.reader with input := s.reader.input.drop data.length }, s.splits.tail⟩
  pure data

def readExact : Nat → Nat → Prog ShortReader Error (List UInt8)
  | 0, _ => pure []
  | fuel + 1, n =>
    if n = 0 then pure []
    else do
      let data ← streamRead n
      if data = [] then Prog.fail Detail.truncated.corrupt
      else do
        let rest ← readExact fuel (n - data.length)
        pure (data ++ rest)

def fill (n : Nat) : Prog ShortReader Error (List UInt8) := do
  let data ← readExact n n
  onReader (Prog.modify fun r => { r with offset := r.offset + n })
  pure data

def firstByte : Prog ShortReader Error (Option UInt8) := do
  let pending ← onReader (Prog.gets CpioReader.pending)
  match pending with
  | some byte => do
    onReader (Prog.modify fun r => { r with pending := none })
    pure (some byte)
  | none => do
    let data ← streamRead 1
    match data with
    | [] => pure none
    | byte :: _ => do
      onReader (Prog.modify fun r => { r with offset := r.offset + 1 })
      pure (some byte)

def skipPadding (len : Nat) : Prog ShortReader Error Unit := do
  let pad ← fill len
  if pad.any (· ≠ 0) then Prog.fail Detail.padding.corrupt else pure ()

def skipData : Nat → Prog ShortReader Error Unit
  | 0 => pure ()
  | fuel + 1 => do
    let remaining ← onReader (Prog.gets CpioReader.remaining)
    if 0 < remaining then do
      let data ← fill (Nat.min remaining 512)
      onReader (CpioReader.account data)
      skipData fuel
    else pure ()

def finishEntry : Prog ShortReader Error Unit := do
  let remaining ← onReader (Prog.gets CpioReader.remaining)
  skipData remaining
  onReader CpioReader.verify
  let padding ← onReader (Prog.gets CpioReader.padding)
  onReader (Prog.modify fun r => { r with padding := 0 })
  skipPadding padding

def readHeader (first : UInt8) (atStart : Bool) : Prog ShortReader Error Header := do
  let start ← fill 5
  let format ← onReader (CpioReader.orFail
    (Detail.magic.error (if atStart then .notRecognized else .corrupt))
    (detect (first :: start)))
  let rest ← fill (headerLen format - 6)
  let header ← onReader (CpioReader.orFail Detail.field.corrupt
    (decode format (first :: start ++ rest)))
  onReader (CpioReader.ensure (format ≠ .newc ∨ header.check = 0) Detail.check.corrupt)
  onReader (CpioReader.ensure ((fileType header.mode).isSome ∨ header.mode = 0)
    Detail.field.corrupt)
  onReader (CpioReader.ensure (2 ≤ header.namesize) Detail.name.corrupt)
  let capacity ← onReader (Prog.gets CpioReader.capacity)
  onReader (CpioReader.ensure (header.namesize ≤ capacity) (Detail.name.error .limitExceeded))
  pure header

def readName (header : Header) : Prog ShortReader Error (List UInt8) := do
  let bytes ← fill header.namesize
  let name := bytes.takeWhile (· ≠ 0)
  onReader (CpioReader.ensure (name ≠ [] ∧ name.length ≠ header.namesize ∧
    (bytes.drop name.length).all (· = 0))
    Detail.name.corrupt)
  skipPadding (namePadding header.format header.namesize)
  pure name

def front : Prog ShortReader Error (Option (Header × List UInt8)) := do
  let offset ← onReader (Prog.gets CpioReader.offset)
  let first ← firstByte
  match first with
  | none => do
    let strict ← onReader (Prog.gets CpioReader.strictTrailer)
    if strict then Prog.fail Detail.trailer.corrupt
    else do
      onReader (Prog.modify fun r => { r with state := .done })
      pure none
  | some first => do
    onReader (Prog.modify fun r => { r with headerOffset := r.offset - 1 })
    let header ← readHeader first (offset = 0)
    let name ← readName header
    pure (some (header, name))

def advance : Prog ShortReader Error Bool := do
  let state ← onReader (Prog.gets CpioReader.state)
  if state ≠ .entries then pure false
  else do
    finishEntry
    let found ← front
    match found with
    | none => pure false
    | some found => onReader (CpioReader.enter found.1 found.2)

def orDone {α : Type} (x : Prog ShortReader Error α) : Prog ShortReader Error α := ⟨fun s =>
  match x.run s with
  | (.ok a, s) => (.ok a, s)
  | (.error e, s) => (.error e, { s with reader := { s.reader with state := .done } })⟩

def nextEntry : Prog ShortReader Error Bool := orDone advance

def readData (want : Nat) : Prog ShortReader Error (List UInt8) := do
  let remaining ← onReader (Prog.gets CpioReader.remaining)
  if remaining = 0 ∨ want = 0 then pure []
  else do
    let data ← streamRead (min remaining want)
    if data = [] then Prog.fail Detail.truncated.corrupt
    else do
      onReader (Prog.modify fun r => { r with offset := r.offset + data.length })
      onReader (CpioReader.account data)
      pure data

def read (want : Nat) : Prog ShortReader Error (List UInt8) := orDone (readData want)

def skipZeros : Nat → Prog ShortReader Error Bool
  | 0 => pure false
  | fuel + 1 => do
    match ← firstByte with
    | none => do
      onReader (Prog.modify fun r => { r with state := .done })
      pure false
    | some byte =>
      if byte = 0 then skipZeros fuel
      else do
        onReader (Prog.modify fun r => { r with pending := some byte, state := .entries })
        pure true

def nextSegment : Prog ShortReader Error Bool := do
  let r ← onReader (Prog.gets id)
  if r.state = .done then pure false
  else if r.state ≠ .trailer
    then Prog.fail (.new .invalidInput "current cpio segment has not ended")
  else skipZeros (r.input.length + 2)

open Prog (Simulates)

/-- `x` over the short reads of a stream does what `y` does over the whole stream. -/
def Agrees {α : Type} (x : Prog ShortReader Error α) (y : Prog CpioReader Error α) : Prop :=
  Simulates (fun _ => False) (fun s r => s.reader = r) x y (fun a b s r => a = b ∧ s.reader = r)
    fun s r => s.reader = r

namespace Agrees

variable {α β : Type} {x x' : Prog ShortReader Error α} {y y' : Prog CpioReader Error α}

theorem bind {f : α → Prog ShortReader Error β} {g : α → Prog CpioReader Error β}
    (hx : Agrees x y) (hf : ∀ a, Agrees (f a) (g a)) : Agrees (x >>= f) (y >>= g) :=
  Simulates.bind hx (fun _ _ hb => hb) fun a _ => Simulates.assume fun hab => hab ▸ hf a

theorem pure (a : α) : Agrees (Pure.pure a) (Pure.pure a) := Simulates.pure fun _ _ h => ⟨rfl, h⟩

theorem fail (e : Error) : Agrees (Prog.fail e : Prog ShortReader Error α) (Prog.fail e) :=
  Simulates.fail fun _ _ h => h

theorem ite {c : Prop} [Decidable c] (hx : Agrees x y) (hx' : Agrees x' y') :
    Agrees (if c then x else x') (if c then y else y') :=
  Simulates.ite Iff.rfl (fun _ => hx) fun _ => hx'

theorem onReader (y : Prog CpioReader Error α) : Agrees (onReader y) y := by
  rintro s r rfl -
  rcases hrun : y.run s.reader with ⟨e | a, r⟩
  · refine .inr ⟨e, ?_, rfl, ?_⟩ <;> simp only [ShortReader.onReader, Prog.run_zoom, hrun]
  · refine .inl ⟨a, a, ?_, rfl, rfl, ?_⟩ <;> simp only [ShortReader.onReader, Prog.run_zoom, hrun]

theorem run_eq (h : Agrees x y) (s : ShortReader) :
    (x.run s).1 = (y.run s.reader).1 ∧ (x.run s).2.reader = (y.run s.reader).2 := by
  obtain ⟨a, b, hx, hy, rfl, hs⟩ | ⟨e, hx, hy, hs⟩ := h s s.reader rfl id
  · exact ⟨hx.trans hy.symm, hs⟩
  · exact ⟨hx.trans hy.symm, hs⟩

theorem run_ok (h : Agrees x y) {s : ShortReader} {a : α} {r : CpioReader}
    (hy : y.run s.reader = (.ok a, r)) :
    ∃ t, x.run s = (.ok a, t) ∧ t.reader = r := by
  obtain ⟨hresult, hreader⟩ := h.run_eq s
  rw [hy] at hresult hreader
  exact ⟨(x.run s).2, Prod.ext hresult rfl, hreader⟩

theorem of_run (h : ∀ s, (x.run s).1 = (y.run s.reader).1 ∧
      (x.run s).2.reader = (y.run s.reader).2) : Agrees x y := by
  rintro s r rfl -
  obtain ⟨hresult, hs⟩ := h s
  rcases hrun : (y.run s.reader).1 with e | a
  · exact .inr ⟨e, hresult.trans hrun, rfl, hs⟩
  · exact .inl ⟨a, a, hresult.trans hrun, rfl, rfl, hs⟩

end Agrees

theorem run_streamRead (want : Nat) (s : ShortReader) : ∃ most, (0 < want → 0 < most) ∧
    (streamRead want).run s = (.ok (s.reader.input.take (min want most)),
      ⟨{ s.reader with input := s.reader.input.drop (s.reader.input.take (min want most)).length
        }, s.splits.tail⟩) := by
  refine ⟨(s.splits.head?.map (· + 1)).getD want, fun hwant => ?_, rfl⟩
  rcases s.splits.head? with _ | n
  · exact hwant
  · exact Nat.succ_pos n

theorem run_readExact {fuel n : Nat} (hfuel : n ≤ fuel) (s : ShortReader) :
    ∃ splits, (readExact fuel n).run s =
    (if s.reader.input.length < n then .error Detail.truncated.corrupt
      else .ok (s.reader.input.take n),
      ⟨{ s.reader with input := s.reader.input.drop n }, splits⟩) := by
  induction fuel generalizing n s with
  | zero =>
    rw [Nat.le_zero.mp hfuel]
    exact ⟨s.splits, rfl⟩
  | succ fuel ih =>
    rw [readExact]
    by_cases hn : n = 0
    · subst hn
      exact ⟨s.splits, rfl⟩
    obtain ⟨most, hmost, hread⟩ := run_streamRead n s
    have hpos := hmost (Nat.pos_of_ne_zero hn)
    rw [if_neg hn, Prog.run_bind_ok hread]
    generalize hdata : s.reader.input.take (min n most) = data
    have hlength : data.length = min
      (min n most) s.reader.input.length := by rw [← hdata, List.length_take]
    by_cases hempty : data = []
    · have hinput : s.reader.input = [] := by
        rw [hempty, List.length_nil] at hlength
        exact List.eq_nil_of_length_eq_zero (by omega)
      have hshort : s.reader.input.length < n := by
        rw [hinput]
        exact Nat.pos_of_ne_zero hn
      refine ⟨s.splits.tail, ?_⟩
      rw [if_pos hempty, if_pos hshort, Prog.run_fail, hinput, List.drop_nil, List.drop_nil]
    · have hdrop : s.reader.input.take data.length = data := by
        rw [hlength, ← hdata, List.take_eq_take_iff]
        omega
      obtain ⟨splits, hrest⟩ := ih (n := n - data.length)
        (by have := List.length_pos_iff.mpr hempty; omega)
        ⟨{ s.reader with input := s.reader.input.drop data.length }, s.splits.tail⟩
      refine ⟨splits, ?_⟩
      rw [if_neg hempty, Prog.run_bind, hrest]
      simp only [List.length_drop, List.drop_drop]
      have hle : data.length ≤ n := by omega
      rw [Nat.add_sub_cancel' hle]
      by_cases hshort : s.reader.input.length < n
      · rw [if_pos hshort, if_pos (by omega)]
      · rw [if_neg hshort, if_neg (by omega)]
        simp only [Prog.run_pure]
        have htake : data ++ (s.reader.input.drop data.length).take (n - data.length) =
            s.reader.input.take n := by
          have hsplit := List.take_add (l := s.reader.input) (i := data.length)
            (j := n - data.length)
          rw [Nat.add_sub_cancel' hle, hdrop] at hsplit
          exact hsplit.symm
        rw [htake]

theorem agrees_fill (n : Nat) : Agrees (fill n) (CpioReader.fill n) := by
  refine Agrees.of_run fun s => ?_
  obtain ⟨splits, hread⟩ := run_readExact (le_refl n) s
  rw [fill, Prog.run_bind, hread, CpioReader.fill, Prog.run_bind_ok (a := s.reader.input)
    (t := s.reader) rfl]
  by_cases hshort : s.reader.input.length < n
  · rw [if_pos hshort, if_pos hshort, List.drop_of_length_le hshort.le]
    exact ⟨rfl, rfl⟩
  · rw [if_neg hshort, if_neg hshort]
    exact ⟨rfl, rfl⟩

theorem agrees_firstByte : Agrees firstByte CpioReader.firstByte := by
  refine Agrees.of_run fun s => ?_
  rw [firstByte, CpioReader.firstByte, Prog.run_bind_ok (a := s.reader.pending) (t := s) rfl,
    Prog.run_bind_ok (a := s.reader) (t := s.reader) rfl]
  rcases hpending : s.reader.pending with _ | byte
  · obtain ⟨most, hmost, hread⟩ := run_streamRead 1 s
    rw [Nat.min_eq_left (hmost Nat.one_pos)] at hread
    simp only [Prog.run_bind_ok hread]
    rcases hinput : s.reader.input with _ | ⟨byte, rest⟩
    · have hsame : { s.reader with input := [] } = s.reader := by rw [← hinput]
      exact ⟨rfl, hsame⟩
    · exact ⟨rfl, rfl⟩
  · exact ⟨rfl, rfl⟩

theorem agrees_skipPadding (len : Nat) : Agrees (skipPadding len) (CpioReader.skipPadding len) :=
  (agrees_fill len).bind fun _ => .ite (.fail _) (.pure _)

theorem agrees_skipData (fuel : Nat) : Agrees (skipData fuel) (CpioReader.skipData fuel) := by
  induction fuel with
  | zero => exact .pure _
  | succ fuel ih =>
    exact (Agrees.onReader _).bind fun remaining =>
      .ite ((agrees_fill _).bind fun data => (Agrees.onReader _).bind fun _ => ih)
      (.pure _)

theorem agrees_finishEntry : Agrees finishEntry CpioReader.finishEntry :=
  (Agrees.onReader _).bind fun _ => (agrees_skipData _).bind fun _ =>
    (Agrees.onReader _).bind fun _ =>
    (Agrees.onReader _).bind fun _ => (Agrees.onReader _).bind fun _ => agrees_skipPadding _

theorem agrees_readHeader (first : UInt8) (atStart : Bool) :
    Agrees (readHeader first atStart) (CpioReader.readHeader first atStart) :=
  (agrees_fill 5).bind fun _ => (Agrees.onReader _).bind fun _ => (agrees_fill _).bind fun _ =>
    (Agrees.onReader _).bind fun _ =>
    (Agrees.onReader _).bind fun _ => (Agrees.onReader _).bind fun _ =>
      (Agrees.onReader _).bind fun _ =>
      (Agrees.onReader _).bind fun _ => (Agrees.onReader _).bind fun _ => .pure _

theorem agrees_readName (header : Header) :
    Agrees (readName header) (CpioReader.readName header) :=
  (agrees_fill _).bind fun _ => (Agrees.onReader _).bind fun _ =>
    (agrees_skipPadding _).bind fun _ => .pure _

theorem agrees_front : Agrees front CpioReader.front := by
  refine (Agrees.onReader _).bind fun offset => agrees_firstByte.bind fun first => ?_
  cases first with
  | none => exact (Agrees.onReader _).bind fun strict => .ite (.fail _) ((Agrees.onReader _).bind
      fun _ => .pure _)
  | some first =>
    exact (Agrees.onReader _).bind fun _ => (agrees_readHeader _ _).bind fun header =>
      (agrees_readName header).bind fun name =>
      .pure _

theorem agrees_advance : Agrees advance CpioReader.advance := by
  refine (Agrees.onReader _).bind fun state =>
    .ite (.pure _) (agrees_finishEntry.bind fun _ => agrees_front.bind fun found => ?_)
  cases found with
  | none => exact .pure _
  | some found => exact .onReader _

theorem run_orDone {α : Type} {x : Prog ShortReader Error α} {y : Prog CpioReader Error α}
    {s : ShortReader} {r : CpioReader}
    (hresult : (x.run s).1 = (y.run r).1) (hs : (x.run s).2.reader = (y.run r).2) :
    ((orDone x).run s).1 = ((CpioReader.orDone y).run r).1 ∧
      ((orDone x).run s).2.reader = ((CpioReader.orDone y).run r).2 := by
  simp only [orDone, CpioReader.orDone]
  rcases hrun : x.run s with ⟨e | a, t⟩ <;> rcases hrun' :
    y.run r with ⟨e' | a', r'⟩ <;> rw [hrun, hrun'] at hresult hs <;>
    cases hresult
  · exact ⟨rfl, congrArg (fun r : CpioReader => { r with state := State.done }) hs⟩
  · exact ⟨rfl, hs⟩

theorem agrees_nextEntry : Agrees nextEntry CpioReader.nextEntry := by
  refine Agrees.of_run fun s => ?_
  obtain ⟨hresult, hs⟩ := agrees_advance.run_eq s
  rw [CpioReader.nextEntry_eq]
  exact run_orDone hresult hs

theorem agrees_skipZeros (fuel : Nat) : Agrees (skipZeros fuel) (CpioReader.skipZeros fuel) := by
  induction fuel with
  | zero => exact .pure _
  | succ fuel ih =>
    refine agrees_firstByte.bind fun first => ?_
    cases first with
    | none => exact (Agrees.onReader _).bind fun _ => .pure _
    | some byte => exact .ite ih ((Agrees.onReader _).bind fun _ => .pure _)

theorem agrees_nextSegment : Agrees nextSegment CpioReader.nextSegment :=
  (Agrees.onReader _).bind fun _ => .ite (.pure _) (.ite (.fail _) (agrees_skipZeros _))

theorem run_read (want : Nat) (s : ShortReader) :
    ∃ want', ((read want).run s).1 = ((CpioReader.read want').run s.reader).1 ∧
    ((read want).run s).2.reader = ((CpioReader.read want').run s.reader).2 := by
  have hdata : ∃ want', ((readData want).run s).1 = ((CpioReader.readData want').run s.reader).1 ∧
      ((readData want).run s).2.reader = ((CpioReader.readData want').run s.reader).2 := by
    by_cases hnone : s.reader.remaining = 0 ∨ want = 0
    · refine ⟨0, ?_⟩
      rw [readData, Prog.run_bind_ok (a := s.reader.remaining) (t := s) rfl, if_pos hnone,
        CpioReader.readData,
        Prog.run_bind_ok (a := s.reader) (t := s.reader) rfl, if_pos (.inr rfl)]
      exact ⟨rfl, rfl⟩
    · obtain ⟨most, hmost, hread⟩ := run_streamRead (min s.reader.remaining want) s
      rw [not_or] at hnone
      have hpos := hmost (by omega)
      refine ⟨min want most, ?_⟩
      rw [min_assoc] at hread
      rw [readData, Prog.run_bind_ok (a := s.reader.remaining) (t := s) rfl,
        if_neg (not_or.mpr hnone),
        Prog.run_bind_ok hread, CpioReader.readData, Prog.run_bind_ok (a := s.reader)
          (t := s.reader) rfl,
        if_neg (not_or.mpr ⟨hnone.1, by omega⟩)]
      generalize hdata : s.reader.input.take (min s.reader.remaining (min want most)) = data
      by_cases hempty : data = []
      · rw [if_pos hempty, if_pos hempty, hempty]
        exact ⟨rfl, rfl⟩
      · rw [if_neg hempty, if_neg hempty]
        exact ((Agrees.onReader (CpioReader.account data)).bind fun _ => .pure data).run_eq
          ⟨{ s.reader with input := s.reader.input.drop data.length, offset := s.reader.offset +
            data.length }, s.splits.tail⟩
  obtain ⟨want', hresult, hs⟩ := hdata
  refine ⟨want', ?_⟩
  rw [CpioReader.read_eq]
  exact run_orDone hresult hs

end ShortReader

end Hadris.Cpio
