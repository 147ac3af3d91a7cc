import Hadris.Udf.Text

namespace Hadris.Udf

open List

/-- A block of a partition. -/
structure Location where
  partition : Nat
  block : Nat
deriving DecidableEq, Repr

def crc16Step (crc : UInt16) (byte : UInt8) : UInt16 :=
  let x := ((crc >>> 8) ^^^ byte.toUInt16) &&& 0xFF
  let x := x ^^^ (x >>> 4)
  (crc <<< 8) ^^^ (x <<< 12) ^^^ (x <<< 5) ^^^ x

def crc16Update (crc : UInt16) (data : List UInt8) : UInt16 := data.foldl crc16Step crc

def crc16 (data : List UInt8) : UInt16 := crc16Update 0 data

def tagChecksum (bytes : List UInt8) : UInt8 :=
  ((bytes.take 4) ++ (bytes.drop 5).take 11).foldl (· + ·) 0

/-- The first 16 bytes of a descriptor. -/
structure Tag where
  identifier : Nat
  version : Nat
  checksum : UInt8
  reserved : UInt8
  crc : UInt16
  crcLength : Nat
  location : Nat
  sum : UInt8

namespace Tag

def read (bytes : List UInt8) : Tag where
  identifier := u16At bytes 0
  version := u16At bytes 2
  checksum := bytes.getD 4 0
  reserved := bytes.getD 5 0
  crc := UInt16.ofNat (u16At bytes 8)
  crcLength := u16At bytes 10
  location := u32At bytes 12
  sum := tagChecksum bytes

def isChecksumValid (tag : Tag) : Bool := tag.sum == tag.checksum

end Tag

def tagFileIdentifier : Nat := 257

namespace FileCharacteristics

def directory : UInt8 := 0x02
def deleted : UInt8 := 0x04
def parent : UInt8 := 0x08

end FileCharacteristics

/-- The fixed part of a file identifier descriptor. -/
structure FileIdentifierDescriptor where
  tag : Tag
  version : Nat
  characteristics : UInt8
  identifierLength : Nat
  icb : Location
  implementationUseLength : Nat

namespace FileIdentifierDescriptor

def size : Nat := 38

def read (bytes : List UInt8) : FileIdentifierDescriptor where
  tag := Tag.read bytes
  version := u16At bytes 16
  characteristics := bytes.getD 18 0
  identifierLength := byteAt bytes 19
  icb := ⟨u16At bytes 28, u32At bytes 24⟩
  implementationUseLength := u16At bytes 36

variable (fid : FileIdentifierDescriptor)

def totalLen : Nat := (size + fid.implementationUseLength + fid.identifierLength + 3) / 4 * 4

def has (flag : UInt8) : Bool := fid.characteristics &&& flag != 0

def isValid (location : Option Nat) : Bool :=
  fid.tag.isChecksumValid && fid.tag.identifier == tagFileIdentifier &&
    (fid.tag.version == 2 || fid.tag.version == 3) && fid.tag.reserved == 0 &&
    some fid.tag.location == location && decide (1 ≤ fid.version) &&
      decide (fid.version ≤ 32767) &&
    fid.characteristics &&& 0xF0 == 0 && fid.implementationUseLength % 4 == 0 &&
    !(decide (1 ≤ fid.implementationUseLength) && decide (fid.implementationUseLength ≤ 31)) &&
    !(fid.has FileCharacteristics.parent &&
      (fid.identifierLength != 0 || !fid.has FileCharacteristics.directory))

def crcEnd : Nat := 16 + fid.tag.crcLength

def nameAt : Nat := size + fid.implementationUseLength

def nameEnd : Nat := fid.nameAt + fid.identifierLength

def wantName : Bool :=
  fid.identifierLength != 0 &&
    !(fid.has FileCharacteristics.deleted || fid.has FileCharacteristics.parent)

def tailAt : Nat := if fid.wantName then fid.nameAt else fid.nameEnd

end FileIdentifierDescriptor

/-- A file identifier that was read. -/
structure Fid where
  characteristics : UInt8
  icb : Location
  name : List UInt8
  nameLen : Nat
  next : Nat
deriving DecidableEq

/-- The data of a directory, and how reading pieces of it goes: a piece that can be
read has the bytes of the data, and fewer only at its end. -/
structure Stream where
  bytes : List UInt8
  location : Nat → Option Nat
  read : Nat → Nat → Except Error (List UInt8)
  read_ok : ∀ at_ len data, read at_ len = .ok data → data = (bytes.drop at_).take len

def fidBuffer : Nat := 512

theorem fidBuffer_pos : 0 < fidBuffer := by decide

def badFid : Error := Detail.corrupt .fileIdentifier

namespace FileIdentifierDescriptor

variable (fid : FileIdentifierDescriptor)

def skip (at_ : Nat) : Nat := if fid.crcEnd ≤ at_ ∧ at_ < fid.tailAt then fid.tailAt else at_

def take (at_ : Nat) : Nat :=
  let chunkEnd := if at_ < fid.crcEnd ∧ fid.crcEnd < fid.tailAt then fid.crcEnd else fid.totalLen
  min (chunkEnd - at_) fidBuffer

def keepName (at_ : Nat) (data name : List UInt8) : List UInt8 :=
  let start := max at_ fid.nameAt
  let stop := min (at_ + data.length) fid.nameEnd
  if fid.wantName && decide (start < stop) then
    overwrite name (start - fid.nameAt) ((data.drop (start - at_)).take (stop - start))
  else name

def isPadded (at_ : Nat) (data : List UInt8) : Bool :=
  (data.drop (max at_ fid.nameEnd - at_)).all (· == 0)

def cover (at_ : Nat) (data : List UInt8) (crc : UInt16) : UInt16 :=
  if at_ < fid.crcEnd then crc16Update crc (data.take (fid.crcEnd - at_)) else crc

def chunk (stream : Stream) (pos at_ : Nat) (crc : UInt16) (name : List UInt8) :
    Except Error (UInt16 × List UInt8) :=
  if fid.totalLen ≤ at_ then .ok (crc, name)
  else do
    let data ← stream.read (pos + at_) (fid.take at_)
    ensure (data.length == fid.take at_) badFid
    ensure (fid.isPadded at_ data) badFid
    .ok (fid.cover at_ data crc, fid.keepName at_ data name)

theorem take_pos {at_ : Nat} (h : at_ < fid.totalLen) : 0 < fid.take at_ := by
  have hbuffer := fidBuffer_pos
  rw [take]
  split <;> omega

theorem le_skip (at_ : Nat) : at_ ≤ fid.skip at_ := by
  rw [skip]
  split <;> omega

theorem lt_next {at_ : Nat} (h : at_ < fid.totalLen) :
    at_ < fid.skip at_ + fid.take (fid.skip at_) := by
  have hskip := fid.le_skip at_
  by_cases hend : fid.skip at_ < fid.totalLen
  · have hpos := fid.take_pos hend
    omega
  · omega

theorem next_decreases {at_ : Nat} (h : at_ < fid.totalLen) :
    fid.totalLen - (fid.skip at_ + fid.take (fid.skip at_)) < fid.totalLen - at_ := by
  have hlt := fid.lt_next h
  omega

def chunks (stream : Stream) (pos at_ : Nat) (crc : UInt16) (name : List UInt8) :
    Except Error (UInt16 × List UInt8) :=
  if _ : at_ < fid.totalLen then do
    let (crc, name) ← fid.chunk stream pos (fid.skip at_) crc name
    chunks stream pos (fid.skip at_ + fid.take (fid.skip at_)) crc name
  else .ok (crc, name)
termination_by fid.totalLen - at_
decreasing_by exact fid.next_decreases ‹_›

end FileIdentifierDescriptor

def fidAt (stream : Stream) (pos : Nat) : Except Error Fid := do
  let head ← stream.read pos FileIdentifierDescriptor.size
  ensure (head.length == FileIdentifierDescriptor.size) badFid
  let fid := FileIdentifierDescriptor.read head
  ensure (fid.isValid (stream.location pos)) badFid
  ensure (decide (pos + fid.totalLen ≤ stream.bytes.length)) badFid
  ensure (decide (fid.crcEnd ≤ fid.totalLen)) badFid
  let crc := crc16Update 0 ((head.take (min fid.crcEnd FileIdentifierDescriptor.size)).drop 16)
  let (crc, name) ← fid.chunks stream pos FileIdentifierDescriptor.size crc (replicate 255 0)
  ensure (crc == fid.tag.crc) badFid
  .ok ⟨fid.characteristics, fid.icb, name, fid.identifierLength, pos + fid.totalLen⟩

/-- The file identifier that the complete bytes of a directory hold at `pos`, checked at
once: what `fidAt` is to find. -/
def wholeFid (bytes : List UInt8) (location : Option Nat) (pos : Nat) : Option Fid :=
  let rest := bytes.drop pos
  let fid := FileIdentifierDescriptor.read rest
  let descriptor := rest.take fid.totalLen
  if FileIdentifierDescriptor.size ≤ rest.length ∧ fid.isValid location = true ∧
      fid.totalLen ≤ rest.length ∧ fid.crcEnd ≤ fid.totalLen ∧
      crc16 ((descriptor.take fid.crcEnd).drop 16) = fid.tag.crc ∧
      (descriptor.drop fid.nameEnd).all (· == 0) = true then
    let name := if fid.wantName then (descriptor.take fid.nameEnd).drop fid.nameAt else []
    some ⟨fid.characteristics, fid.icb, name ++ replicate (255 - name.length) 0,
      fid.identifierLength, pos + fid.totalLen⟩
  else none

/-! The pieces put together. -/

def span (bytes : List UInt8) (i j : Nat) : List UInt8 := (bytes.take j).drop i

section

variable {bytes : List UInt8} {i j k : Nat}

theorem span_append (hij : i ≤ j) (hjk : j ≤ k) (hk : k ≤ bytes.length) :
    span bytes i j ++ span bytes j k = span bytes i k := by
  have hlen : (bytes.take j).length = j := length_take_of_le (hjk.trans hk)
  have hsplit : bytes.take k = bytes.take j ++ (bytes.take k).drop j := by
    conv_lhs => rw [← take_append_drop j (bytes.take k)]
    rw [take_take, Nat.min_eq_left hjk]
  conv_rhs => rw [span, hsplit, drop_append_of_le_length (hlen.symm ▸ hij)]
  rfl

theorem length_span (hj : j ≤ bytes.length) : (span bytes i j).length = j - i := by
  rw [span, length_drop, length_take_of_le hj]

theorem span_of_le (h : j ≤ i) : span bytes i j = [] := by
  rw [span, drop_eq_nil_iff, length_take]
  omega

theorem take_span (h : i + k ≤ j) : (span bytes i j).take k = span bytes i (i + k) := by
  rw [span, span, take_drop, take_take, Nat.min_eq_left h]

theorem drop_span : (span bytes i j).drop k = span bytes (i + k) j := by
  rw [span, span, drop_drop]

end

namespace FileIdentifierDescriptor

variable {fid : FileIdentifierDescriptor} {stream : Stream} {pos at_ : Nat} {d : List UInt8}

def crcTo (fid : FileIdentifierDescriptor) (d : List UInt8) (at_ : Nat) : UInt16 :=
  crc16 (span d 16 (min fid.crcEnd at_))

def nameTo (fid : FileIdentifierDescriptor) (d : List UInt8) (at_ : Nat) : List UInt8 :=
  let name := if fid.wantName then span d fid.nameAt (min fid.nameEnd at_) else []
  name ++ replicate (255 - name.length) 0

/-- The padding from `at_` on is zero. -/
def Padded (fid : FileIdentifierDescriptor) (d : List UInt8) (at_ : Nat) : Prop :=
  (span d (max at_ fid.nameEnd) fid.totalLen).all (· == 0) = true

theorem nameEnd_le_totalLen : fid.nameEnd ≤ fid.totalLen := by
  rw [nameEnd, nameAt, totalLen]
  omega

theorem tailAt_le_nameEnd : fid.tailAt ≤ fid.nameEnd := by
  rw [tailAt, nameEnd]
  split <;> omega

theorem crc16Update_append (crc : UInt16) (a b : List UInt8) :
    crc16Update crc (a ++ b) = crc16Update (crc16Update crc a) b := foldl_append

theorem crcTo_skip : fid.crcTo d (fid.skip at_) = fid.crcTo d at_ := by
  rw [skip]
  split
  · rename_i h
    rw [crcTo, crcTo, Nat.min_eq_left h.1, Nat.min_eq_left (h.1.trans h.2.le)]
  · rfl

theorem nameTo_skip : fid.nameTo d (fid.skip at_) = fid.nameTo d at_ := by
  rw [skip]
  split
  · rename_i h
    rw [nameTo, nameTo]
    cases hwant : fid.wantName with
    | false => rfl
    | true =>
      have htail : fid.tailAt = fid.nameAt := by rw [tailAt, if_pos hwant]
      rw [htail] at h ⊢
      rw [if_pos rfl, if_pos rfl, span_of_le (Nat.min_le_right _ _),
        span_of_le ((Nat.min_le_right _ _).trans h.2.le)]
  · rfl

theorem padded_skip : fid.Padded d (fid.skip at_) ↔ fid.Padded d at_ := by
  rw [skip]
  split
  · rename_i h
    rw [Padded, Padded, Nat.max_eq_right tailAt_le_nameEnd,
      Nat.max_eq_right (h.2.le.trans tailAt_le_nameEnd)]
  · rfl

theorem padded_totalLen : fid.Padded d fid.totalLen := by
  rw [Padded, span_of_le (Nat.le_max_left _ _)]
  rfl

theorem take_le (hcrc : fid.crcEnd ≤ fid.totalLen) (h : at_ < fid.totalLen) :
    at_ + fid.take at_ ≤ fid.totalLen := by
  rw [take]
  split <;> omega

variable {t : Nat}

theorem cover_span (ht : at_ + t ≤ d.length) (hat : 16 ≤ at_) :
    fid.cover at_ (span d at_ (at_ + t)) (fid.crcTo d at_) = fid.crcTo d (at_ + t) := by
  rw [cover, crcTo, crcTo]
  split
  · rename_i h
    have hdata : (span d at_ (at_ + t)).take (fid.crcEnd - at_) =
        span d at_ (min fid.crcEnd (at_ + t)) := by
      rcases Nat.le_total fid.crcEnd (at_ + t) with hle | hle
      · rw [take_span (by omega), Nat.add_sub_of_le h.le, Nat.min_eq_left hle]
      · rw [Nat.min_eq_right hle, take_of_length_le]
        rw [length_span ht]
        omega
    rw [hdata, Nat.min_eq_right h.le, crc16, crc16, ← crc16Update_append, span_append hat] <;>
      omega
  · rw [Nat.min_eq_left (by omega), Nat.min_eq_left (by omega)]

theorem overwrite_append (name piece : List UInt8) (k : Nat) :
    overwrite (name ++ replicate k 0) name.length piece =
      (name ++ piece) ++ replicate (k - piece.length) 0 := by
  rw [overwrite, take_left, drop_append, drop_eq_nil_of_le (by omega),
    Nat.add_sub_cancel_left, drop_replicate, nil_append]

theorem keepName_span (ht : at_ + t ≤ d.length) (hlen : fid.identifierLength ≤ 255) :
    fid.keepName at_ (span d at_ (at_ + t)) (fid.nameTo d at_) = fid.nameTo d (at_ + t) := by
  have hend : fid.nameEnd = fid.nameAt + fid.identifierLength := rfl
  rw [keepName, length_span ht, Nat.add_sub_cancel_left]
  cases hwant : fid.wantName with
  | false =>
    rw [Bool.false_and, nameTo, nameTo, hwant]
    rfl
  | true =>
    simp only [Bool.true_and, decide_eq_true_eq, nameTo, hwant, if_true]
    split
    · rename_i h
      have hname : (span d fid.nameAt (min fid.nameEnd at_)).length =
          max at_ fid.nameAt - fid.nameAt := by
        rw [length_span (by omega)]
        omega
      have hpiece : ((span d at_ (at_ + t)).drop (max at_ fid.nameAt - at_)).take
          (min (at_ + t) fid.nameEnd - max at_ fid.nameAt) =
            span d (max at_ fid.nameAt) (min fid.nameEnd (at_ + t)) := by
        rw [drop_span, Nat.add_sub_of_le (Nat.le_max_left _ _), take_span (by omega),
          Nat.add_sub_of_le h.le, Nat.min_comm]
      have hboth : span d fid.nameAt (min fid.nameEnd at_) ++
          span d (max at_ fid.nameAt) (min fid.nameEnd (at_ + t)) =
            span d fid.nameAt (min fid.nameEnd (at_ + t)) := by
        rcases Nat.le_total at_ fid.nameAt with hle | hle
        · rw [span_of_le ((Nat.min_le_right _ _).trans hle), Nat.max_eq_right hle, nil_append]
        · rw [Nat.max_eq_left hle, Nat.min_eq_right (by omega),
            span_append hle (by omega) (by omega)]
      have hlength : (span d (max at_ fid.nameAt) (min fid.nameEnd (at_ + t))).length =
          min fid.nameEnd (at_ + t) - max at_ fid.nameAt := length_span (by omega)
      rw [hpiece, ← hname, overwrite_append, hboth]
      congr 2
      rw [hname, hlength, length_span (by omega)]
      omega
    · rename_i h
      have hsame : span d fid.nameAt (min fid.nameEnd at_) =
          span d fid.nameAt (min fid.nameEnd (at_ + t)) := by
        rcases Nat.lt_or_ge at_ fid.nameEnd with hlt | hle
        · rcases Nat.eq_zero_or_pos t with rfl | hpos
          · rfl
          · rw [span_of_le (by omega), span_of_le (by omega)]
        · rw [Nat.min_eq_left hle, Nat.min_eq_left (by omega)]
      rw [hsame]

theorem padded_span (ht : at_ + t ≤ fid.totalLen) (hd : fid.totalLen ≤ d.length) :
    fid.Padded d at_ ↔
      fid.isPadded at_ (span d at_ (at_ + t)) = true ∧ fid.Padded d (at_ + t) := by
  have hend := @nameEnd_le_totalLen fid
  have hdata : (span d at_ (at_ + t)).drop (max at_ fid.nameEnd - at_) =
      span d (max at_ fid.nameEnd) (max (at_ + t) fid.nameEnd) := by
    rw [drop_span, Nat.add_sub_of_le (Nat.le_max_left _ _)]
    rcases Nat.le_total fid.nameEnd (at_ + t) with hle | hle
    · rw [Nat.max_eq_left hle]
    · rw [span_of_le (by omega), span_of_le (by omega)]
  rw [Padded, Padded, isPadded, hdata, ← Bool.and_eq_true, ← all_append,
    span_append (by omega) (by omega) hd]

/-- What a chunk is read from: a descriptor whose fixed part was checked. -/
structure Complete (fid : FileIdentifierDescriptor) (stream : Stream) (pos : Nat) : Prop where
  inside : pos + fid.totalLen ≤ stream.bytes.length
  covered : fid.crcEnd ≤ fid.totalLen
  name : fid.identifierLength ≤ 255

theorem Complete.length (h : fid.Complete stream pos) :
    fid.totalLen ≤ (stream.bytes.drop pos).length := by
  have hinside := h.inside
  rw [length_drop]
  omega

theorem read_span {len : Nat} {data : List UInt8}
    (hread : stream.read (pos + at_) len = .ok data) :
    data = span (stream.bytes.drop pos) at_ (at_ + len) := by
  rw [stream.read_ok _ _ _ hread, span, drop_take, Nat.add_sub_cancel_left, drop_drop]

theorem skip_le (hle : at_ ≤ fid.totalLen) : fid.skip at_ ≤ fid.totalLen := by
  have htail := @tailAt_le_nameEnd fid
  have hend := @nameEnd_le_totalLen fid
  rw [skip]
  split <;> omega

/-- The bytes of a descriptor that can be read. -/
def Readable (stream : Stream) (start stop : Nat) : Prop :=
  ∀ at_ len, start ≤ at_ → at_ + len ≤ stop → ∃ data, stream.read at_ len = .ok data

theorem chunk_ok (h : fid.Complete stream pos) (hat : 16 ≤ at_) (hlt : at_ < fid.totalLen)
    {result : UInt16 × List UInt8}
    (hchunk : fid.chunk stream pos at_ (fid.crcTo (stream.bytes.drop pos) at_)
      (fid.nameTo (stream.bytes.drop pos) at_) = .ok result) :
    result = (fid.crcTo (stream.bytes.drop pos) (at_ + fid.take at_),
      fid.nameTo (stream.bytes.drop pos) (at_ + fid.take at_)) ∧
        (fid.Padded (stream.bytes.drop pos) (at_ + fid.take at_) →
          fid.Padded (stream.bytes.drop pos) at_) := by
  have hle := take_le h.covered hlt
  rw [chunk, if_neg (Nat.not_le_of_lt hlt)] at hchunk
  obtain ⟨data, hread, hchunk⟩ := except_bind_ok.mp hchunk
  obtain ⟨_, -, hchunk⟩ := except_bind_ok.mp hchunk
  obtain ⟨_, hpadded, hchunk⟩ := except_bind_ok.mp hchunk
  rw [read_span hread] at hpadded hchunk
  rw [cover_span (hle.trans h.length) hat, keepName_span (hle.trans h.length) h.name] at hchunk
  exact ⟨(Except.ok.inj hchunk).symm, fun hrest =>
    (padded_span hle h.length).mpr ⟨ensure_ok.mp hpadded, hrest⟩⟩

theorem ok_chunk (h : fid.Complete stream pos) (hat : 16 ≤ at_) (hlt : at_ < fid.totalLen)
    (hread : Readable stream pos (pos + fid.totalLen))
    (hpadded : fid.Padded (stream.bytes.drop pos) at_) :
    fid.chunk stream pos at_ (fid.crcTo (stream.bytes.drop pos) at_)
        (fid.nameTo (stream.bytes.drop pos) at_) =
      .ok (fid.crcTo (stream.bytes.drop pos) (at_ + fid.take at_),
        fid.nameTo (stream.bytes.drop pos) (at_ + fid.take at_)) := by
  have hle := take_le h.covered hlt
  obtain ⟨data, hdata⟩ := hread (pos + at_) (fid.take at_) (Nat.le_add_right _ _) (by omega)
  have hspan := read_span hdata
  have hlength : data.length = fid.take at_ := by
    rw [hspan, length_span (hle.trans h.length), Nat.add_sub_cancel_left]
  have hzero := ((padded_span hle h.length).mp hpadded).1
  rw [← hspan] at hzero
  rw [chunk, if_neg (Nat.not_le_of_lt hlt), hdata]
  refine except_bind_ok.mpr
    ⟨data, rfl, except_bind_ok.mpr ⟨(), ensure_of_true _ (beq_iff_eq.mpr hlength),
    except_bind_ok.mpr ⟨(), ensure_of_true _ hzero, ?_⟩⟩⟩
  rw [hspan, cover_span (hle.trans h.length) hat, keepName_span (hle.trans h.length) h.name]

theorem chunks_ok (h : fid.Complete stream pos) (hat : 16 ≤ at_) (hle : at_ ≤ fid.totalLen)
    {result : UInt16 × List UInt8}
    (hchunks : fid.chunks stream pos at_ (fid.crcTo (stream.bytes.drop pos) at_)
      (fid.nameTo (stream.bytes.drop pos) at_) = .ok result) :
    result = (fid.crcTo (stream.bytes.drop pos) fid.totalLen,
      fid.nameTo (stream.bytes.drop pos) fid.totalLen) ∧
        fid.Padded (stream.bytes.drop pos) at_ := by
  induction hleft : fid.totalLen - at_ using Nat.strong_induction_on generalizing at_ with
  | h left ih =>
    rw [chunks] at hchunks
    split at hchunks
    · rename_i hlt
      obtain ⟨⟨crc, name⟩, hchunk, hrest⟩ := except_bind_ok.mp hchunks
      have hskip := fid.le_skip at_
      rw [← crcTo_skip, ← nameTo_skip] at hchunk
      rcases Nat.lt_or_ge (fid.skip at_) fid.totalLen with hend | hend
      · obtain ⟨hpair, hpadded⟩ := chunk_ok h (hat.trans hskip) hend hchunk
        obtain ⟨rfl, rfl⟩ := Prod.mk.inj hpair
        have hnext := fid.next_decreases hlt
        obtain ⟨hresult, htail⟩ := ih _ (hleft ▸ hnext)
          (hat.trans (hskip.trans (Nat.le_add_right _ _))) (take_le h.covered hend) hrest rfl
        exact ⟨hresult, padded_skip.mp (hpadded htail)⟩
      · have heq : fid.skip at_ = fid.totalLen := Nat.le_antisymm (skip_le hle) hend
        rw [chunk, if_pos hend] at hchunk
        obtain ⟨rfl, rfl⟩ := Prod.mk.inj (Except.ok.inj hchunk)
        have hdone : fid.chunks stream pos (fid.skip at_ + fid.take (fid.skip at_)) _ _ =
          .ok result := hrest
        rw [chunks, dif_neg (Nat.not_lt.mpr (hend.trans (Nat.le_add_right _ _))), heq] at hdone
        exact ⟨(Except.ok.inj hdone).symm, padded_skip.mp (heq ▸ padded_totalLen)⟩
    · rename_i hge
      have heq : at_ = fid.totalLen := Nat.le_antisymm hle (Nat.not_lt.mp hge)
      rw [heq] at hchunks ⊢
      exact ⟨(Except.ok.inj hchunks).symm, padded_totalLen⟩

theorem ok_chunks (h : fid.Complete stream pos) (hat : 16 ≤ at_) (hle : at_ ≤ fid.totalLen)
    (hread : Readable stream pos (pos + fid.totalLen))
    (hpadded : fid.Padded (stream.bytes.drop pos) at_) :
    fid.chunks stream pos at_ (fid.crcTo (stream.bytes.drop pos) at_)
        (fid.nameTo (stream.bytes.drop pos) at_) =
      .ok (fid.crcTo (stream.bytes.drop pos) fid.totalLen,
        fid.nameTo (stream.bytes.drop pos) fid.totalLen) := by
  induction hleft : fid.totalLen - at_ using Nat.strong_induction_on generalizing at_ with
  | h left ih =>
    rw [chunks]
    split
    · rename_i hlt
      have hskip := fid.le_skip at_
      rw [← crcTo_skip, ← nameTo_skip]
      rcases Nat.lt_or_ge (fid.skip at_) fid.totalLen with hend | hend
      · have hskipped := padded_skip.mpr hpadded
        have htake := take_le h.covered hend
        refine except_bind_ok.mpr ⟨_, ok_chunk h (hat.trans hskip) hend hread hskipped, ?_⟩
        exact ih _ (hleft ▸ fid.next_decreases hlt)
          (hat.trans (hskip.trans (Nat.le_add_right _ _))) htake
          ((padded_span htake h.length).mp hskipped).2 rfl
      · have heq : fid.skip at_ = fid.totalLen := Nat.le_antisymm (skip_le hle) hend
        rw [chunk, if_pos hend]
        refine except_bind_ok.mpr ⟨_, rfl, ?_⟩
        change fid.chunks stream pos (fid.skip at_ + fid.take (fid.skip at_)) _ _ = _
        rw [chunks, dif_neg (Nat.not_lt.mpr (hend.trans (Nat.le_add_right _ _))), heq]
    · rename_i hge
      rw [Nat.le_antisymm hle (Nat.not_lt.mp hge)]

/-! The fixed part. -/

theorem byteAt_take {bytes : List UInt8} {i n : Nat} (h : i < n) :
    byteAt (bytes.take n) i = byteAt bytes i := by
  rw [byteAt, byteAt, getD_eq_getElem?_getD, getD_eq_getElem?_getD, getElem?_take, if_pos h]

theorem u16At_take {bytes : List UInt8} {i n : Nat} (h : i + 1 < n) :
    u16At (bytes.take n) i = u16At bytes i := by
  rw [u16At, u16At, byteAt_take (by omega), byteAt_take h]

theorem u32At_take {bytes : List UInt8} {i n : Nat} (h : i + 3 < n) :
    u32At (bytes.take n) i = u32At bytes i := by
  rw [u32At, u32At, u16At_take (by omega), u16At_take (by omega)]

theorem getD_take {bytes : List UInt8} {i n : Nat} (h : i < n) :
    (bytes.take n).getD i 0 = bytes.getD i 0 :=
  UInt8.toNat_inj.mp (byteAt_take h)

theorem read_take (bytes : List UInt8) : read (bytes.take size) = read bytes := by
  have hsum : tagChecksum (bytes.take size) = tagChecksum bytes := by
    rw [tagChecksum, tagChecksum, take_take, drop_take, take_take]
    rfl
  rw [read, read, Tag.read, Tag.read, hsum]
  simp only [size, u16At_take, u32At_take, getD_take, byteAt_take, Nat.reduceAdd, Nat.reduceLT]

theorem size_le_totalLen : size ≤ fid.totalLen := by
  rw [totalLen, size]
  omega

theorem name_le (bytes : List UInt8) : (read bytes).identifierLength ≤ 255 :=
  Nat.le_of_lt_succ (byteAt_lt bytes 19)

theorem crcTo_size : fid.crcTo d size =
    crc16Update 0 (((d.take size).take (min fid.crcEnd size)).drop 16) := by
  rw [crcTo, span, take_take, Nat.min_eq_left (Nat.min_le_right _ _)]
  rfl

theorem nameTo_size : fid.nameTo d size = replicate 255 0 := by
  have hname : size ≤ fid.nameAt := Nat.le_add_right _ _
  rw [nameTo, span_of_le ((Nat.min_le_right _ _).trans hname), ite_self]
  rfl

theorem crcTo_totalLen (h : fid.crcEnd ≤ fid.totalLen) :
    fid.crcTo d fid.totalLen = crc16 (((d.take fid.totalLen).take fid.crcEnd).drop 16) := by
  rw [crcTo, Nat.min_eq_left h, take_take, Nat.min_eq_left h]
  rfl

theorem nameTo_totalLen : fid.nameTo d fid.totalLen =
    let name := if fid.wantName then ((d.take fid.totalLen).take fid.nameEnd).drop fid.nameAt
      else []
    name ++ replicate (255 - name.length) 0 := by
  have hend := @nameEnd_le_totalLen fid
  rw [nameTo, Nat.min_eq_left hend, take_take, Nat.min_eq_left hend]
  rfl

theorem padded_size : fid.Padded d size ↔
    ((d.take fid.totalLen).drop fid.nameEnd).all (· == 0) = true := by
  have hname : size ≤ fid.nameEnd := (Nat.le_add_right _ _).trans (Nat.le_add_right _ _)
  rw [Padded, Nat.max_eq_right hname]
  rfl

end FileIdentifierDescriptor

section

open FileIdentifierDescriptor

variable {stream : Stream} {pos : Nat} {fid : Fid}

theorem fidAt_sound (h : fidAt stream pos = .ok fid) :
    wholeFid stream.bytes (stream.location pos) pos = some fid := by
  rw [fidAt] at h
  obtain ⟨head, hread, h⟩ := except_bind_ok.mp h
  obtain ⟨_, hlength, h⟩ := except_bind_ok.mp h
  obtain ⟨_, hvalid, h⟩ := except_bind_ok.mp h
  obtain ⟨_, hinside, h⟩ := except_bind_ok.mp h
  obtain ⟨_, hcovered, h⟩ := except_bind_ok.mp h
  obtain ⟨⟨crc, name⟩, hchunks, h⟩ := except_bind_ok.mp h
  obtain ⟨_, hcrc, hfid⟩ := except_bind_ok.mp h
  have hhead := stream.read_ok _ _ _ hread
  rw [ensure_ok, beq_iff_eq] at hlength hcrc
  rw [ensure_ok] at hvalid
  rw [ensure_ok, decide_eq_true_eq] at hinside hcovered
  rw [hhead, read_take] at hvalid hinside hcovered hcrc hchunks hfid
  have hsize := @size_le_totalLen (read (stream.bytes.drop pos))
  have hcomplete : (read (stream.bytes.drop pos)).Complete stream pos :=
    ⟨hinside, hcovered, name_le _⟩
  rw [← crcTo_size, ← nameTo_size] at hchunks
  obtain ⟨hresult, hpadded⟩ := chunks_ok hcomplete (by decide) hsize hchunks
  obtain ⟨rfl, rfl⟩ := Prod.mk.inj hresult
  rw [crcTo_totalLen hcovered] at hcrc
  rw [nameTo_totalLen] at hfid
  rw [← Except.ok.inj hfid]
  exact if_pos ⟨hsize.trans hcomplete.length, hvalid, hcomplete.length, hcovered, hcrc,
    padded_size.mp hpadded⟩

theorem fidAt_complete (h : wholeFid stream.bytes (stream.location pos) pos = some fid)
    (hread : Readable stream pos fid.next) : fidAt stream pos = .ok fid := by
  rw [wholeFid] at h
  simp only at h
  split at h
  · rename_i hchecks
    obtain ⟨-, hvalid, hinside, hcovered, hcrc, hpadded⟩ := hchecks
    have hfid := Option.some.inj h
    have hnext : fid.next = pos + (read (stream.bytes.drop pos)).totalLen := by rw [← hfid]
    have hsize := @size_le_totalLen (read (stream.bytes.drop pos))
    rw [hnext] at hread
    have hpos : pos + (read (stream.bytes.drop pos)).totalLen ≤ stream.bytes.length := by
      rw [length_drop] at hinside
      rw [size] at hsize
      omega
    have hcomplete : (read (stream.bytes.drop pos)).Complete stream pos :=
      ⟨hpos, hcovered, name_le _⟩
    obtain ⟨head, hheadOk⟩ := hread pos size (le_refl _) (Nat.add_le_add_left hsize pos)
    have hhead := stream.read_ok _ _ _ hheadOk
    have hlength : head.length = size := by
      rw [hhead, length_take_of_le (hsize.trans hinside)]
    have hchunks := ok_chunks hcomplete (by decide) hsize hread (padded_size.mpr hpadded)
    rw [crcTo_size, nameTo_size, ← hhead] at hchunks
    rw [← crcTo_totalLen hcovered] at hcrc
    rw [fidAt]
    refine except_bind_ok.mpr ⟨head, hheadOk,
      except_bind_ok.mpr ⟨(), ensure_of_true _ (beq_iff_eq.mpr hlength), ?_⟩⟩
    rw [show read head = read (stream.bytes.drop pos) by rw [hhead, read_take]]
    refine except_bind_ok.mpr ⟨(), ensure_of_true _ hvalid, except_bind_ok.mpr ⟨(),
      ensure_of_true _ (decide_eq_true hpos), except_bind_ok.mpr ⟨(),
        ensure_of_true _ (decide_eq_true hcovered), except_bind_ok.mpr ⟨_, hchunks,
          except_bind_ok.mpr ⟨(), ensure_of_true _ (beq_iff_eq.mpr hcrc), ?_⟩⟩⟩⟩⟩
    rw [nameTo_totalLen]
    exact congrArg Except.ok hfid
  · cases h

/-- A file identifier is accepted in pieces exactly when the complete descriptor is, and
with the same fields; unread bytes, which are neither covered nor wanted, do not matter. -/
theorem fidAt_iff (stream : Stream) (pos : Nat) (fid : Fid) :
    (fidAt stream pos = .ok fid → wholeFid stream.bytes (stream.location pos) pos = some fid) ∧
      (Readable stream pos fid.next → (fidAt stream pos = .ok fid ↔
        wholeFid stream.bytes (stream.location pos) pos = some fid)) :=
  ⟨fidAt_sound, fun hread => ⟨fidAt_sound, fun h => fidAt_complete h hread⟩⟩

def Stream.ofBytes (bytes : List UInt8) (location : Nat → Option Nat) : Stream where
  bytes := bytes
  location := location
  read at_ len := .ok ((bytes.drop at_).take len)
  read_ok _ _ _ h := (Except.ok.inj h).symm

def sampleBytes : List UInt8 :=
  [1, 1, 2, 0, 135, 0, 1, 0, 55, 48, 22, 0, 5, 0, 0, 0, 1, 0, 0, 2,
    0, 8, 0, 0, 7, 0, 0, 0, 0, 0, 0, 0, 0, 0, 0, 0, 32, 0] ++
    replicate 32 0xEE ++ [8, 97]

def sampleFid : Fid := ⟨0, ⟨0, 7⟩, [8, 97] ++ replicate 253 0, 2, 72⟩

theorem fidAt_iff_sample : fidAt (.ofBytes sampleBytes fun _ => some 5) 0 = .ok sampleFid ∧
    wholeFid sampleBytes (some 5) 0 = some sampleFid := by
  have hwhole : wholeFid sampleBytes (some 5) 0 = some sampleFid := by decide +kernel
  have hiff := (fidAt_iff (.ofBytes sampleBytes fun _ => some 5) 0 sampleFid).2
    fun _ _ _ _ => ⟨_, rfl⟩
  exact ⟨hiff.mpr hwhole, hwhole⟩

end

end Hadris.Udf
