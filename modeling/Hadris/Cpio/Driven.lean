import Hadris.Cpio.ReadBack
import Hadris.Cpio.Reader

namespace Hadris.Cpio

open List
open Prog (Triple)

/-- What a caller learns of an entry. -/
structure Found where
  path : List UInt8
  header : Header
  dataOffset : Nat
deriving DecidableEq, Repr

/-- A part of the stream: an entry with its padding, or a trailer and the zeros after it. -/
structure Piece where
  start : Nat
  stop : Nat
  entry : Option Found
deriving DecidableEq, Repr

/-- What a caller saw, and how reading ended: after how many bytes, or with which error. -/
structure Outcome where
  pieces : List Piece
  result : Option (Except Error Nat)

def Outcome.after (out : Outcome) (piece : Piece) : Outcome :=
  { out with pieces := piece :: out.pieces }

namespace CpioReader

def piece (r : CpioReader) : Piece where
  start := r.headerOffset
  stop := r.dataOffset + r.header.len + dataPadding r.header.format r.header.len
  entry := some ⟨r.path, r.header, r.dataOffset⟩

def tail (r next : CpioReader) : Piece where
  start := if r.state = .trailer then r.headerOffset else r.offset
  stop := next.offset - next.pending.toList.length
  entry := none

end CpioReader

namespace ShortReader

def reads : List Nat → Prog ShortReader Error Unit
  | [] => pure ()
  | want :: rest => do
    let _ ← read want
    reads rest

/-- A caller that reads `wants i` bytes of entry `i` before it asks for the next, and goes on with
up to `more` segments. -/
def drive (wants : Nat → List Nat) : Nat → Nat → Nat → ShortReader → Outcome
  | 0, _, _, _ => ⟨[], none⟩
  | fuel + 1, more, i, s =>
    match nextEntry.run s with
    | (.error e, _) => ⟨[], some (.error e)⟩
    | (.ok true, s) =>
      match (reads (wants i)).run s with
      | (.error e, _) => ⟨[s.reader.piece], some (.error e)⟩
      | (.ok (), t) => (drive wants fuel more (i + 1) t).after s.reader.piece
    | (.ok false, s) =>
      match more with
      | 0 => ⟨[s.reader.tail s.reader], some (.ok s.reader.offset)⟩
      | more + 1 =>
        match nextSegment.run s with
        | (.error e, _) => ⟨[s.reader.tail s.reader], some (.error e)⟩
        | (.ok false, t) => ⟨[s.reader.tail t.reader], some (.ok t.reader.offset)⟩
        | (.ok true, t) => (drive wants fuel more i t).after (s.reader.tail t.reader)

end ShortReader

namespace CpioReader

def walk : Nat → Nat → CpioReader → Outcome
  | 0, _, _ => ⟨[], none⟩
  | fuel + 1, more, r =>
    match nextEntry.run r with
    | (.error e, _) => ⟨[], some (.error e)⟩
    | (.ok true, r) => (walk fuel more r).after r.piece
    | (.ok false, r) =>
      match more with
      | 0 => ⟨[r.tail r], some (.ok r.offset)⟩
      | more + 1 =>
        match nextSegment.run r with
        | (.error e, _) => ⟨[r.tail r], some (.error e)⟩
        | (.ok false, t) => ⟨[r.tail t], some (.ok t.offset)⟩
        | (.ok true, t) => (walk fuel more t).after (r.tail t)

def drained (r : CpioReader) : Except Error CpioReader :=
  if r.input.length < r.remaining then .error Detail.truncated.corrupt
  else if r.sum.any (fun sum => checksum sum (r.input.take r.remaining) ≠ r.header.check)
    then .error Detail.checksum.corrupt
  else if r.input.length < r.remaining + r.padding then .error Detail.truncated.corrupt
  else if ((r.input.drop r.remaining).take r.padding).any (· ≠ 0)
    then .error Detail.padding.corrupt
  else .ok { r with
    input := r.input.drop (r.remaining + r.padding)
    offset := r.offset + r.remaining + r.padding
    remaining := 0
    sum := none
    padding := 0 }

theorem checksum_append (sum : UInt32) (a b : List UInt8) :
    checksum sum (a ++ b) = checksum (checksum sum a) b :=
  foldl_append

def counted (r : CpioReader) (data back : List UInt8) : CpioReader :=
  { r.past data back with
    remaining := r.remaining - data.length
    sum := r.sum.map (checksum · data) }

theorem drained_counted {r : CpioReader} {data back : List UInt8}
    (hinput : r.input = data ++ back)
    (hlen : data.length ≤ r.remaining) : drained (r.counted data back) = drained r := by
  have htotal : r.input.length = data.length + back.length := by rw [hinput, length_append]
  have htake : r.input.take r.remaining = data ++ back.take (r.remaining - data.length) := by
    rw [hinput, take_append, take_of_length_le hlen]
  have hdrop : ∀ n, r.remaining ≤ n → r.input.drop n = back.drop (n - data.length) := by
    intro n hn
    rw [hinput, drop_append, drop_of_length_le (hlen.trans hn), nil_append]
  have hsum : (r.counted data back).sum.any
      (fun sum => checksum sum (back.take (r.remaining - data.length)) ≠ r.header.check) =
        r.sum.any (fun sum => checksum sum (r.input.take r.remaining) ≠ r.header.check) := by
    rw [counted, Option.any_map, htake]
    simp only [checksum_append]
  have hshort : back.length < r.remaining - data.length ↔ r.input.length < r.remaining := by omega
  have hpad : back.length < r.remaining - data.length + r.padding ↔
    r.input.length < r.remaining + r.padding := by omega
  have hsub : r.remaining + r.padding - data.length = r.remaining - data.length + r.padding :=
    Nat.sub_add_comm hlen
  have hoffset : r.offset + data.length + (r.remaining - data.length) = r.offset +
    r.remaining := by omega
  simp only [drained, hdrop _ le_rfl,
    hdrop _ (Nat.le_add_right _ r.padding), ← hsum, ← hshort, ← hpad, hsub, ← hoffset]
  rfl

theorem drained_verified {r : CpioReader} (hremaining : r.remaining = 0) :
    Triple (fun s => s = r) verify
    (fun _ s => s = { r with sum := none } ∧ drained s = drained r)
    (fun e s => drained r = .error e ∧ s.remaining = 0) := by
  rintro s rfl
  have hnone : ¬ s.input.length < s.remaining := by
    rw [hremaining]
    exact Nat.not_lt_zero _
  rw [verify, Prog.run_bind_ok (a := s) (t := s) rfl, Prog.run_bind_ok (a := ())
    (t := { s with sum := none }) rfl]
  by_cases hsum : s.sum.any (· ≠ s.header.check) = true
  · have herror : drained s = .error Detail.checksum.corrupt := by
      rw [drained, if_neg hnone, hremaining, take_zero]
      exact if_pos hsum
    rw [if_pos hsum]
    exact ⟨herror, hremaining⟩
  · rw [if_neg hsum]
    refine ⟨rfl, ?_⟩
    simp only [drained, hremaining, take_zero]
    rw [if_neg (c := (s.sum.any fun sum => decide (checksum sum [] ≠ s.header.check)) = true)
      hsum]
    rfl

theorem drained_account {r : CpioReader} {data back : List UInt8}
    (hinput : r.input = data ++ back)
    (hlen : data.length ≤ r.remaining) : Triple (fun s => s = r.past data back) (account data)
      (fun _ s => drained s = drained r ∧ s.remaining = r.remaining - data.length ∧
        s.state = r.state ∧
        (s.remaining = 0 → s.sum = none))
      (fun e s => drained r = .error e ∧ s.remaining = 0) := by
  refine Triple.bind (Q := fun _ s => s = r.counted data back) (Triple.modify ?_) fun _ => ?_
  · rintro s rfl
    rfl
  refine Triple.bind (Q := fun remaining s => remaining = r.remaining - data.length ∧
    s = r.counted data back)
    (Triple.gets ?_) fun remaining => Triple.assume ?_
  · rintro s rfl
    exact ⟨rfl, rfl⟩
  rintro rfl
  refine Triple.ite (fun hzero => ?_) fun hmore => Triple.pure ?_
  · refine (drained_verified (r := r.counted data back) hzero).conseq
      (fun _ h => h) ?_ fun e s he => ?_
    · rintro - s ⟨rfl, hsame⟩
      exact ⟨hsame.trans (drained_counted hinput hlen), rfl, rfl, fun _ => rfl⟩
    · rw [← drained_counted hinput hlen]
      exact he
  · rintro s rfl
    exact ⟨drained_counted hinput hlen, rfl, rfl, fun hzero => absurd hzero hmore⟩

theorem fill_triple (r : CpioReader) (n : Nat) : Triple (fun s => s = r) (fill n)
    (fun data s => n ≤ r.input.length ∧ data = r.input.take n ∧ s = r.past data (r.input.drop n))
    (fun e _ => r.input.length < n ∧ e = Detail.truncated.corrupt) := by
  rintro s rfl
  by_cases hshort : s.input.length < n
  · rw [fill, Prog.run_bind_ok (a := s.input) (t := s) rfl, if_pos hshort]
    exact ⟨hshort, rfl⟩
  · rw [not_lt] at hshort
    have hfill := run_fill (r := s) (take_append_drop n s.input).symm
    rw [length_take, Nat.min_eq_left hshort] at hfill
    rw [hfill]
    exact ⟨hshort, rfl, rfl⟩

/-- What skipping and reading keep: what comes of the entry. -/
structure Draining (d : Except Error CpioReader) (s : CpioReader) : Prop where
  drained : drained s = d
  state : s.state = .entries

theorem draining_account {d : Except Error CpioReader} {r : CpioReader}
    (hr : Draining d r) {n : Nat} (hle : n ≤ r.input.length) (hn : n ≤ r.remaining) :
    Triple (fun s => s = r.past (r.input.take n) (r.input.drop n)) (account (r.input.take n))
      (fun _ s => Draining d s ∧ s.remaining = r.remaining - n ∧ (s.remaining = 0 → s.sum = none))
        (fun e s => d = .error e ∧ s.remaining = 0) := by
  have hlength : (r.input.take n).length = n := by rw [length_take, Nat.min_eq_left hle]
  have haccount := drained_account (r := r) (take_append_drop n r.input).symm
    (hlength.trans_le hn)
  refine haccount.conseq (fun _ h => h) ?_ fun e s he => ⟨hr.drained.symm.trans he.1, he.2⟩
  rintro - s ⟨hdrained, hremaining, hstate, hsum⟩
  rw [hlength] at hremaining
  exact ⟨⟨hdrained.trans hr.drained, hstate.trans hr.state⟩, hremaining, hsum⟩

theorem draining_skipData {d : Except Error CpioReader} (fuel : Nat) :
    Triple (fun s => Draining d s ∧ s.remaining ≤ fuel) (skipData fuel)
      (fun _ s => Draining d s ∧ s.remaining = 0)
      (fun e _ => d = .error e) := by
  induction fuel with
  | zero => exact Triple.pure fun s hs => ⟨hs.1, Nat.le_zero.mp hs.2⟩
  | succ fuel ih =>
    refine Triple.of_forall fun r hr => ?_
    refine Triple.bind (Q := fun remaining s => remaining = r.remaining ∧ s = r)
      (Triple.gets ?_) fun remaining =>
      Triple.assume ?_
    · rintro s rfl
      exact ⟨rfl, rfl⟩
    rintro rfl
    refine Triple.ite (fun hmore => ?_) fun hnone => Triple.pure ?_
    · have hmin := Nat.min_le_left r.remaining 512
      have hpos : 0 < Nat.min r.remaining 512 := Nat.lt_min.mpr ⟨hmore, by decide⟩
      refine Triple.bind ((fill_triple r (Nat.min r.remaining 512)).weaken (fun _ _ h => h) ?_)
        fun data =>
        Triple.assume fun hle => Triple.assume ?_
      · rintro e - ⟨hshort, rfl⟩
        rw [← hr.1.drained, CpioReader.drained, if_pos (hshort.trans_le hmin)]
      rintro rfl
      refine Triple.bind ((draining_account hr.1 hle hmin).weaken (fun _ _ h => h) fun _ _ he =>
        he.1) fun _ => ih.pre ?_
      rintro s ⟨hs, hremaining, -⟩
      refine ⟨hs, ?_⟩
      rw [hremaining]
      omega
    · rintro s rfl
      exact ⟨hr.1, Nat.eq_zero_of_not_pos hnone⟩

theorem finishEntry_triple {d : Except Error CpioReader} :
    Triple (Draining d) finishEntry (fun _ s => d = .ok s) (fun e _ => d = .error e) := by
  refine Triple.of_forall fun r hr => ?_
  refine Triple.bind (Q := fun remaining s => remaining = r.remaining ∧ s = r)
    (Triple.gets ?_) fun remaining =>
    Triple.assume ?_
  · rintro s rfl
    exact ⟨rfl, rfl⟩
  rintro rfl
  refine Triple.bind ((draining_skipData (d := d) r.remaining).pre ?_) fun _ => ?_
  · rintro s rfl
    exact ⟨hr, le_rfl⟩
  refine Triple.of_forall fun s ⟨hs, hzero⟩ => ?_
  refine Triple.bind ((drained_verified hzero).weaken (fun _ _ h => h) fun e _ he =>
    hs.drained.symm.trans he.1) fun _ => ?_
  refine Triple.pre (P := fun t => drained { s with sum := none } = d ∧
    t = { s with sum := none })
    (Triple.assume fun hdrained => ?_) ?_
  · refine Triple.bind (Q := fun padding t => padding = s.padding ∧ t = { s with sum := none })
      (Triple.gets ?_)
      fun padding => Triple.assume ?_
    · rintro t rfl
      exact ⟨rfl, rfl⟩
    rintro rfl
    refine Triple.bind (Q := fun _ t => t = { s with sum := none, padding := 0 })
      (Triple.modify ?_) fun _ => ?_
    · rintro t rfl
      rfl
    simp only [CpioReader.drained, hzero, Nat.not_lt_zero, if_false, Option.any_none,
      Bool.false_eq_true, Nat.zero_add, drop_zero, Nat.add_zero] at hdrained
    refine Triple.bind ((fill_triple _ s.padding).weaken (fun _ _ h => h) ?_) fun data =>
      Triple.assume fun hle =>
      Triple.assume ?_
    · rintro e - ⟨hshort, rfl⟩
      rw [← hdrained, if_pos hshort]
    rintro rfl
    rw [if_neg (not_lt.mpr hle)] at hdrained
    refine Triple.ite (fun hnonzero => Triple.fail fun t _ => ?_) fun hzeros => Triple.pure ?_
    · rw [← hdrained, if_pos hnonzero]
    · rintro t rfl
      rw [if_neg hzeros] at hdrained
      have hlength : (s.input.take s.padding).length =
        s.padding := by rw [length_take, Nat.min_eq_left hle]
      simp only [← hdrained, past, hlength, hzero]
  · rintro t ⟨rfl, hsame⟩
    exact ⟨hsame.trans hs.drained, rfl⟩

/-- A sum is kept until all data was counted. -/
def Summing (r : CpioReader) : Prop := r.remaining = 0 → r.sum = none

theorem draining_readData {d : Except Error CpioReader} (want : Nat) :
    Triple (fun s => Draining d s ∧ s.Summing) (readData want)
    (fun _ s => Draining d s ∧ s.Summing)
    (fun e s => d = .error e ∧ (e = Detail.checksum.corrupt → s.remaining = 0)) := by
  refine Triple.of_forall fun r hr => ?_
  refine Triple.bind (Q := fun a s => a = r ∧ s = r) (Triple.gets ?_) fun a => Triple.assume ?_
  · rintro s rfl
    exact ⟨rfl, rfl⟩
  rintro rfl
  refine Triple.ite (fun _ => Triple.pure ?_) fun hmore => ?_
  · rintro s rfl
    exact hr
  rw [not_or] at hmore
  have hmin := Nat.min_le_left a.remaining want
  have hpos : 0 < Nat.min a.remaining want :=
    Nat.lt_min.mpr ⟨Nat.pos_of_ne_zero hmore.1, Nat.pos_of_ne_zero hmore.2⟩
  refine Triple.ite (fun hempty => Triple.fail ?_) fun hdata => ?_
  · rintro s -
    have hinput : a.input = [] := by
      rcases take_eq_nil_iff.mp hempty with hzero | hinput
      · exact absurd hzero hpos.ne'
      · exact hinput
    refine ⟨?_, (by intros; contradiction)⟩
    rw [← hr.1.drained, drained, hinput]
    exact if_pos (Nat.pos_of_ne_zero hmore.1)
  · have hlength : (a.input.take (Nat.min a.remaining want)).length ≤ Nat.min a.remaining want :=
      length_take_le _ _
    have htake : a.input.take (a.input.take (Nat.min a.remaining want)).length = a.input.take
        (Nat.min a.remaining want) := by
      rw [length_take, take_eq_take_iff, Nat.min_assoc, Nat.min_self]
    have haccount := draining_account hr.1 (length_take_le' _ _) (hlength.trans hmin)
    rw [htake] at haccount
    refine Triple.bind (Q := fun _ s => s = a.past (a.input.take (Nat.min a.remaining want))
      (a.input.drop (a.input.take (Nat.min a.remaining want)).length))
        (Triple.modify ?_) fun _ => ?_
    · rintro s rfl
      rfl
    exact Triple.bind (haccount.weaken (fun _ _ h => ⟨h.1, h.2.2⟩) fun _ _ he =>
      ⟨he.1, fun _ => he.2⟩) fun _ =>
      Triple.pure fun _ h => h

/-- The end of the bytes of an entry, or of a header, is at byte `at_` of `whole`. -/
structure Reading (whole : List UInt8) (at_ start : Nat) (r : CpioReader) : Prop where
  state : r.state = .entries
  pending : r.pending = none
  remaining : r.remaining = 0
  padding : r.padding = 0
  sum : r.sum = none
  offset : r.offset = at_
  input : r.input = whole.drop at_
  le : at_ ≤ whole.length
  headerOffset : r.headerOffset = start

section

variable {whole : List UInt8} {at_ start : Nat}

/-- An error other than that of a checksum. -/
def NotChecksum (e : Error) (_ : CpioReader) : Prop := e ≠ Detail.checksum.corrupt

theorem reading_fill (n : Nat) : Triple (Reading whole at_ start) (fill n)
    (fun data r => (data = (whole.drop at_).take n ∧ data.length = n) ∧
      Reading whole (at_ + n) start r) NotChecksum := by
  refine Triple.of_forall fun r hr => (fill_triple r n).conseq (fun _ h => h) ?_ ?_
  · rintro data s ⟨hle, rfl, rfl⟩
    have hlength : (r.input.take n).length = n := by rw [length_take, Nat.min_eq_left hle]
    rw [hr.input] at hle
    rw [length_drop] at hle
    have hat := hr.le
    exact ⟨⟨congrArg (List.take n) hr.input, hlength⟩, {
      state := hr.state
      pending := hr.pending
      remaining := hr.remaining
      padding := hr.padding
      sum := hr.sum
      offset := by rw [past, hlength, hr.offset]
      input := by rw [past, hr.input, drop_drop]
      le := by omega
      headerOffset := hr.headerOffset }⟩
  · rintro e s ⟨-, rfl⟩
    exact (by decide : Detail.truncated.corrupt ≠ Detail.checksum.corrupt)

theorem ensure_triple {P : CpioReader → Prop} (ok : Bool) (error : Error) :
    Triple P (ensure ok error) (fun _ r => ok = true ∧ P r)
      (fun e _ => ok = false ∧ e = error) := by
  cases ok with
  | false => exact Triple.fail fun _ _ => ⟨rfl, rfl⟩
  | true => exact Triple.pure fun _ h => ⟨rfl, h⟩

theorem reading_ensure (ok : Bool) {error : Error} (herror : error ≠ Detail.checksum.corrupt) :
    Triple (Reading whole at_ start) (ensure ok error)
      (fun _ => Reading whole at_ start) NotChecksum :=
  (ensure_triple ok error).weaken (fun _ _ h => h.2) fun _ _ he => he.2 ▸ herror

theorem reading_orFail {α : Type} (a : Option α) {error : Error}
    (herror : error ≠ Detail.checksum.corrupt) :
    Triple (Reading whole at_ start) (orFail error a)
      (fun r s => a = some r ∧ Reading whole at_ start s) NotChecksum := by
  cases a with
  | none => exact Triple.fail fun _ _ => herror
  | some a => exact Triple.pure fun _ h => ⟨rfl, h⟩

theorem reading_skipPadding (len : Nat) : Triple (Reading whole at_ start) (skipPadding len)
    (fun _ => Reading whole (at_ + len) start) NotChecksum := by
  refine Triple.bind (reading_fill len) fun pad => Triple.assume fun _ => ?_
  exact Triple.ite
    (fun _ => Triple.fail fun _ _ =>
      (by decide : Detail.padding.corrupt ≠ Detail.checksum.corrupt)) fun _ =>
      Triple.pure fun _ h => h

theorem decode_format {format : Format} {bytes : List UInt8} {header : Header}
    (h : decode format bytes = some header) :
    header.format = format := by
  cases format <;>
  · obtain ⟨fields, -, rfl⟩ := Option.map_eq_some_iff.mp h
    rfl

theorem six_le_headerLen (format : Format) : 6 ≤ headerLen format := by cases format <;> decide

/-- The header of `header`'s format that is at byte `start` of `whole`. -/
def HeaderAt (whole : List UInt8) (start : Nat) (header : Header) : Prop :=
  decode header.format ((whole.drop start).take (headerLen header.format)) = some header

theorem reading_readHeader {first : UInt8} (atStart : Bool)
    (hfirst : whole.drop start = first :: whole.drop (start + 1)) :
    Triple (Reading whole (start + 1) start) (readHeader first atStart)
      (fun header r => HeaderAt whole start header ∧
        Reading whole (start + headerLen header.format) start r) NotChecksum := by
  refine Triple.bind (reading_fill 5) fun bytes => Triple.assume fun hbytes => ?_
  refine Triple.bind (reading_orFail _ ?_) fun format => Triple.assume fun _ => ?_
  · cases atStart <;> decide
  refine Triple.bind (reading_fill _) fun rest => Triple.assume fun hrest => ?_
  refine Triple.bind (reading_orFail _ (by decide)) fun header => Triple.assume fun hdecode => ?_
  have hformat := decode_format hdecode
  have hlen := Nat.add_sub_cancel' (six_le_headerLen format)
  have hwhole : first :: bytes ++ rest = (whole.drop start).take (headerLen format) := by
    rw [← hlen, take_add, hbytes.1, hrest.1, drop_drop, hfirst]
    rfl
  refine Triple.bind (reading_ensure _ (by decide)) fun _ =>
    Triple.bind (reading_ensure _ (by decide)) fun _ =>
    Triple.bind (reading_ensure _ (by decide)) fun _ => ?_
  refine Triple.bind (Q := fun _ => Reading whole (start + 1 + 5 + (headerLen format - 6)) start)
    (Triple.gets fun _ h => h)
    fun capacity => Triple.bind (reading_ensure _ (by decide)) fun _ =>
      Triple.pure fun r hr => ⟨?_, ?_⟩
  · rw [HeaderAt, hformat, ← hwhole]
    exact hdecode
  · rw [Nat.add_assoc start, Nat.add_assoc start, hlen] at hr
    rw [hformat]
    exact hr

theorem reading_readName (header : Header) : Triple (Reading whole at_ start) (readName header)
    (fun _ => Reading whole (at_ + header.namesize + namePadding header.format header.namesize)
      start) NotChecksum := by
  refine Triple.bind (reading_fill _) fun bytes => Triple.assume fun _ => ?_
  exact Triple.bind (reading_ensure _ (by decide)) fun _ =>
    Triple.bind (reading_skipPadding _) fun _ => Triple.pure fun _ h => h

/-- The reader is done with what comes before byte `start` of `whole`, and may have
peeked at the byte there. -/
structure Ready (whole : List UInt8) (start : Nat) (r : CpioReader) : Prop where
  state : r.state = .entries
  remaining : r.remaining = 0
  padding : r.padding = 0
  sum : r.sum = none
  bytes : r.pending.toList ++ r.input = whole.drop start
  place : start + r.pending.toList.length = r.offset
  le : r.offset ≤ whole.length

def dataStart (start : Nat) (header : Header) : Nat :=
  start + headerLen header.format + header.namesize + namePadding header.format header.namesize

/-- The whole stream was read. -/
structure AtEnd (whole : List UInt8) (r : CpioReader) : Prop where
  state : r.state = .done
  pending : r.pending = none
  offset : r.offset = whole.length

theorem ready_firstByte : Triple (Ready whole start) firstByte
    (fun first r => (first = none ∧ start = whole.length ∧ r.pending = none ∧
      r.offset = whole.length) ∨
      ∃ byte, first = some byte ∧ whole.drop start = byte :: whole.drop (start + 1) ∧
        r.offset - 1 = start ∧
        Reading whole (start + 1) r.headerOffset r) NotChecksum := by
  intro r hr
  have hbytes := hr.bytes
  have hplace := hr.place
  have hle := hr.le
  rw [firstByte, Prog.run_bind_ok (a := r) (t := r) rfl]
  have hlt : ∀ {byte : UInt8} {rest : List UInt8}, byte :: rest = whole.drop start →
      start < whole.length ∧ rest = whole.drop (start + 1) := by
    intro byte rest h
    constructor
    · by_contra hge
      rw [drop_of_length_le (not_lt.mp hge)] at h
      cases h
    · rw [← drop_drop, ← h]
      rfl
  rcases hpending : r.pending with _ | byte
  · rw [hpending] at hbytes hplace
    simp only [Option.toList_none, length_nil, Nat.add_zero, nil_append] at hplace hbytes
    rcases hinput : r.input with _ | ⟨byte, rest⟩
    · rw [hinput] at hbytes
      have hend := drop_eq_nil_iff.mp hbytes.symm
      exact .inl ⟨rfl, by omega, hpending, by omega⟩
    · rw [hinput] at hbytes
      obtain ⟨hin, hrest⟩ := hlt hbytes
      refine .inr ⟨byte, rfl, hrest ▸ hbytes.symm, ?_, ?_⟩
      · exact hplace.symm
      · exact {
          state := hr.state
          pending := hpending
          remaining := hr.remaining
          padding := hr.padding
          sum := hr.sum
          offset := congrArg Nat.succ hplace.symm
          input := hrest
          le := hin
          headerOffset := rfl }
  · rw [hpending] at hbytes hplace
    obtain ⟨hin, hrest⟩ := hlt hbytes
    refine .inr ⟨byte, rfl, hrest ▸ hbytes.symm, ?_, ?_⟩
    · exact Nat.sub_eq_of_eq_add hplace.symm
    · exact {
        state := hr.state
        pending := rfl
        remaining := hr.remaining
        padding := hr.padding
        sum := hr.sum
        offset := hplace.symm
        input := hrest
        le := hin
        headerOffset := rfl }

theorem ready_front : Triple (Ready whole start) front
    (fun found r => (found = none ∧ start = whole.length ∧ AtEnd whole r) ∨
      ∃ header name, found = some (header, name) ∧ HeaderAt whole start header ∧
        Reading whole (dataStart start header) start r)
    NotChecksum := by
  refine Triple.bind (Q := fun _ => Ready whole start) (Triple.gets fun _ h => h) fun offset => ?_
  refine Triple.bind ready_firstByte fun first => ?_
  cases first with
  | none =>
    refine Triple.pre (P := fun r => start = whole.length ∧ r.pending = none ∧
      r.offset = whole.length) ?_ ?_
    · refine Triple.bind (Q := fun _ r => start = whole.length ∧ r.pending = none ∧
        r.offset = whole.length)
        (Triple.gets fun _ h => h) fun strict =>
          Triple.ite (fun _ => Triple.fail fun _ _ =>
            (by decide : Detail.trailer.corrupt ≠ Detail.checksum.corrupt)) fun _ => ?_
      refine Triple.bind (Q := fun _ r => start = whole.length ∧ AtEnd whole r)
        (Triple.modify ?_) fun _ =>
        Triple.pure fun r hr => .inl ⟨rfl, hr.1, hr.2⟩
      exact fun r hr => ⟨hr.1, rfl, hr.2.1, hr.2.2⟩
    · rintro r (⟨-, h⟩ | ⟨byte, hbyte, -⟩)
      · exact h
      · cases hbyte
  | some first =>
    refine Triple.pre (P := fun r => whole.drop start = first :: whole.drop (start + 1) ∧
      (r.offset - 1 = start ∧
      Reading whole (start + 1) r.headerOffset r)) (Triple.assume fun hfirst => ?_) ?_
    · refine Triple.bind (Q := fun _ => Reading whole (start + 1) start)
        (Triple.modify ?_) fun _ => ?_
      · rintro r ⟨hoffset, hr⟩
        exact { hr with headerOffset := hoffset }
      refine Triple.bind (reading_readHeader _ hfirst) fun header =>
        Triple.assume fun hheader => ?_
      exact Triple.bind (reading_readName header) fun name => Triple.pure fun r hr =>
        .inr ⟨header, name, rfl, hheader, hr⟩
    · rintro r (⟨hnone, -⟩ | ⟨byte, hbyte, h⟩)
      · cases hnone
      · cases hbyte
        exact h

/-- The sum of an entry's data is checked. -/
def Summed (header : Header) : Prop := header.format = .crc ∧ header.mode &&& sIfmt = sIfreg

instance (header : Header) : Decidable (Summed header) := inferInstanceAs (Decidable (_ ∧ _))

/-- The reader is at the data of the entry whose header is at byte `start` of `whole`. -/
structure Opened (whole : List UInt8) (start : Nat) (r : CpioReader) : Prop where
  state : r.state = .entries
  pending : r.pending = none
  headerOffset : r.headerOffset = start
  dataOffset : r.dataOffset = dataStart start r.header
  offset : r.offset = r.dataOffset
  input : r.input = whole.drop r.offset
  le : r.offset ≤ whole.length
  remaining : r.remaining = r.header.len
  padding : r.padding = dataPadding r.header.format r.header.len
  sum : r.sum = if Summed r.header ∧ r.header.len ≠ 0 then some 0 else none
  check : Summed r.header → r.header.len = 0 → r.header.check = 0

/-- The reader is after the trailer whose header is at byte `start` of `whole`. -/
structure Ended (whole : List UInt8) (start : Nat) (r : CpioReader) : Prop where
  state : r.state = .trailer
  reading : ∃ at_, start < at_ ∧ Reading whole at_ start { r with state := .entries }

def entered (r : CpioReader) (header : Header) (name : List UInt8) : CpioReader :=
  { r with
    dataOffset := r.offset
    path := name
    header := header
    remaining := header.len
    padding := dataPadding header.format header.len
    sum := if Summed header then some 0 else none }

theorem opened_entered {r : CpioReader} {header : Header} (name : List UInt8)
    (hr : Reading whole (dataStart start header) start r)
    {sum : Option UInt32} (hsum : sum = if Summed header ∧ header.len ≠ 0 then some 0 else none)
    (hcheck : Summed header → header.len = 0 → header.check = 0) :
    Opened whole start { r.entered header name with sum := sum } where
  state := hr.state
  pending := hr.pending
  headerOffset := hr.headerOffset
  dataOffset := hr.offset
  offset := rfl
  input := by
    have hinput := hr.input
    rw [← hr.offset] at hinput
    exact hinput
  le := hr.offset.trans_le hr.le
  remaining := rfl
  padding := rfl
  sum := hsum
  check := hcheck

theorem reading_enter {header : Header} (name : List UInt8) :
    Triple (Reading whole (dataStart start header) start) (enter header name)
    (fun found r => (found = true ∧ Opened whole start r ∧ r.header = header) ∨ found = false ∧
      Ended whole start r)
    (fun e _ => e = Detail.checksum.corrupt → header.format = .crc ∧ header.len = 0 ∧
      header.check ≠ 0) := by
  rw [enter]
  refine Triple.ite (fun _ => ?_) fun _ => ?_
  · refine Triple.bind ((ensure_triple _ _).weaken (fun _ _ h => h) ?_) fun _ =>
      Triple.assume fun hlen => ?_
    · rintro e r ⟨-, rfl⟩ h
      exact absurd h (by decide)
    refine Triple.bind ((ensure_triple _ _).weaken (fun _ _ h => h) ?_) fun _ =>
      Triple.assume fun _ => ?_
    · rintro e r ⟨hcheck, -⟩ -
      rw [decide_eq_false_iff_not, not_or, not_not] at hcheck
      exact ⟨hcheck.1, of_decide_eq_true hlen, hcheck.2⟩
    refine Triple.bind (Q := fun _ => Ended whole start)
      (Triple.modify fun r hr => ⟨rfl, dataStart start header, ?_, ?_⟩) fun _ =>
      Triple.pure fun r hr => .inr ⟨rfl, hr⟩
    · have hlen := six_le_headerLen header.format
      simp only [dataStart]
      omega
    · exact { hr with state := rfl }
  · refine Triple.bind ((ensure_triple _ _).weaken (fun _ _ h => h) ?_) fun _ =>
      Triple.assume fun _ => ?_
    · rintro e r ⟨-, rfl⟩ h
      exact absurd h (by decide)
    refine Triple.of_forall fun r hr => ?_
    refine Triple.bind (Q := fun _ s => s = r.entered header name) (Triple.modify ?_) fun _ => ?_
    · rintro s rfl
      rfl
    refine Triple.ite (fun hempty => ?_) fun hlen => Triple.pure ?_
    · by_cases hbad : Summed header ∧ header.check ≠ 0
      · have hfails : (r.entered header name).sum.any (· ≠ (r.entered header name).header.check) =
            true := by
          simp only [entered, if_pos hbad.1, Option.any_some, decide_eq_true_eq]
          exact hbad.2.symm
        refine Triple.bind (Q := fun _ _ => False) ?_ fun _ => fun _ hfalse => hfalse.elim
        rintro s rfl
        rw [verify, Prog.run_bind_ok (a := r.entered header name)
          (t := r.entered header name) rfl,
          Prog.run_bind_ok (a := ()) (t := { r.entered header name with sum := none }) rfl,
            if_pos hfails]
        exact fun _ => ⟨hbad.1.1, hempty, hbad.2⟩
      · have hcheck : Summed header → header.check = 0 :=
          fun hsummed => not_not.mp fun hne => hbad ⟨hsummed, hne⟩
        have hverify := run_verify (r := r.entered header name) (by
          intro sum hsum
          simp only [entered, Option.mem_ite_none_right, Option.mem_some] at hsum
          rw [← hsum.2]
          exact (hcheck hsum.1).symm)
        rintro s rfl
        rw [Prog.run_bind_ok hverify]
        refine .inl ⟨rfl, opened_entered name hr ?_ fun hsummed _ => hcheck hsummed, rfl⟩
        rw [if_neg fun h => h.2 hempty]
    · rintro s rfl
      refine .inl ⟨rfl, opened_entered name hr ?_ fun _ hempty => absurd hempty hlen, rfl⟩
      simp only [hlen, ne_eq, not_false_eq_true, and_true]

def arrive : Prog CpioReader Error Bool := do
  let found ← front
  match found with
  | none => pure false
  | some found => enter found.1 found.2

theorem arrive_triple : Triple (Ready whole start) arrive
    (fun found r => (found = true ∧ Opened whole start r ∧ HeaderAt whole start r.header) ∨
      found = false ∧ (Ended whole start r ∨ start = whole.length ∧ AtEnd whole r))
    (fun e _ => e = Detail.checksum.corrupt →
      ∃ header, HeaderAt whole start header ∧ header.format = .crc ∧ header.len = 0 ∧
        header.check ≠ 0) := by
  refine Triple.bind (ready_front.weaken (fun _ _ h => h) fun e _ hne he => absurd he hne)
    fun found => ?_
  cases found with
  | none =>
    refine Triple.pure fun r h => .inr ⟨rfl, ?_⟩
    rcases h with ⟨-, hend⟩ | ⟨header, name, hfound, -⟩
    · exact .inr hend
    · cases hfound
  | some found =>
    obtain ⟨header, name⟩ := found
    refine Triple.pre (P := fun r => HeaderAt whole start header ∧
      Reading whole (dataStart start header) start r)
      (Triple.assume fun hheader => ?_) ?_
    · refine (reading_enter name).weaken ?_ fun e r he hchecksum =>
        ⟨header, hheader, he hchecksum⟩
      rintro found r (⟨rfl, hopened, rfl⟩ | ⟨rfl, hended⟩)
      · exact .inl ⟨rfl, hopened, hheader⟩
      · exact .inr ⟨rfl, .inl hended⟩
    · rintro r (⟨hnone, -⟩ | ⟨header', name', hfound, h⟩)
      · cases hnone
      · cases hfound
        exact h

/-- Byte `start` of `whole` follows what the reader has not finished. -/
structure Stands (whole : List UInt8) (start : Nat) (r : CpioReader) : Prop where
  state : r.state = .entries
  bytes : r.pending.toList ++ r.input = whole.drop (r.offset - r.pending.toList.length)
  place : start + r.pending.toList.length = r.offset + r.remaining + r.padding
  le : r.offset ≤ whole.length
  idle : r.pending ≠ none → r.remaining = 0 ∧ r.padding = 0

theorem Ready.stands {r : CpioReader} (h : Ready whole start r) : Stands whole start r where
  state := h.state
  bytes := by rw [h.bytes, ← h.place, Nat.add_sub_cancel]
  place := by rw [h.place, h.remaining, h.padding, Nat.add_zero]
  le := h.le
  idle _ := ⟨h.remaining, h.padding⟩

theorem Ready.drained {r : CpioReader} (h : Ready whole start r) : ∃ r', drained r = .ok r' := by
  simp only [CpioReader.drained, h.remaining, h.padding, h.sum, Nat.not_lt_zero, if_false,
    Option.any_none, drop_zero, take_zero, any_nil, Bool.false_eq_true, Nat.add_zero]
  exact ⟨_, rfl⟩

theorem Opened.stands {r : CpioReader} (h : Opened whole start r) :
    Stands whole r.piece.stop r where
  state := h.state
  bytes := by
    rw [h.pending]
    exact h.input
  place := by
    rw [h.pending, h.offset, h.remaining, h.padding]
    rfl
  le := h.le
  idle hne := absurd h.pending hne

theorem Opened.summing {r : CpioReader} (h : Opened whole start r) : r.Summing := by
  intro hzero
  rw [h.remaining] at hzero
  rw [h.sum, if_neg fun hsum => hsum.2 hzero]

theorem Stands.ready {r r' : CpioReader} (h : Stands whole start r) (hr : drained r = .ok r') :
    Ready whole start r' := by
  have hbytes := h.bytes
  have hplace := h.place
  have hle := h.le
  rw [drained] at hr
  split at hr
  · cases hr
  split at hr
  · cases hr
  split at hr
  · cases hr
  rename_i hshort
  split at hr
  · cases hr
  cases hr
  rw [not_lt] at hshort
  rcases hpending : r.pending with _ | byte
  · rw [hpending] at hbytes hplace
    simp only [Option.toList_none, length_nil, Nat.add_zero, Nat.sub_zero,
      nil_append] at hbytes hplace
    rw [hbytes, length_drop] at hshort
    exact {
      state := h.state
      remaining := rfl
      padding := rfl
      sum := rfl
      bytes := by
        simp only [Option.toList_none, nil_append, hbytes, drop_drop]
        rw [hplace, Nat.add_assoc]
      place := by
        simp only [Option.toList_none, length_nil]
        exact hplace
      le := by
        simp only
        omega }
  · obtain ⟨hremaining, hpadding⟩ := h.idle (by rw [hpending]; exact Option.some_ne_none byte)
    rw [hremaining, hpadding, Nat.add_zero] at hplace
    rw [← hplace, Nat.add_sub_cancel, hpending] at hbytes
    rw [hpending] at hplace
    exact {
      state := h.state
      remaining := rfl
      padding := rfl
      sum := rfl
      bytes := by
        simp only [hremaining, hpadding, Nat.add_zero, drop_zero]
        exact hbytes
      place := by
        simp only [hremaining, hpadding]
        exact hplace
      le := by
        simp only [hremaining, hpadding]
        exact hle }

/-- All data of an entry is there, and its sum is not the one in the header. -/
def WrongSum (whole : List UInt8) (found : Found) : Prop :=
  Summed found.header ∧ found.dataOffset + found.header.len ≤ whole.length ∧
    checksum 0 ((whole.drop found.dataOffset).take found.header.len) ≠ found.header.check

theorem Opened.wrongSum_iff {r : CpioReader} (h : Opened whole start r) :
    WrongSum whole ⟨r.path, r.header, r.dataOffset⟩ ↔
      drained r = .error Detail.checksum.corrupt := by
  have hat := h.offset
  have hinput : r.input.length = whole.length - r.dataOffset := by rw [h.input, length_drop, hat]
  have hle := h.le
  have hdata : r.input.take r.remaining =
    (whole.drop r.dataOffset).take r.header.len := by rw [h.input, h.remaining, hat]
  constructor
  · rintro ⟨hsummed, hthere, hwrong⟩
    simp only at hsummed hthere hwrong
    have hlen : r.header.len ≠ 0 := by
      intro hzero
      rw [hzero, take_zero, h.check hsummed hzero] at hwrong
      exact hwrong rfl
    rw [drained, if_neg (by rw [h.remaining]; omega), if_pos]
    rw [h.sum, if_pos ⟨hsummed, hlen⟩, Option.any_some, hdata]
    exact decide_eq_true hwrong
  · intro hdrained
    rw [drained] at hdrained
    split at hdrained
    · exact absurd (Except.error.inj hdrained) (by decide)
    rename_i hshort
    split at hdrained
    · rename_i hany
      rw [h.sum] at hany
      split at hany
      · rename_i hsummed
        rw [Option.any_some, hdata] at hany
        rw [h.remaining] at hshort
        exact ⟨hsummed.1, by simp only; omega, of_decide_eq_true hany⟩
      · cases hany
    split at hdrained
    · exact absurd (Except.error.inj hdrained) (by decide)
    split at hdrained
    · exact absurd (Except.error.inj hdrained) (by decide)
    · cases hdrained

theorem nextEntry_of_error {r : CpioReader} {e : Error} (hstate : r.state = .entries)
    (h : drained r = .error e) :
    (nextEntry.run r).1 = .error e := by
  have hfinish := finishEntry_triple (d := drained r) r ⟨rfl, hstate⟩
  have hadvance : (advance.run r).1 = .error e := by
    rw [advance, Prog.run_bind_ok (a := r.state) (t := r) rfl, if_neg (not_not.mpr hstate),
      Prog.run_bind]
    rcases hrun : finishEntry.run r with ⟨e' | ⟨⟩, t⟩ <;> rw [hrun, h] at hfinish <;>
      cases hfinish
    rfl
  rw [nextEntry_eq]
  simp only [orDone]
  rcases hrun : advance.run r with ⟨e' | found, t⟩ <;> rw [hrun] at hadvance <;> cases hadvance
  rfl

theorem nextEntry_of_ok {r r' : CpioReader} (hstate : r.state = .entries)
    (h : drained r = .ok r') :
    nextEntry.run r = (orDone arrive).run r' := by
  have hfinish := finishEntry_triple (d := drained r) r ⟨rfl, hstate⟩
  have hadvance : advance.run r = arrive.run r' := by
    rw [advance, Prog.run_bind_ok (a := r.state) (t := r) rfl, if_neg (not_not.mpr hstate),
      Prog.run_bind]
    rcases hrun : finishEntry.run r with ⟨e' | ⟨⟩, t⟩ <;> rw [hrun, h] at hfinish <;>
      cases hfinish
    rfl
  rw [nextEntry_eq]
  simp only [orDone, hadvance]

theorem nextEntry_cases {r : CpioReader} (h : Stands whole start r) :
    (∃ e, (nextEntry.run r).1 = .error e ∧
      (drained r = .error e ∨ (∃ r', drained r = .ok r') ∧ (e = Detail.checksum.corrupt →
      ∃ header, HeaderAt whole start header ∧ header.format = .crc ∧ header.len = 0 ∧
        header.check ≠ 0))) ∨
    ∃ r' found next, drained r = .ok r' ∧ nextEntry.run r = (.ok found, next) ∧
      ((found = true ∧ Opened whole start next ∧ HeaderAt whole start next.header) ∨
        found = false ∧ (Ended whole start next ∨ start = whole.length ∧ AtEnd whole next)) := by
  rcases hdrained : drained r with e | r'
  · exact .inl ⟨e, nextEntry_of_error h.state hdrained, .inl rfl⟩
  · have harrive := arrive_triple r' (h.ready hdrained)
    rw [nextEntry_of_ok h.state hdrained]
    simp only [orDone]
    rcases hrun : arrive.run r' with ⟨e | found, t⟩ <;> rw [hrun] at harrive
    · exact .inl ⟨e, rfl, .inr ⟨⟨r', rfl⟩, harrive⟩⟩
    · exact .inr ⟨r', found, t, rfl, rfl, harrive⟩

theorem skipZeros_run (fuel : Nat) {r : CpioReader} (hstate : r.state = .trailer)
    (hr : Reading whole at_ start { r with state := .entries })
    (hfuel : whole.length < at_ + fuel) :
    ∃ next, ((skipZeros fuel).run r = (.ok true, next) ∧ ∃ target, at_ ≤ target ∧
      Ready whole target next) ∨
      (skipZeros fuel).run r = (.ok false, next) ∧ AtEnd whole next := by
  induction fuel generalizing at_ r with
  | zero => exact absurd hfuel (not_lt.mpr hr.le)
  | succ fuel ih =>
    have hinput := hr.input
    have hoffset := hr.offset
    simp only at hinput hoffset
    rcases hbytes : r.input with _ | ⟨byte, rest⟩
    · have hend := drop_eq_nil_iff.mp (hinput.symm.trans hbytes)
      have hfirst : firstByte.run r = (.ok none, r) := by
        rw [firstByte, Prog.run_bind_ok (a := r) (t := r) rfl,
          (hr.pending : r.pending = none), hbytes]
        rfl
      refine ⟨{ r with state := .done }, .inr ⟨?_, rfl, hr.pending, ?_⟩⟩
      · rw [skipZeros, Prog.run_bind_ok hfirst]
        rfl
      · exact hoffset.trans (le_antisymm hr.le hend)
    · have hlt : at_ < whole.length := by
        by_contra hge
        rw [hbytes, drop_of_length_le (not_lt.mp hge)] at hinput
        cases hinput
      have hrest : rest = whole.drop (at_ + 1) := by
        rw [← drop_drop, ← hinput, hbytes]
        rfl
      rw [skipZeros, Prog.run_bind_ok (run_firstByte (r := r) hr.pending hbytes)]
      by_cases hzero : byte = 0
      · simp only [if_pos hzero]
        have hnext : Reading whole (at_ + 1) start
          { r.past [byte] rest with state := .entries } :=
          { hr with
            offset := congrArg Nat.succ hoffset
            input := hrest
            le := hlt }
        obtain ⟨next, ⟨hrun, target, htarget, hready⟩ | hrun⟩ :=
          ih (r := r.past [byte] rest) hstate hnext (by omega)
        · exact ⟨next, .inl ⟨hrun, target, (Nat.le_succ _).trans htarget, hready⟩⟩
        · exact ⟨next, .inr hrun⟩
      · simp only [if_neg hzero]
        refine ⟨{ r.past [byte] rest with pending := some byte, state := .entries },
          .inl ⟨rfl, at_, le_rfl, ?_⟩⟩
        exact {
          state := rfl
          remaining := hr.remaining
          padding := hr.padding
          sum := hr.sum
          bytes := by
            rw [← hinput, hbytes]
            rfl
          place := congrArg Nat.succ hoffset.symm
          le := by
            simp only [past, hoffset]
            exact hlt }

theorem nextSegment_of_ended {r : CpioReader} (h : Ended whole start r) :
    ∃ next, (nextSegment.run r = (.ok true, next) ∧ ∃ target, start < target ∧
      Ready whole target next) ∨
      nextSegment.run r = (.ok false, next) ∧ AtEnd whole next := by
  obtain ⟨at_, hlt, hr⟩ := h.reading
  have hinput : r.input.length = whole.length - at_ := by
    rw [(hr.input : r.input = _), length_drop]
  have hskip := skipZeros_run (r.input.length + 2) h.state hr (by omega)
  have hrun : nextSegment.run r = (skipZeros (r.input.length + 2)).run r := by
    rw [nextSegment, Prog.run_bind_ok (a := r) (t := r) rfl, if_neg (by rw [h.state]; decide),
      if_neg (not_not.mpr h.state)]
  rw [hrun]
  obtain ⟨next, ⟨hrun, target, htarget, hready⟩ | hrun⟩ := hskip
  · exact ⟨next, .inl ⟨hrun, target, hlt.trans_le htarget, hready⟩⟩
  · exact ⟨next, .inr hrun⟩

theorem nextSegment_of_atEnd {r : CpioReader} (h : AtEnd whole r) :
    nextSegment.run r = (.ok false, r) := by
  rw [nextSegment, Prog.run_bind_ok (a := r) (t := r) rfl, if_pos h.state]
  rfl

end

end CpioReader

/-- Pieces that follow each other from byte `start` to byte `stop`. -/
def TilesTo : Nat → List Piece → Nat → Prop
  | start, [], stop => start = stop
  | start, piece :: rest, stop => piece.start = start ∧ start ≤ piece.stop ∧
    TilesTo piece.stop rest stop

/-- A record without data whose checksum is not zero. -/
def WrongEmpty (whole : List UInt8) (start : Nat) : Prop :=
  ∃ header, CpioReader.HeaderAt whole start header ∧ header.format = .crc ∧
    header.len = 0 ∧ header.check ≠ 0

/-- What a caller saw of the bytes from `start` on. -/
structure Outcome.Sound (whole : List UInt8) (start : Nat) (out : Outcome) : Prop where
  ends : out.result.isSome = true
  entry : ∀ piece ∈ out.pieces, ∀ found, piece.entry = some found →
    CpioReader.HeaderAt whole piece.start found.header ∧
      found.dataOffset = CpioReader.dataStart piece.start found.header ∧
      piece.stop = found.dataOffset + found.header.len +
        dataPadding found.header.format found.header.len
  tiles : ∃ stop, TilesTo start out.pieces stop ∧
    (∀ n, out.result = some (.ok n) → n = stop ∧ n ≤ whole.length) ∧
    (out.result = some (.error Detail.checksum.corrupt) → WrongEmpty whole stop ∨
      ∃ before piece found, out.pieces = before ++ [piece] ∧ piece.entry = some found ∧
        CpioReader.WrongSum whole found)
  wrong : ∀ before piece rest found, out.pieces = before ++ piece :: rest →
    piece.entry = some found →
    CpioReader.WrongSum whole found → rest = [] ∧
      out.result = some (.error Detail.checksum.corrupt)

namespace CpioReader

variable {whole : List UInt8} {start : Nat}

theorem walk_of_error {fuel : Nat} (more : Nat) {r : CpioReader} {e : Error} (hfuel : 0 < fuel)
    (hstate : r.state = .entries)
    (h : drained r = .error e) : walk fuel more r = ⟨[], some (.error e)⟩ := by
  obtain ⟨fuel, rfl⟩ : ∃ n, fuel = n + 1 := ⟨fuel - 1, by omega⟩
  have herror := nextEntry_of_error hstate h
  rw [walk]
  rcases hrun : nextEntry.run r with ⟨e' | found, t⟩ <;> rw [hrun] at herror <;> cases herror
  rfl

theorem error_ne_ok {α β : Type} {e : α} {b : β} : Except.error e ≠ .ok b := by
  intro h
  cases h

theorem some_error_ne {α β : Type} {e : α} {b : β} : some (Except.error e) ≠ some (.ok b) :=
  fun h => error_ne_ok (Option.some.inj h)

theorem sound_error (e : Error) (h : e = Detail.checksum.corrupt → WrongEmpty whole start) :
    Outcome.Sound whole start ⟨[], some (.error e)⟩ where
  ends := rfl
  entry _ hpiece := (not_mem_nil hpiece).elim
  tiles := by
    refine ⟨start, rfl, fun _ h => absurd h some_error_ne, fun herror => .inl (h ?_)⟩
    cases herror
    rfl
  wrong before piece rest found hpieces := by cases before <;> cases hpieces

theorem sound_last {piece : Piece} {result : Except Error Nat} (hstart : piece.start = start)
    (hle : start ≤ piece.stop)
    (hentry : piece.entry = none) (hresult : ∃ n, result = .ok n ∧
      n = piece.stop ∧ n ≤ whole.length) :
    Outcome.Sound whole start ⟨[piece], some result⟩ where
  ends := rfl
  entry piece' hpiece found hfound := by
    rw [mem_singleton.mp hpiece, hentry] at hfound
    cases hfound
  tiles := by
    obtain ⟨n, rfl, hn⟩ := hresult
    refine ⟨piece.stop, ⟨hstart, hle, rfl⟩, fun m hm => ?_, fun h => absurd h.symm some_error_ne⟩
    cases hm
    exact hn
  wrong before piece' rest found hpieces hfound := by
    rcases before with _ | ⟨first, before⟩
    · obtain ⟨rfl, -⟩ := List.cons.inj hpieces
      rw [hentry] at hfound
      cases hfound
    · cases before <;> cases (List.cons.inj hpieces).2

theorem sound_failed {piece : Piece} {found : Found} {e : Error} (hstart : piece.start = start)
    (hle : start ≤ piece.stop)
    (hentry : piece.entry = some found) (hheader : HeaderAt whole piece.start found.header)
    (hdata : found.dataOffset = dataStart piece.start found.header)
    (hstop : piece.stop = found.dataOffset + found.header.len +
      dataPadding found.header.format found.header.len)
    (hwrong : WrongSum whole found ↔ e = Detail.checksum.corrupt) :
    Outcome.Sound whole start ⟨[piece], some (.error e)⟩ where
  ends := rfl
  entry piece' hpiece found' hfound := by
    rw [mem_singleton.mp hpiece, hentry] at hfound
    cases hfound
    rw [mem_singleton.mp hpiece]
    exact ⟨hheader, hdata, hstop⟩
  tiles := by
    refine ⟨piece.stop, ⟨hstart, hle, rfl⟩, fun _ h => absurd h some_error_ne,
      fun herror => .inr ?_⟩
    cases herror
    exact ⟨[], piece, found, rfl, hentry, hwrong.mpr rfl⟩
  wrong before piece' rest found' hpieces hfound hsum := by
    rcases before with _ | ⟨first, before⟩
    · obtain ⟨rfl, hrest⟩ := List.cons.inj hpieces
      rw [hentry] at hfound
      cases hfound
      exact ⟨hrest.symm, congrArg (fun e => some (Except.error e)) (hwrong.mp hsum)⟩
    · exact absurd (List.cons.inj hpieces).2
        (append_ne_nil_of_right_ne_nil _ (cons_ne_nil _ _)).symm

theorem sound_after {out : Outcome} {piece : Piece} (h : out.Sound whole piece.stop)
    (hstart : piece.start = start) (hle : start ≤ piece.stop)
    (hentry : ∀ found, piece.entry = some found → (HeaderAt whole piece.start found.header ∧
      found.dataOffset = dataStart piece.start found.header ∧
      piece.stop = found.dataOffset + found.header.len +
        dataPadding found.header.format found.header.len) ∧
      ¬ WrongSum whole found) : (out.after piece).Sound whole start where
  ends := h.ends
  entry := by
    intro piece' hpiece
    rcases mem_cons.mp hpiece with rfl | hpiece
    · exact fun found hfound => (hentry found hfound).1
    · exact h.entry piece' hpiece
  tiles := by
    obtain ⟨stop, htiles, hok, herror⟩ := h.tiles
    refine ⟨stop, ⟨hstart, hle, htiles⟩, hok, fun hresult => (herror hresult).imp_right ?_⟩
    rintro ⟨before, last, found, hpieces, hlast⟩
    exact ⟨piece :: before, last, found, congrArg (List.cons piece) hpieces, hlast⟩
  wrong := by
    intro before piece' rest found hpieces hfound hsum
    rcases before with _ | ⟨first, before⟩
    · obtain ⟨rfl, -⟩ := List.cons.inj hpieces
      exact absurd hsum (hentry found hfound).2
    · exact h.wrong before piece' rest found (List.cons.inj hpieces).2 hfound hsum

theorem tail_of_ended {r : CpioReader} (h : Ended whole start r) (next : CpioReader) {stop : Nat}
    (hstop : next.offset - next.pending.toList.length = stop) :
    r.tail next = ⟨start, stop, none⟩ := by
  obtain ⟨at_, -, hr⟩ := h.reading
  rw [tail, if_pos h.state, hstop, (hr.headerOffset : r.headerOffset = start)]

theorem tail_of_atEnd {r : CpioReader} (h : AtEnd whole r) :
    r.tail r = ⟨whole.length, whole.length, none⟩ := by
  rw [tail, if_neg (by rw [h.state]; decide), h.pending, h.offset]
  rfl

theorem walk_sound (fuel more : Nat) {r r' : CpioReader} (h : Stands whole start r)
    (hr : drained r = .ok r')
    (hfuel : whole.length < start + fuel) : (walk fuel more r).Sound whole start := by
  induction fuel generalizing more start r r' with
  | zero =>
    have hready := h.ready hr
    have hplace := hready.place
    have hle := hready.le
    omega
  | succ fuel ih =>
    have hcases := nextEntry_cases h
    rw [walk]
    rcases hrun : nextEntry.run r with ⟨e | found, next⟩ <;> rw [hrun] at hcases
    · obtain ⟨e', herror, hcase⟩ | ⟨_, found, _, -, hfound, -⟩ := hcases
      · cases herror
        refine sound_error e ?_
        rcases hcase with herror | ⟨-, hempty⟩
        · rw [hr] at herror
          cases herror
        · exact hempty
      · cases hfound
    · obtain ⟨e', herror, -⟩ | ⟨_, found, _, -, hfound, hcase⟩ := hcases
      · cases herror
      cases hfound
      rcases hcase with ⟨rfl, hopened, hheader⟩ | ⟨rfl, hended⟩
      · have hheader' := six_le_headerLen next.header.format
        have hoffset := hopened.offset
        have hle := hopened.le
        have hdata : next.dataOffset = dataStart next.piece.start next.header := by
          rw [hopened.dataOffset, piece, hopened.headerOffset]
        have hstop : start + 1 ≤ next.piece.stop := by
          have hdata := hopened.dataOffset
          simp only [dataStart] at hdata
          simp only [piece]
          omega
        have hat : HeaderAt whole next.piece.start next.header := by
          rw [piece, hopened.headerOffset]
          exact hheader
        rcases hdrained : drained next with e | r''
        · have hfuel' : 0 < fuel := by
            have hdata := hopened.dataOffset
            simp only [dataStart] at hdata
            omega
          have herror := hopened.wrongSum_iff
          rw [hdrained, Except.error.injEq] at herror
          simp only
          rw [walk_of_error more hfuel' hopened.state hdrained]
          exact sound_failed hopened.headerOffset (Nat.le_of_succ_le hstop) rfl
            hat hdata rfl herror
        · refine sound_after (ih more hopened.stands hdrained (by omega)) hopened.headerOffset
            (Nat.le_of_succ_le hstop) ?_
          rintro found ⟨⟩
          refine ⟨⟨hat, hdata, rfl⟩, fun hwrong => ?_⟩
          rw [hopened.wrongSum_iff, hdrained] at hwrong
          cases hwrong
      · rcases hended with hended | ⟨rfl, hend⟩
        · obtain ⟨at_, hlt, hreading⟩ := hended.reading
          have hpending : next.pending = none := hreading.pending
          have hoffset : next.offset = at_ := hreading.offset
          cases more with
          | zero =>
            have htail := tail_of_ended hended next (by rw [hpending])
            simp only
            rw [htail]
            exact sound_last rfl (hlt.le.trans hoffset.ge) rfl
              ⟨_, rfl, rfl, hoffset.trans_le hreading.le⟩
          | succ more =>
            obtain ⟨t, ⟨hnext, target, htarget, hready⟩ | ⟨hnext, hend⟩⟩ :=
              nextSegment_of_ended hended
            · have hstop : t.offset - t.pending.toList.length =
                target := by rw [← hready.place, Nat.add_sub_cancel]
              have htail := tail_of_ended hended t hstop
              simp only [hnext]
              rw [htail]
              obtain ⟨t', hdrained⟩ := hready.drained
              exact sound_after (ih more hready.stands hdrained (by simp only; omega)) rfl
                htarget.le (by intros; contradiction)
            · have htail := tail_of_ended hended t (by rw [hend.pending, hend.offset])
              simp only [hnext]
              rw [htail]
              exact sound_last rfl (hlt.le.trans hreading.le) rfl
                ⟨_, rfl, hend.offset, hend.offset.le⟩
        · have htail := tail_of_atEnd hend
          have hlast : ∃ n, Except.ok (ε := Error) next.offset = .ok n ∧
            n = whole.length ∧ n ≤ whole.length :=
            ⟨_, rfl, hend.offset, hend.offset.le⟩
          cases more with
          | zero =>
            simp only
            rw [htail]
            exact sound_last rfl le_rfl rfl hlast
          | succ more =>
            simp only [nextSegment_of_atEnd hend]
            rw [htail]
            exact sound_last rfl le_rfl rfl hlast

end CpioReader

namespace ShortReader

open CpioReader (Draining Summing drained)

theorem draining_read {d : Except Error CpioReader} (want : Nat) :
    Triple (fun s : ShortReader => Draining d s.reader ∧ s.reader.Summing) (read want)
      (fun _ s => Draining d s.reader ∧ s.reader.Summing)
      (fun e s => d = .error e ∧ (e = Detail.checksum.corrupt → s.reader.remaining = 0)) := by
  intro s hs
  obtain ⟨want', hresult, hreader⟩ := run_read want s
  have hread := CpioReader.draining_readData want' s.reader hs
  rw [CpioReader.read_eq] at hresult hreader
  simp only [CpioReader.orDone] at hresult hreader
  rcases hrun : (read want).run s with ⟨e | data, t⟩ <;>
    rcases hrun' : (CpioReader.readData want').run s.reader with ⟨e' | data', r⟩ <;>
      rw [hrun, hrun'] at hresult hreader <;>
    rw [hrun'] at hread <;> cases hresult
  · simp only at hreader ⊢
    rw [hreader]
    exact hread
  · simp only at hreader ⊢
    rw [hreader]
    exact hread

theorem draining_reads {d : Except Error CpioReader} (wants : List Nat) :
    Triple (fun s : ShortReader => Draining d s.reader ∧ s.reader.Summing) (reads wants)
      (fun _ s => Draining d s.reader ∧ s.reader.Summing)
      (fun e s => d = .error e ∧ (e = Detail.checksum.corrupt → s.reader.remaining = 0)) := by
  induction wants with
  | nil => exact Triple.pure fun _ h => h
  | cons want rest ih => exact Triple.bind (draining_read want) fun _ => ih

/-- Readers between which no later call tells the difference. -/
def Alike (a b : CpioReader) : Prop :=
  a = b ∨ (a.state = .entries ∧ b.state = .entries ∧ drained a = drained b)

theorem Alike.nextEntry {a b : CpioReader} (h : Alike a b) :
    (CpioReader.nextEntry.run a).1 = (CpioReader.nextEntry.run b).1 ∧
    ∀ found, (CpioReader.nextEntry.run a).1 = .ok found → (CpioReader.nextEntry.run a).2 =
      (CpioReader.nextEntry.run b).2 := by
  obtain rfl | ⟨ha, hb, hsame⟩ := h
  · exact ⟨rfl, fun _ _ => rfl⟩
  rcases hdrained : drained a with e | r
  · rw [CpioReader.nextEntry_of_error ha hdrained,
      CpioReader.nextEntry_of_error hb (hsame ▸ hdrained)]
    exact ⟨rfl, (by intros; contradiction)⟩
  · rw [CpioReader.nextEntry_of_ok ha hdrained, CpioReader.nextEntry_of_ok hb (hsame ▸ hdrained)]
    exact ⟨rfl, fun _ _ => rfl⟩

theorem drive_eq_walk {whole : List UInt8} (wants : Nat → List Nat) (fuel more i : Nat)
    {start : Nat} {s : ShortReader}
    {r : CpioReader} (hr : CpioReader.Stands whole start r) (halike : Alike s.reader r)
    (hfuel : whole.length < start + fuel) :
    drive wants fuel more i s = CpioReader.walk fuel more r := by
  induction fuel generalizing more i start s r with
  | zero => rfl
  | succ fuel ih =>
    obtain ⟨hagrees, hagrees'⟩ := agrees_nextEntry.run_eq s
    have hresult := hagrees.trans halike.nextEntry.1
    have hreader : ∀ found, (CpioReader.nextEntry.run r).1 = .ok found →
        (nextEntry.run s).2.reader = (CpioReader.nextEntry.run r).2 :=
      fun found hfound => hagrees'.trans
        (halike.nextEntry.2 found (halike.nextEntry.1.trans hfound))
    have hcases := CpioReader.nextEntry_cases hr
    rw [drive, CpioReader.walk]
    rcases hrun : nextEntry.run s with ⟨e | found, t⟩ <;>
      rcases hrun' : CpioReader.nextEntry.run r with ⟨e' | found', next⟩ <;>
      rw [hrun'] at hcases <;> rw [hrun, hrun'] at hresult hreader <;> cases hresult
    · rfl
    · obtain rfl : t.reader = next := hreader found rfl
      obtain ⟨e, herror, -⟩ | ⟨_, found, _, -, hfound, hcase⟩ := hcases
      · cases herror
      cases hfound
      rcases hcase with ⟨rfl, hopened, -⟩ | ⟨rfl, hended⟩
      · have hstop : start + 1 ≤ t.reader.piece.stop ∧ start + 1 < whole.length + 1 := by
          have hheader := CpioReader.six_le_headerLen t.reader.header.format
          have hoffset := hopened.offset
          have hle := hopened.le
          have hdata := hopened.dataOffset
          simp only [CpioReader.dataStart] at hdata
          simp only [CpioReader.piece]
          omega
        have hreads := draining_reads (d := drained t.reader) (wants i) t
          ⟨⟨rfl, hopened.state⟩, hopened.summing⟩
        simp only
        rcases hread : (reads (wants i)).run t with ⟨e | ⟨⟩, u⟩ <;> rw [hread] at hreads
        · obtain ⟨fuel, rfl⟩ : ∃ n, fuel = n + 1 := ⟨fuel - 1, by omega⟩
          have herror := CpioReader.nextEntry_of_error hopened.state hreads.1
          simp only [CpioReader.walk]
          rcases hnext : CpioReader.nextEntry.run t.reader with ⟨e' | found, v⟩ <;>
            rw [hnext] at herror <;> cases herror
          rfl
        · simp only
          rw [ih more (i + 1) hopened.stands
            (.inr ⟨hreads.1.state, hopened.state, hreads.1.drained⟩) (by omega)]
      · cases more with
        | zero => rfl
        | succ more =>
          simp only
          rcases hended with hended | ⟨-, hend⟩
          · obtain ⟨next, ⟨hnext, target, htarget, hready⟩ | ⟨hnext, -⟩⟩ :=
              CpioReader.nextSegment_of_ended hended
            · obtain ⟨u, hrun, rfl⟩ := agrees_nextSegment.run_ok hnext
              rw [hnext, hrun]
              simp only
              rw [ih more i hready.stands (.inl rfl) (by omega)]
            · obtain ⟨u, hrun, rfl⟩ := agrees_nextSegment.run_ok hnext
              rw [hnext, hrun]
          · obtain ⟨u, hrun, hreader⟩ :=
              agrees_nextSegment.run_ok (CpioReader.nextSegment_of_atEnd hend)
            rw [CpioReader.nextSegment_of_atEnd hend, hrun]
            simp only
            rw [hreader]

def new (input : List UInt8) (strict : Bool) (capacity : Nat) (splits : List Nat) : ShortReader :=
  ⟨{ CpioReader.new input strict with capacity := capacity }, splits⟩

theorem ready_new (input : List UInt8) (strict : Bool) (capacity : Nat) (splits : List Nat) :
    CpioReader.Ready input 0 (new input strict capacity splits).reader :=
  ⟨rfl, rfl, rfl, rfl, rfl, rfl, Nat.zero_le _⟩

theorem reads_checksum {s : ShortReader} (hstate : s.reader.state = .entries)
    (hsumming : s.reader.Summing) (wants : List Nat) :
    ((reads wants).run s).1 = .error Detail.checksum.corrupt ↔
      ((reads wants).run s).2.reader.remaining = 0 ∧
        drained s.reader = .error Detail.checksum.corrupt := by
  have hreads := draining_reads (d := drained s.reader) wants s ⟨⟨rfl, hstate⟩, hsumming⟩
  rcases hrun : (reads wants).run s with ⟨e | ⟨⟩, t⟩ <;> rw [hrun] at hreads
  · simp only [Except.error.injEq]
    constructor
    · rintro rfl
      exact ⟨hreads.2 rfl, hreads.1⟩
    · rintro ⟨-, hdrained⟩
      exact Except.error.inj (hreads.1.symm.trans hdrained)
  · refine iff_of_false CpioReader.error_ne_ok.symm ?_
    rintro ⟨hzero, hdrained⟩
    have hsame := hreads.1.drained.trans hdrained
    simp only at hzero
    rw [drained, hzero, hreads.2 hzero, if_neg (Nat.not_lt_zero _), if_neg (by simp)] at hsame
    split at hsame
    · exact absurd (Except.error.inj hsame) (by decide)
    split at hsame
    · exact absurd (Except.error.inj hsame) (by decide)
    · cases hsame

end ShortReader

open ShortReader (drive reads)

/-- What a caller sees of an archive does not depend on how the stream splits its reads or on how
much of each entry it reads. The pieces follow each other up to what was consumed. A checksum
error ends it when a regular file's data was read or skipped in full and sums to another value,
and otherwise only for a record without data: reads of the data report it
when they took all of it. -/
theorem reading_independent (input : List UInt8) (strict : Bool) (capacity more : Nat)
    (splits : List Nat) (wants : Nat → List Nat) :
    (∀ splits' wants', drive wants' (input.length + 1) more 0
      (.new input strict capacity splits') =
        drive wants (input.length + 1) more 0 (.new input strict capacity splits)) ∧
      (drive wants (input.length + 1) more 0 (.new input strict capacity splits)).Sound input 0 ∧
      ∀ start s, CpioReader.Opened input start s.reader → ∀ wants,
        (((reads wants).run s).1 = .error Detail.checksum.corrupt ↔
          ((reads wants).run s).2.reader.remaining = 0 ∧
          CpioReader.WrongSum input ⟨s.reader.path, s.reader.header, s.reader.dataOffset⟩) := by
  have hready := ShortReader.ready_new input strict capacity
  have hwalk : ∀ splits wants, drive wants (input.length + 1) more 0
    (.new input strict capacity splits) =
      CpioReader.walk (input.length + 1) more
        (ShortReader.new input strict capacity splits).reader :=
    fun splits wants => ShortReader.drive_eq_walk wants _ more 0 (hready splits).stands
      (.inl rfl) (by omega)
  obtain ⟨r, hdrained⟩ := (hready splits).drained
  refine ⟨?_, ?_, ?_⟩
  · intro splits' wants'
    rw [hwalk, hwalk]
    rfl
  · rw [hwalk]
    exact CpioReader.walk_sound _ more (hready splits).stands hdrained (by omega)
  · intro start s hopened wants
    rw [hopened.wrongSum_iff]
    exact ShortReader.reads_checksum hopened.state hopened.summing wants

def crcRecord (mode check : UInt32) : List UInt8 :=
  NewcHeader.new true ⟨1, mode, 0, 0, 1, 0, 1, 0, 0, 0, 0, 2, check⟩ ++ [0x61, 0, 0x78, 0, 0, 0]

/-- The reader at the data of a record whose data does not sum to the checksum of its header. -/
def openedWrong : ShortReader :=
  (ShortReader.nextEntry.run (.new (crcRecord 0o100644 0x79) false 4096 [2, 0, 3])).2

theorem opened_wrong : CpioReader.Opened (crcRecord 0o100644 0x79) 0 openedWrong.reader where
  state := by decide
  pending := by decide
  headerOffset := by decide
  dataOffset := by decide
  offset := by decide
  input := by decide
  le := by decide
  remaining := by decide
  padding := by decide
  sum := by decide
  check := by decide

theorem reading_independent_sample :
    drive (fun _ => [1, 1]) ((crcRecord 0o100644 0x79).length + 1) 0 0
        (.new (crcRecord 0o100644 0x79) false 4096 [0, 3, 0]) =
      drive (fun _ => []) ((crcRecord 0o100644 0x79).length + 1) 0 0
        (.new (crcRecord 0o100644 0x79) false 4096 []) ∧
    ((reads [0, 1]).run openedWrong).1 = .error Detail.checksum.corrupt ∧
    ((reads [0]).run openedWrong).1 ≠ .error Detail.checksum.corrupt := by
  obtain ⟨hsame, -, hreads⟩ :=
    reading_independent (crcRecord 0o100644 0x79) false 4096 0 [] fun _ => []
  refine ⟨hsame [0, 3, 0] fun _ => [1, 1], ?_, ?_⟩
  · have hwrong : CpioReader.WrongSum (crcRecord 0o100644 0x79)
        ⟨openedWrong.reader.path, openedWrong.reader.header, openedWrong.reader.dataOffset⟩ :=
      ⟨by decide +kernel, by decide +kernel, by decide +kernel⟩
    exact (hreads 0 openedWrong opened_wrong [0, 1]).mpr ⟨by decide +kernel, hwrong⟩
  · intro herror
    have hleft : ((reads [0]).run openedWrong).2.reader.remaining ≠ 0 := by decide +kernel
    exact hleft ((hreads 0 openedWrong opened_wrong [0]).mp herror).1

/-- The data of a symbolic link that does not sum to the checksum of its
header is not reported. -/
theorem reading_independent_fails :
    (drive (fun _ => [1]) ((crcRecord 0o120777 0).length + 1) 0 0
      (.new (crcRecord 0o120777 0) false 4096 [])).result.map
        Except.toOption = some (some 116) ∧
      (drive (fun _ => [1]) ((crcRecord 0o120777 0).length + 1) 0 0
        (.new (crcRecord 0o120777 0) false 4096 [])).pieces.map
        (fun piece => piece.entry.map fun found =>
          (found.header.format, found.header.len, found.header.check, found.dataOffset)) =
          [some (.crc, 1, 0, 112), none] ∧
      checksum 0 (((crcRecord 0o120777 0).drop 112).take 1) ≠ 0 := by
  decide

end Hadris.Cpio
