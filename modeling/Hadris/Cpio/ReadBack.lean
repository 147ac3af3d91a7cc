import Hadris.Cpio.Archive
import Hadris.Cpio.Reader

namespace Hadris.Cpio

open List

theorem toDigit_hexDigit : ∀ d < 16, toDigit 16 (hexDigit d) = some d := by decide

theorem toDigit_octalDigit : ∀ d < 8, toDigit 8 (octalDigit d) = some d := by decide

theorem parseHex_writeHex (value : UInt32) : parseHex (writeHex value) = some value.toNat := by
  rw [parseHex, writeHex, readNumeral_numeral (by decide) toDigit_hexDigit value.toNat_lt,
    Nat.zero_mul, Nat.zero_add]

theorem parseOctal_numeral {width value : Nat} (h : value < 8 ^ width) :
    parseOctal (numeral 8 octalDigit width value) = some value := by
  rw [parseOctal, readNumeral_numeral (by decide) toDigit_octalDigit h,
    Nat.zero_mul, Nat.zero_add]

theorem block_flatMap {α β : Type} {f : β → List α} {n : Nat} (hf : ∀ b, (f b).length = n)
    {l : List β}
    {i : Nat} {b : β} (h : l[i]? = some b) : ((l.flatMap f).drop (i * n)).take n = f b := by
  induction l generalizing i with
  | nil => cases h
  | cons a l ih =>
    cases i with
    | zero =>
      cases h
      rw [Nat.zero_mul, drop_zero, flatMap_cons, take_left' (hf b)]
    | succ i =>
      have hskip : (i + 1) * n = (f a).length + i * n := by rw [hf]; ring
      rw [flatMap_cons, hskip, drop_append, drop_eq_nil_of_le (Nat.le_add_right _ _),
        nil_append, Nat.add_sub_cancel_left]
      exact ih h

namespace NewcHeader

theorem magic_length (crc : Bool) : (if crc then newcCrcMagic else newcMagic).length = 6 := by
  cases crc <;> rfl

theorem field_new {crc : Bool} {fields : NewcFields} {i : Nat} {value : UInt32}
    (h : (values fields)[i]? = some value) : field (new crc fields) i = some value := by
  have hblock := block_flatMap (f := writeHex) (n := 8) (fun b => numeral_length 8 b.toNat) h
  have hskip : (new crc fields).drop (6 + i * 8) = ((values fields).flatMap writeHex).drop
      (i * 8) := by
    rw [new, drop_append, magic_length, drop_eq_nil_of_le (by rw [magic_length]; omega),
      Nat.add_sub_cancel_left]
    rfl
  rw [field, hskip, hblock, parseHex_writeHex, Option.map_some, UInt32.ofNat_toNat]

theorem take_new (crc : Bool) (fields : NewcFields) :
    (new crc fields).take 6 = if crc then newcCrcMagic else newcMagic := by
  rw [new, ← magic_length crc, take_left]

theorem fields_new (crc : Bool) (f : NewcFields) : fields (new crc f) = some f := by
  have hmagic : ¬ ((new crc f).take 6 ≠ newcMagic ∧ (new crc f).take 6 ≠ newcCrcMagic) := by
    rw [take_new]
    cases crc <;> simp
  rw [fields, if_neg hmagic, field_new (i := 0) rfl, field_new (i := 1) rfl,
    field_new (i := 2) rfl,
    field_new (i := 3) rfl, field_new (i := 4) rfl, field_new (i := 5) rfl,
      field_new (i := 6) rfl,
    field_new (i := 7) rfl, field_new (i := 8) rfl, field_new (i := 9) rfl,
    field_new (i := 10) rfl,
    field_new (i := 11) rfl, field_new (i := 12) rfl]
  rfl

end NewcHeader

namespace OdcHeader

theorem read_write {values : List (Nat × Nat)} {bytes : List UInt8}
    (h : write values = some bytes) :
    read (values.map Prod.snd) bytes = some (values.map Prod.fst) := by
  induction values generalizing bytes with
  | nil => rfl
  | cons value values ih =>
    obtain ⟨first, hfirst, h⟩ := Option.bind_eq_some_iff.mp h
    obtain ⟨more, hmore, h⟩ := Option.bind_eq_some_iff.mp h
    cases h
    obtain ⟨rfl, hfits⟩ := writeOctal_ok hfirst
    have hlength : (numeral 8 octalDigit value.2 value.1).length = value.2 := numeral_length _ _
    rw [map_cons, map_cons, read]
    rw [take_left' hlength, drop_left' hlength, parseOctal_numeral hfits, ih hmore]
    rfl

theorem small_toNat (u : UInt32) : small u.toNat = some u := by
  rw [small, if_pos u.toNat_lt, UInt32.ofNat_toNat]

theorem fields_new {f : OdcFields} {bytes : List UInt8} (h : new f = some bytes) :
    fields bytes = some f := by
  obtain ⟨written, hwritten, rfl⟩ := Option.map_eq_some_iff.mp h
  have hmagic : (odcMagic ++ written).take 6 = odcMagic := rfl
  have hrest : (odcMagic ++ written).drop 6 = written := rfl
  have hread := read_write hwritten
  rw [fields, if_neg (not_not.mpr hmagic), hrest]
  rw [show ((values f).zip odcWidths).map Prod.snd = odcWidths from rfl,
    show ((values f).zip odcWidths).map Prod.fst = values f from rfl] at hread
  rw [hread]
  simp only [values, getD_cons_zero, getD_cons_succ, small_toNat, Option.bind_eq_bind,
    Option.bind_some]
  rfl

end OdcHeader

theorem splitDev_joinDev {dev : DeviceNumber} {joined : UInt32} (h : joinDev dev = some joined) :
    splitDev joined = dev := by
  rw [joinDev] at h
  split at h <;> cases h
  rename_i hfits
  obtain ⟨hminor, hmajor⟩ := hfits
  have hminor' : dev.minor.toNat < 2 ^ 8 := Nat.lt_succ_of_le (UInt32.le_iff_toNat_le.mp hminor)
  have hproduct : (dev.major * 256).toNat = dev.major.toNat <<< 8 := by
    rw [UInt32.toNat_mul, Nat.shiftLeft_eq]
    exact Nat.mod_eq_of_lt hmajor
  have hjoined : (dev.major * 256 ||| dev.minor).toNat = dev.major.toNat * 256 +
      dev.minor.toNat := by
    rw [UInt32.toNat_or, hproduct, ← Nat.shiftLeft_add_eq_or_of_lt hminor', Nat.shiftLeft_eq]
  have hhigh : (dev.major * 256 ||| dev.minor) >>> 8 = dev.major := by
    apply UInt32.toNat_inj.mp
    rw [UInt32.toNat_shiftRight, hjoined]
    change (dev.major.toNat * 256 + dev.minor.toNat) >>> 8 = dev.major.toNat
    rw [Nat.shiftRight_eq_div_pow]
    omega
  have hlow : (dev.major * 256 ||| dev.minor) &&& 0xFF = dev.minor := by
    apply UInt32.toNat_inj.mp
    rw [UInt32.toNat_and, hjoined]
    change (dev.major.toNat * 256 + dev.minor.toNat) &&& (2 ^ 8 - 1) = dev.minor.toNat
    rw [Nat.and_two_pow_sub_one_eq_mod]
    omega
  rw [splitDev, hhigh, hlow]

def Fields.header (format : Format) (fields : Fields) (namesize : Nat) : Header :=
  { format := format
    ino := fields.ino
    mode := fields.mode
    uid := fields.uid
    gid := fields.gid
    nlink := UInt32.ofNat fields.nlink
    mtime := fields.mtime
    len := fields.len
    dev := ⟨0, 0⟩
    rdev := fields.rdev
    namesize := namesize
    check := if format = .odc then 0 else fields.check }

theorem Fields.header_check {fields : Fields} (h : fields.check = 0)
    (format : Format) (namesize : Nat) :
    (fields.header format namesize).check = 0 := by
  rw [header, h]
  split <;> rfl

theorem decodeNewc_encode {format : Format} {crc : Bool} {fields : Fields} {n : Nat}
    {bytes : List UInt8} (hformat : format ≠ .odc) (h : encodeNewc crc fields n = .ok bytes) :
    decodeNewc format bytes = some (fields.header format n) := by
  obtain ⟨ino, nlink, mtime, filesize, namesize, hino, hnlink, hmtime,
    hfilesize, hnamesize, rfl⟩ :=
    encodeNewc_ok h
  rw [decodeNewc, NewcHeader.fields_new, Option.map_some, Fields.header, if_neg hformat]
  simp only [hino, hmtime, hfilesize, hnamesize, ← hnlink, UInt32.ofNat_toNat]

theorem decodeOdc_encode {fields : Fields} {n : Nat} {bytes : List UInt8}
    (h : encodeOdc fields n = .ok bytes) : decodeOdc bytes = some (fields.header .odc n) := by
  obtain ⟨ino, nlink, rdev, namesize, hino, hnlink, hrdev, hnamesize, hnew⟩ := encodeOdc_ok h
  rw [decodeOdc, OdcHeader.fields_new hnew, Option.map_some, Fields.header, if_pos rfl]
  simp only [hino, hnamesize, ← hnlink, UInt32.ofNat_toNat, splitDev_joinDev hrdev]
  rfl

theorem decode_encode {format : Format} {fields : Fields} {n : Nat} {bytes : List UInt8}
    (h : encode format fields n = .ok bytes) :
    decode format bytes = some (fields.header format n) := by
  unfold encode at h
  split at h
  · cases h
  cases format with
  | newc => exact decodeNewc_encode (fun h => nomatch h) h
  | crc => exact decodeNewc_encode (fun h => nomatch h) h
  | odc => exact decodeOdc_encode h
  | binary => cases h

theorem detect_encode {format : Format} {fields : Fields} {n : Nat} {bytes : List UInt8}
    (h : encode format fields n = .ok bytes) : detect (bytes.take 6) = some format := by
  unfold encode at h
  split at h
  · cases h
  cases format with
  | newc =>
    obtain ⟨_, _, _, _, _, _, _, _, _, _, rfl⟩ := encodeNewc_ok h
    rw [NewcHeader.take_new]
    decide
  | crc =>
    obtain ⟨_, _, _, _, _, _, _, _, _, _, rfl⟩ := encodeNewc_ok h
    rw [NewcHeader.take_new]
    decide
  | odc =>
    obtain ⟨_, _, _, _, _, _, _, _, hnew⟩ := encodeOdc_ok h
    obtain ⟨written, _, rfl⟩ := Option.map_eq_some_iff.mp hnew
    have hstart : (odcMagic ++ written).take 6 = odcMagic := rfl
    rw [hstart]
    decide
  | binary => cases h

end Hadris.Cpio

namespace Hadris.Cpio

open List
open Prog

/-- An entry that a writer writes, as the checks of a reader see it. -/
structure Entry.Good (format : Format) (e : Entry) : Prop where
  header : ∃ header, encode format e.fields (e.path.length + 1) = .ok header
  name : namesize e.path = .ok (e.path.length + 1)
  data : e.data.length = e.fields.len
  mode : (fileType e.fields.mode).isSome
  newc : format = .newc → e.fields.check = 0
  crc : format = .crc → e.fields.mode &&& sIfmt = sIfreg → e.fields.check = checksum 0 e.data

theorem Entry.Good.data_lt {format : Format} {e : Entry} (he : e.Good format) :
    e.data.length < 2 ^ 63 := by
  obtain ⟨_, hheader⟩ := he.header
  have hmax : format.maxFileSize < 2 ^ 63 := by cases format <;> decide
  rw [he.data]
  exact (encode_len hheader).trans_lt hmax

namespace CpioReader

variable {r : CpioReader} {taken back : List UInt8}

def past (r : CpioReader) (data back : List UInt8) : CpioReader :=
  { r with input := back, offset := r.offset + data.length }

theorem run_fill (h : r.input = taken ++ back) :
    (fill taken.length).run r = (.ok taken, r.past taken back) := by
  have hlong : ¬ r.input.length < taken.length := by
    rw [h, length_append]
    omega
  rw [fill, run_bind_ok (a := r.input) (t := r) rfl, if_neg hlong, h, take_left]
  refine Prod.ext rfl ?_
  simp only [run_bind, run_modify, run_pure, past, h, drop_left]

theorem run_skipPadding {n : Nat} (h : r.input = .replicate n 0 ++ back) :
    (skipPadding n).run r = (.ok (), r.past (.replicate n 0) back) := by
  have hfill := run_fill h
  have hzeros : ((replicate n (0 : UInt8)).any (· ≠ 0)) = false := by simp
  rw [length_replicate] at hfill
  rw [skipPadding, run_bind_ok hfill, hzeros]
  rfl

theorem run_firstByte {byte : UInt8} (hpending : r.pending = none) (h : r.input = byte :: back) :
    firstByte.run r = (.ok (some byte), r.past [byte] back) := by
  rw [firstByte, run_bind_ok (a := r) (t := r) rfl, hpending, h]
  rfl

/-- The reader stands inside an entry that has `data` left: then come its padding
and `rest`. -/
structure Left (r : CpioReader) (data rest : List UInt8) : Prop where
  state : r.state = .entries
  capacity : r.capacity = pathMax
  pending : r.pending = none
  remaining : r.remaining = data.length
  sum : ∀ sum ∈ r.sum, data ≠ [] ∧ checksum sum data = r.header.check
  input : r.input = data ++ (.replicate r.padding 0 ++ rest)

theorem left_new (input : List UInt8) (strict : Bool) : Left (new input strict) [] input :=
  ⟨rfl, rfl, rfl, rfl, (fun _ h => (Option.not_mem_none _ h).elim), rfl⟩

theorem Left.sum_none {rest : List UInt8} (h : Left r [] rest) : r.sum = none :=
  Option.eq_none_iff_forall_not_mem.mpr fun sum hsum => (h.sum sum hsum).1 rfl

theorem run_verify (h : ∀ sum ∈ r.sum, sum = r.header.check) :
    verify.run r = (.ok (), { r with sum := none }) := by
  have hsame : r.sum.any (fun sum => decide (sum ≠ r.header.check)) = false := by
    rw [Option.any_eq_false]
    intro sum hsum
    rw [h sum hsum]
    simp
  rw [verify, run_bind_ok (a := r) (t := r) rfl,
    run_bind_ok (a := ()) (t := { r with sum := none }) rfl, hsame]
  rfl

theorem run_verify_none (h : r.sum = none) : verify.run r = (.ok (), r) := by
  have hsame : { r with sum := none } = r := by rw [← h]
  have hverify := run_verify (r := r) (by rw [h]; exact fun _ h => (Option.not_mem_none _ h).elim)
  rwa [hsame] at hverify

theorem run_finishEntry {rest : List UInt8} (h : Left r [] rest) :
    finishEntry.run r = (.ok (), { r with
      padding := 0, input := rest, offset := r.offset + r.padding }) := by
  have hskip : (skipData r.remaining).run r = (.ok (), r) := by
    rw [h.remaining]
    rfl
  rw [finishEntry, run_bind_ok (a := r.remaining) (t := r) rfl, run_bind_ok hskip,
    run_bind_ok (run_verify_none h.sum_none),
    run_bind_ok (a := r.padding) (t := r) rfl,
    run_bind_ok (a := ()) (t := { r with padding := 0 }) rfl,
    run_skipPadding (r := { r with padding := 0 }) h.input, past, length_replicate]

theorem run_ensure {ok : Bool} (h : ok = true) (error : Error) (r : CpioReader) :
    (ensure ok error).run r = (.ok (), r) := by
  rw [ensure, if_pos h, run_pure]

theorem run_readHeader {first : UInt8} {start rest : List UInt8}
    {format : Format} {header : Header}
    (atStart : Bool) (h : r.input = start ++ (rest ++ back)) (hstart : start.length = 5)
    (hrest : rest.length = headerLen format - 6) (hdetect : detect (first :: start) = some format)
    (hdecode : decode format (first :: start ++ rest) = some header)
    (hcheck : format ≠ .newc ∨ header.check = 0)
    (hmode : (fileType header.mode).isSome ∨ header.mode = 0)
    (hname : 2 ≤ header.namesize) (hcapacity : header.namesize ≤ r.capacity) :
    (readHeader first atStart).run r = (.ok header, r.past (start ++ rest) back) := by
  have hfirst := run_fill h
  have hsecond := @run_fill (r.past start (rest ++ back)) rest back rfl
  rw [hstart] at hfirst
  rw [hrest] at hsecond
  have hpast : (r.past start (rest ++ back)).past rest back = r.past (start ++ rest) back := by
    simp only [past, length_append, Nat.add_assoc]
  rw [hpast] at hsecond
  rw [readHeader, run_bind_ok hfirst, hdetect, run_bind_ok (a := format) rfl,
    run_bind_ok hsecond, hdecode,
    run_bind_ok (a := header) rfl, run_bind_ok (run_ensure (decide_eq_true hcheck) _ _),
    run_bind_ok (run_ensure (decide_eq_true hmode) _ _),
    run_bind_ok (run_ensure (decide_eq_true hname) _ _), run_bind_ok (a := r.capacity) rfl,
    run_bind_ok (run_ensure (decide_eq_true hcapacity) _ _), run_pure]

theorem takeWhile_name {path : List UInt8} (h : 0 ∉ path) :
    (path ++ [0]).takeWhile (· ≠ 0) = path := by
  have hall : ∀ byte ∈ path, decide (byte ≠ 0) = true := by
    intro byte hbyte
    apply decide_eq_true
    rintro rfl
    exact h hbyte
  rw [takeWhile_append_of_pos hall, takeWhile_cons_of_neg (by decide), append_nil]

theorem run_readName (header : Header) {path : List UInt8} (hpath : path ≠ []) (hnul : 0 ∉ path)
    (hsize : header.namesize = path.length + 1)
    (h : r.input = path ++ .replicate (1 + namePadding header.format (path.length + 1))
      0 ++ back) :
    (readName header).run r =
      (.ok path, r.past (path ++ .replicate (1 + namePadding header.format (path.length + 1)) 0)
        back) := by
  have hzeros : path ++ replicate (1 + namePadding header.format (path.length + 1)) 0 =
      (path ++ [(0 : UInt8)]) ++ .replicate (namePadding header.format (path.length + 1)) 0 := by
    rw [Nat.add_comm, replicate_succ, append_assoc]
    rfl
  rw [hzeros, append_assoc] at h
  have hlen : (path ++ [(0 : UInt8)]).length = header.namesize := by
    rw [length_append, hsize]
    rfl
  have hfill := run_fill h
  rw [hlen] at hfill
  have hname := takeWhile_name hnul
  have hrest : (path ++ [(0 : UInt8)]).drop path.length = [0] := drop_left
  have hgood : path ≠ [] ∧ path.length ≠ header.namesize ∧ ([0] : List UInt8).all (· = 0) :=
    ⟨hpath, by omega, rfl⟩
  rw [readName, run_bind_ok hfill]
  dsimp only
  rw [hname, hrest, run_bind_ok (run_ensure (decide_eq_true hgood) _ _), hsize,
    run_bind_ok (run_skipPadding (r := r.past (path ++ [0]) _) rfl), run_pure, hzeros]
  simp only [past, length_append, Nat.add_assoc]

theorem header_parts {format : Format} {header : List UInt8}
    (h : header.length = headerLen format) :
    ∃ first start rest, header = first :: start ++ rest ∧ start.length = 5 ∧
      rest.length = headerLen format - 6 := by
  have hsix : 6 ≤ header.length := by
    rw [h]
    cases format <;> decide
  cases header with
  | nil => cases hsix
  | cons first header =>
    rw [length_cons] at hsix h
    refine ⟨first, header.take 5, header.drop 5, ?_, ?_, ?_⟩
    · rw [cons_append, take_append_drop]
    · rw [length_take]
      omega
    · rw [length_drop]
      omega

theorem run_front {format : Format} {fields : Fields} {path header : List UInt8}
    (hheader : encode format fields (path.length + 1) = .ok header)
    (hpath : path ≠ []) (hnul : 0 ∉ path)
    (hlong : path.length + 1 ≤ r.capacity) (hcheck : format ≠ .newc ∨ fields.check = 0)
    (hmode : (fileType fields.mode).isSome ∨ fields.mode = 0) (hpending : r.pending = none)
    (h : r.input = Entry.front format ⟨path, fields, []⟩ ++ back) :
    ∃ r', front.run r = (.ok (some (fields.header format (path.length + 1), path)), r') ∧
      r' = { r with input := back, offset := r'.offset, headerOffset := r'.headerOffset } := by
  have hdetect := detect_encode hheader
  have hdecode := decode_encode hheader
  obtain ⟨first, start, rest, rfl, hstart, hrest⟩ := header_parts (encode_length hheader)
  have htake : (first :: start ++ rest).take 6 = first :: start := by
    rw [take_left' (by rw [length_cons, hstart])]
  rw [htake] at hdetect
  let name := path ++ replicate (1 + namePadding format (path.length + 1)) 0
  have hinput : r.input = first :: (start ++ (rest ++ (name ++ back))) := by
    rw [h, Entry.front, headerBytes, hheader]
    simp only [name, append_assoc, cons_append]
  have hfirst := run_firstByte hpending hinput
  let begun := { r.past [first] (start ++ (rest ++ (name ++ back))) with
    headerOffset := (r.past [first] (start ++ (rest ++ (name ++ back)))).offset - 1 }
  have hread := run_readHeader (r := begun) (decide (r.offset = 0)) rfl hstart
    hrest hdetect hdecode
    (hcheck.imp_right (Fields.header_check · _ _)) hmode
      (Nat.succ_le_succ (length_pos_iff.mpr hpath)) hlong
  have hname := run_readName (r := begun.past (start ++ rest) (name ++ back))
    (fields.header format (path.length + 1)) hpath hnul rfl rfl
  have hrun : front.run r = (.ok (some (fields.header format (path.length + 1), path)),
      (begun.past (start ++ rest) (name ++ back)).past name back) := by
    rw [front, run_bind_ok (a := r.offset) (t := r) rfl, run_bind_ok hfirst]
    dsimp only
    rw [run_bind_ok (a := ()) (t := begun) rfl, run_bind_ok hread, run_bind_ok hname, run_pure]
    rfl
  exact ⟨_, hrun, rfl⟩

theorem fileType_ne_zero {mode : UInt32} (h : (fileType mode).isSome) : mode ≠ 0 := by
  rintro rfl
  cases h

theorem run_nextEntry {format : Format} {e : Entry} {rest : List UInt8} (he : e.Good format)
    (h : Left r [] (e.bytes format ++ rest)) :
    ∃ r', nextEntry.run r = (.ok true, r') ∧ Left r' e.data rest ∧ r'.path = e.path ∧
      r'.header = e.fields.header format (e.path.length + 1) := by
  obtain ⟨header, hheader⟩ := he.header
  obtain ⟨_, hpath, hnul, htrailer, hlong⟩ := namesize_ok he.name
  let skipped :=
    { r with padding := 0, input := e.bytes format ++ rest, offset := r.offset + r.padding }
  have hinput : skipped.input = Entry.front format ⟨e.path, e.fields, []⟩ ++
      (e.data ++ (.replicate (dataPadding format e.fields.len) 0 ++ rest)) := by
    simp only [skipped, Entry.bytes, append_assoc]
    rfl
  obtain ⟨r', hfront, hr'⟩ := run_front (r := skipped) hheader hpath hnul (h.capacity ▸ hlong)
    (or_iff_not_imp_left.mpr fun hnewc => he.newc (not_not.mp hnewc))
      (.inl he.mode) h.pending hinput
  let sum : Option UInt32 :=
    if format = Format.crc ∧ e.fields.mode &&& sIfmt = sIfreg then some 0 else none
  let entered := { r' with
    dataOffset := r'.offset
    path := e.path
    header := e.fields.header format (e.path.length + 1)
    remaining := e.fields.len
    padding := dataPadding format e.fields.len
    sum := sum }
  have hmode : (e.fields.header format (e.path.length + 1)).mode ≠ 0 := fileType_ne_zero he.mode
  have hstart :
      advance.run r = (if e.fields.len = 0 then do { verify; pure true } else pure true :
        Prog CpioReader Error Bool).run entered := by
    rw [advance, run_bind_ok (a := r.state) (t := r) rfl, if_neg (not_not.mpr h.state),
      run_bind_ok (run_finishEntry h), run_bind_ok hfront]
    dsimp only
    rw [enter, if_neg htrailer, run_bind_ok (run_ensure (decide_eq_true hmode) _ _),
      run_bind_ok (a := ()) (t := entered) rfl]
    rfl
  have hsum : ∀ s ∈ sum, checksum s e.data = entered.header.check := by
    intro s hs
    obtain ⟨⟨hcrc, hregular⟩, hs⟩ := Option.ite_none_right_eq_some.mp hs
    cases hs
    subst hcrc
    exact (he.crc rfl hregular).symm
  have hleft : r'.state = .entries ∧ r'.capacity = pathMax ∧ r'.pending = none ∧
      r'.input = e.data ++ (.replicate (dataPadding format e.fields.len) 0 ++ rest) := by
    rw [hr']
    exact ⟨h.state, h.capacity, h.pending, rfl⟩
  obtain ⟨hstate, hcapacity, hpending, hinput'⟩ := hleft
  by_cases hlen : e.fields.len = 0
  · have hempty : e.data = [] := length_eq_zero_iff.mp (he.data.trans hlen)
    have hverify := run_verify (r := entered) fun s hs => by
      have := hsum s hs
      rwa [hempty] at this
    refine ⟨{ entered with sum := none }, ?_, ?_, rfl, rfl⟩
    · rw [nextEntry]
      simp only [hstart, if_pos hlen, run_bind_ok hverify, run_pure]
    · exact ⟨hstate, hcapacity, hpending, he.data.symm,
        (fun _ h => (Option.not_mem_none _ h).elim), hinput'⟩
  · have hdata : e.data ≠ [] := fun h => hlen (he.data ▸ congrArg List.length h)
    refine ⟨entered, ?_, ?_, rfl, rfl⟩
    · rw [nextEntry]
      simp only [hstart, if_neg hlen, run_pure]
    · exact ⟨hstate, hcapacity, hpending, he.data.symm, (fun s hs => ⟨hdata, hsum s hs⟩), hinput'⟩

theorem run_trailer {format : Format} {rest header : List UInt8}
    (hheader : encode format .trailer (trailerName.length + 1) = .ok header)
    (h : Left r [] (Entry.trailer.bytes format ++ rest)) :
    ∃ r', nextEntry.run r = (.ok false, r') ∧ r'.state = .trailer ∧ r'.input = rest := by
  let skipped := { r with
    padding := 0, input := Entry.trailer.bytes format ++ rest, offset := r.offset + r.padding }
  have hinput : skipped.input = Entry.front format ⟨trailerName, .trailer, []⟩ ++ rest := by
    have hpadding : dataPadding format 0 = 0 := by cases format <;> rfl
    simp only [skipped, Entry.bytes, Entry.trailer, Fields.trailer, hpadding, append_nil,
      replicate_zero]
  have hlong : trailerName.length + 1 ≤ skipped.capacity := by
    change _ ≤ r.capacity
    rw [h.capacity]
    decide
  obtain ⟨r', hfront, hr'⟩ := run_front (r := skipped) hheader (by decide)
    (by decide) hlong (.inr rfl)
    (.inr rfl) h.pending hinput
  have hcheck : (Fields.trailer.header format (trailerName.length + 1)).check = 0 :=
    Fields.header_check rfl _ _
  have hstate : r'.input = rest := by rw [hr']
  refine ⟨{ r' with state := .trailer }, ?_, rfl, hstate⟩
  have hrun : advance.run r = (.ok false, { r' with state := .trailer }) := by
    rw [advance, run_bind_ok (a := r.state) (t := r) rfl, if_neg (not_not.mpr h.state),
      run_bind_ok (run_finishEntry h), run_bind_ok hfront]
    dsimp only
    have hlen : (Fields.trailer.header format (trailerName.length + 1)).len = 0 := rfl
    rw [enter, if_pos rfl, run_bind_ok (run_ensure (decide_eq_true hlen) _ _),
      run_bind_ok (run_ensure (decide_eq_true (.inr hcheck)) _ _)]
    rfl
  rw [nextEntry]
  simp only [hrun]

theorem run_account {data left rest : List UInt8} (h : Left r (data ++ left) rest) :
    ∃ r', (account data).run { r with
        input := left ++ (.replicate r.padding 0 ++ rest), offset :=
  r.offset + data.length } = (.ok (), r') ∧
      Left r' left rest ∧ r'.path = r.path ∧ r'.header = r.header := by
  let counted := { r with
    input := left ++ (replicate r.padding 0 ++ rest)
    offset := r.offset + data.length
    remaining := r.remaining - data.length
    sum := r.sum.map (checksum · data) }
  have hremaining : counted.remaining = left.length := by
    change r.remaining - data.length = _
    rw [h.remaining, length_append, Nat.add_sub_cancel_left]
  have hsum : ∀ sum ∈ counted.sum, checksum sum left = r.header.check := by
    intro sum hsum
    obtain ⟨start, hstart, rfl⟩ := Option.mem_map.mp hsum
    have := (h.sum start hstart).2
    rwa [checksum, foldl_append] at this
  rw [account, run_bind_ok (a := ()) (t := counted) rfl,
    run_bind_ok (a := counted.remaining) (t := counted) rfl]
  by_cases hleft : left = []
  · subst hleft
    rw [if_pos (c := counted.remaining = 0) hremaining]
    exact ⟨_, run_verify (r := counted) hsum,
      ⟨h.state, h.capacity, h.pending, hremaining, (fun _ h => (Option.not_mem_none _ h).elim),
        rfl⟩, rfl, rfl⟩
  · rw [if_neg (by rw [hremaining]; exact fun h => hleft (length_eq_zero_iff.mp h))]
    exact ⟨counted, rfl,
      ⟨h.state, h.capacity, h.pending, hremaining, (fun sum hs => ⟨hleft, hsum sum hs⟩), rfl⟩,
      rfl, rfl⟩

theorem run_read {data rest : List UInt8} (h : Left r data rest) {want : Nat} (hwant : 0 < want)
    (hdata : data ≠ []) :
    ∃ r', (read want).run r = (.ok (data.take want), r') ∧ Left r' (data.drop want) rest ∧
      r'.path = r.path ∧ r'.header = r.header := by
  have hpos : 0 < data.length := length_pos_iff.mpr hdata
  have htake : r.input.take (Nat.min r.remaining want) = data.take want := by
    rw [h.input, h.remaining, take_append_of_le_length (Nat.min_le_left _ _), Nat.min_comm,
      ← take_take, take_length]
  have hne : data.take want ≠ [] := by
    intro hnil
    rw [take_eq_nil_iff] at hnil
    exact hnil.elim (by omega) hdata
  have hdrop : r.input.drop (data.take want).length = data.drop want ++
      (.replicate r.padding 0 ++ rest) := by
    rw [h.input, drop_append_of_le_length (length_take_le' _ _), length_take]
    congr 1
    rcases Nat.le_total want data.length with hle | hle
    · rw [Nat.min_eq_left hle]
    · rw [Nat.min_eq_right hle, drop_length, drop_eq_nil_of_le hle]
  have hsplit : Left r (data.take want ++ data.drop want) rest := by rwa [take_append_drop]
  obtain ⟨r', hrun, hleft, hpath, hheader⟩ := run_account hsplit
  have hread : (readData want).run r = (.ok (data.take want), r') := by
    rw [readData, run_bind_ok (a := r) (t := r) rfl]
    dsimp only
    rw [if_neg (by rw [h.remaining]; omega), htake, if_neg hne,
      run_bind_ok (a := ()) (by rw [run_modify, hdrop]), run_bind_ok hrun, run_pure]
  refine ⟨r', ?_, hleft, hpath, hheader⟩
  rw [read]
  simp only [hread]

theorem run_loadRest {len size : Nat} (hsize : 0 < size) {fuel : Nat} (got : List UInt8)
    {data rest : List UInt8}
    (h : Left r data rest) (hlen : got.length + data.length = len) (hfuel : data.length ≤ fuel) :
    ∃ r', (loadRest len size fuel got).run r = (.ok (got ++ data), r') ∧ Left r' [] rest := by
  induction fuel generalizing r got data with
  | zero =>
    have hdata : data = [] := length_eq_zero_iff.mp (Nat.le_zero.mp hfuel)
    subst hdata
    exact ⟨r, by rw [loadRest, append_nil, run_pure], h⟩
  | succ fuel ih =>
    by_cases hdata : data = []
    · subst hdata
      refine ⟨r, ?_, h⟩
      rw [loadRest, if_neg (by rw [← hlen]; simp), append_nil, run_pure]
    · have hpos : 0 < data.length := length_pos_iff.mpr hdata
      have hwant : 0 < Nat.min (len - got.length) size := Nat.lt_min.mpr ⟨by omega, hsize⟩
      obtain ⟨r', hread, hleft, _, _⟩ := run_read h hwant hdata
      obtain ⟨r'', hrest, hend⟩ := ih (got ++ data.take (Nat.min (len - got.length) size)) hleft
        (by rw [length_append, Nat.add_assoc, ← length_append, take_append_drop, hlen])
        (by rw [length_drop]; omega)
      refine ⟨r'', ?_, hend⟩
      rw [loadRest, if_pos (by omega), run_bind_ok hread, if_neg, hrest, append_assoc,
        take_append_drop]
      rw [take_eq_nil_iff]
      exact fun h => h.elim (by omega) hdata

theorem run_load {data rest : List UInt8} (h : Left r data rest) (hlong : data.length < 2 ^ 63) :
    ∃ r', load.run r = (.ok data, r') ∧ Left r' [] rest := by
  have hlen : dataLen r.remaining = .ok data.length := by rw [h.remaining, dataLen, if_pos hlong]
  rw [load, run_bind_ok (a := r.remaining) (t := r) rfl, hlen,
    run_bind_ok (a := data.length) (t := r) rfl]
  by_cases hdata : data = []
  · subst hdata
    exact ⟨r, rfl, h⟩
  · exact run_loadRest (Nat.lt_min.mpr ⟨by decide, length_pos_iff.mpr hdata⟩) [] h
      (Nat.zero_add _) (Nat.le_refl _)

end CpioReader

def Entry.found (format : Format) (e : Entry) : ReadEntry :=
  ⟨e.path, e.fields.header format (e.path.length + 1), e.data⟩

namespace CpioReader

variable {r : CpioReader}

/-- The entries of an archive are read as they were written, and then its
trailer. -/
theorem run_readAll {format : Format} {entries : List Entry} {rest header : List UInt8}
    {fuel : Nat} (hgood : ∀ e ∈ entries, e.Good format)
    (htrailer : encode format .trailer (trailerName.length + 1) = .ok header)
    (h : Left r [] (archive format entries ++ rest)) (hfuel : entries.length < fuel) :
    ∃ r', (readAll fuel).run r = (.ok (entries.map (Entry.found format)), r') ∧
      r'.state = .trailer ∧
      r'.input = rest := by
  induction entries generalizing r fuel with
  | nil =>
    cases fuel with
    | zero => cases hfuel
    | succ fuel =>
      rw [archive, nil_append, flatMap_singleton] at h
      obtain ⟨r', hnext, hstate, hinput⟩ := run_trailer htrailer h
      refine ⟨r', ?_, hstate, hinput⟩
      rw [readAll, run_bind_ok hnext]
      rfl
  | cons e entries ih =>
    cases fuel with
    | zero => cases hfuel
    | succ fuel =>
      have hbytes :
          archive format (e :: entries) ++ rest = e.bytes format ++
            (archive format entries ++ rest) := by
        rw [archive, cons_append, flatMap_cons, append_assoc]
        rfl
      rw [hbytes] at h
      obtain ⟨hgood, hall⟩ := forall_mem_cons.mp hgood
      obtain ⟨entered, hnext, hleft, hpath, hheader⟩ := run_nextEntry hgood h
      obtain ⟨loaded, hload, hleft⟩ := run_load hleft hgood.data_lt
      obtain ⟨r', hrest, hend⟩ := ih hall hleft (Nat.lt_of_succ_lt_succ hfuel)
      refine ⟨r', ?_, hend⟩
      rw [readAll, run_bind_ok hnext, if_pos rfl, run_bind_ok (a := entered) (t := entered) rfl,
        run_bind_ok hload, run_bind_ok hrest, run_pure, hpath, hheader]
      rfl

end CpioReader

end Hadris.Cpio
