import Mathlib.Data.List.Forall2
import Hadris.Bytes
import Hadris.Cpio.Writer

namespace Hadris.Cpio

open List

theorem small_ok {value : Nat} {u : UInt32} (h : small value = .ok u) : u.toNat = value := by
  rw [small] at h
  split at h <;> cases h
  exact UInt32.toNat_ofNat_of_lt ‹_›

theorem orLimit_ok {α : Type} {o : Option α} {a : α} (h : orLimit o = .ok a) : o = some a := by
  cases o <;> cases h
  rfl

theorem writeOctal_ok {width value : Nat} {bytes : List UInt8}
    (h : writeOctal width value = some bytes) :
    bytes = numeral 8 octalDigit width value ∧ value < 8 ^ width := by
  rw [writeOctal] at h
  split at h <;> cases h
  exact ⟨rfl, (Nat.div_eq_zero_iff_lt (Nat.pow_pos (by decide))).mp ‹_›⟩

theorem odc_write_length {values : List (Nat × Nat)} {bytes : List UInt8}
    (h : OdcHeader.write values = some bytes) : bytes.length = (values.map Prod.snd).sum := by
  induction values generalizing bytes with
  | nil =>
    cases h
    rfl
  | cons value values ih =>
    obtain ⟨first, hfirst, h⟩ := Option.bind_eq_some_iff.mp h
    obtain ⟨more, hmore, h⟩ := Option.bind_eq_some_iff.mp h
    cases h
    rw [length_append, ih hmore, (writeOctal_ok hfirst).1, numeral_length]
    rfl

theorem newc_new_length (crc : Bool) (fields : NewcFields) :
    (NewcHeader.new crc fields).length = newcHeaderLen := by
  rw [NewcHeader.new, length_append, length_flatMap]
  cases crc <;> simp [NewcHeader.values, writeHex, newcHeaderLen, newcMagic, newcCrcMagic]

theorem odc_new_length {fields : OdcFields} {bytes : List UInt8}
    (h : OdcHeader.new fields = some bytes) :
    bytes.length = odcHeaderLen := by
  obtain ⟨written, hwritten, rfl⟩ := Option.map_eq_some_iff.mp h
  rw [length_append, odc_write_length hwritten]
  rfl

theorem encodeNewc_ok {crc : Bool} {fields : Fields} {n : Nat} {bytes : List UInt8}
    (h : encodeNewc crc fields n = .ok bytes) :
    ∃ ino nlink mtime filesize namesize : UInt32, ino.toNat = fields.ino ∧
      nlink.toNat = fields.nlink ∧
      mtime.toNat = fields.mtime ∧ filesize.toNat = fields.len ∧ namesize.toNat = n ∧
      bytes = NewcHeader.new crc ⟨ino, fields.mode, fields.uid, fields.gid, nlink,
        mtime, filesize, 0, 0,
        fields.rdev.major, fields.rdev.minor, namesize, fields.check⟩ := by
  obtain ⟨ino, hino, h⟩ := except_bind_ok.mp h
  obtain ⟨nlink, hnlink, h⟩ := except_bind_ok.mp h
  obtain ⟨mtime, hmtime, h⟩ := except_bind_ok.mp h
  obtain ⟨filesize, hfilesize, h⟩ := except_bind_ok.mp h
  obtain ⟨namesize, hnamesize, h⟩ := except_bind_ok.mp h
  cases h
  exact ⟨ino, nlink, mtime, filesize, namesize, small_ok hino, small_ok hnlink, small_ok hmtime,
    small_ok hfilesize, small_ok hnamesize, rfl⟩

theorem encodeNewc_check {crc : Bool} {fields : Fields} {n : Nat} {bytes : List UInt8}
    (h : encodeNewc crc fields n = .ok bytes) (check : UInt32) :
    ∃ bytes, encodeNewc crc { fields with check := check } n = .ok bytes := by
  obtain ⟨ino, hino, h⟩ := except_bind_ok.mp h
  obtain ⟨nlink, hnlink, h⟩ := except_bind_ok.mp h
  obtain ⟨mtime, hmtime, h⟩ := except_bind_ok.mp h
  obtain ⟨filesize, hfilesize, h⟩ := except_bind_ok.mp h
  obtain ⟨namesize, hnamesize, h⟩ := except_bind_ok.mp h
  simp only [encodeNewc, hino, hnlink, hmtime, hfilesize, hnamesize]
  exact ⟨_, rfl⟩

theorem encodeOdc_ok {fields : Fields} {n : Nat} {bytes : List UInt8}
    (h : encodeOdc fields n = .ok bytes) :
    ∃ ino nlink rdev namesize : UInt32, ino.toNat = fields.ino ∧ nlink.toNat = fields.nlink ∧
      joinDev fields.rdev = some rdev ∧ namesize.toNat = n ∧
      OdcHeader.new ⟨0, ino, fields.mode, fields.uid, fields.gid, nlink, rdev,
        fields.mtime, namesize,
        fields.len⟩ = some bytes := by
  obtain ⟨ino, hino, h⟩ := except_bind_ok.mp h
  obtain ⟨nlink, hnlink, h⟩ := except_bind_ok.mp h
  obtain ⟨rdev, hrdev, h⟩ := except_bind_ok.mp h
  obtain ⟨namesize, hnamesize, h⟩ := except_bind_ok.mp h
  exact ⟨ino, nlink, rdev, namesize, small_ok hino, small_ok hnlink, orLimit_ok hrdev,
    small_ok hnamesize, orLimit_ok h⟩

section

variable {format : Format} {fields : Fields} {n : Nat} {bytes : List UInt8}

theorem encode_length (h : encode format fields n = .ok bytes) :
    bytes.length = headerLen format := by
  unfold encode at h
  split at h
  · cases h
  cases format with
  | newc =>
    obtain ⟨_, _, _, _, _, _, _, _, _, _, rfl⟩ := encodeNewc_ok h
    exact newc_new_length _ _
  | crc =>
    obtain ⟨_, _, _, _, _, _, _, _, _, _, rfl⟩ := encodeNewc_ok h
    exact newc_new_length _ _
  | odc =>
    obtain ⟨_, _, _, _, _, _, _, _, h⟩ := encodeOdc_ok h
    exact odc_new_length h
  | binary => cases h

theorem encode_len (h : encode format fields n = .ok bytes) :
    fields.len ≤ format.maxFileSize := by
  unfold encode at h
  split at h
  · cases h
  · exact Nat.not_lt.mp ‹_›

theorem encode_check (h : encode format fields n = .ok bytes) (check : UInt32) :
    ∃ bytes, encode format { fields with check := check } n = .ok bytes := by
  unfold encode at h ⊢
  split at h
  · cases h
  rw [if_neg ‹_›]
  cases format with
  | newc => exact encodeNewc_check h check
  | crc => exact encodeNewc_check h check
  | odc => exact ⟨bytes, h⟩
  | binary => cases h

end

end Hadris.Cpio

namespace Hadris.Cpio

open List

/-- An entry as an archive has it. -/
structure Entry where
  path : List UInt8
  fields : Fields
  data : List UInt8
deriving DecidableEq, Repr

def headerBytes (format : Format) (fields : Fields) (namesize : Nat) : List UInt8 :=
  match encode format fields namesize with
  | .ok bytes => bytes
  | .error _ => []

namespace Entry

/-- The entry of `data` under `path`, with its checksum in the formats that store
one. -/
def of (format : Format) (path : List UInt8) (fields : Fields) (data : List UInt8) : Entry :=
  { path := path
    fields := if format = .crc ∧ fields.mode &&& sIfmt = sIfreg
      then { fields with check := checksum 0 data } else fields
    data := data }

def trailer : Entry := ⟨trailerName, .trailer, []⟩

def front (format : Format) (entry : Entry) : List UInt8 :=
  headerBytes format entry.fields (entry.path.length + 1) ++ entry.path ++
    .replicate (1 + namePadding format (entry.path.length + 1)) 0

def bytes (format : Format) (entry : Entry) : List UInt8 :=
  entry.front format ++ entry.data ++ .replicate (dataPadding format entry.fields.len) 0

end Entry

def archive (format : Format) (entries : List Entry) : List UInt8 :=
  (entries ++ [Entry.trailer]).flatMap (Entry.bytes format)

def Data.data : Data → List UInt8
  | .none => []
  | .bytes data => data
  | .content source => source.data

def nodeData (node : Node) : List UInt8 :=
  match node.content, node.target with
  | some content, _ => content.data
  | none, some target => target
  | none, none => []

def written : Nat → List (List UInt8 × Nat) → List UInt8
  | _, [] => []
  | remaining, write :: rest =>
    if remaining < write.1.length then written remaining rest
    else write.1.take write.2 ++ written (remaining - (write.1.take write.2).length) rest

namespace Call

def entries (options : CpioOptions) (ino : Nat) : Call → List Entry
  | append path node =>
    match (Planner.new options).node node path with
    | .ok found => [Entry.of options.format path { found.1 with ino := ino } (nodeData node)]
    | .error _ => []
  | appendHardLinks paths node =>
    match (Planner.new options).node node (paths.getLast?.getD []) with
    | .ok found =>
      let fields := { found.1 with ino := ino, nlink := paths.length }
      (paths.dropLast.map fun path =>
        if options.format = .odc then Entry.of options.format path fields (nodeData node)
        else Entry.of options.format path { fields with len := 0 } []) ++
      paths.getLast?.toList.map fun path => Entry.of options.format path fields (nodeData node)
    | .error _ => []
  | appendFile path attrs len writes _ =>
    [Entry.of options.format path
      { (Planner.new options).fields attrs sIfreg 0o644 with len := len, ino := ino }
        (written len writes)]

def files : Call → List (List UInt8 × List UInt8)
  | append path node => if node.fileType = .file then [(path, nodeData node)] else []
  | appendHardLinks paths node => paths.map fun path => (path, nodeData node)
  | appendFile path _ len writes _ => [(path, written len writes)]

def entriesOf (options : CpioOptions) : Nat → List Call → List Entry
  | _, [] => []
  | ino, call :: rest => call.entries options ino ++ entriesOf options (ino + 1) rest

end Call

/-- The bytes of an extent. -/
def Extent.In (out : List UInt8) (extent : Extent) (data : List UInt8) : Prop :=
  extent.len = data.length ∧ ∃ front back, out = front ++ data ++ back ∧
    extent.offset = front.length

/-- Each extent pushed holds the data of its file. -/
def Holds (out : List UInt8) (pushed : List (List UInt8 × Extent))
    (files : List (List UInt8 × List UInt8)) : Prop :=
  List.Forall₂ (fun entry file => entry.1 = normalize file.1 ∧ Extent.In out entry.2 file.2)
    pushed files

theorem Extent.In.append {out data : List UInt8} {extent : Extent} (h : Extent.In out extent data)
    (more : List UInt8) : Extent.In (out ++ more) extent data := by
  obtain ⟨hlen, front, back, rfl, hoffset⟩ := h
  exact ⟨hlen, front, back ++ more, append_assoc _ _ _, hoffset⟩

theorem Holds.append {out : List UInt8} {pushed : List (List UInt8 × Extent)}
    {files : List (List UInt8 × List UInt8)} (h : Holds out pushed files) (more : List UInt8) :
    Holds (out ++ more) pushed files :=
  h.imp fun _ _ hin => ⟨hin.1, hin.2.append more⟩

end Hadris.Cpio

namespace Hadris.Cpio

open List

open Prog

theorem flatten_pieces {size fuel : Nat} {data : List UInt8} (hsize : 0 < size)
    (hfuel : data.length ≤ fuel) :
    (pieces size fuel data).flatten = data := by
  induction fuel generalizing data with
  | zero =>
    obtain rfl : data = [] := eq_nil_of_length_eq_zero (Nat.le_zero.mp hfuel)
    rfl
  | succ fuel ih =>
    rw [pieces]
    split
    · rename_i hnil
      rw [hnil]
      rfl
    · rename_i hne
      have hpos := length_pos_iff.mpr hne
      rw [flatten_cons, ih (by rw [length_drop]; omega), take_append_drop]

theorem flatten_requests {content : Content} (h : content.check = .ok ()) :
    (requests content).flatten = content.data :=
  flatten_pieces (by decide) (Content.data_length h).le

theorem foldl_checksum (sum : UInt32) (l : List (List UInt8)) :
    l.foldl checksum sum = checksum sum l.flatten := by
  induction l generalizing sum with
  | nil => rfl
  | cons data l ih => rw [foldl_cons, ih, flatten_cons, checksum, checksum,
      checksum, foldl_append]

theorem content_check_of {data : Data} {path : List UInt8} {content : Content}
    (h : checkData data path = .ok ()) (hdata : data = .content content) :
    content.check = .ok () := by
  rw [hdata, checkData] at h
  cases hcheck : content.check with
  | ok => rfl
  | error e =>
    rw [hcheck] at h
    cases h

theorem encode_of {format : Format} {fields : Fields} {n : Nat} {header : List UInt8}
    (h : encode format fields n = .ok header) (path data : List UInt8) :
    ∃ stored, encode format (Entry.of format path fields data).fields n = .ok stored := by
  simp only [Entry.of]
  split
  · exact encode_check h _
  · exact ⟨header, h⟩

namespace Writer

def wrote (w : Writer) (data : List UInt8) : Writer :=
  { w with out := w.out ++ data, bytes := w.bytes + data.length }

@[simp] theorem wrote_planner (w : Writer) (data : List UInt8) :
    (w.wrote data).planner = w.planner := rfl

@[simp] theorem wrote_openEntry (w : Writer) (data : List UInt8) :
    (w.wrote data).openEntry = w.openEntry := rfl

@[simp] theorem wrote_out (w : Writer) (data : List UInt8) :
    (w.wrote data).out = w.out ++ data := rfl

theorem wrote_wrote (w : Writer) (a b : List UInt8) : (w.wrote a).wrote b = w.wrote (a ++ b) := by
  simp only [wrote, append_assoc, length_append, Nat.add_assoc]

theorem run_put (data : List UInt8) (w : Writer) :
    (put data).run w = (.ok (), w.wrote data) := rfl

theorem run_each_put (l : List (List UInt8)) (w : Writer) :
    (each put l).run w = (.ok (), w.wrote l.flatten) := by
  induction l generalizing w with
  | nil =>
    rw [each, run_pure, flatten_nil, wrote, append_nil, length_nil, Nat.add_zero]
  | cons data l ih =>
    rw [each, run_bind_ok (run_put data w), ih, wrote_wrote]
    rfl

theorem run_header {w : Writer} {path header : List UInt8} {fields : Fields}
    (hsize : namesizeOf path = .ok (path.length + 1))
    (hheader : encode w.planner.format fields (path.length + 1) = .ok header) :
    (Writer.header path fields).run w =
      (.ok (), w.wrote (Entry.front w.planner.format ⟨path, fields, []⟩)) := by
  have hencoded : w.planner.header path fields (path.length + 1) = .ok header := by
    rw [Planner.header, hheader]
    rfl
  rw [Writer.header, hsize]
  rw [run_bind_ok (a := path.length + 1) (t := w) rfl, run_bind_ok (a := w.planner)
    (t := w) rfl, hencoded,
    run_bind_ok (a := header) (t := w) rfl, run_bind_ok (run_put header w),
      run_bind_ok (run_put path _),
    run_put, wrote_wrote, wrote_wrote, Entry.front, headerBytes, hheader]
  simp only [append_assoc]

theorem direct_data (data : Data) : (direct data).data = data.data := by
  rcases data with _ | data | (data | data | len | len) <;> rfl

theorem check_direct {data : Data} {path : List UInt8} (h : checkData data path = .ok ()) :
    checkData (direct data) path = .ok () := by
  rcases data with _ | data | (data | data | len | len) <;> first | rfl | cases h

theorem checkOf_eq {data : Data} {path : List UInt8} (h : checkData data path = .ok ()) :
    checkOf data = checksum 0 data.data := by
  cases data with
  | none => rfl
  | bytes data => rfl
  | content source =>
    rw [checkOf, foldl_checksum, flatten_requests (content_check_of h rfl), Data.data]

theorem run_payload {data : Data} {path : List UInt8} (h : checkData data path = .ok ())
    (w : Writer) :
    (payload data).run w = (.ok (), w.wrote data.data) := by
  cases data with
  | none => exact (run_each_put [] w)
  | bytes data => rfl
  | content source =>
    rw [payload, run_each_put, flatten_requests (content_check_of h rfl), Data.data]

theorem run_emit {w : Writer} {path header : List UInt8} {fields : Fields} {data : Data}
    (hdata : checkData data path = .ok ()) (hsize : namesizeOf path = .ok (path.length + 1))
    (hheader : encode w.planner.format fields (path.length + 1) = .ok header) :
    (emit path fields data).run w =
      (.ok (), w.wrote
        ((Entry.of w.planner.format path fields data.data).bytes w.planner.format)) := by
  have hdirect := check_direct hdata
  obtain ⟨stored, hstored⟩ := encode_of hheader path data.data
  rw [emit]
  dsimp only
  rw [hdirect, run_bind_ok (a := ()) (t := w) rfl, run_bind_ok (a := w.planner) (t := w) rfl,
    checkOf_eq hdirect, direct_data]
  refine (run_bind_ok (run_header hsize hstored) _).trans ?_
  rw [run_bind_ok (run_payload hdirect _), run_put, wrote_wrote, wrote_wrote,
    direct_data, Entry.bytes]
  simp only [append_assoc]
  rfl

end Writer

end Hadris.Cpio

namespace Hadris.Cpio

open List

theorem namesize_ok {path : List UInt8} {n : Nat} (h : namesize path = .ok n) :
    n = path.length + 1 ∧ path ≠ [] ∧ 0 ∉ path ∧ path ≠ trailerName ∧
      path.length + 1 ≤ pathMax := by
  rw [namesize] at h
  split at h
  · cases h
  rename_i hbad
  split at h
  · cases h
  rename_i hle
  cases h
  push Not at hbad
  exact ⟨rfl, hbad.1, hbad.2.1, hbad.2.2, Nat.not_lt.mp hle⟩

theorem namesizeOf_of_namesize {path : List UInt8} {n : Nat} (h : namesize path = .ok n) :
    Writer.namesizeOf path = .ok (path.length + 1) := by
  obtain ⟨rfl, _, _, hne, _⟩ := namesize_ok h
  rw [Writer.namesizeOf, if_neg hne, h]

theorem mapError_ok {ε ε' α : Type} {x : Except ε α} {f : ε → ε'} {a : α}
    (h : x.mapError f = .ok a) :
    x = .ok a := by
  cases x <;> cases h
  rfl

namespace Planner

variable {p : Planner} {path : List UInt8} {fields : Fields} {attrs : SetAttr}

theorem check_ok {len : Nat} (h : p.check path fields = .ok len) :
    namesize path = .ok (path.length + 1) ∧
      ∃ header, encode p.format fields (path.length + 1) = .ok header ∧
        len = header.length + (path.length + 1) + namePadding p.format (path.length + 1) := by
  obtain ⟨n, hn, h⟩ := except_bind_ok.mp h
  obtain ⟨header, hheader, h⟩ := except_bind_ok.mp h
  cases h
  obtain ⟨rfl, _⟩ := namesize_ok hn
  exact ⟨hn, header, mapError_ok hheader, rfl⟩

theorem entry_ok {entry : Nat × Planner} (h : p.entry path fields attrs = .ok entry) :
    ∃ len, p.check path fields = .ok len ∧ entry.1 = p.offset + len ∧
      entry.2.offset = p.offset + len + fields.len + dataPadding p.format fields.len ∧
      entry.2.format = p.format ∧ entry.2.time = p.time ∧ entry.2.nextIno = p.nextIno ∧
      entry.2.report = p.report := by
  obtain ⟨len, hlen, h⟩ := except_bind_ok.mp h
  cases h
  exact ⟨len, hlen, rfl, rfl, rfl, rfl, rfl, rfl⟩

theorem front_length {len : Nat} (h : p.check path fields = .ok len) (data : List UInt8) :
    ((Entry.of p.format path fields data).front p.format).length = len := by
  obtain ⟨_, header, hheader, rfl⟩ := check_ok h
  obtain ⟨stored, hstored⟩ := encode_of hheader path data
  have hpath : (Entry.of p.format path fields data).path = path := rfl
  rw [Entry.front, hpath, headerBytes, hstored]
  simp only [length_append, length_replicate]
  rw [encode_length hstored, encode_length hheader]
  omega

/-- The planner's offset is that of an output, in which its extents hold the data
of files. -/
structure Tracks (p : Planner) (out : List UInt8) (files : List (List UInt8 × List UInt8)) :
    Prop where
  offset : p.offset = out.length
  holds : Holds out p.report.pushed files

variable {out : List UInt8} {files : List (List UInt8 × List UInt8)}

theorem Tracks.entry (ht : p.Tracks out files) {entry : Nat × Planner}
    (h : p.entry path fields attrs = .ok entry) {data : List UInt8}
    (hdata : data.length = fields.len) :
    entry.2.Tracks (out ++ (Entry.of p.format path fields data).bytes p.format) files ∧
      Extent.In (out ++ (Entry.of p.format path fields data).bytes p.format)
        ⟨entry.1, fields.len⟩ data := by
  obtain ⟨len, hcheck, hstart, hoffset, _, _, _, hreport⟩ := entry_ok h
  have hfront := front_length hcheck data
  have hlen : (Entry.of p.format path fields data).fields.len = fields.len := by
    simp only [Entry.of]
    split <;> rfl
  have hbytes : (Entry.of p.format path fields data).bytes p.format =
      (Entry.of p.format path fields data).front p.format ++ data ++
        replicate (dataPadding p.format fields.len) 0 := by
    rw [Entry.bytes, hlen]
    rfl
  refine ⟨⟨?_, ?_⟩, ?_⟩
  · rw [hoffset, ht.offset, hbytes]
    simp only [length_append, length_replicate, hfront, hdata]
    omega
  · rw [hreport]
    exact ht.holds.append _
  · refine ⟨hdata.symm, out ++ (Entry.of p.format path fields data).front p.format,
      replicate (dataPadding p.format fields.len) 0, ?_, ?_⟩
    · rw [hbytes]
      simp only [append_assoc]
    · rw [length_append, hfront, hstart, ht.offset]

theorem Tracks.extent (ht : p.Tracks out files) {data : List UInt8} {offset len : Nat}
    (hin : Extent.In out ⟨offset, len⟩ data) (path : List UInt8) :
    (p.extent path offset len).Tracks out (files ++ [(path, data)]) := by
  refine ⟨ht.offset, ?_⟩
  exact rel_append ht.holds (.cons ⟨rfl, hin⟩ .nil)

theorem Tracks.takeIno (ht : p.Tracks out files) : p.takeIno.2.Tracks out files :=
  ⟨ht.offset, ht.holds⟩

end Planner

end Hadris.Cpio
