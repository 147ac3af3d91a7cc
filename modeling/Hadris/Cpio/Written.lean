import Hadris.Cpio.HardLinks
import Hadris.Cpio.ReadBack
import Hadris.Cpio.Placed

namespace Hadris.Cpio

open List

open Prog

section

variable {options : CpioOptions} {ino : Nat} {entries : List Entry}
variable {files : List (List UInt8 × List UInt8)} {w : Writer}

theorem run_open (h : w.openEntry = true) (call : Call) :
    ∃ e, call.run.run w = (.error e, w) := by
  have hbusy : ∀ {α : Type} (f : Unit → Prog Writer PathError α),
      ∃ e, (Writer.checkIdle >>= f).run w = (.error e, w) := by
    intro α f
    refine ⟨_, run_bind_error
      (e := .new .invalidInput "an entry from append_file was not finished") ?_ f⟩
    simp only [Writer.checkIdle, run_bind, run_gets, h]
    rfl
  cases call with
  | append path node => exact hbusy _
  | appendHardLinks paths node => exact hbusy _
  | appendFile path attrs len writes finished =>
    obtain ⟨e, he⟩ := hbusy _
    exact ⟨e, run_bind_error he _⟩

/-- A call is refused, and then nothing happened; or it is taken; or a file's
entry stays open. -/
theorem run_call (hs : Stands options ino entries files w) (call : Call) :
    (∃ e, call.run.run w = (.error e, w)) ∨
      (∃ w', call.run.run w = (.ok (), w') ∧
        Stands options (ino + 1) (entries ++ call.entries options ino) (files ++ call.files) w') ∨
      (call.run.run w).2.openEntry = true := by
  cases call with
  | append path node => exact (run_append hs path node).imp_right .inl
  | appendHardLinks paths node => exact (run_appendHardLinks hs paths node).imp_right .inl
  | appendFile path attrs len writes finished =>
    exact run_appendFile hs path attrs len writes finished

theorem runAll_open (h : w.openEntry = true) (calls : List Call) : Call.runAll calls w = w := by
  induction calls with
  | nil => rfl
  | cons call calls ih =>
    obtain ⟨e, he⟩ := run_open h call
    rw [Call.runAll, he]
    exact ih

theorem runAll_accepted (hs : Stands options ino entries files w) (calls : List Call)
    (hidle : (Call.runAll calls w).openEntry = false) :
    Stands options (ino + (Call.accepted calls w).length)
        (entries ++ Call.entriesOf options ino (Call.accepted calls w))
        (files ++ (Call.accepted calls w).flatMap Call.files) (Call.runAll calls w) ∧
      Call.runAll (Call.accepted calls w) w = Call.runAll calls w ∧
      Call.accepted (Call.accepted calls w) w = Call.accepted calls w := by
  induction calls generalizing ino entries files w with
  | nil =>
    refine ⟨?_, rfl, rfl⟩
    simpa [Call.accepted, Call.entriesOf, Call.runAll] using hs
  | cons call calls ih =>
    rw [Call.runAll] at hidle
    obtain ⟨e, he⟩ | ⟨w', hrun, hs'⟩ | hopen := run_call hs call
    · rw [he] at hidle
      have haccepted : Call.accepted (call :: calls) w = Call.accepted calls w := by
        rw [Call.accepted, he]
        rfl
      rw [haccepted, Call.runAll, he]
      exact ih hs hidle
    · rw [hrun] at hidle
      have haccepted : Call.accepted (call :: calls) w = call :: Call.accepted calls w' := by
        rw [Call.accepted, hrun]
        rfl
      obtain ⟨hstands, hsame, hagain⟩ := ih hs' hidle
      rw [haccepted, Call.runAll, Call.runAll, hrun, Call.accepted, hrun]
      refine ⟨?_, hsame, congrArg (call :: ·) hagain⟩
      rw [Call.entriesOf, flatMap_cons, length_cons, ← append_assoc, ← append_assoc,
        Nat.add_comm _ 1, ← Nat.add_assoc]
      exact hstands
    · rw [runAll_open hopen, hopen] at hidle
      cases hidle

theorem encode_trailer {format : Format} (h : format ≠ .binary) :
    ∃ header, encode format .trailer (trailerName.length + 1) = .ok header := by
  cases format with
  | newc => exact ⟨_, rfl⟩
  | crc => exact ⟨_, rfl⟩
  | odc => exact ⟨_, rfl⟩
  | binary => exact absurd rfl h

theorem pushed_foldl (warnings : List Warning) (report : Report) :
    (warnings.foldl Report.pushWarning report).pushed = report.pushed := by
  induction warnings generalizing report with
  | nil => rfl
  | cons warning warnings ih => exact ih _

theorem archive_eq (format : Format) (entries : List Entry) :
    archive format entries = entries.flatMap (Entry.bytes format) ++
      Entry.trailer.front format := by
  have hpadding : dataPadding format Entry.trailer.fields.len = 0 := by cases format <;> rfl
  have htrailer : Entry.trailer.bytes format = Entry.trailer.front format := by
    rw [Entry.bytes, hpadding, replicate_zero, append_nil]
    exact append_nil _
  rw [archive, flatMap_append, flatMap_singleton, htrailer]

theorem finish_tracks {p : Planner} {out : List UInt8} (h : p.Tracks out files) :
    p.finish.size = out.length ∧ Holds out p.finish.pushed files := by
  refine ⟨h.offset, ?_⟩
  rw [Planner.finish, Report.setSize, pushed_foldl]
  exact h.holds

theorem Planner.Tracks.trailer {p : Planner} {out : List UInt8} (h : p.Tracks out files)
    {format : Format} (hformat : p.format = format) (hwritten : format ≠ .binary) :
    ∃ q, p.trailer = .ok q ∧ q.format = format ∧
      q.Tracks (out ++ Entry.trailer.front format) files := by
  subst hformat
  obtain ⟨header, hheader⟩ := encode_trailer hwritten
  have hlength : (Entry.trailer.front p.format).length =
      header.length + (trailerName.length + 1) + namePadding p.format
        (trailerName.length + 1) := by
    have hpath : Entry.trailer.path = trailerName := rfl
    have hfields : Entry.trailer.fields = .trailer := rfl
    rw [Entry.front, hpath, hfields, headerBytes, hheader]
    simp only [length_append, length_replicate]
    omega
  refine ⟨{ p with offset := p.offset + (header.length + (trailerName.length + 1) +
    namePadding p.format (trailerName.length + 1)) }, ?_, rfl, ?_, h.holds.append _⟩
  · rw [Planner.trailer, hheader]
    rfl
  · rw [length_append, hlength]
    exact congrArg (· + _) h.offset

theorem run_writeTrailer {w : Writer} (hwritten : w.planner.format ≠ .binary) :
    Writer.writeTrailer.run w = (.ok (), w.wrote (Entry.trailer.front w.planner.format)) := by
  obtain ⟨header, hheader⟩ := encode_trailer hwritten
  exact Writer.run_header rfl hheader

theorem run_finish_stands (hs : Stands options ino entries files w)
    (hformat : options.format ≠ .binary) :
    ∃ report, (Writer.finish.run w).1 = .ok (archive options.format entries, report) ∧
      report.size = (archive options.format entries).length ∧
      Holds (archive options.format entries) report.pushed files := by
  obtain ⟨p, htrailer, hpformat, htracks⟩ := hs.tracks.trailer hs.format hformat
  have hrun := run_writeTrailer (w := { w with planner := p }) (by rw [hpformat]; exact hformat)
  obtain ⟨hsize, hholds⟩ := finish_tracks htracks
  rw [archive_eq, ← hs.out]
  refine ⟨p.finish, ?_, hsize, hholds⟩
  rw [Writer.finish, run_bind_ok (run_checkIdle hs.idle),
    run_bind_ok (a := w.planner) (t := w) rfl,
    htrailer, run_bind_ok (a := p) (t := w) rfl,
      run_bind_ok (a := ()) (t := { w with planner := p }) rfl,
    run_bind_ok hrun, hpformat]
  rfl

end

/-- In the formats that are written, and when no file's entry is left open, the
calls that are refused leave no trace: the writer finishes with the archive of
the others, as it does when they alone are made, and the report has its size and
where each file's data is. -/
theorem finish_accepted {options : CpioOptions} (hformat : options.format ≠ .binary)
    (calls : List Call) (hidle : (Call.runAll calls (.new options)).openEntry = false) :
    Call.accepted (Call.accepted calls (.new options)) (.new options) =
        Call.accepted calls (.new options) ∧
      Writer.finish.run (Call.runAll (Call.accepted calls (.new options)) (.new options)) =
        Writer.finish.run (Call.runAll calls (.new options)) ∧
      ∃ report, (Writer.finish.run (Call.runAll calls (.new options))).1 = .ok
          (archive options.format (Call.entriesOf options 1 (Call.accepted calls (.new options))),
            report) ∧
        report.size =
          (archive options.format
            (Call.entriesOf options 1 (Call.accepted calls (.new options)))).length ∧
        Holds (archive options.format
          (Call.entriesOf options 1 (Call.accepted calls (.new options))))
          report.pushed ((Call.accepted calls (.new options)).flatMap Call.files) := by
  obtain ⟨hstands, hsame, hagain⟩ := runAll_accepted (stands_new options) calls hidle
  refine ⟨hagain, ?_, ?_⟩
  · rw [hsame]
  · rw [nil_append, nil_append] at hstands
    exact run_finish_stands hstands hformat

/-- A directory, a link group whose second name is empty, and a file that is
first given too many bytes. -/
def mixedCalls : List Call :=
  [.append [0x64] .dir, .appendHardLinks [[0x61], []] (.file .empty),
    .appendFile [0x66] .new 2 [([1, 2, 3], 3), ([1, 2], 2)] true]

theorem finish_accepted_mixed :
    Call.accepted mixedCalls (.new ⟨.newc, none⟩) =
        [.append [0x64] .dir, .appendFile [0x66] .new 2 [([1, 2, 3], 3), ([1, 2], 2)] true] ∧
      Writer.finish.run (Call.runAll (Call.accepted mixedCalls (.new ⟨.newc, none⟩))
        (.new ⟨.newc, none⟩)) =
        Writer.finish.run (Call.runAll mixedCalls (.new ⟨.newc, none⟩)) :=
  ⟨by decide, (@finish_accepted ⟨.newc, none⟩ (by decide) mixedCalls (by decide)).2.1⟩

/-- In the old binary format every call is refused, and `finish` too; and so it is
when a file was given fewer bytes than announced. -/
theorem finish_refused :
    Call.accepted [.append [0x64] .dir] (.new ⟨.binary, none⟩) = [] ∧
      (Writer.finish.run (Call.runAll [.append [0x64] .dir] (.new ⟨.binary, none⟩))).1 =
        .error ⟨Detail.format.error .unsupported, none⟩ ∧
      (Writer.finish.run
        (Call.runAll [.appendFile [0x66] .new 2 [([1], 1)] true, .append [0x64] .dir]
        (.new ⟨.newc, none⟩))).1 =
        .error (.new .invalidInput "an entry from append_file was not finished") :=
  ⟨by decide, rfl, rfl⟩

end Hadris.Cpio

namespace Hadris.Cpio

open List

open Prog

def regularFiles (t : Tree) : List (List UInt8 × List UInt8) :=
  t.places.filterMap fun place => (t.live place.2).bind fun slot =>
    if slot.node.fileType = .file then some (joined place.1, nodeData slot.node) else none

variable {t : Tree} {options : CpioOptions} {done : List Place} {s : Planning} {e : Planned}
variable {slot : Slot} {text : List UInt8} {c : Bool}

theorem laid_places (ht : t.WellFormed) (options : CpioOptions) :
    laid t options t.places = regularFiles t := by
  apply filterMap_congr
  rintro ⟨path, id⟩ hmem
  obtain ⟨q, name, i, _, _, hchild⟩ := ht.place_split hmem
  obtain ⟨slot, hslot⟩ := Option.isSome_iff_exists.mp (ht.consistent.child hchild).2.2
  have hlinks : times t.places id = slot.links :=
    (ht.links_eq (ht.consistent.child hchild).2.1 hslot).symm
  have hcarries : carries options slot (times t.places id) = true :=
    decide_eq_true (.inr (.inr hlinks))
  rw [laidAt_same hslot (path, id) rfl, hcarries]
  simp [hslot]

theorem Placed.entryOf (h : Placed t options done s) (he : e ∈ s.out) :
    ∃ slot text c, EntryOf options slot text c e := by
  obtain ⟨k, hk⟩ := getElem?_of_mem he
  have hlt := (List.getElem?_eq_some_iff.mp hk).1
  rw [h.length] at hlt
  obtain ⟨slot, _, hof⟩ := h.entry (getElem?_eq_getElem hlt) hk
  exact ⟨slot, _, _, hof⟩

theorem and_or_mask {a b m : UInt32} (ha : a &&& m = a) (hb : b &&& m = 0) :
    (a ||| b) &&& m = a := by
  apply UInt32.toBitVec_inj.mp
  rw [UInt32.toBitVec_and, UInt32.toBitVec_or,
    BitVec.and_or_distrib_right, ← UInt32.toBitVec_and, ha, ← UInt32.toBitVec_and, hb]
  exact BitVec.or_zero

theorem fileType_modeOf (type : FileType) {bits : UInt32} (h : bits &&& permissionMask = bits) :
    fileType ((Planner.modeOf type).1 ||| bits) = some type := by
  have hmask : permissionMask &&& sIfmt = 0 := by decide
  have hbits : bits &&& sIfmt = 0 := by rw [← h, UInt32.and_assoc, hmask, UInt32.and_zero]
  have htype : ((Planner.modeOf type).1 ||| bits) &&& sIfmt = (Planner.modeOf type).1 :=
    and_or_mask (by cases type <;> rfl) hbits
  rw [fileType, htype]
  cases type <;> rfl

def permissionsOf (node : Node) : UInt32 :=
  (node.attrs.permissions.map Permissions.bits).getD (Planner.modeOf node.fileType).2

theorem permissionsOf_masked (node : Node) :
    permissionsOf node &&& permissionMask = permissionsOf node := by
  rw [permissionsOf]
  cases node.attrs.permissions with
  | none => cases node.fileType <;> rfl
  | some permissions => exact permissions.masked

namespace Planner

variable {p : Planner} {node : Node} {path : List UInt8} {found : Fields × Data}

theorem node_fields (h : p.node node path = .ok found) :
    found.1 =
      { ino := 0
        mode := (modeOf node.fileType).1 ||| permissionsOf node
        uid := (node.attrs.owner.map Owner.uid).getD 0
        gid := (node.attrs.owner.map Owner.gid).getD 0
        nlink := if node.fileType = .dir then 2 else 1
        mtime := p.mtime node.attrs
        len := found.1.len
        rdev := node.device.getD ⟨0, 0⟩
        check := 0 } := by
  obtain ⟨kind, attrs⟩ := node
  cases kind with
  | file content =>
    cases h
    rfl
  | dir =>
    cases h
    rfl
  | symlink target =>
    simp only [Planner.node, Node.content, Node.target] at h
    split at h <;> cases h
    rfl
  | special type device =>
    cases h
    cases type <;> rfl

end Planner

theorem EntryOf.fields (h : EntryOf options slot text c e) :
    e.fields =
      { ino := e.fields.ino
        mode := (Planner.modeOf slot.node.fileType).1 ||| permissionsOf slot.node
        uid := (slot.node.attrs.owner.map Owner.uid).getD 0
        gid := (slot.node.attrs.owner.map Owner.gid).getD 0
        nlink := if IsGroup slot then slot.links else if slot.node.fileType = .dir then 2 else 1
        mtime := (Planner.new options).mtime slot.node.attrs
        len := e.fields.len
        rdev := slot.node.device.getD ⟨0, 0⟩
        check := 0 } := by
  obtain ⟨found, hfound, hfields, _⟩ := h.node
  have hnode := Planner.node_fields hfound
  rw [fieldsOf, hnode] at hfields
  rw [hfields]

theorem EntryOf.good (h : EntryOf options slot text c e)
    (hdata : checkData e.data e.path = .ok ()) :
    (e.entry options.format).Good options.format := by
  have hfields := h.fields
  obtain ⟨len, hcheck⟩ := h.check
  obtain ⟨hname, header, hheader, _⟩ := Planner.check_ok hcheck
  rw [← h.path_eq] at hname hheader
  have hmode : fileType e.fields.mode = some slot.node.fileType := by
    rw [hfields]
    exact fileType_modeOf _ (permissionsOf_masked _)
  have hsame : (e.entry options.format).fields.mode = e.fields.mode ∧
      (e.entry options.format).fields.len = e.fields.len := by
    simp only [Planned.entry, Entry.of]
    split <;> exact ⟨rfl, rfl⟩
  refine ⟨encode_of hheader _ _, hname, ?_, ?_, ?_, ?_⟩
  · rw [hsame.2]
    exact h.data_length hdata
  · rw [hsame.1, hmode]
    rfl
  · intro hnewc
    have hplain : ¬ (options.format = .crc ∧ e.fields.mode &&& sIfmt = sIfreg) := by
      rw [hnewc]
      rintro ⟨h, -⟩
      cases h
    rw [Planned.entry, Entry.of, if_neg hplain, hfields]
  · intro hcrc hregular
    rw [hsame.1] at hregular
    simp only [Planned.entry, Entry.of]
    rw [if_pos ⟨hcrc, hregular⟩]

theorem checkAllData_ok {planned : List Planned} (h : checkAllData planned = .ok ()) :
    ∀ e ∈ planned, checkData e.data e.path = .ok () := by
  induction planned with
  | nil => exact fun _ he => nomatch he
  | cons first planned ih =>
    obtain ⟨_, hfirst, h⟩ := except_bind_ok.mp h
    intro e he
    rcases mem_cons.mp he with rfl | he
    · exact hfirst
    · exact ih h e he

theorem planTree_ok (ht : t.WellFormed) {planned : List Planned} {report : Report}
    (h : planTree t options = .ok (planned, report)) :
    ∃ s p, Planning.visit t t.places (.new options) = .ok s ∧ planned = s.out ∧
      s.planner.trailer = .ok p ∧
      report = p.finish ∧ options.format ≠ .binary := by
  obtain ⟨s, hs, h⟩ := except_bind_ok.mp h
  obtain ⟨p, hp, h⟩ := except_bind_ok.mp h
  cases h
  rw [Planning.loop_places ht] at hs
  refine ⟨s, p, hs, rfl, mapError_ok hp, rfl, ?_⟩
  intro hbinary
  obtain ⟨header, hheader, _⟩ := except_bind_ok.mp (mapError_ok hp)
  have hformat := (visit_placed ht prefix_rfl hs).format
  rw [hformat, hbinary] at hheader
  cases mapError_ok hheader

theorem run_emitPlanned {planned : List Planned} {w : Writer}
    (hformat : w.planner.format = options.format)
    (hcheck : ∀ e ∈ planned, ∃ len, (Planner.new options).check e.path e.fields = .ok len)
    (hdata : ∀ e ∈ planned, checkData e.data e.path = .ok ()) :
    (each (fun e : Planned => Writer.emit e.path e.fields e.data) planned).run w =
      (.ok (), w.wrote
        (planned.flatMap fun e => (e.entry options.format).bytes options.format)) := by
  induction planned generalizing w with
  | nil => exact Writer.run_each_put [] w
  | cons e planned ih =>
    obtain ⟨len, hlen⟩ := hcheck e mem_cons_self
    obtain ⟨entry, hentry⟩ := Planner.entry_of_check hlen .new
    rw [each, run_bind_ok (run_emit_entry hentry (hdata e mem_cons_self) hformat),
      ih (w := w.wrote _) hformat (fun e he => hcheck e (mem_cons_of_mem _ he))
        (fun e he => hdata e (mem_cons_of_mem _ he)), Writer.wrote_wrote]
    rfl

theorem write_ok (ht : t.WellFormed) {planned : List Planned} {report : Report}
    (h : planTree t options = .ok (planned, report)) (hdata : checkAllData planned = .ok ()) :
    write t options =
      .ok (archive options.format (planned.map (Planned.entry options.format)), report) ∧
      report.size = (archive options.format (planned.map (Planned.entry options.format))).length ∧
      ∃ files, files.Perm (regularFiles t) ∧
        Holds (archive options.format (planned.map (Planned.entry options.format)))
          report.pushed files := by
  obtain ⟨s, p, hs, rfl, hp, rfl, hformat⟩ := planTree_ok ht h
  have hplaced := visit_placed ht prefix_rfl hs
  have hchecked := checkAllData_ok hdata
  obtain ⟨files, hperm, htracks⟩ := visit_tracks ht prefix_rfl hs hchecked
  obtain ⟨q, hq, _, htracks⟩ := htracks.trailer hplaced.format hformat
  cases hp.symm.trans hq
  have hout : archive options.format (s.out.map (Planned.entry options.format)) =
      (s.out.flatMap fun e => (e.entry options.format).bytes options.format) ++
        Entry.trailer.front options.format := by
    rw [archive_eq, flatMap_map]
  obtain ⟨hsize, hholds⟩ := finish_tracks htracks
  rw [laid_places ht] at hperm
  rw [hout]
  refine ⟨?_, hsize, files, hperm, hholds⟩
  have hemit := run_emitPlanned (w := .new options) rfl (fun e he => by
    obtain ⟨_, _, _, hof⟩ := hplaced.entryOf he
    rw [hof.path_eq]
    exact hof.check) hchecked
  have hrun : ((do
      each (fun e : Planned => Writer.emit e.path e.fields e.data) s.out
      Writer.writeTrailer : Prog Writer PathError Unit).run (.new options)) =
      (.ok (), ((Writer.new options).wrote (s.out.flatMap fun e =>
        (e.entry options.format).bytes options.format)).wrote
          (Entry.trailer.front options.format)) := by
    rw [run_bind_ok hemit, run_writeTrailer hformat]
    rfl
  rw [write, h]
  change (((checkAllData s.out).mapError Fault.error >>= fun _ => _) : Except
    (Fault PathError) _) = _
  rw [hdata]
  simp only [hrun]
  rfl

end Hadris.Cpio
