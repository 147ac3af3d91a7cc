import Hadris.Cpio.Archive

namespace Hadris.Cpio

open List

open Prog

namespace Planner

variable {p q : Planner} {node : Node} {path : List UInt8} {found : Fields × Data}

theorem fields_congr (hformat : p.format = q.format) (htime : p.time = q.time) (attrs : SetAttr)
    (kind defaultMode : UInt32) : p.fields attrs kind defaultMode =
      q.fields attrs kind defaultMode := by
  have hmtime : p.mtime attrs = q.mtime attrs := by
    simp only [mtime, asked, maxTime, hformat, htime]
  simp only [fields, hmtime]

theorem node_congr (hformat : p.format = q.format) (htime : p.time = q.time) (node : Node)
    (path : List UInt8) : p.node node path = q.node node path := by
  simp only [Planner.node, fields_congr hformat htime]

theorem node_data (h : p.node node path = .ok found) : found.2.data = nodeData node := by
  simp only [Planner.node] at h
  rw [nodeData]
  rcases hcontent : node.content with _ | content <;> rcases htarget :
    node.target with _ | target <;>
    simp only [hcontent, htarget] at h
  · cases h
    rfl
  · split at h <;> cases h
    rfl
  · cases h
    rfl
  · cases h
    rfl

theorem node_length (h : p.node node path = .ok found) (hdata : checkData found.2 path = .ok ()) :
    found.2.data.length = found.1.len := by
  simp only [Planner.node] at h
  rcases hcontent : node.content with _ | content <;> rcases htarget :
    node.target with _ | target <;>
    simp only [hcontent, htarget] at h
  · cases h
    split <;> rfl
  · split at h <;> cases h
    rfl
  · cases h
    exact Content.data_length (content_check_of hdata rfl)
  · cases h
    exact Content.data_length (content_check_of hdata rfl)

end Planner

/-- What an idle writer has taken: entries and the files in them. -/
structure Stands (options : CpioOptions) (ino : Nat) (entries : List Entry)
    (files : List (List UInt8 × List UInt8)) (w : Writer) : Prop where
  idle : w.openEntry = false
  format : w.planner.format = options.format
  time : w.planner.time = options.time
  ino : w.planner.nextIno = ino
  out : w.out = entries.flatMap (Entry.bytes options.format)
  tracks : w.planner.Tracks w.out files

section

variable {options : CpioOptions} {ino : Nat} {entries : List Entry}
variable {files : List (List UInt8 × List UInt8)} {w : Writer}

theorem stands_new (options : CpioOptions) : Stands options 1 [] [] (.new options) :=
  ⟨rfl, rfl, rfl, rfl, rfl, ⟨rfl, .nil⟩⟩

theorem run_checkIdle (h : w.openEntry = false) : Writer.checkIdle.run w = (.ok (), w) := by
  simp only [Writer.checkIdle, run_bind, run_gets, h]
  rfl

theorem run_emit_entry {p : Planner} {path : List UInt8} {fields : Fields} {attrs : SetAttr}
    {entry : Nat × Planner} {data : Data} (hentry : p.entry path fields attrs = .ok entry)
    (hdata : checkData data path = .ok ()) (hformat : w.planner.format = p.format) :
    (Writer.emit path fields data).run w =
      (.ok (), w.wrote ((Entry.of p.format path fields data.data).bytes p.format)) := by
  obtain ⟨len, hcheck, _⟩ := Planner.entry_ok hentry
  obtain ⟨hsize, header, hheader, _⟩ := Planner.check_ok hcheck
  rw [← hformat] at hheader ⊢
  exact Writer.run_emit hdata (namesizeOf_of_namesize hsize) hheader

theorem Stands.wrote {p : Planner} {ino' : Nat} {more : List Entry}
    {files' : List (List UInt8 × List UInt8)} (hs : Stands options ino entries files w)
    (hformat : p.format = options.format) (htime : p.time = options.time)
    (hino : p.nextIno = ino')
    (htracks : p.Tracks (w.out ++ more.flatMap (Entry.bytes options.format)) files') :
    Stands options ino' (entries ++ more) files'
      (Writer.wrote { w with planner := p } (more.flatMap (Entry.bytes options.format))) := by
  refine ⟨hs.idle, hformat, htime, hino, ?_, htracks⟩
  rw [Writer.wrote_out, hs.out, flatMap_append]

theorem run_append (hs : Stands options ino entries files w) (path : List UInt8) (node : Node) :
    (∃ e, (Writer.append path node).run w = (.error e, w)) ∨
      ∃ w', (Writer.append path node).run w = (.ok (), w') ∧
        Stands options (ino + 1) (entries ++ (Call.append path node).entries options ino)
          (files ++ (Call.append path node).files) w' := by
  have hnode := Planner.node_congr (q := .new options) hs.format hs.time node path
  rw [Writer.append, run_bind_ok (run_checkIdle hs.idle),
    run_bind_ok (a := w.planner) (t := w) rfl]
  rcases hfound : w.planner.node node path with e | found
  · exact .inl ⟨e, rfl⟩
  rw [run_bind_ok (a := found) (t := w) rfl]
  rcases hdata : checkData found.2 path with e | ⟨⟩
  · exact .inl ⟨e, rfl⟩
  rw [run_bind_ok (a := ()) (t := w) rfl]
  dsimp only
  rcases hentry : w.planner.entry path { found.1 with ino := w.planner.ino }
    node.attrs with e | entry
  · exact .inl ⟨e, rfl⟩
  rw [run_bind_ok (a := entry) (t := w) rfl]
  obtain ⟨_, _, _, _, hformat, htime, hino, _⟩ := Planner.entry_ok hentry
  have hlen : found.2.data.length = found.1.len := Planner.node_length hfound hdata
  obtain ⟨htracks, hin⟩ := hs.tracks.entry hentry hlen
  have hino' : w.planner.ino = ino := hs.ino
  rw [Planner.node_data hfound, hs.format, hino'] at htracks hin
  have hadded : (Call.append path node).entries options ino =
      [Entry.of options.format path { found.1 with ino := ino } (nodeData node)] := by
    rw [hnode] at hfound
    rw [Call.entries, hfound]
  have hflat : (flatMap (Entry.bytes options.format)
      [Entry.of options.format path { found.1 with ino := ino } (nodeData node)]) =
      (Entry.of options.format path { found.1 with ino := ino } (nodeData node)).bytes
        options.format :=
    flatMap_singleton _ _
  have hrun : ∀ p : Planner, p.format = w.planner.format →
      (Writer.setPlanner p >>= fun _ =>
        Writer.emit path { found.1 with ino := w.planner.ino } found.2).run w =
      (.ok (), Writer.wrote { w with planner := p } ([Entry.of options.format path
        { found.1 with ino := ino } (nodeData node)].flatMap (Entry.bytes options.format))) := by
    intro p hp
    refine (run_bind_ok (t := { w with planner := p }) rfl _).trans ?_
    rw [run_emit_entry hentry hdata hp, Planner.node_data hfound, hs.format, hino', hflat]
  rw [← hflat] at htracks hin
  rw [hadded, Call.files]
  refine .inr ⟨_, hrun _ ?_, ?_⟩
  · split
    · exact hformat
    · exact hformat
  · split
    · exact hs.wrote (hformat.trans hs.format) (htime.trans hs.time)
        (congrArg Nat.succ (hino.trans hs.ino))
        (htracks.takeIno.extent hin path)
    · rw [append_nil]
      exact hs.wrote (hformat.trans hs.format) (htime.trans hs.time)
        (congrArg Nat.succ (hino.trans hs.ino))
        htracks.takeIno

theorem written_length (remaining : Nat) (writes : List (List UInt8 × Nat)) :
    (written remaining writes).length ≤ remaining := by
  induction writes generalizing remaining with
  | nil => exact Nat.zero_le _
  | cons write rest ih =>
    rw [written]
    split
    · exact ih remaining
    · have htaken := length_take_le' write.2 write.1
      have hrest := ih (remaining - (write.1.take write.2).length)
      rw [length_append]
      omega

theorem run_writeAll (writes : List (List UInt8 × Nat)) (entry : EntryWriter) (w : Writer) :
    (EntryWriter.writeAll writes entry).run w =
      (.ok { entry with remaining := entry.remaining - (written entry.remaining writes).length },
        w.wrote (written entry.remaining writes)) := by
  induction writes generalizing entry w with
  | nil =>
    have hnone : w.wrote [] = w := by simp [Writer.wrote]
    rw [EntryWriter.writeAll, run_pure, written, hnone]
    rfl
  | cons write rest ih =>
    rw [EntryWriter.writeAll, written]
    by_cases hlong : entry.remaining < write.1.length
    · have hwrite : (entry.write write.1 write.2).run w = (.error invalid, w) := by
        rw [EntryWriter.write, if_pos hlong]
        rfl
      rw [if_pos hlong, run_bind_ok (a := .error invalid) (t := w)
        (by simp only [attempt, hwrite]), ih]
    · have hwrite : (entry.write write.1 write.2).run w =
          (.ok { entry with remaining := entry.remaining - (write.1.take write.2).length },
            w.wrote (write.1.take write.2)) := by
        rw [EntryWriter.write, if_neg hlong]
        rfl
      rw [if_neg hlong, run_bind_ok (a := .ok { entry with
          remaining := entry.remaining - (write.1.take write.2).length })
        (t := w.wrote (write.1.take write.2)) (by simp only [attempt, hwrite]),
          ih, Writer.wrote_wrote,
        length_append, ← Nat.sub_sub]

theorem run_finish {entry : EntryWriter} {p : Planner} {e : Entry} (hidle : w.openEntry = false)
    (hremaining : entry.remaining = 0) (hlen : e.fields.len = entry.len) :
    entry.finish.run
      ((Writer.wrote { (Writer.wrote { w with planner := p } (e.front p.format)) with
        openEntry := true } e.data)) =
      (.ok (), Writer.wrote { w with planner := p } (e.bytes p.format)) := by
  rw [EntryWriter.finish, if_neg (not_not.mpr hremaining), Entry.bytes, hlen]
  refine Prod.ext rfl ?_
  simp only [run_bind, run_gets, Writer.run_put, run_modify, Writer.wrote, append_assoc,
    length_append, Nat.add_assoc, hidle]

/-- A file is refused, and then nothing happened; or it is taken with all its
data; or its entry stays open. -/
theorem run_appendFile (hs : Stands options ino entries files w) (path : List UInt8)
    (attrs : SetAttr) (len : Nat) (writes : List (List UInt8 × Nat)) (finished : Bool) :
    (∃ e, (Call.appendFile path attrs len writes finished).run.run w = (.error e, w)) ∨
      (∃ w', (Call.appendFile path attrs len writes finished).run.run w = (.ok (), w') ∧
        Stands options (ino + 1)
          (entries ++ (Call.appendFile path attrs len writes finished).entries options ino)
          (files ++ (Call.appendFile path attrs len writes finished).files) w') ∨
      ((Call.appendFile path attrs len writes finished).run.run w).2.openEntry = true := by
  have hino' : w.planner.ino = ino := hs.ino
  rw [Call.run, Writer.appendFile, Call.entries, Call.files]
  simp only [bind_assoc]
  rw [run_bind_ok (run_checkIdle hs.idle), run_bind_ok (a := w.planner) (t := w) rfl]
  by_cases hcrc : w.planner.format = .crc
  · rw [if_pos hcrc]
    exact .inl ⟨_, rfl⟩
  rw [if_neg hcrc, hino', Planner.fields_congr (q := .new options) hs.format hs.time]
  simp only [bind_assoc]
  generalize hfields :
    { (Planner.new options).fields attrs sIfreg 0o644 with len := len, ino := ino } = fields
  have hflen : fields.len = len := by rw [← hfields]
  rcases hentry : w.planner.entry path fields attrs with e | entry
  · exact .inl ⟨e, rfl⟩
  rw [run_bind_ok (a := entry) (t := w) rfl]
  refine .inr ?_
  obtain ⟨_, hcheck, _, _, hformat, htime, hino, _⟩ := Planner.entry_ok hentry
  obtain ⟨hsize, header, hheader, _⟩ := Planner.check_ok hcheck
  rw [run_bind_ok (a := ()) (t := { w with planner := entry.2.takeIno.2.extent path entry.1 len })
    rfl]
  rw [← hformat] at hheader
  have hhead := Writer.run_header
    (w := { w with planner := entry.2.takeIno.2.extent path entry.1 len })
    (namesizeOf_of_namesize hsize) hheader
  rw [run_bind_ok hhead, run_bind_ok (a := ()) rfl, pure_bind,
    run_bind_ok (run_writeAll writes _ _)]
  by_cases hfinished : finished = true ∧ len - (written len writes).length = 0
  case neg =>
    refine .inr ?_
    by_cases hfin : finished = true
    · rw [if_pos hfin, EntryWriter.finish, if_pos fun hzero => hfinished ⟨hfin, hzero⟩]
      rfl
    · rw [if_neg hfin]
      rfl
  obtain ⟨hfin, hzero⟩ := hfinished
  have hle := written_length len writes
  obtain ⟨htracks, hin⟩ := hs.tracks.entry hentry
    (show (written len writes).length = fields.len by omega)
  have hplain : Entry.of w.planner.format path fields (written len writes) =
      ⟨path, fields, written len writes⟩ := by
    rw [Entry.of, if_neg fun h => hcrc h.1]
  rw [hplain, hs.format, ← flatMap_singleton (Entry.bytes options.format)] at htracks
  rw [hplain, hs.format, ← flatMap_singleton (Entry.bytes options.format), hflen] at hin
  have hstands := hs.wrote (p := entry.2.takeIno.2.extent path entry.1 len)
    (hformat.trans hs.format)
    (htime.trans hs.time) (congrArg Nat.succ (hino.trans hs.ino))
      (htracks.takeIno.extent hin path)
  rw [hs.format] at hplain
  rw [hplain, if_pos hfin]
  refine .inl ⟨_, (run_finish (p := entry.2.takeIno.2.extent path entry.1 len)
    (e := ⟨path, fields, written len writes⟩) hs.idle hzero hflen).trans ?_, hstands⟩
  rw [flatMap_singleton, show (entry.2.takeIno.2.extent path entry.1 len).format =
    options.format from
    hformat.trans hs.format]

end

end Hadris.Cpio

namespace Hadris.Cpio

open List

open Prog

namespace Planner

variable {p q : Planner} {path : List UInt8} {fields : Fields}

theorem check_congr (h : p.format = q.format) (path : List UInt8) (fields : Fields) :
    p.check path fields = q.check path fields := by
  simp only [Planner.check, Planner.header, h]

theorem entry_of_check {len : Nat} (h : p.check path fields = .ok len) (attrs : SetAttr) :
    ∃ entry, p.entry path fields attrs = .ok entry := by
  rw [Planner.entry, h]
  exact ⟨_, rfl⟩

/-- A planner lays out the entries `added`, which names `files`, without taking an
inode number. -/
structure Laid (p q : Planner) (added : List UInt8) (files : List (List UInt8 × List UInt8)) :
    Prop where
  format : q.format = p.format
  time : q.time = p.time
  nextIno : q.nextIno = p.nextIno
  tracks : ∀ out before, p.Tracks out before → q.Tracks (out ++ added) (before ++ files)

theorem Laid.trans {r : Planner} {added added' : List UInt8}
    {files files' : List (List UInt8 × List UInt8)} (h : p.Laid q added files)
    (h' : q.Laid r added' files') : p.Laid r (added ++ added') (files ++ files') := by
  refine ⟨h'.format.trans h.format, h'.time.trans h.time, h'.nextIno.trans h.nextIno, ?_⟩
  intro out before ht
  rw [← append_assoc, ← append_assoc]
  exact h'.tracks _ _ (h.tracks out before ht)

theorem Laid.refl (p : Planner) : p.Laid p [] [] := by
  refine ⟨rfl, rfl, rfl, ?_⟩
  intro out before ht
  rwa [append_nil, append_nil]

def extents (p : Planner) (named : List (List UInt8)) (offset len : Nat) : Planner :=
  named.foldl (fun planner path => planner.extent path offset len) p

theorem extents_kept (p : Planner) (named : List (List UInt8)) (offset len : Nat) :
    (p.extents named offset len).format = p.format ∧ (p.extents named offset len).time = p.time ∧
      (p.extents named offset len).nextIno = p.nextIno := by
  induction named generalizing p with
  | nil => exact ⟨rfl, rfl, rfl⟩
  | cons name named ih => exact ih (p.extent name offset len)

theorem Tracks.extents {out data : List UInt8} {files : List (List UInt8 × List UInt8)}
    {offset len : Nat} (ht : p.Tracks out files) (hin : Extent.In out ⟨offset, len⟩ data)
    (named : List (List UInt8)) :
    (p.extents named offset len).Tracks out (files ++ named.map fun path => (path, data)) := by
  induction named generalizing p files with
  | nil =>
    rw [map_nil, append_nil]
    exact ht
  | cons name named ih =>
    rw [map_cons, append_cons]
    exact ih (ht.extent hin name)

theorem laid_entry {attrs : SetAttr} {entry : Nat × Planner} {data : List UInt8}
    (h : p.entry path fields attrs = .ok entry) (hdata : data.length = fields.len)
    (named : List (List UInt8)) :
    p.Laid (entry.2.extents named entry.1 fields.len)
      ((Entry.of p.format path fields data).bytes p.format)
        (named.map fun path => (path, data)) := by
  obtain ⟨_, _, _, _, hformat, htime, hino, _⟩ := entry_ok h
  obtain ⟨hformat', htime', hino'⟩ := entry.2.extents_kept named entry.1 fields.len
  refine ⟨hformat'.trans hformat, htime'.trans htime, hino'.trans hino, ?_⟩
  intro out before ht
  obtain ⟨htracks, hin⟩ := ht.entry h hdata
  exact htracks.extents hin named

end Planner

section

variable {w : Writer} {fields : Fields} {attrs : SetAttr} {data : Data}
  {first : List (List UInt8)}

theorem checkAll_ok {p : Planner} (h : Writer.checkAll p fields first = .ok ()) :
    ∀ path ∈ first, ∃ len, p.check path fields = .ok len := by
  induction first with
  | nil => exact fun _ hmem => nomatch hmem
  | cons name first ih =>
    obtain ⟨len, hlen, h⟩ := except_bind_ok.mp h
    intro path hmem
    obtain rfl | hmem := mem_cons.mp hmem
    · exact ⟨len, hlen⟩
    · exact ih h path hmem

def namedEntries (format : Format) (fields : Fields) (data : List UInt8)
    (first : List (List UInt8)) :
    List Entry :=
  first.map fun path => Entry.of format path fields data

theorem run_enterAll (attrs : SetAttr)
    (hcheck : ∀ path ∈ first, ∃ len, w.planner.check path fields = .ok len)
    {bytes : List UInt8} (hdata : bytes.length = fields.len) (repeated : Bool) :
    ∃ p, (Writer.enterAll fields attrs repeated first).run w = (.ok (), { w with planner := p }) ∧
      w.planner.Laid p
        ((namedEntries w.planner.format fields bytes first).flatMap
          (Entry.bytes w.planner.format))
        (if repeated then first.map fun path => (path, bytes) else []) := by
  induction first generalizing w with
  | nil =>
    refine ⟨w.planner, rfl, ?_⟩
    have hnone :
        (if repeated = true then ([] : List (List UInt8)).map fun path => (path, bytes) else []) =
          [] := by
      split <;> rfl
    rw [hnone]
    exact .refl _
  | cons name first ih =>
    obtain ⟨len, hlen⟩ := hcheck name mem_cons_self
    obtain ⟨entry, hentry⟩ := Planner.entry_of_check hlen attrs
    have hlaid := Planner.laid_entry hentry hdata (if repeated then [name] else [])
    have hnext : (if repeated then entry.2.extent name entry.1 fields.len else entry.2) =
        entry.2.extents (if repeated then [name] else []) entry.1 fields.len := by
      cases repeated <;> rfl
    rw [Writer.enterAll, run_bind_ok (a := w.planner) (t := w) rfl, hentry,
      run_bind_ok (a := entry) (t := w) rfl, hnext]
    generalize entry.2.extents (if repeated then [name] else []) entry.1 fields.len = q at hlaid ⊢
    rw [run_bind_ok (a := ()) (t := { w with planner := q }) rfl]
    obtain ⟨p, hrun, hrest⟩ := ih (w := { w with planner := q }) fun path hmem => by
      rw [Planner.check_congr hlaid.format]
      exact hcheck path (mem_cons_of_mem _ hmem)
    refine ⟨p, hrun, ?_⟩
    rw [show ({ w with planner := q } : Writer).planner = q from rfl, hlaid.format] at hrest
    have hboth := hlaid.trans hrest
    cases repeated <;> exact hboth

theorem run_emitAll {p : Planner} (hformat : w.planner.format = p.format)
    (hdata : ∀ path, checkData data path = .ok ())
    (hcheck : ∀ path ∈ first, ∃ len, p.check path fields = .ok len) :
    (each (fun path => Writer.emit path fields data) first).run w =
      (.ok (), w.wrote
        ((namedEntries p.format fields data.data first).flatMap (Entry.bytes p.format))) := by
  induction first generalizing w with
  | nil => exact Writer.run_each_put [] w
  | cons name first ih =>
    obtain ⟨len, hlen⟩ := hcheck name mem_cons_self
    obtain ⟨entry, hentry⟩ := Planner.entry_of_check hlen .new
    have hrest :=
      ih (w := w.wrote ((Entry.of p.format name fields data.data).bytes p.format)) hformat
      fun path hmem => hcheck path (mem_cons_of_mem _ hmem)
    rw [each, run_bind_ok (run_emit_entry hentry (hdata name) hformat), hrest, Writer.wrote_wrote]
    rfl

end

section

variable {options : CpioOptions} {ino : Nat} {entries : List Entry}
variable {files : List (List UInt8 × List UInt8)} {w : Writer}

theorem checkData_path {data : Data} {path : List UInt8} (h : checkData data path = .ok ())
    (path' : List UInt8) : checkData data path' = .ok () := by
  cases data with
  | none => rfl
  | bytes data => rfl
  | content source => rw [checkData, content_check_of h rfl]; rfl

theorem paths_eq {paths : List (List UInt8)} {last : List UInt8}
    (h : paths.getLast? = some last) :
    paths.dropLast ++ [last] = paths :=
  dropLast_append_getLast? last h

theorem entries_appendHardLinks {paths : List (List UInt8)} {node : Node} {last : List UInt8}
    {found : Fields × Data} (hlast : paths.getLast? = some last)
    (hfound : (Planner.new options).node node last = .ok found) :
    (Call.appendHardLinks paths node).entries options ino =
      namedEntries options.format
        (if options.format = .odc then { found.1 with ino := ino, nlink := paths.length }
          else { found.1 with ino := ino, nlink := paths.length, len := 0 })
        (if options.format = .odc then nodeData node else []) paths.dropLast ++
      [Entry.of options.format last { found.1 with ino := ino, nlink := paths.length }
        (nodeData node)] := by
  simp only [Call.entries, hlast, Option.getD_some, hfound, namedEntries]
  by_cases hodc : options.format = .odc
  · simp [hodc]
  · simp [hodc]

theorem run_appendHardLinks (hs : Stands options ino entries files w) (paths : List (List UInt8))
    (node : Node) :
    (∃ e, (Writer.appendHardLinks paths node).run w = (.error e, w)) ∨
      ∃ w', (Writer.appendHardLinks paths node).run w = (.ok (), w') ∧
        Stands options (ino + 1)
          (entries ++ (Call.appendHardLinks paths node).entries options ino)
          (files ++ (Call.appendHardLinks paths node).files) w' := by
  have hino' : w.planner.ino = ino := hs.ino
  rw [Writer.appendHardLinks, run_bind_ok (run_checkIdle hs.idle)]
  rcases hlast : paths.getLast? with _ | last
  · exact .inl ⟨_, rfl⟩
  dsimp only
  by_cases hfile : node.fileType ≠ .file
  · rw [if_pos hfile]
    exact .inl ⟨_, rfl⟩
  rw [if_neg hfile, run_bind_ok (a := w.planner) (t := w) rfl]
  have hnode := Planner.node_congr (q := .new options) hs.format hs.time node last
  rcases hfound : w.planner.node node last with e | found
  · exact .inl ⟨e, rfl⟩
  rw [run_bind_ok (a := found) (t := w) rfl]
  rcases hdata : checkData found.2 last with e | ⟨⟩
  · exact .inl ⟨e, rfl⟩
  rw [run_bind_ok (a := ()) (t := w) rfl, hino']
  have hlen := Planner.node_length hfound hdata
  have hbytes := Planner.node_data hfound
  rw [entries_appendHardLinks hlast (hnode.symm.trans hfound), Call.files]
  generalize hfields : { found.1 with ino := ino, nlink := paths.length } = fields
  have hflen : fields.len = found.1.len := by rw [← hfields]
  have hzero : { found.1 with ino := ino, nlink := paths.length, len := 0 } =
    { fields with len := 0 } := by
    rw [← hfields]
  rw [hzero, hs.format]
  generalize hpreceding : (if options.format = .odc then fields else { fields with len := 0 }) =
    preceding
  generalize hsource : (if options.format = .odc then found.2 else .none) = source
  have hsbytes : source.data = if options.format = .odc then nodeData node else [] := by
    rw [← hsource, ← hbytes]
    split <;> rfl
  have hslen : source.data.length = preceding.len := by
    rw [← hsource, ← hpreceding]
    split
    · rw [hlen, hflen]
    · rfl
  have hscheck : ∀ path, checkData source path = .ok () := by
    intro path
    rw [← hsource]
    split
    · exact checkData_path hdata path
    · rfl
  rcases hall : Writer.checkAll w.planner preceding paths.dropLast with e | ⟨⟩
  · exact .inl ⟨e, rfl⟩
  rw [run_bind_ok (a := ()) (t := w) rfl]
  rcases hcheck : w.planner.check last fields with e | len
  · exact .inl ⟨e, rfl⟩
  rw [run_bind_ok (a := len) (t := w) rfl]
  have hnames := checkAll_ok hall
  obtain ⟨p, hrun, hlaid⟩ := run_enterAll node.attrs hnames hslen (decide (options.format = .odc))
  rw [run_bind_ok hrun, run_bind_ok (a := p) rfl]
  rw [← Planner.check_congr hlaid.format] at hcheck
  obtain ⟨entry, hentry⟩ := Planner.entry_of_check hcheck node.attrs
  rw [hentry, run_bind_ok (a := entry) rfl]
  obtain ⟨_, _, _, _, hformat, htime, hino, _⟩ := Planner.entry_ok hentry
  generalize hnamed : (if options.format = .odc then [last] else paths) = named
  generalize hq : entry.2.takeIno.2.extents named entry.1 found.1.len = q
  rw [run_bind_ok (a := ()) (t := { w with planner := q }) (by rw [← hq]; rfl)]
  obtain ⟨hformat', htime', hnext'⟩ := entry.2.takeIno.2.extents_kept named entry.1 found.1.len
  have hpformat : p.format = options.format := hlaid.format.trans hs.format
  obtain ⟨htracks, hin⟩ := (hlaid.tracks _ _ hs.tracks).entry hentry (hlen.trans hflen.symm)
  have htracks' := htracks.takeIno.extents hin named
  rw [hflen, hq] at htracks'
  rw [hq] at hformat' htime' hnext'
  have hqformat : q.format = p.format := hformat'.trans hformat
  have hemitAll := run_emitAll (w := { w with planner := q }) (p := w.planner)
    (hqformat.trans hlaid.format) hscheck hnames
  have hemitLast := run_emit_entry (w := Writer.wrote { w with planner := q }
    ((namedEntries w.planner.format preceding source.data paths.dropLast).flatMap
      (Entry.bytes w.planner.format))) hentry hdata hqformat
  refine .inr ⟨_, (run_bind_ok hemitAll _).trans hemitLast, ?_⟩
  rw [Writer.wrote_wrote, hs.format, hpformat, hbytes, ← hsbytes,
    ← flatMap_singleton (Entry.bytes options.format), ← flatMap_append]
  apply hs.wrote (hqformat.trans hpformat) ((htime'.trans htime).trans (hlaid.time.trans hs.time))
    (hnext'.trans (congrArg Nat.succ (hino.trans (hlaid.nextIno.trans hs.ino))))
  rw [flatMap_append, flatMap_singleton, ← append_assoc]
  rw [hs.format, hpformat, hbytes] at htracks'
  have hfiles : (files ++ if decide (options.format = .odc) = true then
        paths.dropLast.map fun path => (path, source.data) else []) ++
      (named.map fun path => (path, nodeData node)) = files ++ paths.map fun path =>
        (path, nodeData node) := by
    rw [append_assoc, hsbytes, ← hnamed]
    by_cases hodc : options.format = .odc
    · simp only [hodc, decide_true, if_true, ← map_append, paths_eq hlast]
    · simp only [hodc, decide_false, if_false, nil_append, Bool.false_eq_true]
  rwa [hfiles] at htracks'

end

end Hadris.Cpio
