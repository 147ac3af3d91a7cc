import Hadris.Part.Load

namespace Hadris.Part

open List
open Hadris.Prog

variable {σ : Type}

theorem Callback.calls_append {α : Type} (f : Callback σ α) (s : σ) (a b : List α) :
    f.calls s (a ++ b) = f.calls (f.calls s a) b := foldl_append ..

namespace Device

variable {dev : Device} {f : Callback σ Partition} {found : Found} {record : RawMbr}

theorem choose_ok {primary backup : Except Detail (RawGptHeader × EntryArray)}
    (h : choose primary backup = .ok found) :
    primary = .ok (found.header, found.array) ∨ backup = .ok (found.header, found.array) := by
  rcases primary with detail | ⟨header, array⟩
  · rcases backup with detail' | ⟨header, array⟩
    · cases h
    · cases h
      exact .inr rfl
  · cases h
    exact .inl rfl

theorem findGpt_ok (h : dev.findGpt = .ok found) :
    (∃ lba, dev.Copy lba found.header) ∧ found.array = found.header.entryArray dev.blockSize := by
  obtain ⟨primary, hprimary, h⟩ := except_bind_ok.mp h
  obtain ⟨backup, hbackup, h⟩ := except_bind_ok.mp h
  rcases choose_ok h with rfl | rfl
  · obtain ⟨hcopy, harray⟩ := copy_of_load hprimary
    exact ⟨⟨_, hcopy⟩, harray⟩
  · obtain ⟨hcopy, harray⟩ := copy_of_load hbackup
    exact ⟨⟨_, hcopy⟩, harray⟩

def gptOf (dev : Device) (found : Found) : Gpt :=
  .fromDisk found.header found.copy (dev.entriesOf found.array) found.damaged found.backupEntries
    dev.blockCount dev.blockSize

theorem readGpt_found (h : dev.findGpt = .ok found) : dev.readGpt = .ok (dev.gptOf found) := by
  obtain ⟨⟨lba, hcopy⟩, harray⟩ := findGpt_ok h
  have hcollect := hcopy.collect
  rw [← harray] at hcollect
  rw [readGpt, h]
  refine except_bind_ok.mpr ⟨_, rfl, except_bind_ok.mpr ⟨_, hcollect, ?_⟩⟩
  rw [slotsTo_zero, map_map]
  rfl

theorem listing_gptOf (found : Found) :
    (dev.gptOf found).listing =
      ((List.range found.array.count).map fun k => (k, dev.entryAt found.array k)).filterMap
        fun slot =>
        if slot.2.isUnused then none
          else some (Partition.fromGpt slot.1 slot.2 dev.blockSize) := by
  have hlength : (dev.gptOf found).entries.length = found.array.count := by
    change ((List.range _).map _).length = _
    rw [length_map, length_range]
  rw [Gpt.listing, partitionsBelow, hlength, filterMap_map]
  refine filterMap_congr fun k hk => ?_
  have hentry : (dev.gptOf found).entries[k]? = some (dev.entryAt found.array k) := by
    change ((List.range _).map _)[k]? = _
    rw [getElem?_map, getElem?_range (mem_range.mp hk)]
    rfl
  rw [Gpt.entry, hentry, Function.comp_apply]
  cases hused : (dev.entryAt found.array k).isUnused with
  | true =>
    rw [Option.filter_some, hused, if_neg (by decide), if_pos rfl]
    rfl
  | false =>
    rw [Option.filter_some, hused, if_pos (by decide), if_neg (by decide)]
    rfl

theorem calls_used (s : σ) (slots : List (Nat × RawGptEntry)) :
    (dev.used f).calls s slots = f.calls s (slots.filterMap fun slot =>
      if slot.2.isUnused then none
        else some (Partition.fromGpt slot.1 slot.2 dev.blockSize)) := by
  induction slots generalizing s with
  | nil => rfl
  | cons slot rest ih =>
    cases hused : slot.2.isUnused with
    | true =>
      rw [filterMap_cons_none (by rw [hused]; rfl), ← ih]
      change (dev.used f).calls ((dev.used f slot s).2) rest = _
      rw [used, if_pos hused]
    | false =>
      rw [filterMap_cons_some (by rw [hused]; rfl)]
      change (dev.used f).calls ((dev.used f slot s).2) rest = f.calls (f _ s).2 _
      rw [ih, used, if_neg (by rw [hused]; exact Bool.false_ne_true)]

theorem continues_used (hf : f.Continues) : (dev.used f).Continues := by
  intro slot s
  rw [used]
  split
  · rfl
  · exact hf _ s

theorem scanGpt_run (hf : f.Continues) (h : dev.findGpt = .ok found) (s : σ) :
    (dev.scanGpt f).run s = (.ok (), f.calls s (dev.gptOf found).listing) := by
  obtain ⟨⟨lba, hcopy⟩, harray⟩ := findGpt_ok h
  rw [scanGpt, h, listing_gptOf, ← calls_used, ← slotsTo_zero, harray]
  exact (congrArg (fun a => (dev.visitEntries a (dev.used f)).run s) harray).trans
    (hcopy.visit (continues_used hf) s)

/-! Primary and logical partitions. -/

def primaryIn (dev : Device) (record : RawMbr) (slot : Fin 4) : Option Partition :=
  let entry := record.entries slot
  if entry.kind.isEmpty || entry.kind.isExtended then none
  else some (.fromMbr slot entry.startLba.toNat entry dev.blockSize)

theorem scanPrimary_run (dev : Device) (record : RawMbr) (hf : f.Continues)
    (slots : List (Fin 4)) (s : σ) :
    (dev.scanPrimary record f slots).run s =
      (.ok .cont, f.calls s (slots.filterMap (dev.primaryIn record))) := by
  induction slots generalizing s with
  | nil => rfl
  | cons slot rest ih =>
    rw [scanPrimary]
    by_cases hskip : ((record.entries slot).kind.isEmpty ||
        (record.entries slot).kind.isExtended) = true
    · rw [if_pos hskip, ih, filterMap_cons_none]
      rw [primaryIn, if_pos hskip]
    · rw [if_neg hskip, run_bind_ok (run_call hf _ s),
        filterMap_cons_some (b := .fromMbr slot (record.entries slot).startLba.toNat
          (record.entries slot) dev.blockSize)]
      · exact ih _
      · rw [primaryIn, if_neg hskip]

def logicalsFrom (dev : Device) : Nat → List Logical → List Partition
  | _, [] => []
  | index, logical :: rest =>
    .fromMbr index logical.start logical.entry dev.blockSize :: logicalsFrom dev (index + 1) rest

theorem calls_numbered (index : Nat) (s : σ) (logical : List Logical) :
    (dev.numbered f).calls (index, s) logical =
      (index + logical.length, f.calls s (dev.logicalsFrom index logical)) := by
  induction logical generalizing index s with
  | nil => rfl
  | cons logical rest ih =>
    rw [length_cons, show index + (rest.length + 1) = index + 1 + rest.length by omega]
    exact ih (index + 1) _

theorem logicalsFrom_eq (index : Nat) (logical : List Logical) :
    dev.logicalsFrom index logical = (List.range logical.length).filterMap fun i =>
      (logical[i]?).map fun l => .fromMbr (index + i) l.start l.entry dev.blockSize := by
  induction logical generalizing index with
  | nil => rfl
  | cons logical rest ih =>
    rw [logicalsFrom, ih, length_cons, range_succ_eq_map, filterMap_cons,
      filterMap_map]
    refine congrArg (List.cons _) (filterMap_congr fun i _ => ?_)
    rw [Function.comp_apply, getElem?_cons_succ, Nat.add_assoc, Nat.add_comm 1 i]

theorem partitions_fromDisk (logical : List Logical) :
    (Mbr.fromDisk record logical dev.blockCount dev.blockSize).partitions =
      (finRange 4).filterMap (dev.primaryIn record) ++ dev.logicalsFrom firstLogical logical := by
  have hprimary : ∀ slot : Fin 4,
      (Mbr.fromDisk record logical dev.blockCount dev.blockSize).listed slot =
        dev.primaryIn record slot := by
    intro slot
    rw [Mbr.listed, Mbr.entry, dif_pos (show slot.val < firstLogical from slot.isLt), primaryIn]
    change Option.filter _ (if (record.entries slot).kind.isEmpty = true then none else some _) =
      _
    cases hempty : (record.entries slot).kind.isEmpty with
    | true => rfl
    | false =>
      rw [if_neg Bool.false_ne_true, Option.filter_some, Bool.false_or,
        decide_eq_true (show slot.val < firstLogical from slot.isLt), Bool.true_and]
      change (if (!(record.entries slot).kind.isExtended) = true then _ else _) = _
      cases (record.entries slot).kind.isExtended with
      | true => rfl
      | false => rfl
  have hlogical : ∀ i, (Mbr.fromDisk record logical dev.blockCount dev.blockSize).listed
      (firstLogical + i) = (logical[i]?).map fun l =>
        .fromMbr (firstLogical + i) l.start l.entry dev.blockSize := by
    intro i
    have hge : ¬ firstLogical + i < firstLogical := by omega
    rw [Mbr.listed, Mbr.entry, dif_neg hge, Nat.add_sub_cancel_left, decide_eq_false hge]
    change Option.filter _ ((logical[i]?).map _) = _
    cases logical[i]? with
    | none => rfl
    | some l => rfl
  rw [Mbr.partitions, partitionsBelow, range_add, filterMap_append, filterMap_map,
    logicalsFrom_eq]
  congr 1
  · rw [show List.range firstLogical = (finRange 4).map Fin.val by decide, filterMap_map]
    exact filterMap_congr fun slot _ => hprimary slot
  · exact filterMap_congr fun i _ => hlogical i

theorem continues_numbered (dev : Device) (hf : f.Continues) : (dev.numbered f).Continues :=
  fun _ s => hf _ s.2

theorem run_withLocal {τ α : Type} {init : τ} {x : Prog (τ × σ) Error α} {s s' : σ} {t : τ}
    {result : Except Error α} (h : x.run (init, s) = (result, t, s')) :
    (withLocal init x).run s = (result, s') := by
  change ((x.run (init, s)).1, (x.run (init, s)).2.2) = _
  rw [h]

theorem scanMbr_run (dev : Device) (record : RawMbr) (hf : f.Continues) (s : σ) :
    (∀ e, dev.readMbr record = .error e → ((dev.scanMbr record f).run s).1 = .error e) ∧
      ∀ table, dev.readMbr record = .ok table →
        table.kind = .mbr ∧ (dev.scanMbr record f).run s =
          (.ok (), f.calls s table.partitions) := by
  have hprimary := scanPrimary_run dev record hf (finRange 4) s
  rw [scanMbr, run_bind_ok hprimary, readMbr]
  rcases hrange : extendedRange record with _ | ⟨start, stop⟩
  · refine ⟨fun e h => (by cases h), fun table h => ?_⟩
    cases h
    refine ⟨rfl, ?_⟩
    rw [PartitionTable.partitions, partitions_fromDisk, logicalsFrom, append_nil]
    rfl
  · have huniform := uniform_walkFrom dev start stop maxLogical 0 start
    obtain ⟨herror, hok⟩ := huniform.collect (continues_numbered dev hf)
      (firstLogical, f.calls s ((finRange 4).filterMap (dev.primaryIn record)))
    cases hcollect : dev.readLogical (some (start, stop)) with
    | error e =>
      refine ⟨fun e' h => ?_, fun table h => ?_⟩
      · cases h
        exact herror e hcollect
      · cases h
    | ok logical =>
      refine ⟨fun e h => ?_, fun table h => ?_⟩
      · cases h
      · cases h
        refine ⟨rfl, ?_⟩
        have hrun := hok logical hcollect
        rw [calls_numbered] at hrun
        rw [PartitionTable.partitions, partitions_fromDisk, Callback.calls_append]
        exact run_withLocal hrun

theorem scanGpt_error {e : Error} (h : dev.findGpt = .error e) (s : σ) :
    (dev.scanGpt f).run s = (.error e, s) := by
  rw [scanGpt, h]
  rfl

theorem readGpt_error {e : Error} (h : dev.findGpt = .error e) : dev.readGpt = .error e := by
  rw [readGpt, h]
  rfl

theorem scanTable_run (dev : Device) (record : RawMbr) (hf : f.Continues)
    (kind : TableKind) (s : σ) :
    (∀ e, dev.readTable record kind = .error e →
      ((dev.scanTable record f kind).run s).1 = .error e) ∧
    ∀ table, dev.readTable record kind = .ok table → table.kind = kind ∧
      (dev.scanTable record f kind).run s = (.ok (), f.calls s table.partitions) := by
  have hmbr := scanMbr_run dev record hf s
  cases kind with
  | mbr => exact hmbr
  | gpt =>
    rw [scanTable, if_neg (by decide), readTable]
    cases hfound : dev.findGpt with
    | error e =>
      rw [readGpt_error hfound, scanGpt_error hfound]
      exact ⟨fun e' h => (by cases h; rfl), fun table h => (by cases h)⟩
    | ok found =>
      rw [readGpt_found hfound, scanGpt_run hf hfound]
      exact ⟨fun e' h => (by cases h), fun table h => (by cases h; exact ⟨rfl, rfl⟩)⟩
  | hybrid =>
    rw [scanTable, if_neg (by decide), readTable]
    cases hfound : dev.findGpt with
    | error e =>
      rw [readGpt_error hfound, scanGpt_error hfound]
      exact ⟨fun e' h => (by cases h; rfl), fun table h => (by cases h)⟩
    | ok found =>
      rw [readGpt_found hfound, scanGpt_run hf hfound]
      exact ⟨fun e' h => (by cases h), fun table h => (by cases h; exact ⟨rfl, rfl⟩)⟩

theorem read_eq {kind : TableKind} (hcheck : ofTable (checkBlockSize dev.blockSize) = .ok ())
    (hrecord : dev.readRecord 0 = .ok record) (hkind : ofTable (classify record) = .ok kind) :
    dev.read = dev.readTable record kind >>= fun table => .ok (.fromDisk table record) := by
  rw [read, hcheck, hrecord]
  change (ofTable (classify record) >>= fun kind => dev.readTable record kind >>= fun table =>
    .ok (Disk.fromDisk table record)) = _
  rw [hkind]
  rfl

theorem scan_eq {kind : TableKind} (hcheck : ofTable (checkBlockSize dev.blockSize) = .ok ())
    (hsize : dev.blockSize.bytes ≤ maxScanBlock) (hrecord : dev.readRecord 0 = .ok record)
    (hkind : ofTable (classify record) = .ok kind) (s : σ) :
    (dev.scan f).run s =
      (dev.scanTable record f kind >>= fun _ => pure kind).run s := by
  have hscan : ensure (decide (dev.blockSize.bytes ≤ maxScanBlock))
      (Detail.blockSize.error .unsupported) = .ok () := ensure_of_true _ (decide_eq_true hsize)
  rw [scan, hcheck, hscan, hrecord]
  change ((Prog.ofExcept (ofTable (classify record)) : Prog σ Error TableKind) >>= fun kind =>
    dev.scanTable record f kind >>= fun _ => pure kind).run s = _
  rw [hkind]
  rfl

theorem scan_run (hsize : dev.blockSize.bytes ≤ maxScanBlock) (hf : f.Continues) (s : σ) :
    (∀ e, dev.read = .error e → ((dev.scan f).run s).1 = .error e) ∧
    ∀ disk, dev.read = .ok disk →
      (dev.scan f).run s = (.ok disk.table.kind, f.calls s disk.table.partitions) := by
  have hscan : ensure (decide (dev.blockSize.bytes ≤ maxScanBlock))
      (Detail.blockSize.error .unsupported) = .ok () := ensure_of_true _ (decide_eq_true hsize)
  cases hcheck : ofTable (checkBlockSize dev.blockSize) with
  | error e =>
    rw [read, scan, hcheck]
    exact ⟨fun e' h => (by cases h; rfl), fun disk h => (by cases h)⟩
  | ok u =>
  cases hrecord : dev.readRecord 0 with
  | error e =>
    rw [read, scan, hcheck, hscan, hrecord]
    exact ⟨fun e' h => (by cases h; rfl), fun disk h => (by cases h)⟩
  | ok record =>
  cases hkind : ofTable (classify record) with
  | error e =>
    have hread : dev.read = .error e := by
      rw [read, hcheck, hrecord]
      change (ofTable (classify record) >>= fun kind => dev.readTable record kind >>= fun table =>
        .ok (Disk.fromDisk table record)) = _
      rw [hkind]
      rfl
    have hrun : (dev.scan f).run s = (.error e, s) := by
      rw [scan, hcheck, hscan, hrecord]
      change ((Prog.ofExcept (ofTable (classify record)) : Prog σ Error TableKind) >>= fun kind =>
        dev.scanTable record f kind >>= fun _ => pure kind).run s = _
      rw [hkind]
      rfl
    rw [hread, hrun]
    exact ⟨fun e' h => (by cases h; rfl), fun disk h => (by cases h)⟩
  | ok kind =>
  obtain ⟨herror, hok⟩ := scanTable_run dev record hf kind s
  rw [read_eq hcheck hrecord hkind, scan_eq hcheck hsize hrecord hkind]
  cases htable : dev.readTable record kind with
  | error e =>
    refine ⟨fun e' h => ?_, fun disk h => (by cases h)⟩
    cases h
    have hrun := herror e htable
    rcases hx : (dev.scanTable record f kind).run s with ⟨r, t⟩
    rw [hx] at hrun
    dsimp only at hrun
    rw [hrun] at hx
    rw [run_bind_error hx]
  | ok table =>
    refine ⟨fun e h => (by cases h), fun disk h => ?_⟩
    cases h
    obtain ⟨rfl, hrun⟩ := hok table htable
    rw [run_bind_ok hrun]
    rfl

/-- A scan whose callback goes on agrees with reading the table. -/
theorem scan_agrees (dev : Device) (hsize : dev.blockSize.bytes ≤ maxScanBlock)
    (f : Callback σ Partition) (hf : f.Continues) (s : σ) :
    ((∃ kind, ((dev.scan f).run s).1 = .ok kind) ↔ ∃ disk, dev.read = .ok disk) ∧
    ∀ disk, dev.read = .ok disk →
      (dev.scan f).run s = (.ok disk.table.kind, f.calls s disk.table.partitions) := by
  obtain ⟨herror, hok⟩ := scan_run hsize hf s
  refine ⟨⟨fun ⟨kind, hkind⟩ => ?_, fun ⟨disk, hdisk⟩ =>
    ⟨disk.table.kind, by rw [hok disk hdisk]⟩⟩, hok⟩
  cases hread : dev.read with
  | error e =>
    rw [herror e hread] at hkind
    cases hkind
  | ok disk => exact ⟨disk, rfl⟩

def sample : Device where
  blockSize := ⟨512, sectorBytes_pos, sectorBytes_lt⟩
  blockCount := 100
  count_lt := by decide
  image := tableBytes [(450, 0x83), (454, 1), (458, 10), (466, 0x05), (470, 20), (474, 50),
    (510, 0x55), (511, 0xAA), (10690, 0x83), (10694, 1), (10698, 9), (10750, 0x55), (10751, 0xAA)]

theorem sample_scan_agrees :
    ∃ partitions, (sample.scan fun p kept => (.cont, kept ++ [p])).run [] =
      (.ok .mbr, partitions) ∧
      partitions.map (fun p => (p.slot, p.start, p.len)) = [(0, 1, 10), (4, 21, 9)] := by
  obtain ⟨disk, hread, hkind, hlist⟩ : ∃ disk, sample.read = .ok disk ∧ disk.table.kind = .mbr ∧
      disk.table.partitions.map (fun p => (p.slot, p.start, p.len)) =
        [(0, 1, 10), (4, 21, 9)] := by
    have hsome : (sample.read.toOption.map fun disk => (disk.table.kind,
        disk.table.partitions.map fun p => (p.slot, p.start, p.len))) =
          some (.mbr, [(0, 1, 10), (4, 21, 9)]) := by decide +kernel
    rcases hread : sample.read with e | disk
    · rw [hread] at hsome
      cases hsome
    · rw [hread] at hsome
      obtain ⟨hkind, hlist⟩ := Prod.mk.inj (Option.some.inj hsome)
      exact ⟨disk, rfl, hkind, hlist⟩
  have hscan :=
    (scan_agrees sample (by decide) (fun p kept => (.cont, kept ++ [p])) (fun _ _ => rfl)
    []).2 disk hread
  rw [hkind, calls_keep, nil_append] at hscan
  exact ⟨_, hscan, hlist⟩

end Device

end Hadris.Part
