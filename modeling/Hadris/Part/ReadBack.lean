import Hadris.Part.Built
import Hadris.Part.Stored
import Hadris.Part.Mirrors
import Hadris.Part.Scan

namespace Hadris.Part

open Hadris.Prog

variable {dev : Device} {extStart extEnd : Nat}

theorem located_entry {kind : MbrType} {boot : UInt8} {absolute relative len : Nat}
    (hrelative : relative < 2 ^ 32) (hlen : len < 2 ^ 32) :
    (located kind boot absolute relative len).startLba.toNat = relative ∧
      (located kind boot absolute relative len).sectorCount.toNat = len :=
  ⟨UInt32.toNat_ofNat_of_lt hrelative, UInt32.toNat_ofNat_of_lt hlen⟩

def linkTo (extStart : Nat) (next : Option Logical) : RawMbrEntry :=
  next.elim .default fun next => located .extended 0 next.ebr (next.ebr - extStart)
    (next.stop - next.ebr)

theorem ebrRecord_entries (ebr : Nat) (logical : Logical) (next : Option Logical) :
    (Mbr.ebrRecord extStart ebr logical next).entries 0 =
      located logical.kind logical.boot logical.start (logical.start - ebr) logical.len ∧
    (Mbr.ebrRecord extStart ebr logical next).entries 1 = linkTo extStart next := by
  refine ⟨rfl, ?_⟩
  cases next with
  | none => rfl
  | some next => rfl

theorem default_boot (boot : UInt8) (h : boot = 0 ∨ boot = PartitionFlags.mbrActive) :
    ((boot ||| 0) &&& ~~~PartitionFlags.mbrActive == 0) = true := by
  rcases h with rfl | rfl
  · decide
  · decide

theorem linkTo_boot (next : Option Logical) : (linkTo extStart next).bootIndicator = 0 := by
  cases next with
  | none => rfl
  | some next => rfl

theorem run_ofExcept_ok {σ α : Type} (a : α) (s : σ) :
    (Prog.ofExcept (.ok a) : Prog σ Error α).run s = (.ok a, s) := rfl

theorem walk_step {left step ebr : Nat} {logical : Logical} {next : Option Logical}
    (hread : dev.readRecord ebr = .ok (Mbr.ebrRecord extStart ebr logical next))
    (hext : ebr < extEnd) (hdisk : ebr < dev.blockCount) (hebr : logical.ebr = ebr)
    (hstart : ebr < logical.start) (hrelative : logical.start - ebr < 2 ^ 32)
    (hlen : logical.len < 2 ^ 32) (hok : Mbr.LogicalOk logical) (kept : List Logical) :
    (dev.walkFrom extStart extEnd (fun a kept => (.cont, kept ++ [a])) (left + 1) step ebr).run
      kept =
      (if (linkTo extStart next).isEmpty || !(linkTo extStart next).kind.isExtended then pure ()
        else if extStart + (linkTo extStart next).startLba.toNat ≤ ebr then
          Prog.fail Detail.ebrChain.corrupt
        else dev.walkFrom extStart extEnd (fun a kept => (.cont, kept ++ [a])) left (step + 1)
          (extStart + (linkTo extStart next).startLba.toNat)).run (kept ++ [logical]) := by
  obtain ⟨hentry, hlink⟩ := @ebrRecord_entries extStart ebr logical next
  obtain ⟨hstart', hlen'⟩ := @located_entry logical.kind logical.boot logical.start _ _
    hrelative hlen
  have hrange : ¬ (extEnd ≤ ebr ∨ dev.blockCount ≤ ebr) := by omega
  have hboot : ensure ((((Mbr.ebrRecord extStart ebr logical next).entries 0).bootIndicator |||
      ((Mbr.ebrRecord extStart ebr logical next).entries 1).bootIndicator) &&&
        ~~~PartitionFlags.mbrActive == 0) Detail.mbrEntry.corrupt = .ok () := by
    rw [hlink, linkTo_boot]
    exact ensure_of_true _ (default_boot _ hok.boot)
  have hvisit : (Device.visitLogical ebr ((Mbr.ebrRecord extStart ebr logical next).entries 0)
      fun a kept => (.cont, kept ++ [a])).run kept = (.ok .cont, kept ++ [logical]) := by
    rw [hentry, Device.visitLogical, if_neg, if_neg]
    · change (Except.ok ControlFlow.cont, kept ++ [Device.logicalAt ebr _]) = _
      rw [Device.logicalAt, hstart', hlen']
      have hlogical :
          (⟨ebr, ebr + (logical.start - ebr), logical.len, logical.kind, logical.boot⟩ :
            Logical) = logical := by
        rw [← hebr] at hstart ⊢
        rw [Nat.add_sub_cancel' hstart.le]
      exact congrArg (fun l => (Except.ok ControlFlow.cont, kept ++ [l])) hlogical
    · exact Bool.not_eq_true _ |>.mpr hok.extended
    · exact Bool.not_eq_true _ |>.mpr hok.empty
  have hsign : (Mbr.ebrRecord extStart ebr logical next).hasSignature = true := rfl
  rw [Device.walkFrom, if_neg hrange, hread, run_bind_ok (run_ofExcept_ok _ _)]
  dsimp only
  rw [hsign, if_neg (show ¬ (!true) = true by decide), hboot, run_bind_ok (run_ofExcept_ok _ _),
    run_bind_ok hvisit, hlink]

theorem walk_default {left step ebr : Nat} (hread : dev.readRecord ebr = .ok .default)
    (hext : ebr < extEnd) (hdisk : ebr < dev.blockCount) (kept : List Logical) :
    (dev.walkFrom extStart extEnd (fun a kept => (.cont, kept ++ [a])) (left + 1) step ebr).run
      kept =
      (.ok (), kept) := by
  have hsign : RawMbr.default.hasSignature = true := rfl
  have hboot : ensure (((RawMbr.default.entries 0).bootIndicator |||
      (RawMbr.default.entries 1).bootIndicator) &&& ~~~PartitionFlags.mbrActive == 0)
        Detail.mbrEntry.corrupt = .ok () := by decide
  have hvisit : (Device.visitLogical ebr (RawMbr.default.entries 0)
      fun a kept => (.cont, kept ++ [a])).run kept = (.ok .cont, kept) := by
    rw [Device.visitLogical, if_pos (by decide)]
    rfl
  rw [Device.walkFrom, if_neg (by omega), hread, run_bind_ok (run_ofExcept_ok _ _)]
  dsimp only
  rw [hsign, if_neg (show ¬ (!true) = true by decide), hboot, run_bind_ok (run_ofExcept_ok _ _),
    run_bind_ok hvisit]
  rfl

theorem walk_linked {logical : Logical} {rest : List Logical} {left step prevEnd k : Nat}
    (hlinked : Linked extEnd prevEnd (logical :: rest)) (hstart : extStart ≤ prevEnd)
    (hend : extEnd ≤ dev.blockCount) (hwidth : extEnd - extStart < 2 ^ 32)
    (hok : ∀ l ∈ logical :: rest, Mbr.LogicalOk l) (hleft : rest.length < left)
    (hblock : Mbr.ebrBlock extStart k logical = logical.ebr)
    (hread : ∀ record ∈ Mbr.recordsFrom extStart k (logical :: rest),
      dev.readRecord record.1 = .ok record.2) (kept : List Logical) :
    (dev.walkFrom extStart extEnd (fun a kept => (.cont, kept ++ [a])) left step logical.ebr).run
      kept =
      (.ok (), kept ++ logical :: rest) := by
  induction rest generalizing logical left step prevEnd k kept with
  | nil =>
    obtain ⟨left, rfl⟩ := Nat.exists_eq_succ_of_ne_zero (Nat.ne_zero_of_lt hleft)
    obtain ⟨hebr, hlt, hlen, hstop, -⟩ := hlinked
    have hrecord := hread _ List.mem_cons_self
    rw [hblock] at hrecord
    dsimp only at hrecord
    rw [walk_step hrecord (by omega) (by omega) rfl hlt (by omega) (by omega)
      (hok logical List.mem_cons_self) kept]
    rfl
  | cons next rest ih =>
    obtain ⟨left, rfl⟩ := Nat.exists_eq_succ_of_ne_zero (Nat.ne_zero_of_lt hleft)
    obtain ⟨hebr, hlt, hlen, hstop, hrest⟩ := hlinked
    have hnext := hrest
    obtain ⟨hebr', hlt', hlen', hstop', -⟩ := hnext
    have hrecord := hread _ List.mem_cons_self
    have hnextStop : next.stop ≤ next.start + next.len := Nat.min_le_left ..
    obtain ⟨hlink, -⟩ := @located_entry .extended 0 next.ebr _ _
      (show next.ebr - extStart < 2 ^ 32 by omega) (show next.stop - next.ebr < 2 ^ 32 by omega)
    rw [hblock] at hrecord
    dsimp only at hrecord
    rw [walk_step hrecord (by omega) (by omega) rfl hlt (by omega) (by omega)
      (hok logical List.mem_cons_self) kept]
    have hnext : extStart + (linkTo extStart (some next)).startLba.toNat = next.ebr := by
      change extStart + (located .extended 0 next.ebr (next.ebr - extStart)
        (next.stop - next.ebr)).startLba.toNat = next.ebr
      rw [hlink]
      omega
    have hkind : ¬ ((linkTo extStart (some next)).isEmpty ||
        !(linkTo extStart (some next)).kind.isExtended) = true :=
      show ¬ (MbrType.extended.isEmpty || !MbrType.extended.isExtended) = true by decide
    rw [List.head?_cons, hnext, if_neg hkind, if_neg (by omega)]
    rw [ih hrest (by omega) (fun l hl => hok l (List.mem_cons_of_mem _ hl)) 
      (Nat.succ_lt_succ_iff.mp hleft) (by rw [Mbr.ebrBlock, if_neg k.succ_ne_zero])
      (fun record hr => hread record (List.mem_cons_of_mem _ hr)), List.append_assoc]
    rfl

end Hadris.Part

namespace Hadris.Part

open Hadris.Prog

variable {dev : Device} {gpt : Gpt} {record : RawMbr}

/-! The copies of a GPT. -/

theorem Gpt.Storable.holds_of_subset (h : gpt.Storable dev.blockCount)
    (hsize : dev.blockSize = gpt.blockSize) {runs : List Part.Run} {copy : GptCopy}
    (hapart : runs.Pairwise fun a b => (a.region dev.blockSize).Apart (b.region dev.blockSize))
    (hsubset : gpt.copyRuns copy ⊆ runs) : (dev.stored runs).Holds gpt copy := by
  have hblock := h.blockSize_ok.1
  have hheader : (RawGptHeader.codec.encode (gpt.headerOf copy)).length = 92 :=
    RawGptHeader.codec.encode_length _
  have hlength : (padded gpt.blockSize gpt.arrayImage).length =
      gpt.arrayBlocks * dev.blockSize.bytes := by
    rw [whole_padded, Gpt.arrayImage_length h.entrySize, hsize]
    rfl
  refine ⟨hsize, ?_, ?_⟩
  · have hmem := hsubset (List.mem_cons_of_mem _ List.mem_cons_self)
    rw [← hsize] at hmem hblock ⊢
    exact Device.stored_block hapart hmem (by omega) (by omega)
  · change slice (dev.stored runs).image (gpt.entriesLba copy * dev.blockSize.bytes)
      (gpt.arrayBlocks * dev.blockSize.bytes) = _
    rw [← hlength]
    exact slice_store_mem _ hapart (hsubset List.mem_cons_self)

theorem Gpt.Storable.holds (h : gpt.Storable dev.blockCount)
    (hsize : dev.blockSize = gpt.blockSize)
    (record : RawMbr) (copy : GptCopy) : (dev.stored (gpt.allRuns record)).Holds gpt copy := by
  have hapart := (h.covers record).apart h.areas_apart
  rw [← hsize] at hapart
  refine h.holds_of_subset hsize hapart (List.Subset.trans ?_ (List.subset_append_left _ _))
  rw [Gpt.gptRuns_eq]
  cases copy with
  | primary => exact List.subset_append_right _ _
  | backup => exact List.subset_append_left _ _

namespace Device

theorem sameTable_headers (h : gpt.Storable dev.blockCount) :
    sameTable (gpt.headerOf .primary) (gpt.headerOf .backup) = true := by
  obtain ⟨hplace, -, -, -⟩ := h.headerFields .backup
  obtain ⟨-, -, hlast, -⟩ := h.headerFields .primary
  obtain ⟨-, -, hentries, hstop, -⟩ := Gpt.fits_ok h.fits
  have hlt : (gpt.headerOf .primary).lastUsableLba < (gpt.headerOf .backup).myLba := by
    rw [UInt64.lt_iff_toNat_lt, hplace, hlast, Gpt.headerLba]
    omega
  rw [sameTable, decide_eq_true hlt]
  simp only [Bool.and_true, Bool.and_eq_true, beq_iff_eq]
  exact ⟨⟨⟨⟨⟨⟨⟨rfl, rfl⟩, rfl⟩, rfl⟩, rfl⟩, rfl⟩, rfl⟩, rfl⟩

theorem choose_same {header other : RawGptHeader} {array otherArray : EntryArray}
    (h : sameTable header other = true) :
    choose (.ok (header, array)) (.ok (other, otherArray)) =
      .ok ⟨header, array, .primary, none, some otherArray.lba⟩ := by
  simp only [choose, h, if_true, Option.isNone_some, Bool.false_eq_true, if_false]

theorem findGpt_holds (h : gpt.Storable dev.blockCount) (hprimary : dev.Holds gpt .primary)
    (hbackup : dev.Holds gpt .backup) :
    dev.findGpt =
      .ok ⟨gpt.headerOf .primary, (gpt.headerOf .primary).entryArray dev.blockSize, .primary,
      none, some gpt.backupEntriesLba⟩ := by
  obtain ⟨-, -, -, harray⟩ := h.headerFields .backup
  have halternate : (gpt.headerOf .primary).alternateLba.toNat = gpt.backupLba :=
    (h.headerFields .backup).1
  have hlba : ((gpt.headerOf .backup).entryArray dev.blockSize).lba = gpt.backupEntriesLba := by
    rw [hprimary.size, harray]
    rfl
  have hload := (hbackup.valid h).load
  rw [findGpt, show dev.loadCopy 1 = _ from (hprimary.valid h).load]
  change (dev.loadCopy (gpt.headerOf .primary).alternateLba.toNat >>= fun backup => _) = _
  rw [halternate, show dev.loadCopy gpt.backupLba = _ from hload]
  refine (choose_same (sameTable_headers h)).trans ?_
  rw [hlba]

theorem readGpt_holds (h : gpt.Storable dev.blockCount) (hprimary : dev.Holds gpt .primary)
    (hbackup : dev.Holds gpt .backup) :
    dev.readGpt = .ok { gpt with blockCount := dev.blockCount, damaged := none } := by
  obtain ⟨hbefore, -, hlast, hstop, hdisk⟩ := Gpt.fits_ok h.fits
  obtain ⟨-, hfirstLba, hlastLba, harray⟩ := h.headerFields .primary
  have halternate : (gpt.headerOf .primary).alternateLba.toNat = gpt.backupLba :=
    (h.headerFields .backup).1
  rw [← hprimary.size] at harray
  have hfits : Gpt.backupFits dev.blockCount gpt.arrayBlocks gpt.lastUsable gpt.backupLba =
      true := by
    rw [Gpt.backupFits, checkedSub, if_pos (by omega), Option.any_some, Bool.and_eq_true,
      decide_eq_true_eq, decide_eq_true_eq]
    omega
  have hblocks : blocksFor ((gpt.headerOf .primary).numPartitionEntries.toNat *
      (gpt.headerOf .primary).sizeOfPartitionEntry.toNat) dev.blockSize = gpt.arrayBlocks :=
    congrArg EntryArray.blocks harray
  have hentriesLba : (gpt.headerOf .primary).partitionEntryLba.toNat = gpt.primaryEntriesLba :=
    congrArg EntryArray.lba harray
  have hentrySize : (gpt.headerOf .primary).sizeOfPartitionEntry.toNat = gpt.entrySize :=
    congrArg EntryArray.entrySize harray
  have hentries := hprimary.entriesOf h
  rw [readGpt_found (findGpt_holds h hprimary hbackup)]
  refine congrArg Except.ok ?_
  change Gpt.mk dev.blockSize dev.blockCount gpt.diskGuid
    (gpt.headerOf .primary).firstUsableLba.toNat (gpt.headerOf .primary).lastUsableLba.toNat
    (if Gpt.backupFits dev.blockCount
      (blocksFor ((gpt.headerOf .primary).numPartitionEntries.toNat *
      (gpt.headerOf .primary).sizeOfPartitionEntry.toNat) dev.blockSize)
        (gpt.headerOf .primary).lastUsableLba.toNat
          (gpt.headerOf .primary).alternateLba.toNat = true
      then (gpt.headerOf .primary).alternateLba.toNat else dev.blockCount - 1)
    (gpt.headerOf .primary).partitionEntryLba.toNat gpt.backupEntriesLba
    (gpt.headerOf .primary).sizeOfPartitionEntry.toNat
    (dev.entriesOf ((gpt.headerOf .primary).entryArray dev.blockSize)) none = _
  rw [hblocks, halternate, hlastLba, if_pos hfits, hfirstLba, hentriesLba, hentrySize, hentries,
    hprimary.size]

end Device

/-! The chain of an MBR. -/

namespace Mbr

variable {mbr : Mbr}

theorem Consistent.readLogical (h : mbr.Consistent) (hdisk : mbr.blockCount ≤ dev.blockCount)
    (hread : ∀ record ∈ mbr.ebrRecords, dev.readRecord record.1 = .ok record.2) :
    dev.readLogical mbr.extendedRange = .ok mbr.logical := by
  rcases hrange : mbr.extendedRange with _ | ⟨extStart, extEnd⟩
  · have hnone : mbr.logical = [] := by
      by_contra hne
      obtain ⟨owner, howner⟩ := h.owned hne
      rw [extendedRange_none hrange owner] at howner
      cases howner
    rw [hnone]
    rfl
  obtain ⟨slot, hslot, hspan⟩ := extendedRange_some hrange
  have hchain := h.chain slot hslot
  have hok := h.slots slot (not_empty_of_extended hslot)
  rw [hspan] at hchain
  have hend : extEnd ≤ dev.blockCount ∧ extStart < extEnd ∧ extEnd - extStart < 2 ^ 32 := by
    obtain ⟨rfl, rfl⟩ := Prod.mk.inj hspan
    have hlt := (mbr.primary slot).sectorCount.toNat_lt
    have hbound := hok.onDisk
    have hpos := hok.length
    omega
  rw [ebrRecords, hrange] at hread
  rw [Device.readLogical, Device.collect]
  rcases hlogical : mbr.logical with _ | ⟨first, rest⟩
  · rw [hlogical] at hread
    have hrecord := hread _ (List.mem_singleton.mpr rfl)
    dsimp only at hrecord
    rw [Device.walkEbr, show maxLogical = 255 + 1 from rfl,
      walk_default hrecord hend.2.1 (by omega)]
  · have hcount := h.count
    have hkinds := h.kinds
    rw [hlogical] at hread hchain hcount hkinds
    have hfirst : first.ebr = extStart := hchain.2 first rfl
    have hwalk := @walk_linked dev _ _ _ _ _ 0 _ 0 hchain.1 le_rfl hend.1 hend.2.2 hkinds
      (show rest.length < maxLogical from hcount) hfirst.symm hread []
    rw [hfirst] at hwalk
    rw [Device.walkEbr, hwalk]
    rfl

end Mbr

/-! Disks. -/

namespace Disk

variable {disk : Disk}

theorem record_signature (disk : Disk) : disk.record.hasSignature = true := rfl

theorem get_ofFn {n : Nat} {α : Type} (f : Fin n → α) (i : Fin n) : (Vector.ofFn f).get i = f i :=
  Vector.getElem_ofFn i.isLt

theorem fromDisk_record (disk : Disk) : fromDisk disk.table disk.record = disk := by
  obtain ⟨table, bootstrap⟩ := disk
  refine congrArg (Disk.mk table) (Vector.ext fun i hi => ?_)
  rw [Vector.getElem_ofFn]
  dsimp only [record]
  by_cases hboot : i < 440
  · rw [dif_pos hboot, get_ofFn]
    rfl
  by_cases hsignature : i < 444
  · rw [dif_neg hboot, dif_pos hsignature, get_ofFn]
    exact getElem_congr_idx (show 440 + (i - 440) = i by omega)
  · rw [dif_neg hboot, dif_neg hsignature, get_ofFn]
    exact getElem_congr_idx (show 444 + (i - 444) = i by omega)

end Disk

end Hadris.Part
