import Hadris.Part.Gpt
import Hadris.Program
import Hadris.Region

namespace Hadris.Part

open List
open Hadris.Prog

def RawGptEntry.region (entry : RawGptEntry) : Region :=
  ⟨entry.firstLba.toNat, entry.lastLba.toNat + 1 - entry.firstLba.toNat⟩

namespace Gpt

variable {gpt gpt' : Gpt} {index count : Nat} {entry : GptEntry}

def usableArea (gpt : Gpt) : Region := ⟨gpt.firstUsable, gpt.lastUsable + 1 - gpt.firstUsable⟩

def partitions (gpt : Gpt) : List RawGptEntry := gpt.entries.filter (!·.isUnused)

def structures (gpt : Gpt) : List Region :=
  [⟨1, 1⟩, ⟨gpt.primaryEntriesLba, gpt.arrayBlocks⟩, ⟨gpt.backupEntriesLba, gpt.arrayBlocks⟩,
    ⟨gpt.backupLba, 1⟩]

/-- Partitions and structures have their places. -/
structure Sound (gpt : Gpt) : Prop where
  inside : ∀ entry ∈ gpt.partitions, entry.region.Within gpt.usableArea
  apart : gpt.partitions.Pairwise fun a b => a.region.Apart b.region
  outside : ∀ region ∈ gpt.structures, region.Apart gpt.usableArea
  onDisk : ∀ region ∈ gpt.structures, region.Within ⟨0, gpt.blockCount⟩
  structuresApart : gpt.structures.Pairwise Region.Apart

/-- A used entry lies between the first and the last usable block. -/
def Fits (first last : Nat) (raw : RawGptEntry) : Prop := raw.isUnused = false →
  first ≤ raw.firstLba.toNat ∧ raw.firstLba.toNat ≤ raw.lastLba.toNat ∧ raw.lastLba.toNat ≤ last

/-- Two entries, when both are used, share no block. -/
def Clear (a b : RawGptEntry) : Prop := a.isUnused = false → b.isUnused = false →
  a.lastLba.toNat < b.firstLba.toNat ∨ b.lastLba.toNat < a.firstLba.toNat

theorem Clear.symm {a b : RawGptEntry} (h : Clear a b) : Clear b a := fun hb ha => (h ha hb).symm

/-- How the fields of a table that was built and edited hang together. -/
structure Consistent (gpt : Gpt) : Prop where
  size : checkBlockSize gpt.blockSize = .ok ()
  entrySize : gpt.entrySize = gptEntrySize
  primaryEntries : gpt.primaryEntriesLba = 2
  count : 0 < gpt.entries.length
  array : gpt.entries.length * gptEntrySize ≤ maxArrayBytes
  firstUsable : gpt.firstUsable = 2 + gpt.arrayBlocks
  usable : gpt.firstUsable ≤ gpt.lastUsable
  backupEntries : gpt.backupEntriesLba = gpt.lastUsable + 1
  backup : gpt.backupLba = gpt.backupEntriesLba + gpt.arrayBlocks
  device : gpt.blockCount = gpt.backupLba + 1
  blocks : gpt.blockCount < 2 ^ 64
  damaged : gpt.damaged = none
  fits : ∀ raw ∈ gpt.entries, Fits gpt.firstUsable gpt.lastUsable raw
  apart : gpt.entries.Pairwise Clear

theorem Consistent.arrayBlocks_pos (h : Consistent gpt) : 0 < gpt.arrayBlocks := by
  have hcount := h.count
  have hpos := gpt.blockSize.pos
  rw [arrayBlocks, h.entrySize, gptEntrySize, blocksFor]
  exact Nat.div_pos (by omega) hpos

theorem Consistent.sound (h : Consistent gpt) : Sound gpt := by
  have harray := h.arrayBlocks_pos
  have hprimary := h.primaryEntries
  have hfirst := h.firstUsable
  have husable := h.usable
  have hentries := h.backupEntries
  have hbackup := h.backup
  have hdevice := h.device
  refine ⟨?_, ?_, ?_, ?_, ?_⟩
  · intro raw hraw
    obtain ⟨hmem, hused⟩ := mem_filter.mp hraw
    have hfits := h.fits raw hmem (Bool.not_eq_true' _ |>.mp hused)
    simp only [Region.Within, Region.stop, RawGptEntry.region, usableArea]
    omega
  · refine pairwise_filter.mpr (h.apart.imp_of_mem fun {a b} hmema hmemb hclear ha hb => ?_)
    rw [Bool.not_eq_true'] at ha hb
    have hab := hclear ha hb
    have hfitsa := h.fits a hmema ha
    have hfitsb := h.fits b hmemb hb
    simp only [Region.Apart, Region.Before, Region.stop, RawGptEntry.region]
    omega
  · simp only [structures, forall_mem_cons, not_mem_nil, Region.Apart, Region.Before,
      Region.stop, usableArea]
    refine ⟨?_, ?_, ?_, ?_, fun _ h => h.elim⟩ <;> omega
  · simp only [structures, forall_mem_cons, not_mem_nil, Region.Within, Region.stop]
    refine ⟨?_, ?_, ?_, ?_, fun _ h => h.elim⟩ <;> omega
  · simp only [structures, pairwise_cons, forall_mem_cons, not_mem_nil, Region.Apart,
      Region.Before, Region.stop]
    refine ⟨⟨?_, ?_, ?_, fun _ h => h.elim⟩, ⟨?_, ?_, fun _ h => h.elim⟩,
      ⟨?_, fun _ h => h.elim⟩, fun _ h => h.elim, List.Pairwise.nil⟩ <;> omega

/-! What the checks of an edit make sure of. -/

theorem overlapping_none {start stop : Nat} {entries : List RawGptEntry}
    (h : overlapping index start stop entries = none) {other : Nat} {raw : RawGptEntry}
    (hraw : entries[other]? = some raw) (hne : other ≠ index) (hused : raw.isUnused = false) :
    raw.lastLba.toNat < start ∨ stop ≤ raw.firstLba.toNat := by
  obtain ⟨hlt, -⟩ := List.getElem?_eq_some_iff.mp hraw
  have hnot := find?_eq_none.mp h other (mem_range.mpr hlt)
  rw [getD_eq_getElem?_getD, hraw, Option.getD_some] at hnot
  simp only [hused, Bool.not_false, Bool.and_true, Bool.and_eq_true,
    bne_iff_ne, decide_eq_true_eq, not_and, Nat.not_lt, ne_eq] at hnot
  have hor := hnot hne
  omega

theorem check_ok (h : gpt.check index entry = .ok ()) :
    entry.typeGuid.isNil = false ∧ 0 < entry.len.toNat ∧
      entry.start.toNat + entry.len.toNat < 2 ^ 64 ∧ gpt.firstUsable ≤ entry.start.toNat ∧
        entry.start.toNat + entry.len.toNat - 1 ≤ gpt.lastUsable ∧
          overlapping index entry.start.toNat (entry.start.toNat + entry.len.toNat) gpt.entries =
            none := by
  rw [check] at h
  obtain ⟨_, hkind, h⟩ := except_bind_ok.mp h
  obtain ⟨_, hlen, h⟩ := except_bind_ok.mp h
  obtain ⟨stop, hstop, h⟩ := except_bind_ok.mp h
  obtain ⟨_, hbounds, h⟩ := except_bind_ok.mp h
  rw [ensure_ok, Bool.not_eq_true'] at hkind
  rw [ensure_ok, bne_iff_ne] at hlen
  rw [okOr_ok, checkedAdd_some] at hstop
  obtain ⟨hlt, rfl⟩ := hstop
  rw [ensure_ok, Bool.not_eq_true', Bool.or_eq_false_iff, decide_eq_false_iff_not,
    decide_eq_false_iff_not, Nat.not_lt, Nat.not_lt] at hbounds
  have hpos : entry.len.toNat ≠ 0 := fun hzero => hlen (UInt64.toNat_inj.mp hzero)
  refine ⟨hkind, Nat.pos_of_ne_zero hpos, hlt, hbounds.1, hbounds.2, ?_⟩
  split at h
  · cases h
  · assumption

theorem raw_lastLba (hpos : 0 < entry.len.toNat)
    (hlt : entry.start.toNat + entry.len.toNat < 2 ^ 64) :
    entry.raw.lastLba.toNat = entry.start.toNat + entry.len.toNat - 1 := by
  have hsum : (entry.start + entry.len).toNat = entry.start.toNat + entry.len.toNat := by
    rw [UInt64.toNat_add]
    exact Nat.mod_eq_of_lt hlt
  have hone : (1 : UInt64) ≤ entry.start + entry.len := by
    rw [UInt64.le_iff_toNat_le, hsum]
    change 1 ≤ _
    omega
  change (entry.start + entry.len - 1).toNat = _
  rw [UInt64.toNat_sub_of_le _ _ hone, hsum]
  rfl

theorem Consistent.set_entry {raw : RawGptEntry} (h : Consistent gpt)
    (hfits : Fits gpt.firstUsable gpt.lastUsable raw)
    (hclear : ∀ other existing, gpt.entries[other]? = some existing → other ≠ index →
      Clear raw existing) : Consistent { gpt with entries := gpt.entries.set index raw } := by
  have hlength : (gpt.entries.set index raw).length = gpt.entries.length := length_set
  have hblocks : arrayBlocks { gpt with entries := gpt.entries.set index raw } =
      gpt.arrayBlocks := by
    rw [arrayBlocks, arrayBlocks, hlength]
  refine ⟨h.size, h.entrySize, h.primaryEntries, ?_, ?_, ?_, h.usable,
    h.backupEntries, ?_, h.device, h.blocks, h.damaged, ?_, ?_⟩
  · rw [hlength]
    exact h.count
  · rw [hlength]
    exact h.array
  · rw [hblocks]
    exact h.firstUsable
  · rw [hblocks]
    exact h.backup
  · intro existing hmem
    rcases mem_or_eq_of_mem_set hmem with hmem | rfl
    · exact h.fits existing hmem
    · exact hfits
  · rw [pairwise_iff_getElem]
    intro i j hi hj hij
    have hapart := pairwise_iff_getElem.mp h.apart
    rw [length_set] at hi hj
    rw [getElem_set, getElem_set]
    split
    · rename_i hindex
      rw [if_neg (by omega)]
      exact hclear j _ (getElem?_eq_getElem hj) (by omega)
    · split
      · exact (hclear i _ (getElem?_eq_getElem hi) (by omega)).symm
      · exact hapart i j hi hj hij

theorem Consistent.set_checked (h : Consistent gpt) (hcheck : gpt.check index entry = .ok ()) :
    Consistent { gpt with entries := gpt.entries.set index entry.raw } := by
  obtain ⟨-, hpos, hlt, hfirst, hlast, hclear⟩ := check_ok hcheck
  have hraw := raw_lastLba hpos hlt
  have hstart : entry.raw.firstLba.toNat = entry.start.toNat := rfl
  refine h.set_entry (fun _ => ?_) fun other existing hother hne _ hused => ?_
  · omega
  · have hor := overlapping_none hclear hother hne hused
    omega

theorem Consistent.set_unused {raw : RawGptEntry} (h : Consistent gpt)
    (hunused : raw.isUnused = true) :
    Consistent { gpt with entries := gpt.entries.set index raw } := by
  refine h.set_entry (fun hused => ?_) fun _ _ _ _ hused => ?_
  · rw [hunused] at hused
    cases hused
  · rw [hunused] at hused
    cases hused

end Gpt

end Hadris.Part

namespace Hadris.Part.Gpt

open List
open Hadris.Prog

variable {gpt gpt' : Gpt} {index count : Nat} {entry : GptEntry}

theorem reads_table : Reads table := reads_gets id

theorem table_bind_ok {α : Type} {f : Gpt → Run α} {a : α}
    (h : (table >>= f).run gpt = (.ok a, gpt')) : (f gpt).run gpt = (.ok a, gpt') := h

/-! What each call does when it succeeds. -/

theorem setEntry_ok {raw : RawGptEntry} (h : (setEntry index raw).run gpt = (.ok (), gpt')) :
    gpt' = { gpt with entries := gpt.entries.set index raw } := by
  cases h
  rfl

theorem add_ok {slot : Nat} (h : (add entry).run gpt = (.ok slot, gpt')) :
    gpt.check slot entry = .ok () ∧
      gpt' = { gpt with entries := gpt.entries.set slot entry.raw } := by
  replace h := table_bind_ok h
  obtain ⟨slot', -, h⟩ := ofExcept_bind_ok h
  obtain ⟨_, hcheck, h⟩ := ofExcept_bind_ok h
  cases h
  exact ⟨hcheck, rfl⟩

theorem remove_ok (h : (remove index).run gpt = (.ok (), gpt')) :
    gpt' = { gpt with entries := gpt.entries.set index .default } := by
  replace h := table_bind_ok h
  obtain ⟨_, -, h⟩ := ofExcept_bind_ok h
  exact setEntry_ok h

theorem edit_ok {f : GptEntry → GptEntry} (h : (edit index f).run gpt = (.ok (), gpt')) :
    ∃ entry, gpt.check index entry = .ok () ∧
      gpt' = { gpt with entries := gpt.entries.set index entry.raw } := by
  replace h := table_bind_ok h
  obtain ⟨raw, -, h⟩ := ofExcept_bind_ok h
  obtain ⟨_, hcheck, h⟩ := ofExcept_bind_ok h
  exact ⟨_, hcheck, setEntry_ok h⟩

theorem setEntryCount_ok (h : (setEntryCount count).run gpt = (.ok (), gpt')) :
    ∃ first last, count ≠ 0 ∧ gpt.dropped count = none ∧ count * gpt.entrySize ≤ maxArrayBytes ∧
      gpt.usable gpt.backupLba (blocksFor (count * gpt.entrySize) gpt.blockSize) =
        .ok (first, last) ∧ gpt.checkUsable first last = .ok () ∧
          gpt' = { gpt with
            entries := resized gpt.entries count
            firstUsable := first
            lastUsable := last
            backupEntriesLba := last + 1 } := by
  replace h := table_bind_ok h
  obtain ⟨_, hcount, h⟩ := ofExcept_bind_ok h
  rw [ensure_ok, bne_iff_ne] at hcount
  split at h
  · cases h
  · rename_i hdropped
    obtain ⟨bytes, hbytes, h⟩ := ofExcept_bind_ok h
    rw [arrayBytes] at hbytes
    split at hbytes
    · rename_i hle
      cases hbytes
      obtain ⟨⟨first, last⟩, husable, h⟩ := ofExcept_bind_ok h
      obtain ⟨_, hcheck, h⟩ := ofExcept_bind_ok h
      cases h
      exact ⟨first, last, hcount, hdropped, hle, husable, hcheck, rfl⟩
    · cases hbytes

theorem relocateBackup_ok {blockCount : UInt64}
    (h : (relocateBackup blockCount).run gpt = (.ok (), gpt')) :
    ∃ first last, 1 ≤ blockCount.toNat ∧
      gpt.usable (blockCount.toNat - 1) gpt.arrayBlocks = .ok (first, last) ∧
        gpt.firstUsable ≤ last ∧ gpt.checkUsable gpt.firstUsable last = .ok () ∧
          gpt' = { gpt with
            blockCount := blockCount.toNat
            backupLba := blockCount.toNat - 1
            lastUsable := last
            backupEntriesLba := last + 1 } := by
  replace h := table_bind_ok h
  obtain ⟨backup, hbackup, h⟩ := ofExcept_bind_ok h
  rw [okOr_ok, checkedSub_some] at hbackup
  obtain ⟨hpos, rfl⟩ := hbackup
  obtain ⟨⟨first, last⟩, husable, h⟩ := ofExcept_bind_ok h
  obtain ⟨_, hlast, h⟩ := ofExcept_bind_ok h
  rw [ensure_ok, decide_eq_true_eq] at hlast
  obtain ⟨_, hcheck, h⟩ := ofExcept_bind_ok h
  cases h
  exact ⟨first, last, hpos, husable, hlast, hcheck, rfl⟩

/-! Every call that fails leaves the table as it was. -/

theorem quiet_setEntry (index : Nat) (raw : RawGptEntry) : Quiet (setEntry index raw) :=
  quiet_modify _

theorem quiet_edit (index : Nat) (f : GptEntry → GptEntry) : Quiet (edit index f) := by
  refine reads_table.bind fun gpt => ?_
  refine (reads_ofExcept _).bind fun raw => ?_
  exact (reads_ofExcept _).bind fun _ => quiet_setEntry index _

theorem quiet_add (entry : GptEntry) : Quiet (add entry) := by
  refine reads_table.bind fun gpt => ?_
  refine (reads_ofExcept _).bind fun slot => ?_
  refine (reads_ofExcept _).bind fun _ => ?_
  exact (quiet_setEntry slot _).bind fun _ => total_pure slot

theorem quiet_remove (index : Nat) : Quiet (remove index) := by
  refine reads_table.bind fun gpt => ?_
  exact (reads_ofExcept _).bind fun _ => quiet_setEntry index _

theorem quiet_setEntryCount (count : Nat) : Quiet (setEntryCount count) := by
  refine reads_table.bind fun gpt => ?_
  refine (reads_ofExcept _).bind fun _ => ?_
  cases gpt.dropped count with
  | some slot => exact (reads_fail _).quiet
  | none =>
    refine (reads_ofExcept _).bind fun bytes => ?_
    refine (reads_ofExcept _).bind fun range => ?_
    rcases range with ⟨first, last⟩
    exact (reads_ofExcept _).bind fun _ => quiet_modify _

theorem quiet_relocateBackup (blockCount : UInt64) : Quiet (relocateBackup blockCount) := by
  refine reads_table.bind fun gpt => ?_
  refine (reads_ofExcept _).bind fun backup => ?_
  refine (reads_ofExcept _).bind fun range => ?_
  rcases range with ⟨first, last⟩
  refine (reads_ofExcept _).bind fun _ => ?_
  exact (reads_ofExcept _).bind fun _ => quiet_modify _

theorem quiet_call (op : Op) : Quiet op.call := by
  cases op with
  | add entry => exact (quiet_add entry).bind fun _ => total_pure ()
  | remove index => exact quiet_remove index
  | resize index len =>
    rw [Op.call, resize]
    exact quiet_edit index _
  | setType index typeGuid =>
    rw [Op.call, setType]
    exact quiet_edit index _
  | setUniqueGuid index uniqueGuid =>
    rw [Op.call, setUniqueGuid]
    exact quiet_edit index _
  | setName index name =>
    rw [Op.call, setName]
    exact quiet_edit index _
  | setFlags index flags =>
    rw [Op.call, setFlags]
    exact quiet_edit index _
  | setAttributes index attributes =>
    rw [Op.call, setAttributes]
    exact quiet_edit index _
  | setDiskGuid diskGuid => exact quiet_modify _
  | setEntryCount count => exact quiet_setEntryCount count
  | relocateBackup blockCount => exact quiet_relocateBackup blockCount

/-! Every call that succeeds keeps a table consistent. -/

theorem usable_ok {backup array first last : Nat}
    (h : gpt.usable backup array = .ok (first, last)) :
    first = gpt.primaryEntriesLba + array ∧ array + 1 ≤ backup ∧ last = backup - array - 1 ∧
      first ≤ last := by
  rw [usable] at h
  split at h
  · rename_i first' last' hfirst hlast
    split at h
    · rename_i hle
      cases h
      obtain ⟨-, rfl⟩ := checkedAdd_some.mp hfirst
      obtain ⟨middle, hmiddle, hlast⟩ := Option.bind_eq_some_iff.mp hlast
      obtain ⟨harray, rfl⟩ := checkedSub_some.mp hmiddle
      obtain ⟨hone, rfl⟩ := checkedSub_some.mp hlast
      exact ⟨rfl, by omega, rfl, hle⟩
    · cases h
  · cases h

theorem checkUsable_ok {first last : Nat} (h : gpt.checkUsable first last = .ok ()) :
    ∀ raw ∈ gpt.entries, raw.isUnused = false →
      first ≤ raw.firstLba.toNat ∧ raw.lastLba.toNat ≤ last := by
  intro raw hraw hused
  rw [checkUsable] at h
  split at h
  · cases h
  · rename_i hnone
    have hnot := findIdx?_eq_none_iff.mp hnone raw hraw
    rw [outside, hused, Bool.not_false, Bool.true_and, Bool.or_eq_false_iff,
      decide_eq_false_iff_not, decide_eq_false_iff_not, Nat.not_lt, Nat.not_lt] at hnot
    exact hnot

theorem default_isUnused : RawGptEntry.default.isUnused = true := by decide

theorem resized_subset {entries : List RawGptEntry} {raw : RawGptEntry}
    (h : raw ∈ resized entries count) (hused : raw.isUnused = false) : raw ∈ entries := by
  induction count generalizing entries with
  | zero => exact absurd h not_mem_nil
  | succ count ih =>
    rw [resized, takeD] at h
    rcases entries with _ | ⟨first, rest⟩
    · rcases mem_cons.mp h with rfl | h
      · rw [headD_nil, default_isUnused] at hused
        cases hused
      · exact ih h
    · rcases mem_cons.mp h with rfl | h
      · exact mem_cons_self
      · exact mem_cons_of_mem _ (ih h)

theorem resized_pairwise {entries : List RawGptEntry} (h : entries.Pairwise Clear) :
    (resized entries count).Pairwise Clear := by
  induction count generalizing entries with
  | zero => exact List.Pairwise.nil
  | succ count ih =>
    rcases entries with _ | ⟨first, rest⟩
    · rw [resized, takeD, pairwise_cons]
      refine ⟨fun raw _ hused => ?_, ih List.Pairwise.nil⟩
      rw [headD_nil, default_isUnused] at hused
      cases hused
    · rw [pairwise_cons] at h
      rw [resized, takeD, pairwise_cons]
      refine ⟨fun raw hraw hused hused' => ?_, ih h.2⟩
      exact h.1 raw (resized_subset hraw hused') hused hused'

theorem new_consistent {diskGuid : Guid} {blockCount : UInt64} {blockSize : BlockSize}
    (h : Gpt.new diskGuid blockCount blockSize = .ok gpt) : Consistent gpt := by
  rw [Gpt.new] at h
  obtain ⟨_, hsize, h⟩ := except_bind_ok.mp h
  obtain ⟨last, hlast, h⟩ := except_bind_ok.mp h
  rw [okOr_ok, Option.filter_eq_some_iff, checkedSub_some, decide_eq_true_eq] at hlast
  obtain ⟨⟨hle, rfl⟩, hfirst⟩ := hlast
  cases h
  have hcount := blockCount.toNat_lt
  have hunused : ∀ raw ∈ replicate gptDefaultEntries RawGptEntry.default,
      raw.isUnused = true := fun raw hraw => by
    rw [eq_of_mem_replicate hraw, default_isUnused]
  have harray : blocksFor ((replicate gptDefaultEntries RawGptEntry.default).length *
      gptEntrySize) blockSize = blocksFor (gptDefaultEntries * gptEntrySize) blockSize := by
    rw [length_replicate]
  refine ⟨hsize, rfl, rfl, ?_, ?_, ?_, hfirst, ?_, ?_, ?_, hcount, rfl,
    fun raw hraw hused => ?_, ?_⟩
  · rw [length_replicate]
    decide
  · rw [length_replicate]
    decide
  · exact congrArg (2 + ·) harray.symm
  · change blockCount.toNat - 1 - blocksFor (gptDefaultEntries * gptEntrySize) blockSize =
      blockCount.toNat - (2 + blocksFor (gptDefaultEntries * gptEntrySize) blockSize) + 1
    omega
  · change blockCount.toNat - 1 =
      blockCount.toNat - 1 - blocksFor (gptDefaultEntries * gptEntrySize) blockSize +
        blocksFor ((replicate gptDefaultEntries RawGptEntry.default).length * gptEntrySize)
          blockSize
    rw [harray]
    omega
  · change blockCount.toNat = blockCount.toNat - 1 + 1
    omega
  · rw [hunused raw hraw] at hused
    cases hused
  · refine pairwise_of_forall_mem_list fun a ha b _ hused => ?_
    rw [hunused a ha] at hused
    cases hused

theorem setEntryCount_consistent (h : Consistent gpt)
    (hrun : (setEntryCount count).run gpt = (.ok (), gpt')) : Consistent gpt' := by
  obtain ⟨first, last, hcount, -, hbytes, husable, hcheck, rfl⟩ := setEntryCount_ok hrun
  obtain ⟨hfirst, hback, hlast, hle⟩ := usable_ok husable
  have hlength : (resized gpt.entries count).length = count := takeD_length ..
  have hdevice := h.device
  have hbackup := h.backup
  have hbelow := checkUsable_ok hcheck
  rw [h.primaryEntries] at hfirst
  refine ⟨h.size, h.entrySize, h.primaryEntries, ?_, ?_, ?_, hle, rfl, ?_, hdevice, h.blocks,
    h.damaged, fun raw hraw hused => ?_, resized_pairwise h.apart⟩
  · rw [hlength]
    exact Nat.pos_of_ne_zero hcount
  · rw [hlength, ← h.entrySize]
    exact hbytes
  · rw [arrayBlocks, hlength]
    exact hfirst
  · rw [arrayBlocks, hlength]
    change gpt.backupLba = last + 1 + blocksFor (count * gpt.entrySize) gpt.blockSize
    omega
  · have hmem := resized_subset hraw hused
    have hfits := h.fits raw hmem hused
    have hbounds := hbelow raw hmem hused
    exact ⟨hbounds.1, hfits.2.1, hbounds.2⟩

theorem relocateBackup_consistent {blockCount : UInt64} (h : Consistent gpt)
    (hrun : (relocateBackup blockCount).run gpt = (.ok (), gpt')) : Consistent gpt' := by
  obtain ⟨first, last, hpos, husable, hle, hcheck, rfl⟩ := relocateBackup_ok hrun
  obtain ⟨-, hback, hlast, -⟩ := usable_ok husable
  have hbelow := checkUsable_ok hcheck
  refine ⟨h.size, h.entrySize, h.primaryEntries, h.count, h.array,
    h.firstUsable, hle, rfl, ?_, ?_,
    blockCount.toNat_lt, h.damaged, fun raw hraw hused => ?_, h.apart⟩
  · change blockCount.toNat - 1 = last + 1 + gpt.arrayBlocks
    omega
  · change blockCount.toNat = blockCount.toNat - 1 + 1
    omega
  · have hfits := h.fits raw hraw hused
    have hbounds := hbelow raw hraw hused
    exact ⟨hfits.1, hfits.2.1, hbounds.2⟩

theorem edit_consistent {f : GptEntry → GptEntry} (h : Consistent gpt)
    (hrun : (edit index f).run gpt = (.ok (), gpt')) : Consistent gpt' := by
  obtain ⟨entry, hcheck, rfl⟩ := edit_ok hrun
  exact h.set_checked hcheck

theorem remove_consistent (h : Consistent gpt) (hrun : (remove index).run gpt = (.ok (), gpt')) :
    Consistent gpt' := by
  obtain rfl := remove_ok hrun
  exact h.set_unused default_isUnused

theorem call_consistent (h : Consistent gpt) {op : Op} (hrun : op.call.run gpt = (.ok (), gpt')) :
    Consistent gpt' := by
  cases op with
  | add entry =>
    obtain ⟨slot, gpt₂, hadd, hrun⟩ := bind_ok hrun
    cases hrun
    obtain ⟨hcheck, rfl⟩ := add_ok hadd
    exact h.set_checked hcheck
  | remove index => exact remove_consistent h hrun
  | resize index len =>
    rw [Op.call, resize] at hrun
    exact edit_consistent h hrun
  | setType index typeGuid =>
    rw [Op.call, setType] at hrun
    exact edit_consistent h hrun
  | setUniqueGuid index uniqueGuid =>
    rw [Op.call, setUniqueGuid] at hrun
    exact edit_consistent h hrun
  | setName index name =>
    rw [Op.call, setName] at hrun
    exact edit_consistent h hrun
  | setFlags index flags =>
    rw [Op.call, setFlags] at hrun
    exact edit_consistent h hrun
  | setAttributes index attributes =>
    rw [Op.call, setAttributes] at hrun
    exact edit_consistent h hrun
  | setDiskGuid diskGuid =>
    cases hrun
    exact ⟨h.size, h.entrySize, h.primaryEntries, h.count, h.array, h.firstUsable, h.usable,
      h.backupEntries, h.backup, h.device, h.blocks, h.damaged, h.fits, h.apart⟩
  | setEntryCount count => exact setEntryCount_consistent h hrun
  | relocateBackup blockCount => exact relocateBackup_consistent h hrun

theorem Built.consistent (h : Built gpt) : Consistent gpt := by
  induction h with
  | new hnew => exact new_consistent hnew
  | @call gpt _ op ih =>
    rcases hrun : op.call.run gpt with ⟨e | u, gpt'⟩
    · obtain rfl := quiet_call op gpt e gpt' hrun
      exact ih
    · exact call_consistent ih hrun

end Hadris.Part.Gpt
