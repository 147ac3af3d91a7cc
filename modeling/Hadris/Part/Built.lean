import Hadris.Part.GptRun
import Hadris.Part.MbrSound

namespace Hadris.Part.Mbr

open List
open Hadris.Prog

variable {mbr mbr' : Mbr} {index : Nat} {slot : Fin 4} {entry : MbrEntry}

theorem reads_table : Reads table := reads_gets id

theorem table_bind_ok {α : Type} {f : Mbr → Run α} {a : α}
    (h : (table >>= f).run mbr = (.ok a, mbr')) : (f mbr).run mbr = (.ok a, mbr') := h

/-! Every call that fails leaves the table as it was. -/

theorem total_setPrimary (slot : Fin 4) (raw : RawMbrEntry) : Total (setPrimary slot raw) :=
  fun _ => ⟨(), _, rfl⟩

theorem quiet_setPrimary (slot : Fin 4) (raw : RawMbrEntry) : Quiet (setPrimary slot raw) :=
  quiet_modify _

theorem quiet_setLogical (logical : List Logical) : Quiet (setLogical logical) := quiet_modify _

theorem quiet_add (entry : MbrEntry) : Quiet (add entry) := by
  refine reads_table.bind fun mbr => ?_
  refine (reads_ofExcept _).bind fun slot => ?_
  refine (reads_ofExcept _).bind fun _ => ?_
  exact (quiet_setPrimary slot _).bind fun _ => total_pure _

theorem quiet_addLogical (entry : MbrEntry) : Quiet (addLogical entry) := by
  refine reads_table.bind fun mbr => ?_
  refine (reads_ofExcept _).bind fun _ => ?_
  refine (reads_ofExcept _).bind fun _ => ?_
  refine (reads_ofExcept _).bind fun range => ?_
  rcases range with ⟨extStart, extEnd⟩
  refine (reads_ofExcept _).bind fun logical => ?_
  exact (quiet_setLogical logical).bind fun _ => total_pure _

theorem quiet_removePrimary (slot : Fin 4) : Quiet (removePrimary slot) := by
  refine reads_table.bind fun mbr => ?_
  refine (reads_ofExcept _).bind fun _ => ?_
  exact (reads_ofExcept _).bind fun _ => quiet_setPrimary slot _

theorem quiet_removeLogical (index : Nat) : Quiet (removeLogical index) := by
  refine reads_table.bind fun mbr => ?_
  refine (reads_ofExcept _).bind fun _ => ?_
  refine (reads_ofExcept _).bind fun range => ?_
  rcases range with ⟨extStart, extEnd⟩
  exact (reads_ofExcept _).bind fun logical => quiet_setLogical logical

theorem quiet_remove (index : Nat) : Quiet (remove index) := by
  rw [remove]
  split
  · exact quiet_removePrimary _
  · exact quiet_removeLogical index

theorem quiet_editPrimary (slot : Fin 4) (f : MbrEntry → MbrEntry) :
    Quiet (editPrimary slot f) := by
  refine reads_table.bind fun mbr => ?_
  refine (reads_ofExcept _).bind fun current => ?_
  refine (reads_ofExcept _).bind fun _ => ?_
  split
  · refine (reads_ofExcept _).bind fun logical => ?_
    exact (quiet_setLogical logical).bind fun _ => total_setPrimary slot _
  · exact quiet_setPrimary slot _

theorem quiet_editLogical (index : Nat) (f : MbrEntry → MbrEntry) :
    Quiet (editLogical index f) := by
  refine reads_table.bind fun mbr => ?_
  refine (reads_ofExcept _).bind fun current => ?_
  refine (reads_ofExcept _).bind fun _ => ?_
  refine (reads_ofExcept _).bind fun _ => ?_
  refine (reads_ofExcept _).bind fun range => ?_
  rcases range with ⟨extStart, extEnd⟩
  exact (reads_ofExcept _).bind fun logical => quiet_setLogical logical

theorem quiet_edit (index : Nat) (f : MbrEntry → MbrEntry) : Quiet (edit index f) := by
  rw [edit]
  split
  · exact quiet_editPrimary _ f
  · exact quiet_editLogical index f

theorem quiet_setKind (index : Nat) (kind : MbrType) : Quiet (setKind index kind) := by
  refine reads_table.bind fun mbr => ?_
  refine (reads_ofExcept _).bind fun current => ?_
  exact (reads_ofExcept _).bind fun _ => quiet_edit index _

theorem quiet_call (op : Op) : Quiet op.call := by
  cases op with
  | add entry => exact (quiet_add entry).bind fun _ => total_pure ()
  | addLogical entry => exact (quiet_addLogical entry).bind fun _ => total_pure ()
  | remove index => exact quiet_remove index
  | resize index len =>
    rw [Op.call, resize]
    exact quiet_edit index _
  | setKind index kind => exact quiet_setKind index kind
  | setFlags index flags =>
    rw [Op.call, setFlags]
    exact quiet_edit index _

/-! What each call does when it succeeds. -/

theorem add_ok {k : Nat} (h : (add entry).run mbr = (.ok k, mbr')) :
    ∃ slot : Fin 4, k = slot ∧ (mbr.primary slot).isEmpty = true ∧
      mbr.checkPrimary slot entry = .ok () ∧
        mbr' = { mbr with primary := Function.update mbr.primary slot (primaryEntry entry) } := by
  replace h := table_bind_ok h
  obtain ⟨slot, hslot, h⟩ := ofExcept_bind_ok h
  obtain ⟨_, hcheck, h⟩ := ofExcept_bind_ok h
  cases h
  exact ⟨slot, rfl, find?_some (p := fun slot => (mbr.primary slot).isEmpty) (okOr_ok.mp hslot),
    hcheck, rfl⟩

theorem addLogical_ok {k : Nat} (h : (addLogical entry).run mbr = (.ok k, mbr')) :
    ∃ extStart extEnd placed, entry.kind.isEmpty = false ∧ entry.kind.isExtended = false ∧
      entry.kind.isProtective = false ∧ mbr.extendedRange = some (extStart, extEnd) ∧
        placeLogicals extStart extEnd (mbr.logical ++
          [⟨0, entry.start.toNat, entry.len.toNat, entry.kind, entry.flags.toMbr⟩]) = .ok placed ∧
            mbr' = { mbr with logical := placed } := by
  replace h := table_bind_ok h
  obtain ⟨_, hkind, h⟩ := ofExcept_bind_ok h
  obtain ⟨_, -, h⟩ := ofExcept_bind_ok h
  obtain ⟨⟨extStart, extEnd⟩, hrange, h⟩ := ofExcept_bind_ok h
  obtain ⟨placed, hplaced, h⟩ := ofExcept_bind_ok h
  rw [ensure_ok, Bool.not_eq_true', Bool.or_eq_false_iff, Bool.or_eq_false_iff] at hkind
  cases h
  exact ⟨extStart, extEnd, placed, hkind.1.1, hkind.1.2, hkind.2, okOr_ok.mp hrange, hplaced, rfl⟩

theorem removePrimary_ok (h : (removePrimary slot).run mbr = (.ok (), mbr')) :
    ((mbr.primary slot).kind.isExtended = true → mbr.logical = []) ∧
      mbr' = { mbr with primary := Function.update mbr.primary slot .default } := by
  replace h := table_bind_ok h
  obtain ⟨_, -, h⟩ := ofExcept_bind_ok h
  obtain ⟨_, hfree, h⟩ := ofExcept_bind_ok h
  rw [ensure_ok, Bool.not_eq_true', Bool.and_eq_false_imp] at hfree
  cases h
  refine ⟨fun hext => ?_, rfl⟩
  have hnone := hfree hext
  rwa [Bool.not_eq_false', List.isEmpty_iff] at hnone

theorem removeLogical_ok (h : (removeLogical index).run mbr = (.ok (), mbr')) :
    ∃ extStart extEnd placed, mbr.extendedRange = some (extStart, extEnd) ∧
      placeLogicals extStart extEnd (mbr.logical.eraseIdx (index - firstLogical)) = .ok placed ∧
        mbr' = { mbr with logical := placed } := by
  replace h := table_bind_ok h
  obtain ⟨_, -, h⟩ := ofExcept_bind_ok h
  obtain ⟨⟨extStart, extEnd⟩, hrange, h⟩ := ofExcept_bind_ok h
  obtain ⟨placed, hplaced, h⟩ := ofExcept_bind_ok h
  cases h
  exact ⟨extStart, extEnd, placed, okOr_ok.mp hrange, hplaced, rfl⟩

theorem editPrimary_ok {f : MbrEntry → MbrEntry}
    (h : (editPrimary slot f).run mbr = (.ok (), mbr')) :
    ∃ current, mbr.current slot = .ok current ∧ mbr.checkPrimary slot (f current) = .ok () ∧
      ∃ logical, mbr' = { mbr with
        primary := Function.update mbr.primary slot (primaryEntry (f current)), logical :=
  logical } ∧
          (current.kind.isExtended = true → placeLogicals (f current).start.toNat
            (saturatingAdd (f current).start.toNat (f current).len.toNat) mbr.logical =
              .ok logical) ∧
          (current.kind.isExtended = false → logical = mbr.logical) := by
  replace h := table_bind_ok h
  obtain ⟨current, hcurrent, h⟩ := ofExcept_bind_ok h
  obtain ⟨_, hcheck, h⟩ := ofExcept_bind_ok h
  refine ⟨current, hcurrent, hcheck, ?_⟩
  split at h
  · rename_i hext
    obtain ⟨logical, hlogical, h⟩ := ofExcept_bind_ok h
    cases h
    refine ⟨logical, rfl, fun _ => hlogical, fun hplain => ?_⟩
    rw [hext] at hplain
    cases hplain
  · rename_i hplain
    cases h
    exact ⟨mbr.logical, rfl, fun hext => absurd hext hplain, fun _ => rfl⟩

theorem editLogical_ok {f : MbrEntry → MbrEntry}
    (h : (editLogical index f).run mbr = (.ok (), mbr')) :
    ∃ current extStart extEnd placed, mbr.current index = .ok current ∧
      (f current).kind.isEmpty = false ∧ (f current).kind.isProtective = false ∧
        mbr.extendedRange = some (extStart, extEnd) ∧
          placeLogicals extStart extEnd (mbr.logical.modify (index - firstLogical) fun target =>
            { target with
              len := (f current).len.toNat
              kind := (f current).kind
              boot := (f current).flags.toMbr }) = .ok placed ∧
                mbr' = { mbr with logical := placed } := by
  replace h := table_bind_ok h
  obtain ⟨current, hcurrent, h⟩ := ofExcept_bind_ok h
  obtain ⟨_, -, h⟩ := ofExcept_bind_ok h
  obtain ⟨_, hkind, h⟩ := ofExcept_bind_ok h
  obtain ⟨⟨extStart, extEnd⟩, hrange, h⟩ := ofExcept_bind_ok h
  obtain ⟨placed, hplaced, h⟩ := ofExcept_bind_ok h
  rw [ensure_ok, Bool.not_eq_true', Bool.or_eq_false_iff] at hkind
  cases h
  exact ⟨current, extStart, extEnd, placed, hcurrent, hkind.1, hkind.2,
    okOr_ok.mp hrange, hplaced, rfl⟩

/-! Every call that succeeds keeps a table consistent. -/

/-- An edit that takes no entry to or from an extended type. -/
def KeepsExtended (mbr : Mbr) (index : Nat) (f : MbrEntry → MbrEntry) : Prop :=
  ∀ current, mbr.current index = .ok current →
    (f current).kind.isExtended = current.kind.isExtended

theorem current_primary {current : MbrEntry} (h : mbr.current slot = .ok current) :
    current.kind = (mbr.primary slot).kind ∧
      current.start.toNat = (mbr.primary slot).startLba.toNat := by
  rw [Mbr.current] at h
  obtain ⟨partition, hentry, h⟩ := except_bind_ok.mp h
  rw [okOr_ok, Mbr.entry, dif_pos (show slot.val < firstLogical from slot.isLt)] at hentry
  dsimp only at hentry
  split at hentry
  · cases hentry
  · cases hentry
    cases h
    have hlt : (mbr.primary slot).startLba.toNat < UInt64.size :=
      Nat.lt_trans (UInt32.toNat_lt _) (by decide)
    exact ⟨rfl, UInt64.toNat_ofNat_of_lt hlt⟩

theorem current_logical {current : MbrEntry} (hindex : ¬ index < firstLogical)
    (h : mbr.current index = .ok current) :
    ∃ logical ∈ mbr.logical, current.kind = logical.kind := by
  rw [Mbr.current] at h
  obtain ⟨partition, hentry, h⟩ := except_bind_ok.mp h
  rw [okOr_ok, Mbr.entry, dif_neg hindex, Option.map_eq_some_iff] at hentry
  obtain ⟨logical, hlogical, rfl⟩ := hentry
  cases h
  exact ⟨logical, mem_of_getElem? hlogical, rfl⟩

theorem new_consistent {blockCount : UInt64} {blockSize : BlockSize}
    (h : Mbr.new blockCount blockSize = .ok mbr) : Consistent mbr := by
  rw [Mbr.new] at h
  obtain ⟨_, hsize, h⟩ := except_bind_ok.mp h
  cases h
  have hempty : RawMbrEntry.default.isEmpty = true := by decide
  have hplain : RawMbrEntry.default.kind.isExtended = false := by decide
  refine ⟨hsize, blockCount.toNat_lt, fun _ _ => rfl, fun slot hused => ?_,
    fun slot other _ hused => ?_,
    fun slot other hext => ?_, fun hne => absurd rfl hne, fun slot hext => ?_,
    fun _ h => absurd h not_mem_nil, Nat.zero_le _⟩
  · exact absurd (hused.symm.trans hempty) Bool.false_ne_true
  · exact absurd (hused.symm.trans hempty) Bool.false_ne_true
  · exact absurd (hplain.symm.trans hext) Bool.false_ne_true
  · exact absurd (hplain.symm.trans hext) Bool.false_ne_true

theorem add_consistent {k : Nat} (h : Consistent mbr)
    (hrun : (add entry).run mbr = (.ok k, mbr')) : Consistent mbr' := by
  obtain ⟨slot, -, hfree, hcheck, rfl⟩ := add_ok hrun
  have hslot : (mbr.primary slot).kind.isExtended = false := by
    by_contra hext
    rw [Bool.not_eq_false] at hext
    rw [not_empty_of_extended hext] at hfree
    cases hfree
  refine h.set_primary hcheck (fun hext => ?_) fun _ => ⟨hslot, rfl⟩
  -- a table with logical partitions has an extended partition, so no other comes
  have hnone : mbr.logical = [] := by
    by_contra hne
    obtain ⟨owner, howner⟩ := h.owned hne
    have hother : owner ≠ slot := by
      rintro rfl
      rw [hslot] at howner
      cases howner
    rw [(beside_primaryEntry hcheck hother (not_empty_of_extended howner)).2 hext] at howner
    cases howner
  rw [hnone]
  exact ⟨chain_nil _ _, fun _ h => absurd h not_mem_nil, Nat.zero_le _⟩

theorem addLogical_consistent {k : Nat} (h : Consistent mbr)
    (hrun : (addLogical entry).run mbr = (.ok k, mbr')) : Consistent mbr' := by
  obtain ⟨extStart, extEnd, placed, hempty, hextended, hprotective, hrange, hplaced, rfl⟩ :=
    addLogical_ok hrun
  refine h.set_logical hrange hplaced fun l hl => ?_
  rcases mem_append.mp hl with hl | hl
  · exact h.kinds l hl
  · obtain rfl := mem_singleton.mp hl
    exact ⟨hempty, hextended, hprotective, toMbr_boot entry.flags⟩

theorem remove_consistent (h : Consistent mbr) (hrun : (remove index).run mbr = (.ok (), mbr')) :
    Consistent mbr' := by
  rw [remove] at hrun
  split at hrun
  · obtain ⟨hfree, rfl⟩ := removePrimary_ok hrun
    exact h.set_default hfree
  · obtain ⟨extStart, extEnd, placed, hrange, hplaced, rfl⟩ := removeLogical_ok hrun
    exact h.set_logical hrange hplaced fun l hl => h.kinds l (mem_of_mem_eraseIdx hl)

theorem editPrimary_consistent {f : MbrEntry → MbrEntry} (h : Consistent mbr)
    (hf : KeepsExtended mbr slot f) (hrun : (editPrimary slot f).run mbr = (.ok (), mbr')) :
    Consistent mbr' := by
  obtain ⟨current, hcurrent, hcheck, logical, rfl, hplaced, hkept⟩ := editPrimary_ok hrun
  have hkind := hf current hcurrent
  refine h.set_primary hcheck (fun hext => ?_) fun hplain => ?_
  · obtain ⟨-, -, -, hstart, hlen, -, -, -⟩ := checkPrimary_ok hcheck
    have hstop : saturatingAdd (f current).start.toNat (f current).len.toNat =
        (f current).start.toNat + (f current).len.toNat := by
      rw [saturatingAdd]
      omega
    rw [hkind] at hext
    have hplaced := hplaced hext
    rw [hstop] at hplaced
    obtain ⟨hchain, hlength, hcount, hsame⟩ := placeLogicals_ok hplaced
    refine ⟨hchain, fun l hl => ?_, by omega⟩
    obtain ⟨before, hbefore, hsame⟩ := hsame l hl
    have hok := h.kinds before hbefore
    rw [hsame]
    exact ⟨hok.empty, hok.extended, hok.protective, hok.boot⟩
  · rw [hkind] at hplain
    refine ⟨?_, hkept hplain⟩
    rw [← (current_primary hcurrent).1]
    exact hplain

theorem editLogical_consistent {f : MbrEntry → MbrEntry} (h : Consistent mbr)
    (hindex : ¬ index < firstLogical) (hf : KeepsExtended mbr index f)
    (hrun : (editLogical index f).run mbr = (.ok (), mbr')) : Consistent mbr' := by
  obtain ⟨current, extStart, extEnd, placed, hcurrent, hempty, hprotective,
    hrange, hplaced, rfl⟩ :=
    editLogical_ok hrun
  obtain ⟨logical, hlogical, hkind⟩ := current_logical hindex hcurrent
  refine h.set_logical hrange hplaced fun l hl => ?_
  obtain ⟨i, hi, rfl⟩ := getElem_of_mem hl
  rw [length_modify] at hi
  rw [getElem_modify]
  split
  · refine ⟨hempty, ?_, hprotective, toMbr_boot _⟩
    change (f current).kind.isExtended = false
    rw [hf current hcurrent, hkind]
    exact (h.kinds logical hlogical).extended
  · exact h.kinds _ (getElem_mem hi)

theorem edit_consistent {f : MbrEntry → MbrEntry} (h : Consistent mbr)
    (hf : KeepsExtended mbr index f) (hrun : (edit index f).run mbr = (.ok (), mbr')) :
    Consistent mbr' := by
  rw [edit] at hrun
  split at hrun
  · exact editPrimary_consistent h hf hrun
  · rename_i hindex
    exact editLogical_consistent h hindex hf hrun

theorem call_consistent (h : Consistent mbr) {op : Op} (hrun : op.call.run mbr = (.ok (), mbr')) :
    Consistent mbr' := by
  cases op with
  | add entry =>
    obtain ⟨k, mbr₂, hadd, hrun⟩ := bind_ok hrun
    cases hrun
    exact add_consistent h hadd
  | addLogical entry =>
    obtain ⟨k, mbr₂, hadd, hrun⟩ := bind_ok hrun
    cases hrun
    exact addLogical_consistent h hadd
  | remove index => exact remove_consistent h hrun
  | resize index len =>
    rw [Op.call, resize] at hrun
    have hkeeps : KeepsExtended mbr index fun entry => { entry with len := len } := fun _ _ => rfl
    exact edit_consistent h hkeeps hrun
  | setKind index kind =>
    rw [Op.call, setKind] at hrun
    replace hrun := table_bind_ok hrun
    obtain ⟨current, hcurrent, hrun⟩ := ofExcept_bind_ok hrun
    obtain ⟨_, hkind, hrun⟩ := ofExcept_bind_ok hrun
    rw [ensure_ok, beq_iff_eq] at hkind
    refine edit_consistent h (fun current' hcurrent' => ?_) hrun
    rw [hcurrent] at hcurrent'
    cases hcurrent'
    exact hkind.symm
  | setFlags index flags =>
    rw [Op.call, setFlags] at hrun
    have hkeeps : KeepsExtended mbr index fun entry => { entry with flags := flags } :=
      fun _ _ => rfl
    exact edit_consistent h hkeeps hrun

theorem Built.consistent (h : Built mbr) : Consistent mbr := by
  induction h with
  | new hnew => exact new_consistent hnew
  | @call mbr _ op ih =>
    rcases hrun : op.call.run mbr with ⟨e | u, mbr'⟩
    · obtain rfl := quiet_call op mbr e mbr' hrun
      exact ih
    · exact call_consistent ih hrun

end Hadris.Part.Mbr

namespace Hadris.Part

open List
open Hadris.Prog

def chainAreas (logical : List Logical) : List Region :=
  logical.flatMap fun l => [blockRegion l.ebr, l.region]

theorem linked_areas {extEnd prevEnd : Nat} {logical : List Logical}
    (h : Linked extEnd prevEnd logical) :
    (chainAreas logical).Pairwise Region.Before ∧
      ∀ area ∈ chainAreas logical, prevEnd ≤ area.start ∧ area.stop ≤ extEnd := by
  induction logical generalizing prevEnd with
  | nil => exact ⟨.nil, fun _ h => absurd h not_mem_nil⟩
  | cons logical rest ih =>
    obtain ⟨hebr, hstart, hlen, hend, hrest⟩ := h
    obtain ⟨hbefore, hbounds⟩ := ih hrest
    have hrecord : (blockRegion logical.ebr).stop ≤ logical.start := hstart
    have hstop : logical.region.stop = logical.start + logical.len := rfl
    refine ⟨.cons ?_ (.cons ?_ hbefore), ?_⟩
    · rintro area (_ | ⟨_, harea⟩)
      · exact hrecord
      · have hlow := (hbounds area harea).1
        simp only [Region.Before]
        omega
    · intro area harea
      have hlow := (hbounds area harea).1
      simp only [Region.Before]
      omega
    · rintro area (_ | ⟨_, _ | ⟨_, harea⟩⟩)
      · change prevEnd ≤ logical.ebr ∧ (blockRegion logical.ebr).stop ≤ extEnd
        omega
      · change prevEnd ≤ logical.start ∧ logical.region.stop ≤ extEnd
        omega
      · have hlow := (hbounds area harea).1
        exact ⟨by omega, (hbounds area harea).2⟩

theorem linked_fields {extEnd prevEnd : Nat} {logical : List Logical}
    (h : Linked extEnd prevEnd logical) {k : Nat} {this : Logical}
    (hthis : logical[k]? = some this) :
    prevEnd ≤ this.ebr ∧ this.ebr < this.start ∧ this.start + this.len ≤ extEnd := by
  induction logical generalizing prevEnd k with
  | nil => cases hthis
  | cons logical rest ih =>
    obtain ⟨hebr, hstart, hlen, hend, hrest⟩ := h
    rcases k with _ | k
    · rw [getElem?_cons_zero, Option.some.injEq] at hthis
      rw [← hthis]
      exact ⟨hebr, hstart, hend⟩
    · rw [getElem?_cons_succ] at hthis
      obtain ⟨hlow, hrest⟩ := ih hrest hthis
      exact ⟨by omega, hrest⟩

namespace Mbr

variable {mbr mbr' : Mbr} {index : Nat} {slot : Fin 4} {entry : MbrEntry}

def primaries (mbr : Mbr) : List RawMbrEntry :=
  ((finRange 4).map mbr.primary).filter (!·.isEmpty)

def ebrBlocks (mbr : Mbr) : List Region := mbr.ebrRecords.map fun record => blockRegion record.1

def extendedAreas (mbr : Mbr) : List Region := mbr.ebrBlocks ++ mbr.logical.map Logical.region

/-- Partitions and extended boot records have their places. -/
structure Sound (mbr : Mbr) : Prop where
  apart : mbr.primaries.Pairwise fun a b => a.region.Apart b.region
  onDisk : ∀ raw ∈ mbr.primaries, raw.region.Within ⟨0, mbr.blockCount⟩
  extendedApart : mbr.extendedAreas.Pairwise Region.Apart
  inside : ∀ area ∈ mbr.extendedAreas, ∃ raw ∈ mbr.primaries, raw.kind.isExtended = true ∧
    area.Within raw.region
  beside : ∀ area ∈ mbr.extendedAreas, ∀ raw ∈ mbr.primaries, raw.kind.isExtended = false →
    area.Apart raw.region
  fields : mbr.validate = .ok ()

theorem mem_primaries {raw : RawMbrEntry} (h : raw ∈ mbr.primaries) :
    ∃ slot, mbr.primary slot = raw ∧ raw.isEmpty = false := by
  obtain ⟨hmem, hused⟩ := mem_filter.mp h
  obtain ⟨slot, -, hslot⟩ := mem_map.mp hmem
  rw [Bool.not_eq_true'] at hused
  exact ⟨slot, hslot, hused⟩

theorem primary_mem (h : (mbr.primary slot).isEmpty = false) :
    mbr.primary slot ∈ mbr.primaries := by
  refine mem_filter.mpr ⟨mem_map.mpr ⟨slot, mem_finRange slot, rfl⟩, ?_⟩
  rw [h]
  rfl

theorem extendedRange_none (h : mbr.extendedRange = none) (slot : Fin 4) :
    (mbr.primary slot).kind.isExtended = false := by
  rw [extendedRange, Option.map_eq_none_iff, extendedSlot, find?_eq_none] at h
  exact Bool.not_eq_true _ |>.mp (h slot (mem_finRange slot))

theorem recordsFrom_blocks {extStart k : Nat} {logical : List Logical}
    (h : k = 0 → ∀ first ∈ logical.head?, first.ebr = extStart) :
    (recordsFrom extStart k logical).map (fun record => blockRegion record.1) =
      logical.map fun l => blockRegion l.ebr := by
  induction logical generalizing k with
  | nil => rfl
  | cons logical rest ih =>
    have hebr : ebrBlock extStart k logical = logical.ebr := by
      rw [ebrBlock]
      split
      · rename_i hk
        exact (h hk logical rfl).symm
      · rfl
    rw [recordsFrom, map_cons, map_cons, ih (fun hk => absurd hk k.succ_ne_zero), hebr]

theorem extendedAreas_perm {extStart extEnd : Nat}
    (hrange : mbr.extendedRange = some (extStart, extEnd))
    (hchain : Chain extStart extEnd mbr.logical) (hne : mbr.logical ≠ []) :
    mbr.extendedAreas.Perm (chainAreas mbr.logical) := by
  have hblocks : mbr.ebrBlocks = mbr.logical.map fun l => blockRegion l.ebr := by
    rw [ebrBlocks, ebrRecords, hrange]
    dsimp only
    rw [if_neg (by rwa [List.isEmpty_iff])]
    exact recordsFrom_blocks fun _ => hchain.2
  rw [extendedAreas, hblocks, ← flatMap_singleton' (mbr.logical.map Logical.region),
    flatMap_map]
  exact map_append_flatMap_perm ..

theorem Consistent.extended (h : Consistent mbr) :
    mbr.extendedAreas.Pairwise Region.Apart ∧ ∀ area ∈ mbr.extendedAreas,
      ∃ slot, (mbr.primary slot).kind.isExtended = true ∧
        area.Within (mbr.primary slot).region := by
  rcases hrange : mbr.extendedRange with _ | ⟨extStart, extEnd⟩
  · have hnone : mbr.logical = [] := by
      by_contra hne
      obtain ⟨owner, howner⟩ := h.owned hne
      rw [extendedRange_none hrange owner] at howner
      cases howner
    rw [extendedAreas, ebrBlocks, ebrRecords, hrange, hnone]
    exact ⟨.nil, fun _ h => absurd h not_mem_nil⟩
  · obtain ⟨slot, hslot, hspan⟩ := extendedRange_some hrange
    have hchain := h.chain slot hslot
    rw [hspan] at hchain
    obtain ⟨rfl, rfl⟩ := Prod.mk.inj hspan
    by_cases hne : mbr.logical = []
    · have hlen := (h.slots slot (not_empty_of_extended hslot)).length
      rw [extendedAreas, ebrBlocks, ebrRecords, hrange, hne]
      refine ⟨pairwise_singleton .., fun area harea => ⟨slot, hslot, ?_⟩⟩
      obtain rfl := mem_singleton.mp harea
      simp only [Region.Within, Region.stop, RawMbrEntry.region, blockRegion]
      omega
    · have hperm := extendedAreas_perm hrange hchain hne
      obtain ⟨hbefore, hbounds⟩ := linked_areas hchain.1
      refine ⟨(hperm.pairwise_iff Region.Apart.symm).mpr (hbefore.imp .inl), fun area harea => ?_⟩
      exact ⟨slot, hslot, hbounds area (hperm.mem_iff.mp harea)⟩

theorem Consistent.fields (h : Consistent mbr) : mbr.validate = .ok () := by
  rw [validate]
  rcases hrange : mbr.extendedRange with _ | ⟨extStart, extEnd⟩
  · rfl
  obtain ⟨slot, hslot, hspan⟩ := extendedRange_some hrange
  obtain ⟨hchain, hfirst⟩ := h.chain slot hslot
  obtain ⟨hstart, hend⟩ := Prod.mk.inj hspan
  rw [hspan] at hchain hfirst
  dsimp only at hchain hfirst
  -- whatever lies in the extended partition is nearer than 2 ^ 32 blocks
  have hwidth : extEnd - extStart < 2 ^ 32 := by
    have hlt := (mbr.primary slot).sectorCount.toNat_lt
    omega
  have hfits : ∀ k ∈ List.range mbr.logical.length,
      ¬ (!recordFits extStart mbr.logical k) = true := by
    intro k hk
    have hlt := mem_range.mp hk
    rw [Bool.not_eq_true', Bool.not_eq_false, recordFits, getElem?_eq_getElem hlt]
    have hthis := getElem?_eq_getElem hlt
    generalize mbr.logical[k] = this at hthis ⊢
    obtain ⟨hlow, hebr, hhigh⟩ := linked_fields hchain hthis
    have hblock : ebrBlock extStart k this = this.ebr := by
      rw [ebrBlock]
      split
      · rename_i hk
        rw [hk, ← head?_eq_getElem?] at hthis
        exact (hfirst this hthis).symm
      · rfl
    rw [Option.all_some, hblock, checkedSub, if_pos hebr.le]
    simp only [ fits32, Option.any_some, Bool.and_eq_true, decide_eq_true_eq]
    refine ⟨⟨by omega, by omega⟩, ?_⟩
    rcases hnext : mbr.logical[k + 1]? with _ | next
    · rfl
    · obtain ⟨hlow', hebr', hhigh'⟩ := linked_fields hchain hnext
      have hstop : next.stop ≤ next.start + next.len := Nat.min_le_left ..
      rw [Option.all_some, checkedSub, if_pos hlow']
      simp only [Option.any_some, Bool.and_eq_true, decide_eq_true_eq]
      omega
  dsimp only
  rw [find?_eq_none.mpr hfits]

theorem Consistent.sound (h : Consistent mbr) : Sound mbr := by
  obtain ⟨hextended, hinside⟩ := h.extended
  refine ⟨?_, fun raw hraw => ?_, hextended, fun area harea => ?_,
    fun area harea raw hraw hplain => ?_, h.fields⟩
  · refine pairwise_filter.mpr (pairwise_map.mpr ?_)
    refine (nodup_finRange 4).pairwise_of_forall_ne fun i _ j _ hij hi hj => ?_
    rw [Bool.not_eq_true'] at hi hj
    exact h.apart i j hij hi hj
  · obtain ⟨slot, rfl, hused⟩ := mem_primaries hraw
    have hdisk := (h.slots slot hused).onDisk
    simp only [Region.Within, Region.stop, RawMbrEntry.region]
    omega
  · obtain ⟨slot, hslot, hwithin⟩ := hinside area harea
    exact ⟨_, primary_mem (not_empty_of_extended hslot), hslot, hwithin⟩
  · obtain ⟨slot, hslot, hwithin⟩ := hinside area harea
    obtain ⟨other, rfl, hused⟩ := mem_primaries hraw
    refine hwithin.apart (h.apart slot other ?_ (not_empty_of_extended hslot) hused)
    rintro rfl
    rw [hslot] at hplain
    cases hplain

theorem add_region {k : Nat} (h : (add entry).run mbr = (.ok k, mbr')) :
    ∃ slot : Fin 4, k = slot ∧
      (mbr'.primary slot).region = ⟨entry.start.toNat, entry.len.toNat⟩ := by
  obtain ⟨slot, rfl, -, hcheck, rfl⟩ := add_ok h
  obtain ⟨-, -, -, hstart, hlen, -, -, -⟩ := checkPrimary_ok hcheck
  obtain ⟨hstart', hlen'⟩ := span_primaryEntry hstart hlen
  refine ⟨slot, rfl, ?_⟩
  change (Function.update mbr.primary slot (primaryEntry entry) slot).region = _
  rw [Function.update_self, RawMbrEntry.region, hstart', hlen']

theorem resize_region {len : UInt64} (h : (resize slot len).run mbr = (.ok (), mbr')) :
    (mbr'.primary slot).region = ⟨(mbr.primary slot).startLba.toNat, len.toNat⟩ := by
  rw [resize, edit, dif_pos (show slot.val < firstLogical from slot.isLt)] at h
  obtain ⟨current, hcurrent, hcheck, logical, rfl, -, -⟩ := editPrimary_ok h
  obtain ⟨-, -, -, hstart, hlen, -, -, -⟩ := checkPrimary_ok hcheck
  obtain ⟨hstart', hlen'⟩ := span_primaryEntry hstart hlen
  change (Function.update mbr.primary slot
    (primaryEntry { current with len := len }) slot).region = _
  rw [Function.update_self, RawMbrEntry.region, hstart', hlen']
  exact congrArg (Region.mk · len.toNat) (current_primary hcurrent).2

end Mbr

/-- Tables that were built and edited keep everything in its place, and a call
that fails changes nothing. -/
theorem tables_keep_places :
    (∀ gpt, Gpt.Built gpt → gpt.Sound) ∧
    (∀ mbr, Mbr.Built mbr → mbr.Sound) ∧
    (∀ (op : Gpt.Op) (gpt gpt' : Gpt) (error : TableError),
      op.call.run gpt = (.error error, gpt') → gpt' = gpt) ∧
    (∀ (op : Mbr.Op) (mbr mbr' : Mbr) (error : TableError),
      op.call.run mbr = (.error error, mbr') → mbr' = mbr) ∧
    (∀ (mbr mbr' : Mbr) (entry : MbrEntry) (k : Nat), (Mbr.add entry).run mbr = (.ok k, mbr') →
      ∃ slot : Fin 4, k = slot ∧
        (mbr'.primary slot).region = ⟨entry.start.toNat, entry.len.toNat⟩) ∧
    (∀ (mbr mbr' : Mbr) (slot : Fin 4) (len : UInt64),
      (Mbr.resize slot len).run mbr = (.ok (), mbr') →
        (mbr'.primary slot).region = ⟨(mbr.primary slot).startLba.toNat, len.toNat⟩) :=
  ⟨fun _ h => h.consistent.sound, fun _ h => h.consistent.sound,
    fun op gpt gpt' error h => Gpt.quiet_call op gpt error gpt' h,
    fun op mbr mbr' error h => Mbr.quiet_call op mbr error mbr' h,
    fun _ _ _ _ h => Mbr.add_region h, fun _ _ _ _ h => Mbr.resize_region h⟩

def smallDisk : Mbr :=
  let empty : Mbr := ⟨1000, ⟨512, sectorBytes_pos, sectorBytes_lt⟩, fun _ => .default, []⟩
  let extended := ((Mbr.Op.add ⟨.extended, 10, 100, ⟨0⟩⟩).call.run empty).2
  ((Mbr.Op.addLogical ⟨⟨0x83⟩, 20, 30, ⟨1⟩⟩).call.run extended).2

theorem smallDisk_keeps_places :
    smallDisk.logical = [⟨10, 20, 30, ⟨0x83⟩, 0x80⟩] ∧ smallDisk.Sound ∧
      ((Mbr.Op.resize 4 200).call.run smallDisk).2 = smallDisk := by
  have hnew : Mbr.new 1000 ⟨512, sectorBytes_pos, sectorBytes_lt⟩ =
      .ok ⟨1000, ⟨512, sectorBytes_pos, sectorBytes_lt⟩, fun _ => .default, []⟩ := by decide
  have hlogical : smallDisk.logical = [⟨10, 20, 30, ⟨0x83⟩, 0x80⟩] := by decide +kernel
  have hfail : ((Mbr.Op.resize 4 200).call.run smallDisk).1 =
      .error (((TableError.invalid .outOfBounds).atIndex 4)) := by decide +kernel
  refine ⟨hlogical, tables_keep_places.2.1 _ (.call (.call (.new hnew) _) _), ?_⟩
  exact tables_keep_places.2.2.2.1 (.resize 4 200) smallDisk _ _ (Prod.ext hfail rfl)

end Hadris.Part
