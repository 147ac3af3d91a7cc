import Hadris.Part.Mbr
import Hadris.Program
import Hadris.Region

namespace Hadris.Part

open Hadris.Prog

def RawMbrEntry.region (entry : RawMbrEntry) : Region :=
  ⟨entry.startLba.toNat, entry.sectorCount.toNat⟩

def Logical.region (logical : Logical) : Region := ⟨logical.start, logical.len⟩

def blockRegion (block : Nat) : Region := ⟨block, 1⟩

/-- Logical partitions from block `prevEnd` on, each after the block of its record. -/
def Linked (extEnd : Nat) : Nat → List Logical → Prop
  | _, [] => True
  | prevEnd, logical :: rest => prevEnd ≤ logical.ebr ∧ logical.ebr < logical.start ∧
      0 < logical.len ∧ logical.start + logical.len ≤ extEnd ∧
        Linked extEnd (logical.start + logical.len) rest

/-- The logical partitions of an extended partition, the first record in its first block. -/
def Chain (extStart extEnd : Nat) (logical : List Logical) : Prop :=
  Linked extEnd extStart logical ∧ ∀ first ∈ logical.head?, first.ebr = extStart

/-- Two logical partitions that differ in the block of the record alone. -/
def SamePlace (a b : Logical) : Prop := b = { a with ebr := b.ebr }

theorem chain_nil (extStart extEnd : Nat) : Chain extStart extEnd [] :=
  ⟨trivial, fun _ h => nomatch h⟩

theorem placeFrom_ok {extStart extEnd k prevEnd : Nat} {logical placed : List Logical}
    (h : placeFrom extStart extEnd k prevEnd logical = .ok placed) :
    Linked extEnd prevEnd placed ∧ List.Forall₂ SamePlace logical placed ∧
      (k = 0 → ∀ first ∈ placed.head?, first.ebr = extStart) := by
  induction logical generalizing k prevEnd placed with
  | nil =>
    cases h
    exact ⟨trivial, .nil, fun _ _ h => nomatch h⟩
  | cons logical rest ih =>
    rw [placeFrom] at h
    obtain ⟨_, hlen, h⟩ := except_bind_ok.mp h
    obtain ⟨_, hbounds, h⟩ := except_bind_ok.mp h
    obtain ⟨_, hebr, h⟩ := except_bind_ok.mp h
    obtain ⟨tail, htail, h⟩ := except_bind_ok.mp h
    cases h
    rw [ensure_ok, bne_iff_ne] at hlen
    simp only [ensure_ok, Bool.not_eq_true', Bool.or_eq_false_iff, decide_eq_false_iff_not,
      not_le, not_lt] at hbounds hebr
    obtain ⟨⟨hstart, hend⟩, hlt⟩ := hbounds
    have hstop : logical.stop = logical.start + logical.len := by
      rw [Logical.stop, saturatingAdd]
      omega
    rw [hstop] at hend htail
    obtain ⟨hlinked, hsame, -⟩ := ih htail
    refine ⟨⟨hebr, ?_, Nat.pos_of_ne_zero hlen, hend, hlinked⟩, .cons rfl hsame, ?_⟩
    · rw [placeEbr]
      split
      · exact hstart
      · split
        · change logical.start - 1 < logical.start
          omega
        · rename_i hkeep
          simp only [Bool.or_eq_true, Bool.not_eq_true', Bool.and_eq_false_iff,
            decide_eq_false_iff_not, not_or, not_le, not_lt] at hkeep
          exact hkeep.1.2
    · rintro hk first hfirst
      rw [List.head?_cons, Option.mem_some_iff] at hfirst
      rw [← hfirst, placeEbr, if_pos hk]

theorem placeLogicals_ok {extStart extEnd : Nat} {logical placed : List Logical}
    (h : placeLogicals extStart extEnd logical = .ok placed) :
    Chain extStart extEnd placed ∧ placed.length = logical.length ∧
      logical.length ≤ maxLogical ∧ ∀ after ∈ placed, ∃ before ∈ logical,
        SamePlace before after := by
  rw [placeLogicals] at h
  obtain ⟨_, hcount, h⟩ := except_bind_ok.mp h
  rw [ensure_ok, decide_eq_true_eq] at hcount
  obtain ⟨hlinked, hsame, hfirst⟩ := placeFrom_ok h
  have hperm := List.mergeSort_perm logical fun a b => decide (a.start ≤ b.start)
  refine ⟨⟨hlinked, hfirst rfl⟩, ?_, hcount, fun after hafter => ?_⟩
  · rw [← hsame.length_eq, hperm.length_eq]
  · obtain ⟨i, hi, rfl⟩ := List.getElem_of_mem hafter
    have hi' := hi
    rw [← hsame.length_eq] at hi'
    exact ⟨_, hperm.mem_iff.mp (List.getElem_mem hi'), (List.forall₂_iff_get.mp hsame).2 i hi' hi⟩

namespace Mbr

variable {mbr mbr' : Mbr} {slot other : Fin 4} {entry : MbrEntry}

/-- What a used primary slot of a table on a disk of `blockCount` blocks holds. -/
structure SlotOk (blockCount : Nat) (raw : RawMbrEntry) : Prop where
  protective : raw.kind.isProtective = false
  length : 0 < raw.sectorCount.toNat
  onDisk : raw.startLba.toNat + raw.sectorCount.toNat ≤ blockCount
  boot : raw.bootIndicator = 0 ∨ raw.bootIndicator = PartitionFlags.mbrActive
  extended : raw.kind.isExtended = true → 0 < raw.startLba.toNat

structure LogicalOk (logical : Logical) : Prop where
  empty : logical.kind.isEmpty = false
  extended : logical.kind.isExtended = false
  protective : logical.kind.isProtective = false
  boot : logical.boot = 0 ∨ logical.boot = PartitionFlags.mbrActive

/-- How the parts of a table that was built and edited hang together. -/
structure Consistent (mbr : Mbr) : Prop where
  size : checkBlockSize mbr.blockSize = .ok ()
  blocks : mbr.blockCount < 2 ^ 64
  free : ∀ slot, (mbr.primary slot).isEmpty = true → mbr.primary slot = .default
  slots : ∀ slot, (mbr.primary slot).isEmpty = false → SlotOk mbr.blockCount (mbr.primary slot)
  apart : ∀ slot other, slot ≠ other → (mbr.primary slot).isEmpty = false →
    (mbr.primary other).isEmpty = false →
      (mbr.primary slot).region.Apart (mbr.primary other).region
  single : ∀ slot other, (mbr.primary slot).kind.isExtended = true →
    (mbr.primary other).kind.isExtended = true → slot = other
  owned : mbr.logical ≠ [] → ∃ slot, (mbr.primary slot).kind.isExtended = true
  chain : ∀ slot, (mbr.primary slot).kind.isExtended = true →
    Chain (span (mbr.primary slot)).1 (span (mbr.primary slot)).2 mbr.logical
  kinds : ∀ logical ∈ mbr.logical, LogicalOk logical
  count : mbr.logical.length ≤ maxLogical

theorem not_empty_of_extended {raw : RawMbrEntry} (h : raw.kind.isExtended = true) :
    raw.isEmpty = false := by
  rw [RawMbrEntry.isEmpty, MbrType.isEmpty, beq_eq_false_iff_ne]
  intro hcode
  rw [MbrType.isExtended, hcode] at h
  exact absurd h (by decide)

theorem toMbr_boot (flags : PartitionFlags) :
    flags.toMbr = 0 ∨ flags.toMbr = PartitionFlags.mbrActive := by
  rw [PartitionFlags.toMbr]
  split
  · exact .inr rfl
  · exact .inl rfl

/-! What the checks of an edit make sure of. -/

theorem conflict_none {stop : Nat} (h : mbr.conflict slot entry stop = none)
    (hne : other ≠ slot) (hused : (mbr.primary other).isEmpty = false) :
    (entry.kind.isExtended = true → (mbr.primary other).kind.isExtended = false) ∧
      ((span (mbr.primary other)).2 ≤ entry.start.toNat ∨
        stop ≤ (span (mbr.primary other)).1) := by
  have hnone := List.findSome?_eq_none_iff.mp h other (List.mem_finRange other)
  dsimp only at hnone
  rw [if_neg (by rw [hused]; exact not_or.mpr ⟨hne, Bool.false_ne_true⟩)] at hnone
  split at hnone
  · cases hnone
  · rename_i hextended
    split at hnone
    · cases hnone
    · rename_i hoverlap
      rw [Bool.and_eq_true, not_and, Bool.not_eq_true] at hextended
      exact ⟨hextended, by omega⟩

theorem checkPrimary_ok (h : mbr.checkPrimary slot entry = .ok ()) :
    entry.kind.isEmpty = false ∧ entry.kind.isProtective = false ∧ 0 < entry.len.toNat ∧
      entry.start.toNat < 2 ^ 32 ∧ entry.len.toNat < 2 ^ 32 ∧
        (entry.kind.isExtended = true → 0 < entry.start.toNat) ∧
          entry.start.toNat + entry.len.toNat ≤ mbr.blockCount ∧
            mbr.conflict slot entry (entry.start.toNat + entry.len.toNat) = none := by
  rw [checkPrimary] at h
  obtain ⟨_, hkind, h⟩ := except_bind_ok.mp h
  obtain ⟨_, -, h⟩ := except_bind_ok.mp h
  obtain ⟨_, hlen, h⟩ := except_bind_ok.mp h
  obtain ⟨_, hfields, h⟩ := except_bind_ok.mp h
  obtain ⟨_, hextended, h⟩ := except_bind_ok.mp h
  obtain ⟨_, hbounds, h⟩ := except_bind_ok.mp h
  rw [ensure_ok, Bool.not_eq_true', Bool.or_eq_false_iff] at hkind
  rw [ensure_ok, bne_iff_ne] at hlen
  rw [ensure_ok, Bool.and_eq_true, decide_eq_true_eq, decide_eq_true_eq] at hfields
  rw [ensure_ok, Bool.not_eq_true', Bool.and_eq_false_imp] at hextended
  rw [ensure_ok, decide_eq_true_eq] at hbounds
  refine ⟨hkind.1, hkind.2, ?_, hfields.1, hfields.2, fun hext => ?_, hbounds, ?_⟩
  · exact Nat.pos_of_ne_zero fun hzero => hlen (UInt64.toNat_inj.mp hzero)
  · have hne := hextended hext
    rw [beq_eq_false_iff_ne] at hne
    exact Nat.pos_of_ne_zero fun hzero => hne (UInt64.toNat_inj.mp hzero)
  · split at h
    · cases h
    · assumption

theorem span_primaryEntry (hstart : entry.start.toNat < 2 ^ 32)
    (hlen : entry.len.toNat < 2 ^ 32) :
    (primaryEntry entry).startLba.toNat = entry.start.toNat ∧
      (primaryEntry entry).sectorCount.toNat = entry.len.toNat := by
  change entry.start.toUInt32.toNat = _ ∧ entry.len.toUInt32.toNat = _
  rw [UInt64.toNat_toUInt32, UInt64.toNat_toUInt32]
  exact ⟨Nat.mod_eq_of_lt hstart, Nat.mod_eq_of_lt hlen⟩

theorem slotOk_primaryEntry (h : mbr.checkPrimary slot entry = .ok ()) :
    SlotOk mbr.blockCount (primaryEntry entry) := by
  obtain ⟨-, hprotective, hpos, hstart, hlen, hextended, hbounds, -⟩ := checkPrimary_ok h
  obtain ⟨hstart', hlen'⟩ := span_primaryEntry hstart hlen
  refine ⟨hprotective, ?_, ?_, toMbr_boot entry.flags, fun hext => ?_⟩
  · rwa [hlen']
  · rwa [hstart', hlen']
  · rw [hstart']
    exact hextended hext

theorem beside_primaryEntry (h : mbr.checkPrimary slot entry = .ok ()) (hne : other ≠ slot)
    (hused : (mbr.primary other).isEmpty = false) :
    (primaryEntry entry).region.Apart (mbr.primary other).region ∧
      (entry.kind.isExtended = true → (mbr.primary other).kind.isExtended = false) := by
  obtain ⟨-, -, -, hstart, hlen, -, -, hconflict⟩ := checkPrimary_ok h
  obtain ⟨hstart', hlen'⟩ := span_primaryEntry hstart hlen
  obtain ⟨hextended, hapart⟩ := conflict_none hconflict hne hused
  refine ⟨?_, hextended⟩
  simp only [span] at hapart
  simp only [Region.Apart, Region.Before, Region.stop, RawMbrEntry.region, hstart', hlen']
  omega

/-- A slot may take a checked entry, along with the logical partitions of an
extended one. -/
theorem Consistent.set_primary {logical : List Logical} (h : Consistent mbr)
    (hcheck : mbr.checkPrimary slot entry = .ok ())
    (hchain : entry.kind.isExtended = true →
      Chain entry.start.toNat (entry.start.toNat + entry.len.toNat) logical ∧
        (∀ l ∈ logical, LogicalOk l) ∧ logical.length ≤ maxLogical)
    (hplain : entry.kind.isExtended = false →
      (mbr.primary slot).kind.isExtended = false ∧ logical = mbr.logical) :
    Consistent { mbr with
      primary := Function.update mbr.primary slot (primaryEntry entry), logical := logical } := by
  obtain ⟨hempty, -, -, hstart, hlen, -, -, -⟩ := checkPrimary_ok hcheck
  obtain ⟨hstart', hlen'⟩ := span_primaryEntry hstart hlen
  have hkind : (primaryEntry entry).kind = entry.kind := rfl
  have hself : Function.update mbr.primary slot (primaryEntry entry) slot = primaryEntry entry :=
    Function.update_self ..
  have hne : ∀ i, i ≠ slot →
      Function.update mbr.primary slot (primaryEntry entry) i = mbr.primary i :=
    fun i hi => Function.update_of_ne hi ..
  generalize Function.update mbr.primary slot (primaryEntry entry) = primary at hself hne
  have hbeside : ∀ {other}, other ≠ slot → (primary other).isEmpty = false →
      (primary slot).region.Apart (primary other).region ∧
        (entry.kind.isExtended = true → (primary other).kind.isExtended = false) := by
    intro other hother hused
    rw [hne other hother] at hused ⊢
    rw [hself]
    exact beside_primaryEntry hcheck hother hused
  refine ⟨h.size, h.blocks, fun i hi => ?_, fun i hi => ?_, fun i j hij hi hj => ?_,
    fun i j hi hj => ?_, fun hlogical => ?_, fun i hi => ?_, ?_, ?_⟩
  · change (primary i).isEmpty = true at hi
    change primary i = .default
    by_cases hslot : i = slot
    · rw [hslot, hself, RawMbrEntry.isEmpty, hkind, hempty] at hi
      cases hi
    · rw [hne i hslot] at hi ⊢
      exact h.free i hi
  · change (primary i).isEmpty = false at hi
    change SlotOk mbr.blockCount (primary i)
    by_cases hslot : i = slot
    · rw [hslot, hself]
      exact slotOk_primaryEntry hcheck
    · rw [hne i hslot] at hi ⊢
      exact h.slots i hi
  · change (primary i).isEmpty = false at hi
    change (primary j).isEmpty = false at hj
    change (primary i).region.Apart (primary j).region
    by_cases hslot : i = slot
    · rw [hslot]
      exact (hbeside (fun heq => hij (hslot.trans heq.symm)) hj).1
    · by_cases hother : j = slot
      · rw [hother]
        exact (hbeside hslot hi).1.symm
      · rw [hne i hslot] at hi ⊢
        rw [hne j hother] at hj ⊢
        exact h.apart i j hij hi hj
  · change (primary i).kind.isExtended = true at hi
    change (primary j).kind.isExtended = true at hj
    by_contra hij
    by_cases hslot : i = slot
    · have hother :=
        (hbeside (fun heq => hij (hslot.trans heq.symm)) (not_empty_of_extended hj)).2
      rw [hslot, hself, hkind] at hi
      rw [hother hi] at hj
      cases hj
    · have hfree := (hbeside hslot (not_empty_of_extended hi)).2
      by_cases hother : j = slot
      · rw [hother, hself, hkind] at hj
        rw [hfree hj] at hi
        cases hi
      · rw [hne i hslot] at hi
        rw [hne j hother] at hj
        exact hij (h.single i j hi hj)
  · change ∃ i, (primary i).kind.isExtended = true
    cases hext : entry.kind.isExtended with
    | true => exact ⟨slot, by rw [hself, hkind, hext]⟩
    | false =>
      obtain ⟨hslot, hkept⟩ := hplain hext
      rw [hkept] at hlogical
      obtain ⟨owner, howner⟩ := h.owned hlogical
      refine ⟨owner, ?_⟩
      rwa [hne]
      rintro rfl
      rw [hslot] at howner
      cases howner
  · change (primary i).kind.isExtended = true at hi
    change Chain (span (primary i)).1 (span (primary i)).2 logical
    by_cases hslot : i = slot
    · rw [hslot, hself] at hi ⊢
      simp only [span, hstart', hlen']
      exact (hchain hi).1
    · have hfree := (hbeside hslot (not_empty_of_extended hi)).2
      rw [hne i hslot] at hi hfree ⊢
      cases hext : entry.kind.isExtended with
      | true =>
        rw [hfree hext] at hi
        cases hi
      | false =>
        rw [(hplain hext).2]
        exact h.chain i hi
  · change ∀ l ∈ logical, LogicalOk l
    cases hext : entry.kind.isExtended with
    | true => exact (hchain hext).2.1
    | false =>
      rw [(hplain hext).2]
      exact h.kinds
  · change logical.length ≤ maxLogical
    cases hext : entry.kind.isExtended with
    | true => exact (hchain hext).2.2
    | false =>
      rw [(hplain hext).2]
      exact h.count

theorem extendedSlot_some (h : mbr.extendedSlot = some slot) :
    (mbr.primary slot).kind.isExtended = true := by
  rw [extendedSlot] at h
  exact List.find?_some (p := fun slot => (mbr.primary slot).kind.isExtended) h

theorem extendedRange_some {extStart extEnd : Nat}
    (h : mbr.extendedRange = some (extStart, extEnd)) :
    ∃ slot, (mbr.primary slot).kind.isExtended = true ∧
      span (mbr.primary slot) = (extStart, extEnd) := by
  rw [extendedRange, Option.map_eq_some_iff] at h
  obtain ⟨slot, hslot, hspan⟩ := h
  exact ⟨slot, extendedSlot_some hslot, hspan⟩

theorem Consistent.set_logical {logical placed : List Logical} {extStart extEnd : Nat}
    (h : Consistent mbr) (hrange : mbr.extendedRange = some (extStart, extEnd))
    (hplaced : placeLogicals extStart extEnd logical = .ok placed)
    (hkinds : ∀ l ∈ logical, LogicalOk l) : Consistent { mbr with logical := placed } := by
  obtain ⟨slot, hslot, hspan⟩ := extendedRange_some hrange
  obtain ⟨hchain, hlength, hcount, hsame⟩ := placeLogicals_ok hplaced
  refine ⟨h.size, h.blocks, h.free, h.slots, h.apart, h.single, fun _ => ⟨slot, hslot⟩,
    fun i hi => ?_, ?_, ?_⟩
  · obtain rfl := h.single i slot hi hslot
    change Chain (span (mbr.primary i)).1 (span (mbr.primary i)).2 placed
    rw [hspan]
    exact hchain
  · intro after hafter
    obtain ⟨before, hbefore, hsame⟩ := hsame after hafter
    have hkind := hkinds before hbefore
    rw [hsame]
    exact ⟨hkind.empty, hkind.extended, hkind.protective, hkind.boot⟩
  · change placed.length ≤ maxLogical
    omega

theorem Consistent.set_default (h : Consistent mbr)
    (hfree : (mbr.primary slot).kind.isExtended = true → mbr.logical = []) :
    Consistent { mbr with primary := Function.update mbr.primary slot .default } := by
  have hself : Function.update mbr.primary slot RawMbrEntry.default slot = .default :=
    Function.update_self ..
  have hne : ∀ i, i ≠ slot → Function.update mbr.primary slot .default i = mbr.primary i :=
    fun i hi => Function.update_of_ne hi ..
  generalize Function.update mbr.primary slot RawMbrEntry.default = primary at hself hne
  have hempty : RawMbrEntry.default.isEmpty = true := by decide
  have hused : ∀ {i}, (primary i).isEmpty = false → primary i = mbr.primary i := by
    intro i hi
    refine hne i ?_
    rintro rfl
    rw [hself, hempty] at hi
    cases hi
  refine ⟨h.size, h.blocks, fun i hi => ?_, fun i hi => ?_, fun i j hij hi hj => ?_,
    fun i j hi hj => ?_, fun hlogical => ?_, fun i hi => ?_, h.kinds, h.count⟩
  · change (primary i).isEmpty = true at hi
    change primary i = .default
    by_cases hslot : i = slot
    · rw [hslot, hself]
    · rw [hne i hslot] at hi ⊢
      exact h.free i hi
  · change SlotOk mbr.blockCount (primary i)
    have hkept := hused hi
    rw [hkept]
    exact h.slots i (hkept ▸ hi)
  · change (primary i).region.Apart (primary j).region
    have hkepti := hused hi
    have hkeptj := hused hj
    rw [hkepti, hkeptj]
    exact h.apart i j hij (hkepti ▸ hi) (hkeptj ▸ hj)
  · have hkepti := hused (not_empty_of_extended hi)
    have hkeptj := hused (not_empty_of_extended hj)
    exact h.single i j (hkepti ▸ hi) (hkeptj ▸ hj)
  · obtain ⟨owner, howner⟩ := h.owned hlogical
    refine ⟨owner, ?_⟩
    change (primary owner).kind.isExtended = true
    rwa [hne]
    rintro rfl
    exact hlogical (hfree howner)
  · change Chain (span (primary i)).1 (span (primary i)).2 mbr.logical
    have hkept := hused (not_empty_of_extended hi)
    rw [hkept]
    exact h.chain i (hkept ▸ hi)

end Mbr

end Hadris.Part
