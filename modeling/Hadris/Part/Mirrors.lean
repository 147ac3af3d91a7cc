import Hadris.Part.Built
import Hadris.Part.Disk

namespace Hadris.Part

open List

/-- An entry that a master boot record may hold. -/
structure EntryOk (entry : RawMbrEntry) : Prop where
  boot : entry.bootIndicator &&& ~~~PartitionFlags.mbrActive = 0
  start : entry.kind.isExtended = true → entry.startLba ≠ 0

def RawMbrEntry.isOther (entry : RawMbrEntry) : Bool := !entry.isEmpty && !entry.kind.isProtective

theorem protective_not_extended {kind : MbrType} (h : kind.isProtective = true) :
    kind.isExtended = false ∧ kind.isEmpty = false := by
  rw [MbrType.isProtective, beq_iff_eq] at h
  rw [MbrType.isExtended, MbrType.isEmpty, h]
  decide

theorem empty_not_extended {kind : MbrType} (h : kind.isEmpty = true) :
    kind.isExtended = false ∧ kind.isProtective = false := by
  rw [MbrType.isEmpty, beq_iff_eq] at h
  rw [MbrType.isExtended, MbrType.isProtective, h]
  decide

theorem Seen.entry_ok {entry : RawMbrEntry} (h : EntryOk entry) (seen : Seen) :
    seen.entry entry = .ok ⟨seen.protective || entry.kind.isProtective,
      seen.other || entry.isOther,
      seen.extended + if entry.kind.isExtended then 1 else 0⟩ := by
  have hboot : ensure (entry.bootIndicator &&& ~~~PartitionFlags.mbrActive == 0)
      (TableError.new .corrupt .mbrEntry) = .ok () := ensure_of_true _ (beq_iff_eq.mpr h.boot)
  rw [Seen.entry, hboot]
  change (if entry.kind.isEmpty = true then _ else _) = _
  cases hempty : entry.kind.isEmpty with
  | true =>
    obtain ⟨hext, hprot⟩ := empty_not_extended hempty
    rw [if_pos rfl, RawMbrEntry.isOther, RawMbrEntry.isEmpty, hempty, hext, hprot]
    simp only [Bool.or_false, Bool.not_true, Bool.false_and, Bool.false_eq_true,
      if_false, Nat.add_zero]
  | false =>
  rw [if_neg Bool.false_ne_true, RawMbrEntry.isOther, RawMbrEntry.isEmpty, hempty]
  cases hprot : entry.kind.isProtective with
  | true =>
    rw [if_pos rfl, (protective_not_extended hprot).1]
    simp only [Bool.or_true, Bool.not_true, Bool.and_false, Bool.or_false, Bool.false_eq_true,
      if_false, Nat.add_zero]
  | false =>
  rw [if_neg Bool.false_ne_true]
  cases hext : entry.kind.isExtended with
  | true =>
    have hstart : ensure (entry.startLba != 0) (TableError.new .corrupt .ebrChain) = .ok () :=
      ensure_of_true _ (bne_iff_ne.mpr (h.start hext))
    rw [if_pos rfl, hstart]
    simp only [Bool.or_false, Bool.not_false, Bool.and_self, Bool.or_true, if_true]
    rfl
  | false =>
    rw [if_neg Bool.false_ne_true]
    simp only [Bool.or_false, Bool.not_false, Bool.and_self, Bool.or_true, Bool.false_eq_true,
      if_false, Nat.add_zero]

theorem Seen.entries_ok {entries : List RawMbrEntry} (h : ∀ entry ∈ entries, EntryOk entry)
    (seen : Seen) :
    Seen.entries entries seen = .ok ⟨seen.protective || entries.any (·.kind.isProtective),
      seen.other || entries.any RawMbrEntry.isOther,
        seen.extended + entries.countP (·.kind.isExtended)⟩ := by
  induction entries generalizing seen with
  | nil =>
    rw [any_nil, any_nil, countP_nil, Bool.or_false, Bool.or_false]
    rfl
  | cons entry rest ih =>
    rw [Seen.entries, Seen.entry_ok (h entry mem_cons_self)]
    refine (ih (fun other hother => h other (mem_cons_of_mem _ hother)) _).trans ?_
    rw [any_cons, any_cons, countP_cons, Bool.or_assoc, Bool.or_assoc,
      Nat.add_comm (countP _ rest), Nat.add_assoc]

theorem classify_ok {record : RawMbr} (hsign : record.hasSignature = true)
    (h : ∀ slot, EntryOk (record.entries slot))
    (hextended : (ofFn record.entries).countP (·.kind.isExtended) ≤ 1) :
    classify record = .ok (Seen.kind ⟨(ofFn record.entries).any (·.kind.isProtective),
      (ofFn record.entries).any RawMbrEntry.isOther,
        (ofFn record.entries).countP (·.kind.isExtended)⟩) := by
  have hentries := @Seen.entries_ok (ofFn record.entries) (fun entry hentry => by
    obtain ⟨slot, rfl⟩ := (mem_ofFn' _ _).mp hentry
    exact h slot) ⟨false, false, 0⟩
  have hsignOk : ensure record.hasSignature (TableError.new .notRecognized .noTable) = .ok () :=
    ensure_of_true _ hsign
  rw [Bool.false_or, Bool.false_or, Nat.zero_add] at hentries
  rw [classify, hsignOk, hentries]
  exact except_bind_ok.mpr ⟨(), rfl, except_bind_ok.mpr ⟨_, rfl,
    except_bind_ok.mpr ⟨(), ensure_of_true _ (decide_eq_true hextended), rfl⟩⟩⟩

theorem countP_le_one {f : Fin 4 → Bool} (h : ∀ i j, f i = true → f j = true → i = j) :
    (finRange 4).countP f ≤ 1 := by
  have hnodup := (nodup_finRange 4).filter f
  have hall : ∀ i ∈ (finRange 4).filter f, ∀ j ∈ (finRange 4).filter f, i = j :=
    fun i hi j hj => h i j (mem_filter.mp hi).2 (mem_filter.mp hj).2
  rw [countP_eq_length_filter]
  generalize (finRange 4).filter f = kept at hnodup hall ⊢
  rcases kept with _ | ⟨i, _ | ⟨j, rest⟩⟩
  · exact Nat.zero_le 1
  · exact le_rfl
  · have hij := hall i mem_cons_self j (mem_cons_of_mem _ mem_cons_self)
    rw [nodup_cons, hij] at hnodup
    exact absurd mem_cons_self hnodup.1

theorem mbr_boot {boot : UInt8} (h : boot = 0 ∨ boot = PartitionFlags.mbrActive) :
    boot &&& ~~~PartitionFlags.mbrActive = 0 := by
  rcases h with rfl | rfl
  · decide
  · decide

theorem Mbr.Consistent.classify {mbr : Mbr} (h : mbr.Consistent) {record : RawMbr}
    (hsign : record.hasSignature = true) (hentries : record.entries = mbr.primary) :
    classify record = .ok .mbr := by
  have hok : ∀ slot, EntryOk (record.entries slot) := by
    intro slot
    rw [hentries]
    cases hempty : (mbr.primary slot).isEmpty with
    | true =>
      rw [h.free slot hempty]
      exact ⟨by decide, fun hext => absurd hext (by decide)⟩
    | false =>
      have hslot := h.slots slot hempty
      refine ⟨mbr_boot hslot.boot, fun hext hzero => ?_⟩
      have hpos := hslot.extended hext
      rw [hzero] at hpos
      exact absurd hpos (by decide)
  have hprotective : (ofFn record.entries).any (·.kind.isProtective) = false := by
    rw [any_eq_false]
    intro entry hentry hprot
    obtain ⟨slot, rfl⟩ := (mem_ofFn' _ _).mp hentry
    rw [hentries] at hprot
    have hused : (mbr.primary slot).isEmpty = false := (protective_not_extended hprot).2
    rw [(h.slots slot hused).protective] at hprot
    cases hprot
  have hcount : (ofFn record.entries).countP (·.kind.isExtended) ≤ 1 := by
    rw [ofFn_eq_map, countP_map, hentries]
    exact countP_le_one fun i j hi hj => h.single i j hi hj
  rw [classify_ok hsign hok hcount, hprotective]
  rfl

theorem classify_protective {record : RawMbr} {start count : UInt32}
    (hsign : record.hasSignature = true) (hentries : record.entries =
      Function.update (fun _ => .default) 0 (.new .gptProtective start count)) :
    classify record = .ok .gpt := by
  have hlist : ofFn record.entries =
      [.new .gptProtective start count, .default, .default, .default] := by
    rw [hentries]
    rfl
  have hok : ∀ entry ∈ ofFn record.entries, EntryOk entry := by
    rw [hlist]
    intro entry hentry
    rcases mem_cons.mp hentry with rfl | hentry
    · exact ⟨mbr_boot (.inl rfl), fun hext => absurd hext 
        (show ¬ MbrType.gptProtective.isExtended = true by decide)⟩
    · rw [eq_of_mem_replicate (n := 3) hentry]
      exact ⟨by decide, fun hext => absurd hext (by decide)⟩
  rw [classify_ok hsign (fun slot => hok _ (mem_ofFn' _ _ |>.mpr ⟨slot, rfl⟩))]
  · rw [hlist]
    rfl
  · rw [hlist]
    exact Nat.zero_le 1

end Hadris.Part

namespace Hadris.Part

open List

/-- The entry of a partition that a hybrid MBR mirrors. -/
structure Mirrored (entry : RawMbrEntry) : Prop where
  ok : EntryOk entry
  extended : entry.kind.isExtended = false
  other : entry.isOther = true

namespace Hybrid

variable {gpt : Gpt} {config : HybridMbr} {hybrid : Hybrid} {slot : Fin 4} {mirror : Mirror}

/-- Whether the MBR shows a partition beside the protective entry. -/
def Mirrors (hybrid : Hybrid) : Prop := ∃ slot, (hybrid.entries slot).isOther = true

instance (hybrid : Hybrid) : Decidable hybrid.Mirrors := inferInstanceAs (Decidable (∃ _, _))

theorem mirrored_entry {partition : Partition} {boot : UInt8} {start count : UInt32}
    (h : mirrored gpt config slot mirror = .ok partition) (hboot : boot = mirror.flags.toMbr) :
    Mirrored { RawMbrEntry.new mirror.kind start count with bootIndicator := boot } := by
  obtain ⟨_, hkind, -⟩ := except_bind_ok.mp h
  rw [ensure_ok, Bool.not_eq_true', Bool.or_eq_false_iff, Bool.or_eq_false_iff] at hkind
  obtain ⟨⟨hempty, hprotective⟩, hextended⟩ := hkind
  refine ⟨⟨?_, fun hext => ?_⟩, hextended, ?_⟩
  · rw [hboot]
    exact mbr_boot (Mbr.toMbr_boot mirror.flags)
  · exact absurd (hextended.symm.trans hext) Bool.false_ne_true
  · change (!mirror.kind.isEmpty && !mirror.kind.isProtective) = true
    rw [hempty, hprotective]
    rfl

theorem place_ok {slots : List (Fin 4 × Mirror)} {entries entries' : Fin 4 → RawMbrEntry}
    {first first' : Option Nat}
    (h : place gpt config slots entries first = .ok (entries', first')) (slot : Fin 4) :
    (Mirrored (entries' slot) ∧ slot ∈ slots.map Prod.fst) ∨
      (entries' slot = entries slot ∧ slot ∉ slots.map Prod.fst) := by
  induction slots generalizing entries first with
  | nil =>
    cases h
    exact .inr ⟨rfl, not_mem_nil⟩
  | cons head rest ih =>
    rcases head with ⟨at_, mirror⟩
    rw [place] at h
    obtain ⟨partition, hmirrored, h⟩ := except_bind_ok.mp h
    rcases ih h with ⟨hplaced, hmem⟩ | ⟨hkept, hmem⟩
    · exact .inl ⟨hplaced, mem_cons_of_mem _ hmem⟩
    · by_cases hslot : slot = at_
      · rw [hslot, Function.update_self] at hkept
        refine .inl ⟨?_, by rw [hslot]; exact mem_cons_self⟩
        rw [hslot, hkept]
        exact mirrored_entry hmirrored rfl
      · rw [Function.update_of_ne hslot] at hkept
        exact .inr ⟨hkept, not_mem_cons_of_ne_of_not_mem hslot hmem⟩

/-- What the slots of a hybrid MBR hold. -/
structure Entries (hybrid : Hybrid) : Prop where
  ok : ∀ slot, EntryOk (hybrid.entries slot)
  extended : ∀ slot, (hybrid.entries slot).kind.isExtended = false
  protective : ∃ slot, (hybrid.entries slot).kind.isProtective = true

theorem new_entries (h : Hybrid.new gpt config = .ok hybrid) :
    hybrid.gpt = gpt ∧ hybrid.Entries ∧ (hybrid.Mirrors ↔ config.mirrors ≠ []) := by
  rw [Hybrid.new] at h
  split at h
  · rename_i hprotective
    obtain ⟨⟨entries, first⟩, hplace, h⟩ := except_bind_ok.mp h
    generalize hat : (⟨config.protectiveSlot, hprotective⟩ : Fin 4) = at_ at h
    cases h
    have hslots := place_ok hplace
    have hmem : ∀ slot, slot ∈ config.mirrorSlots.map Prod.fst → slot ≠ at_ := by
      intro slot hslot heq
      obtain ⟨pair, hpair, rfl⟩ := mem_map.mp hslot
      have hfilter := (mem_filter.mp (of_mem_zip hpair).1).2
      rw [heq, ← hat, bne_iff_ne] at hfilter
      exact hfilter rfl
    refine ⟨rfl, ⟨fun slot => ?_, fun slot => ?_, at_, ?_⟩, ?_⟩
    · change EntryOk (Function.update entries at_ _ slot)
      by_cases hslot : slot = at_
      · rw [hslot, Function.update_self]
        exact ⟨mbr_boot (.inl rfl),
          fun hext => absurd hext (show ¬ MbrType.gptProtective.isExtended = true by decide)⟩
      · rw [Function.update_of_ne hslot]
        rcases hslots slot with ⟨hplaced, -⟩ | ⟨hkept, -⟩
        · exact hplaced.ok
        · rw [hkept]
          exact ⟨by decide, fun hext => absurd hext (by decide)⟩
    · change (Function.update entries at_ _ slot).kind.isExtended = false
      by_cases hslot : slot = at_
      · rw [hslot, Function.update_self]
        exact (@protective_not_extended .gptProtective (by decide)).1
      · rw [Function.update_of_ne hslot]
        rcases hslots slot with ⟨hplaced, -⟩ | ⟨hkept, -⟩
        · exact hplaced.extended
        · rw [hkept]
          decide
    · change (Function.update entries at_ _ at_).kind.isProtective = true
      rw [Function.update_self]
      exact (by decide : MbrType.gptProtective.isProtective = true)
    · constructor
      · rintro ⟨slot, hother⟩ hnone
        change (Function.update entries at_ _ slot).isOther = true at hother
        by_cases hslot : slot = at_
        · rw [hslot, Function.update_self] at hother
          exact absurd hother
            (by decide : ¬ (!MbrType.gptProtective.isEmpty &&
              !MbrType.gptProtective.isProtective) = true)
        · rw [Function.update_of_ne hslot] at hother
          rcases hslots slot with ⟨-, hin⟩ | ⟨hkept, -⟩
          · rw [HybridMbr.mirrorSlots, hnone, zip_nil_right] at hin
            exact not_mem_nil hin
          · rw [hkept] at hother
            exact absurd hother (by decide)
      · intro hsome
        have hfree : ∃ slot : Fin 4, slot ∈ (finRange 4).filter fun slot =>
            slot.val != config.protectiveSlot := by
          by_cases hzero : config.protectiveSlot = 0
          · exact ⟨1, mem_filter.mpr ⟨mem_finRange 1, by rw [hzero]; decide⟩⟩
          · exact ⟨0, mem_filter.mpr ⟨mem_finRange 0, bne_iff_ne.mpr (Ne.symm hzero)⟩⟩
        obtain ⟨slot, hin⟩ : ∃ slot, slot ∈ config.mirrorSlots.map Prod.fst := by
          rw [HybridMbr.mirrorSlots]
          obtain ⟨slot, hslot⟩ := hfree
          rcases hf : (finRange 4).filter (fun slot => slot.val != config.protectiveSlot) with
            _ | ⟨first, rest⟩
          · rw [hf] at hslot
            exact absurd hslot not_mem_nil
          · rcases hm : config.mirrors with _ | ⟨m, ms⟩
            · exact absurd hm hsome
            · rw [hf]
              exact ⟨first, mem_map.mpr ⟨(first, m), mem_cons_self, rfl⟩⟩
        refine ⟨slot, ?_⟩
        change (Function.update entries at_ _ slot).isOther = true
        rw [Function.update_of_ne (hmem slot hin)]
        rcases hslots slot with ⟨hplaced, -⟩ | ⟨-, hout⟩
        · exact hplaced.other
        · exact absurd hin hout
  · cases h

/-- A table made by `new`, with any edits of its GPT after it. -/
inductive Built : Hybrid → Prop
  | new {gpt : Gpt} {config : HybridMbr} {hybrid : Hybrid} (hgpt : Gpt.Built gpt)
      (h : Hybrid.new gpt config = .ok hybrid) : Built hybrid
  | edit {hybrid : Hybrid} {gpt : Gpt} (h : Built hybrid) (hgpt : Gpt.Built gpt) :
      Built { hybrid with gpt := gpt }

theorem Built.built_gpt (h : Built hybrid) : Gpt.Built hybrid.gpt := by
  cases h with
  | new hgpt h =>
    rw [(new_entries h).1]
    exact hgpt
  | edit _ hgpt => exact hgpt

theorem Built.entries (h : Built hybrid) : hybrid.Entries := by
  induction h with
  | new _ h => exact (new_entries h).2.1
  | edit _ _ ih => exact ⟨ih.ok, ih.extended, ih.protective⟩

theorem Entries.classify (h : hybrid.Entries) (record : RawMbr)
    (hsign : record.hasSignature = true) (hentries : record.entries = hybrid.entries) :
    classify record = .ok (if hybrid.Mirrors then .hybrid else .gpt) := by
  have hcount : (ofFn record.entries).countP (·.kind.isExtended) = 0 := by
    rw [countP_eq_zero]
    intro entry hentry
    obtain ⟨slot, rfl⟩ := (mem_ofFn' _ _).mp hentry
    rw [hentries, h.extended slot]
    exact Bool.false_ne_true
  have hprotective : (ofFn record.entries).any (·.kind.isProtective) = true := by
    obtain ⟨slot, hslot⟩ := h.protective
    rw [any_eq_true]
    exact ⟨_, (mem_ofFn' _ _).mpr ⟨slot, rfl⟩, by rw [hentries]; exact hslot⟩
  have hother : (ofFn record.entries).any RawMbrEntry.isOther = decide hybrid.Mirrors := by
    rw [Bool.eq_iff_iff, any_eq_true, decide_eq_true_eq]
    constructor
    · rintro ⟨entry, hentry, hother⟩
      obtain ⟨slot, rfl⟩ := (mem_ofFn' _ _).mp hentry
      rw [hentries] at hother
      exact ⟨slot, hother⟩
    · rintro ⟨slot, hother⟩
      exact ⟨_, (mem_ofFn' _ _).mpr ⟨slot, rfl⟩, by rw [hentries]; exact hother⟩
  rw [classify_ok hsign (fun slot => hentries ▸ h.ok slot) (by rw [hcount]; exact Nat.zero_le 1),
    hprotective, hother]
  by_cases hmirrors : hybrid.Mirrors
  · rw [if_pos hmirrors, decide_eq_true hmirrors]
    rfl
  · rw [if_neg hmirrors, decide_eq_false hmirrors]
    rfl

end Hybrid

end Hadris.Part
