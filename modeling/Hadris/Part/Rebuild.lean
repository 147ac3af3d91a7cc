import Hadris.Part.GptRun
import Hadris.Part.Mirrors
import Mathlib.Order.Bounds.Defs

namespace Hadris.Part

open List

namespace HybridMbr

def new : HybridMbr := ⟨0, [], Nat.zero_le 3⟩

def withProtectiveSlot (config : HybridMbr) (slot : Nat) : HybridMbr :=
  { config with protectiveSlot := slot }

theorem length_append_le {mirrors : List Mirror} (h : mirrors.length < 3) (mirror : Mirror) :
    (mirrors ++ [mirror]).length ≤ 3 := by
  rw [length_append]
  exact h

def addMirrored (config : HybridMbr) (mirror : Mirror) : Except TableError HybridMbr :=
  if h : config.mirrors.length < 3 then
    .ok ⟨config.protectiveSlot, config.mirrors ++ [mirror], length_append_le h mirror⟩
  else .error (.new .limitExceeded .tableFull)

def names (config : HybridMbr) (slot : Nat) : Bool :=
  config.mirrorSlots.any fun other => other.2.gptIndex == slot

end HybridMbr

namespace Hybrid

/-- The partition that an entry mirrors: one that starts where it does and that no
earlier entry mirrors, of the same length if there is one. -/
def mirroring (hybrid : Hybrid) (config : HybridMbr) (entry : RawMbrEntry) : Option Partition :=
  let starting := hybrid.gpt.listing.filter fun partition =>
    partition.start == entry.startLba.toNat && !config.names partition.slot
  (starting.find? fun partition => partition.len == entry.sectorCount.toNat).or starting.head?

def mirrorFrom (hybrid : Hybrid) : List RawMbrEntry → HybridMbr → HybridMbr
  | [], config => config
  | entry :: rest, config =>
    if entry.kind.isEmpty || entry.kind.isProtective || entry.kind.isExtended then
      mirrorFrom hybrid rest config
    else match hybrid.mirroring config entry with
      | none => mirrorFrom hybrid rest config
      | some partition =>
        match config.addMirrored ⟨partition.slot, entry.kind, .fromMbr entry.bootIndicator⟩ with
        | .error _ => config
        | .ok config => mirrorFrom hybrid rest config

def mirror (hybrid : Hybrid) : HybridMbr :=
  let entries := ofFn hybrid.entries
  hybrid.mirrorFrom entries
    (HybridMbr.new.withProtectiveSlot ((entries.findIdx? (·.kind.isProtective)).getD 0))

end Hybrid

/-- A key that is taken one time more often than it is done is done at none of the
places of some list it is taken at. -/
theorem exists_not_done {κ : Type} [DecidableEq κ] {key : Nat → κ}
    {taken done : List Nat} {i : Nat}
    (hkeys : done.map key = taken.map key) (hnodup : (taken ++ [i]).Nodup) :
    ∃ j ∈ taken ++ [i], key j = key i ∧ j ∉ done := by
  by_contra hall
  push Not at hall
  have hsub : (taken ++ [i]).filter (key · = key i) ⊆ done.filter (key · = key i) := by
    intro j hj
    obtain ⟨hmem, hkey⟩ := mem_filter.mp hj
    exact mem_filter.mpr ⟨hall j hmem (of_decide_eq_true hkey), hkey⟩
  have hle := (subperm_of_subset (hnodup.filter _) hsub).length_le
  have hcount : ∀ l : List Nat, (l.filter (key · = key i)).length =
      (l.map key).countP (· = key i) := by
    intro l
    rw [countP_map, countP_eq_length_filter]
    rfl
  rw [hcount, hcount, map_append, countP_append, hkeys] at hle
  simp only [map_cons, map_nil, countP_singleton, decide_true, if_true] at hle
  exact absurd hle (Nat.not_succ_le_self _)

namespace Hybrid

variable {gpt : Gpt} {config config' : HybridMbr} {hybrid : Hybrid}
  {slot : Fin 4} {mirror : Mirror}
  {partition : Partition}

def mirrorEntry (mirror : Mirror) (partition : Partition) : RawMbrEntry :=
  { RawMbrEntry.new mirror.kind (UInt32.ofNat partition.start)
    (UInt32.ofNat partition.len) with bootIndicator := mirror.flags.toMbr }

/-- What `mirrored` checks. -/
structure Mirrorable (gpt : Gpt) (config : HybridMbr) (slot : Fin 4) (mirror : Mirror)
    (partition : Partition) : Prop where
  shown : (mirror.kind.isEmpty || mirror.kind.isProtective || mirror.kind.isExtended) = false
  flags : mirror.flags.fitsMbr = true
  fresh : ∀ other ∈ config.mirrorSlots, other.1 < slot → other.2.gptIndex ≠ mirror.gptIndex
  entry : gpt.entry mirror.gptIndex = some partition
  len : partition.len ≠ 0
  start : partition.start < 2 ^ 32
  last : partition.stop - 1 < 2 ^ 32

theorem mirrored_ok : mirrored gpt config slot mirror = .ok partition ↔
    Mirrorable gpt config slot mirror partition := by
  rw [mirrored]
  simp only [except_bind_ok, ensure_ok, okOr_ok, Except.ok.injEq, exists_const, Bool.not_eq_true',
    Bool.and_eq_true, decide_eq_true_eq, bne_iff_ne, any_eq_false, beq_iff_eq, not_and]
  constructor
  · rintro ⟨hkind, hflags, hfresh, partition, hentry, hlen, ⟨hstart, hlast⟩, rfl⟩
    exact ⟨hkind, hflags, hfresh, hentry, hlen, hstart, hlast⟩
  · rintro ⟨hkind, hflags, hfresh, hentry, hlen, hstart, hlast⟩
    exact ⟨hkind, hflags, hfresh, partition, hentry, hlen, ⟨hstart, hlast⟩, rfl⟩

def placeOf (gpt : Gpt) (index : Nat) : Option (Nat × Nat) :=
  (gpt.entry index).map fun partition => (partition.start, partition.len)

/-- The least first block after block 1 of some mirrored partitions. -/
def LeastStart (starts : List Nat) (first : Option Nat) : Prop :=
  (∀ start ∈ starts, 1 < start → ∃ least, first = some least ∧ least ≤ start) ∧
    ∀ least, first = some least → 1 < least ∧ least ∈ starts

theorem LeastStart.snoc {starts : List Nat} {first : Option Nat} (h : LeastStart starts first)
    (start : Nat) : LeastStart (starts ++ [start])
      (if 1 < start then some (min start (first.getD start)) else first) := by
  split
  · rename_i hstart
    refine ⟨fun other hother hlt => ⟨_, rfl, ?_⟩, fun least hleast => ?_⟩
    · rcases mem_append.mp hother with hold | hnew
      · obtain ⟨least, rfl, hle⟩ := h.1 other hold hlt
        exact (Nat.min_le_right _ _).trans hle
      · rw [mem_singleton.mp hnew]
        exact Nat.min_le_left _ _
    · rw [← Option.some.inj hleast]
      cases first with
      | none =>
        rw [Option.getD_none, Nat.min_self]
        exact ⟨hstart, mem_append_right _ (mem_singleton_self _)⟩
      | some least =>
        rw [Option.getD_some]
        obtain ⟨hlt, hmem⟩ := h.2 least rfl
        rcases Nat.le_total start least with hle | hle
        · rw [Nat.min_eq_left hle]
          exact ⟨hstart, mem_append_right _ (mem_singleton_self _)⟩
        · rw [Nat.min_eq_right hle]
          exact ⟨hlt, mem_append_left _ hmem⟩
  · rename_i hstart
    refine ⟨fun other hother hlt => ?_, fun least hleast => ?_⟩
    · rcases mem_append.mp hother with hold | hnew
      · exact h.1 other hold hlt
      · exact absurd (mem_singleton.mp hnew ▸ hlt) hstart
    · obtain ⟨hlt, hmem⟩ := h.2 least hleast
      exact ⟨hlt, mem_append_left _ hmem⟩

/-- What `place` leaves in the slots. -/
structure Placed (gpt : Gpt) (config : HybridMbr) (slots : List (Fin 4 × Mirror))
    (entries entries' : Fin 4 → RawMbrEntry) (starts : List Nat) : Prop where
  mirrors : ∀ pair ∈ slots, ∃ partition, Mirrorable gpt config pair.1 pair.2 partition ∧
    entries' pair.1 = mirrorEntry pair.2 partition ∧ partition.start ∈ starts
  others : ∀ slot, slot ∉ slots.map Prod.fst → entries' slot = entries slot
  starts : ∀ start ∈ starts, ∃ pair ∈ slots, ∃ partition,
    gpt.entry pair.2.gptIndex = some partition ∧
    partition.start = start

theorem place_placed {slots : List (Fin 4 × Mirror)} {entries entries' : Fin 4 → RawMbrEntry}
    {first first' : Option Nat} {before : List Nat}
    (h : place gpt config slots entries first = .ok (entries', first'))
    (hnodup : (slots.map Prod.fst).Nodup) (hfirst : LeastStart before first) :
    ∃ starts, Placed gpt config slots entries entries' starts ∧
      LeastStart (before ++ starts) first' := by
  induction slots generalizing entries first before with
  | nil =>
    cases h
    refine ⟨[], ⟨?_, fun _ _ => rfl, ?_⟩, by rwa [append_nil]⟩
    · intro pair hpair
      exact absurd hpair not_mem_nil
    · intro start hstart
      exact absurd hstart not_mem_nil
  | cons head rest ih =>
    rcases head with ⟨at_, mirror⟩
    rw [place] at h
    obtain ⟨partition, hmirrored, h⟩ := except_bind_ok.mp h
    have hmirror := mirrored_ok.mp hmirrored
    obtain ⟨hnot, hnodup⟩ := nodup_cons.mp hnodup
    obtain ⟨starts, hplaced, hleast⟩ := ih h hnodup (hfirst.snoc partition.start)
    refine ⟨partition.start :: starts, ⟨?_, ?_, ?_⟩, by rwa [append_cons]⟩
    · intro pair hpair
      rcases mem_cons.mp hpair with rfl | hpair
      · refine ⟨partition, hmirror, ?_, mem_cons_self⟩
        rw [hplaced.others at_ hnot, Function.update_self]
        rfl
      · obtain ⟨other, hother, hentry, hmem⟩ := hplaced.mirrors pair hpair
        exact ⟨other, hother, hentry, mem_cons_of_mem _ hmem⟩
    · intro slot hslot
      obtain ⟨hne, hrest⟩ := ne_and_not_mem_of_not_mem_cons hslot
      rw [hplaced.others slot hrest, Function.update_of_ne hne]
    · intro start hstart
      rcases mem_cons.mp hstart with rfl | hstart
      · exact ⟨_, mem_cons_self, partition, hmirror.entry, rfl⟩
      · obtain ⟨pair, hpair, hfound⟩ := hplaced.starts start hstart
        exact ⟨pair, mem_cons_of_mem _ hpair, hfound⟩

def freeSlots (protective : Fin 4) : List (Fin 4) :=
  (finRange 4).filter fun slot => slot.val != protective.val

theorem length_freeSlots (protective : Fin 4) : (freeSlots protective).length = 3 := by
  revert protective
  decide

theorem mem_freeSlots {protective : Fin 4} : slot ∈ freeSlots protective ↔ slot ≠ protective := by
  rw [freeSlots, mem_filter, bne_iff_ne, Fin.val_ne_iff]
  exact and_iff_right (mem_finRange slot)

theorem pairwise_freeSlots (protective : Fin 4) : (freeSlots protective).Pairwise (· < ·) :=
  (pairwise_lt_finRange 4).filter _

def protectiveStop (gpt : Gpt) (first : Option Nat) : Nat :=
  max 1 (match first with
    | none => min (gpt.blockCount - 1) (2 ^ 32 - 1)
    | some first => min (first - 1) (2 ^ 32 - 1))

/-- How a hybrid MBR is made up. -/
structure Layout (gpt : Gpt) (config : HybridMbr) (protective : Fin 4) (hybrid : Hybrid)
    (starts : List Nat) (first : Option Nat) : Prop where
  slot : config.protectiveSlot = protective.val
  table : hybrid.gpt = gpt
  mirrors : ∀ pair ∈ config.mirrorSlots, ∃ partition,
    Mirrorable gpt config pair.1 pair.2 partition ∧
      hybrid.entries pair.1 = mirrorEntry pair.2 partition ∧ partition.start ∈ starts
  unused : ∀ slot, slot ∉ config.mirrorSlots.map Prod.fst → slot ≠ protective →
    hybrid.entries slot = .default
  protective : hybrid.entries protective = protectiveEntry (protectiveStop gpt first)
  found : ∀ start ∈ starts, ∃ pair ∈ config.mirrorSlots, ∃ partition,
    gpt.entry pair.2.gptIndex = some partition ∧ partition.start = start
  least : LeastStart starts first

theorem mirrorSlots_eq {protective : Fin 4} (h : config.protectiveSlot = protective.val) :
    config.mirrorSlots = (freeSlots protective).zip config.mirrors := by
  rw [HybridMbr.mirrorSlots, h]
  rfl

theorem map_fst_mirrorSlots {protective : Fin 4} (h : config.protectiveSlot = protective.val) :
    config.mirrorSlots.map Prod.fst = (freeSlots protective).take config.mirrors.length := by
  have hle := config.length_le.trans (length_freeSlots protective).ge
  rw [mirrorSlots_eq h, zip_eq_zip_take_min, Nat.min_eq_right hle]
  apply map_fst_zip
  simp only [length_take, Nat.min_eq_left hle, le_refl, Nat.min_self]

theorem map_snd_mirrorSlots {protective : Fin 4} (h : config.protectiveSlot = protective.val) :
    config.mirrorSlots.map Prod.snd = config.mirrors := by
  rw [mirrorSlots_eq h]
  exact map_snd_zip (config.length_le.trans (length_freeSlots protective).ge)

theorem pairwise_mirrorSlots {protective : Fin 4} (h : config.protectiveSlot = protective.val) :
    (config.mirrorSlots.map Prod.fst).Pairwise (· < ·) := by
  rw [map_fst_mirrorSlots h]
  exact (pairwise_freeSlots protective).sublist (take_sublist _ _)

theorem ne_of_mem_mirrorSlots {protective : Fin 4} (h : config.protectiveSlot = protective.val)
    {pair : Fin 4 × Mirror} (hpair : pair ∈ config.mirrorSlots) : pair.1 ≠ protective := by
  rw [mirrorSlots_eq h] at hpair
  exact mem_freeSlots.mp (of_mem_zip hpair).1

theorem new_layout (h : Hybrid.new gpt config = .ok hybrid) :
    ∃ protective starts first, Layout gpt config protective hybrid starts first := by
  rw [Hybrid.new] at h
  split at h
  · rename_i hprotective
    obtain ⟨⟨entries, first⟩, hplace, h⟩ := except_bind_ok.mp h
    have hslot : config.protectiveSlot = (⟨config.protectiveSlot, hprotective⟩ : Fin 4).val := rfl
    have hnone : LeastStart [] none :=
      ⟨fun _ h => absurd h not_mem_nil, fun _ h => absurd h (Option.some_ne_none _).symm⟩
    obtain ⟨starts, hplaced, hfirst⟩ := place_placed hplace
      ((pairwise_mirrorSlots hslot).imp fun hlt => hlt.ne) hnone
    cases h
    refine ⟨⟨config.protectiveSlot, hprotective⟩, starts, first,
      ⟨hslot, rfl, ?_, ?_, ?_, hplaced.starts, hfirst⟩⟩
    · intro pair hpair
      obtain ⟨partition, hmirror, hentry, hmem⟩ := hplaced.mirrors pair hpair
      refine ⟨partition, hmirror, ?_, hmem⟩
      rw [← hentry]
      exact Function.update_of_ne (ne_of_mem_mirrorSlots hslot hpair) _ _
    · intro slot hout hne
      rw [← hplaced.others slot hout]
      exact Function.update_of_ne hne _ _
    · exact Function.update_self _ _ _
  · cases h

/-! What `mirror` finds. -/

/-- Two mirrors that fill the same entry. -/
structure Alike (gpt : Gpt) (a b : Mirror) : Prop where
  kind : b.kind = a.kind
  fits : b.flags.fitsMbr = true
  boot : b.flags.toMbr = a.flags.toMbr
  place : placeOf gpt b.gptIndex = placeOf gpt a.gptIndex

theorem flags_alike (flags : PartitionFlags) :
    (PartitionFlags.fromMbr flags.toMbr).fitsMbr = true ∧
      (PartitionFlags.fromMbr flags.toMbr).toMbr = flags.toMbr := by
  rcases Mbr.toMbr_boot flags with h | h
  · rw [h]
    decide
  · rw [h]
    decide

def isShown (entry : RawMbrEntry) : Bool :=
  !(entry.kind.isEmpty || entry.kind.isProtective || entry.kind.isExtended)

theorem mirrorFrom_filter (hybrid : Hybrid) (entries : List RawMbrEntry) (config : HybridMbr) :
    hybrid.mirrorFrom (entries.filter isShown) config = hybrid.mirrorFrom entries config := by
  induction entries generalizing config with
  | nil => rfl
  | cons entry rest ih =>
    cases hshown : entry.kind.isEmpty || entry.kind.isProtective || entry.kind.isExtended with
    | true =>
      rw [filter_cons_of_neg (by rw [isShown, hshown]; decide), mirrorFrom, if_pos hshown]
      exact ih config
    | false =>
      rw [filter_cons_of_pos (by rw [isShown, hshown]; rfl), mirrorFrom, mirrorFrom, hshown]
      simp only [ih]

theorem mem_listing : partition ∈ gpt.listing ↔ gpt.entry partition.slot = some partition := by
  simp only [Gpt.listing, partitionsBelow, mem_filterMap, mem_range]
  constructor
  · rintro ⟨index, hindex, hentry⟩
    have hslot : partition.slot = index := by
      obtain ⟨raw, -, rfl⟩ := Option.map_eq_some_iff.mp hentry
      rfl
    rwa [hslot]
  · intro hentry
    refine ⟨partition.slot, ?_, hentry⟩
    obtain ⟨raw, hraw, -⟩ := Option.map_eq_some_iff.mp hentry
    exact (List.getElem?_eq_some_iff.mp (Option.filter_eq_some_iff.mp hraw).1).1

theorem names_iff {protective : Fin 4} (h : config.protectiveSlot = protective.val)
    {index : Nat} :
    config.names index = true ↔ index ∈ config.mirrors.map Mirror.gptIndex := by
  rw [HybridMbr.names, ← map_snd_mirrorSlots h, map_map, any_eq_true, mem_map]
  simp only [beq_iff_eq, Function.comp_apply]

theorem mirroring_some {protective : Fin 4} {entry : RawMbrEntry} {j : Nat}
    (hslot : config.protectiveSlot = protective.val)
    (hplace : placeOf hybrid.gpt j = some (entry.startLba.toNat, entry.sectorCount.toNat))
    (hfresh : j ∉ config.mirrors.map Mirror.gptIndex) :
    ∃ partition, hybrid.mirroring config entry = some partition ∧
      partition.slot ∉ config.mirrors.map Mirror.gptIndex ∧
        placeOf hybrid.gpt partition.slot =
          some (entry.startLba.toNat, entry.sectorCount.toNat) := by
  obtain ⟨other, hother, hpair⟩ := Option.map_eq_some_iff.mp hplace
  obtain ⟨hstart, hlen⟩ := Prod.mk.inj hpair
  have hindex : other.slot = j := by
    obtain ⟨raw, -, rfl⟩ := Option.map_eq_some_iff.mp hother
    rfl
  generalize hstarting : hybrid.gpt.listing.filter (fun partition =>
    partition.start == entry.startLba.toNat && !config.names partition.slot) = starting
  have hmem : other ∈ starting := by
    rw [← hstarting, mem_filter, mem_listing, hindex, Bool.and_eq_true, beq_iff_eq,
      Bool.not_eq_true']
    refine ⟨hother, hstart, ?_⟩
    rw [← Bool.not_eq_true, names_iff hslot]
    exact hfresh
  have hsome :
    (starting.find? fun partition => partition.len == entry.sectorCount.toNat).isSome :=
    find?_isSome.mpr ⟨other, hmem, beq_iff_eq.mpr hlen⟩
  obtain ⟨partition, hfind⟩ := Option.isSome_iff_exists.mp hsome
  have hfound := mem_of_find?_eq_some hfind
  rw [← hstarting, mem_filter, mem_listing, Bool.and_eq_true, beq_iff_eq, Bool.not_eq_true',
    ← Bool.not_eq_true, names_iff hslot] at hfound
  obtain ⟨hentry, hat, hnew⟩ := hfound
  refine ⟨partition, ?_, hnew, ?_⟩
  · rw [mirroring, hstarting, hfind, Option.some_or]
  · have hexact := find?_some hfind
    rw [placeOf, hentry, Option.map_some, hat, beq_iff_eq.mp hexact]

variable {protective : Fin 4} {starts : List Nat} {first : Option Nat}

theorem mirrorEntry_place {partition : Partition} (hstart : partition.start < 2 ^ 32)
    (hlen : partition.len < 2 ^ 32) (mirror : Mirror) :
    ((mirrorEntry mirror partition).startLba.toNat,
      (mirrorEntry mirror partition).sectorCount.toNat) =
      (partition.start, partition.len) := by
  change ((UInt32.ofNat partition.start).toNat, (UInt32.ofNat partition.len).toNat) = _
  rw [UInt32.toNat_ofNat_of_lt' hstart, UInt32.toNat_ofNat_of_lt' hlen]

theorem Layout.nodup (h : Layout gpt config protective hybrid starts first) :
    (config.mirrorSlots.map fun pair => pair.2.gptIndex).Nodup := by
  have hsorted := pairwise_map.mp (pairwise_mirrorSlots h.slot)
  rw [List.Nodup, pairwise_map]
  refine hsorted.imp_of_mem fun {a b} ha hb hlt => ?_
  obtain ⟨partition, hmirror, -⟩ := h.mirrors b hb
  exact hmirror.fresh a ha hlt

theorem places_alike {mirrors mirrors' : List Mirror}
    (h : List.Forall₂ (Alike gpt) mirrors mirrors') :
    (mirrors'.map Mirror.gptIndex).map (placeOf gpt) =
      (mirrors.map Mirror.gptIndex).map (placeOf gpt) := by
  induction h with
  | nil => rfl
  | cons hhead _ ih =>
    simp only [map_cons, hhead.place, ih]

theorem Layout.mirrorFrom (h : Layout gpt config protective hybrid starts first)
    (hlen : ∀ pair ∈ config.mirrorSlots, ∀ partition, gpt.entry pair.2.gptIndex = some partition →
      partition.len < 2 ^ 32) {before rest : List (Fin 4 × Mirror)}
    (hsplit : config.mirrorSlots = before ++ rest) {done : HybridMbr}
    (hslot : done.protectiveSlot = protective.val)
    (halike : List.Forall₂ (Alike gpt) (before.map Prod.snd) done.mirrors)
    (hnodup : (done.mirrors.map Mirror.gptIndex).Nodup) :
    ∃ result, hybrid.mirrorFrom (rest.map fun pair => hybrid.entries pair.1) done = result ∧
      result.protectiveSlot = protective.val ∧
        List.Forall₂ (Alike gpt) (config.mirrorSlots.map Prod.snd) result.mirrors ∧
          (result.mirrors.map Mirror.gptIndex).Nodup := by
  induction rest generalizing before done with
  | nil =>
    rw [append_nil] at hsplit
    exact ⟨done, rfl, hslot, hsplit ▸ halike, hnodup⟩
  | cons pair rest ih =>
    have hmem : pair ∈ config.mirrorSlots := by
      rw [hsplit]
      exact mem_append_right _ mem_cons_self
    obtain ⟨partition, hmirror, hentry, -⟩ := h.mirrors pair hmem
    have hplaceEq := mirrorEntry_place hmirror.start
      (hlen pair hmem partition hmirror.entry) pair.2
    have hplace : placeOf gpt pair.2.gptIndex = some (partition.start, partition.len) := by
      rw [placeOf, hmirror.entry, Option.map_some]
    have hkeys : (done.mirrors.map Mirror.gptIndex).map (placeOf gpt) =
        (before.map fun pair => pair.2.gptIndex).map (placeOf gpt) := by
      exact (places_alike halike).trans (congrArg (List.map _) map_map)
    have htaken : ((before.map fun pair => pair.2.gptIndex) ++ [pair.2.gptIndex]).Nodup := by
      have hall := h.nodup
      rw [hsplit, map_append, map_cons] at hall
      exact hall.sublist (List.Sublist.append_left (singleton_sublist.mpr mem_cons_self) _)
    obtain ⟨j, -, hkey, hfresh⟩ := exists_not_done hkeys htaken
    obtain ⟨found, hfound, hnew, hat⟩ := @mirroring_some done hybrid protective
      (hybrid.entries pair.1) j hslot (by rw [h.table, hkey, hplace, hentry, hplaceEq]) hfresh
    rw [h.table] at hat
    have hshown := hmirror.shown
    have hkind : (hybrid.entries pair.1).kind = pair.2.kind := by rw [hentry]; rfl
    have hboot : (hybrid.entries pair.1).bootIndicator = pair.2.flags.toMbr := by rw [hentry]; rfl
    have hroom : done.mirrors.length < 3 := by
      have hcount := congrArg List.length (map_snd_mirrorSlots h.slot)
      have hdone := halike.length_eq
      have hmost := config.length_le
      rw [hsplit] at hcount
      simp only [length_map, length_append, length_cons] at hcount hdone
      omega
    rw [map_cons, Hybrid.mirrorFrom, hkind, if_neg (by rw [hshown]; decide), hfound]
    simp only [HybridMbr.addMirrored, dif_pos hroom]
    refine ih (hsplit.trans (append_cons _ _ _)) hslot ?_ ?_
    · rw [map_append]
      refine rel_append halike (.cons ⟨rfl, ?_, ?_, ?_⟩ .nil)
      · rw [hboot]
        exact (flags_alike _).1
      · rw [hboot]
        exact (flags_alike _).2
      · rw [hplace, hat, hentry, hplaceEq]
    · rw [map_append]
      exact nodup_append.mpr ⟨hnodup, nodup_singleton _, fun a ha b hb heq => by
        rw [heq, mem_singleton.mp hb] at ha
        exact hnew ha⟩

theorem filter_take_append {α : Type} {p : α → Bool} {l : List α} {n : Nat}
    (htake : ∀ a ∈ l.take n, p a = true) (hdrop : ∀ a ∈ l.drop n, p a = false) :
    l.filter p = l.take n := by
  conv_lhs => rw [← take_append_drop n l]
  rw [filter_append, filter_eq_self.mpr htake, filter_eq_nil_iff.mpr, append_nil]
  intro a ha
  rw [hdrop a ha]
  exact Bool.false_ne_true

theorem Layout.shown (h : Layout gpt config protective hybrid starts first) (slot : Fin 4) :
    isShown (hybrid.entries slot) = true ↔ slot ∈ config.mirrorSlots.map Prod.fst := by
  constructor
  · intro hshown
    by_contra hout
    by_cases hslot : slot = protective
    · rw [hslot, h.protective] at hshown
      exact absurd hshown (by decide : ¬ (!(MbrType.gptProtective.isEmpty ||
        MbrType.gptProtective.isProtective || MbrType.gptProtective.isExtended)) = true)
    · rw [h.unused slot hout hslot] at hshown
      exact absurd hshown (by decide)
  · intro hmem
    obtain ⟨pair, hpair, rfl⟩ := mem_map.mp hmem
    obtain ⟨partition, hmirror, hentry, -⟩ := h.mirrors pair hpair
    have hkind : (hybrid.entries pair.1).kind = pair.2.kind := by rw [hentry]; rfl
    rw [isShown, hkind, hmirror.shown]
    rfl

theorem Layout.filter_shown (h : Layout gpt config protective hybrid starts first) :
    (ofFn hybrid.entries).filter isShown =
      config.mirrorSlots.map fun pair => hybrid.entries pair.1 := by
  have hfree : (finRange 4).filter (fun slot => isShown (hybrid.entries slot)) =
      (freeSlots protective).filter fun slot => isShown (hybrid.entries slot) := by
    rw [freeSlots, filter_filter]
    apply filter_congr
    intro slot _
    by_cases hslot : slot = protective
    · have hnot : isShown (hybrid.entries protective) = false := by
        rw [h.protective]
        rfl
      rw [hslot, hnot, Bool.false_and]
    · rw [bne_iff_ne.mpr (Fin.val_ne_iff.mpr hslot), Bool.and_true]
  have htaken : (freeSlots protective).filter (fun slot => isShown (hybrid.entries slot)) =
      (freeSlots protective).take config.mirrors.length := by
    apply filter_take_append
    · intro slot hslot
      rwa [h.shown, map_fst_mirrorSlots h.slot]
    · intro slot hslot
      rw [← Bool.not_eq_true, h.shown, map_fst_mirrorSlots h.slot]
      intro htake
      have hnodup : (freeSlots protective).Nodup :=
        (pairwise_freeSlots protective).imp fun hlt => hlt.ne
      rw [← take_append_drop config.mirrors.length (freeSlots protective)] at hnodup
      exact (nodup_append.mp hnodup).2.2 slot htake slot hslot rfl
  rw [ofFn_eq_map, filter_map]
  change ((finRange 4).filter fun slot => isShown (hybrid.entries slot)).map _ = _
  rw [hfree, htaken, ← map_fst_mirrorSlots h.slot, map_map]
  rfl

theorem Layout.findIdx (h : Layout gpt config protective hybrid starts first) :
    (ofFn hybrid.entries).findIdx? (·.kind.isProtective) = some protective.val := by
  rw [findIdx?_eq_some_iff_getElem]
  refine ⟨by rw [length_ofFn]; exact protective.isLt, ?_, ?_⟩
  · rw [List.getElem_ofFn, h.protective]
    rfl
  · intro j hj
    rw [List.getElem_ofFn]
    generalize hat : (⟨j, _⟩ : Fin 4) = slot
    have hne : slot ≠ protective := by
      rw [← hat]
      exact Fin.ne_of_lt hj
    by_cases hmem : slot ∈ config.mirrorSlots.map Prod.fst
    · have hshown := (h.shown slot).mpr hmem
      rw [isShown, Bool.not_eq_true', Bool.or_eq_false_iff, Bool.or_eq_false_iff] at hshown
      rw [hshown.1.2]
      exact Bool.false_ne_true
    · rw [h.unused slot hmem hne]
      decide

theorem Mirrorable.alike {mirror' : Mirror} (h : Mirrorable gpt config slot mirror partition)
    (halike : Alike gpt mirror mirror')
    (hfresh : ∀ other ∈ config'.mirrorSlots, other.1 < slot →
      other.2.gptIndex ≠ mirror'.gptIndex) :
    ∃ partition', Mirrorable gpt config' slot mirror' partition' ∧
      partition'.start = partition.start ∧ partition'.len = partition.len := by
  have hplace := halike.place
  rw [placeOf, placeOf, h.entry, Option.map_some] at hplace
  obtain ⟨partition', hentry, hpair⟩ := Option.map_eq_some_iff.mp hplace
  obtain ⟨hstart, hlen⟩ := Prod.mk.inj hpair
  have hstop : partition'.stop =
    partition.stop := by rw [Partition.stop, Partition.stop, hstart, hlen]
  refine ⟨partition', ⟨?_, halike.fits, hfresh, hentry, ?_, ?_, ?_⟩, hstart, hlen⟩
  · rw [halike.kind]
    exact h.shown
  · rw [hlen]
    exact h.len
  · rw [hstart]
    exact h.start
  · rw [hstop]
    exact h.last

theorem place_alike {slots slots' : List (Fin 4 × Mirror)} {entries : Fin 4 → RawMbrEntry}
    {result : (Fin 4 → RawMbrEntry) × Option Nat}
    (halike : List.Forall₂ (fun a b => a.1 = b.1 ∧ Alike gpt a.2 b.2) slots slots')
    (hfresh : ∀ pair ∈ slots', ∀ other ∈ config'.mirrorSlots, other.1 < pair.1 →
      other.2.gptIndex ≠ pair.2.gptIndex)
    (h : place gpt config slots entries first = .ok result) :
    place gpt config' slots' entries first = .ok result := by
  induction halike generalizing entries first with
  | nil => exact h
  | @cons a b rest rest' hhead _ ih =>
    obtain ⟨slot, mirror⟩ := a
    obtain ⟨slot', mirror'⟩ := b
    obtain ⟨rfl, hpair⟩ : slot = slot' ∧ Alike gpt mirror mirror' := hhead
    rw [place] at h
    obtain ⟨partition, hmirrored, h⟩ := except_bind_ok.mp h
    obtain ⟨partition', hmirror', hstart, hlen⟩ := (mirrored_ok.mp hmirrored).alike hpair
      (hfresh _ mem_cons_self)
    rw [place, mirrored_ok.mpr hmirror']
    refine except_bind_ok.mpr ⟨partition', rfl, ?_⟩
    simp only [hstart, hlen, hpair.kind, hpair.boot]
    exact ih (fun pair hmem => hfresh pair (mem_cons_of_mem _ hmem)) h

theorem fresh_of_nodup {protective : Fin 4} (hslot : config.protectiveSlot = protective.val)
    (hnodup : (config.mirrors.map Mirror.gptIndex).Nodup) {pair other : Fin 4 × Mirror}
    (hpair : pair ∈ config.mirrorSlots) (hother : other ∈ config.mirrorSlots)
    (hlt : other.1 < pair.1) : other.2.gptIndex ≠ pair.2.gptIndex := by
  rw [← map_snd_mirrorSlots hslot, map_map] at hnodup
  intro heq
  have hsame := inj_on_of_nodup_map hnodup hother hpair heq
  rw [hsame] at hlt
  exact lt_irrefl _ hlt

def mirroredStarts (gpt : Gpt) (config : HybridMbr) : Set Nat :=
  {start | 1 < start ∧ ∃ pair ∈ config.mirrorSlots, ∃ partition,
    gpt.entry pair.2.gptIndex = some partition ∧ partition.start = start}

/-- The mirrored partitions have sizes that an entry can hold. -/
def SizesFit (gpt : Gpt) (config : HybridMbr) : Prop :=
  ∀ pair ∈ config.mirrorSlots, ∀ partition, gpt.entry pair.2.gptIndex = some partition →
    partition.len < 2 ^ 32

/-- An entry shows a partition as a mirror asks for. -/
structure ShowsMirror (entry : RawMbrEntry) (mirror : Mirror) (partition : Partition) : Prop where
  kind : entry.kind = mirror.kind
  boot : entry.bootIndicator = mirror.flags.toMbr
  start : entry.startLba.toNat = partition.start
  len : partition.len < 2 ^ 32 → entry.sectorCount.toNat = partition.len

def entryRegion (entry : RawMbrEntry) : Region := ⟨entry.startLba.toNat, entry.sectorCount.toNat⟩

/-- How the entries of a hybrid MBR describe the disk: the mirrored partitions, and one
protective entry from block 1 up to the first of them, or over the whole disk. -/
structure Describes (gpt : Gpt) (config : HybridMbr) (hybrid : Hybrid) (protective : Fin 4) :
    Prop where
  slot : config.protectiveSlot = protective.val
  mirrors : ∀ pair ∈ config.mirrorSlots, ∃ partition,
    gpt.entry pair.2.gptIndex = some partition ∧
      ShowsMirror (hybrid.entries pair.1) pair.2 partition
  kind : (hybrid.entries protective).kind = .gptProtective
  upTo : ∀ start, IsLeast (mirroredStarts gpt config) start →
    entryRegion (hybrid.entries protective) = ⟨1, start - 1⟩
  whole : mirroredStarts gpt config = ∅ →
    entryRegion (hybrid.entries protective) = ⟨1, max 1 (min (gpt.blockCount - 1) (2 ^ 32 - 1))⟩
  apart : ∀ pair ∈ config.mirrorSlots, ∀ partition, gpt.entry pair.2.gptIndex = some partition →
    1 < partition.start →
      (entryRegion (hybrid.entries protective)).Apart ⟨partition.start, partition.len⟩

theorem Mirrorable.len_lt (h : Mirrorable gpt config slot mirror partition)
    (hstart : partition.start ≠ 0) :
    partition.len < 2 ^ 32 := by
  have hlast := h.last
  have hfirst := h.start
  rw [Partition.stop, saturatingAdd] at hlast
  omega

theorem entryRegion_protective {stop : Nat} (h : stop < 2 ^ 32) :
    entryRegion (protectiveEntry stop) = ⟨1, stop⟩ := by
  change Region.mk (1 : UInt32).toNat (UInt32.ofNat stop).toNat = _
  rw [UInt32.toNat_ofNat_of_lt' h]
  rfl

theorem Layout.describes (h : Layout gpt config protective hybrid starts first) :
    Describes gpt config hybrid protective := by
  have hstarts : ∀ start, 1 < start → (start ∈ starts ↔ start ∈ mirroredStarts gpt config) := by
    intro start hlt
    constructor
    · exact fun hmem => ⟨hlt, h.found start hmem⟩
    · rintro ⟨-, pair, hpair, partition, hentry, rfl⟩
      obtain ⟨partition', hmirror, -, hmem⟩ := h.mirrors pair hpair
      have hsame := Option.some.inj (hmirror.entry.symm.trans hentry)
      rwa [← hsame]
  have hlt : protectiveStop gpt first < 2 ^ 32 := by
    cases first with
    | none =>
      change max 1 (min (gpt.blockCount - 1) (2 ^ 32 - 1)) < 2 ^ 32
      omega
    | some least =>
      change max 1 (min (least - 1) (2 ^ 32 - 1)) < 2 ^ 32
      omega
  have hregion : entryRegion (hybrid.entries protective) = ⟨1, protectiveStop gpt first⟩ := by
    rw [h.protective, entryRegion_protective hlt]
  have hupTo : ∀ start, IsLeast (mirroredStarts gpt config) start →
      entryRegion (hybrid.entries protective) = ⟨1, start - 1⟩ := by
    intro start hleast
    obtain ⟨least, rfl, hle⟩ := h.least.1 start
      ((hstarts start hleast.1.1).mpr hleast.1) hleast.1.1
    obtain ⟨hone, hmem⟩ := h.least.2 least rfl
    have hge := hleast.2 ((hstarts least hone).mp hmem)
    obtain ⟨pair, hpair, partition, hentry, hstart⟩ := hleast.1.2
    obtain ⟨partition', hmirror, -⟩ := h.mirrors pair hpair
    have hbound := hmirror.start
    rw [Option.some.inj (hmirror.entry.symm.trans hentry), hstart] at hbound
    have heq : least = start := Nat.le_antisymm hle hge
    rw [hregion, heq, protectiveStop]
    congr 1
    omega
  refine ⟨h.slot, ?_, by rw [h.protective]; rfl, hupTo, ?_, ?_⟩
  · intro pair hpair
    obtain ⟨partition, hmirror, hentry, -⟩ := h.mirrors pair hpair
    refine ⟨partition, hmirror.entry, ?_, ?_, ?_, fun hlen => ?_⟩
    · rw [hentry]
      rfl
    · rw [hentry]
      rfl
    · rw [hentry]
      exact UInt32.toNat_ofNat_of_lt' hmirror.start
    · rw [hentry]
      exact UInt32.toNat_ofNat_of_lt' hlen
  · intro hempty
    cases first with
    | none => exact hregion
    | some least =>
      obtain ⟨hone, hmem⟩ := h.least.2 least rfl
      have hin := (hstarts least hone).mp hmem
      rw [hempty] at hin
      exact absurd hin (Set.notMem_empty least)
  · intro pair hpair partition hentry hone
    obtain ⟨partition', hmirror, -, hmem⟩ := h.mirrors pair hpair
    rw [Option.some.inj (hmirror.entry.symm.trans hentry)] at hmem
    obtain ⟨least, hfirst, hle⟩ := h.least.1 _ hmem hone
    obtain ⟨hleast, -⟩ := h.least.2 least hfirst
    left
    rw [hregion, hfirst]
    simp only [Region.Before, Region.stop, protectiveStop]
    omega

theorem zip_forall₂ {α β : Type} {R : α → α → Prop} {as bs : List α} (h : List.Forall₂ R as bs)
    (slots : List β) :
    List.Forall₂ (fun a b => a.1 = b.1 ∧ R a.2 b.2) (slots.zip as) (slots.zip bs) := by
  induction h generalizing slots with
  | nil =>
    rw [zip_nil_right]
    exact .nil
  | cons hhead _ ih =>
    cases slots with
    | nil => exact .nil
    | cons slot rest => exact .cons ⟨rfl, hhead⟩ (ih rest)

theorem Layout.rebuild (h : Layout gpt config protective hybrid starts first)
    (hnew : Hybrid.new gpt config = .ok hybrid) (hsizes : SizesFit gpt config) :
    Hybrid.new hybrid.gpt hybrid.mirror = .ok hybrid := by
  obtain ⟨result, hresult, hslot, halike, hnodup⟩ :=
    @Layout.mirrorFrom gpt config hybrid protective
    starts first h hsizes [] config.mirrorSlots rfl
      (HybridMbr.new.withProtectiveSlot protective.val)
    rfl .nil nodup_nil
  have hmirror : hybrid.mirror = result := by
    rw [← hresult, ← h.filter_shown, mirrorFrom_filter, Hybrid.mirror, h.findIdx]
    rfl
  have hprotective : config.protectiveSlot < 4 := by
    rw [h.slot]
    exact protective.isLt
  have hprotective' : result.protectiveSlot < 4 := by
    rw [hslot]
    exact protective.isLt
  rw [Hybrid.new, dif_pos hprotective] at hnew
  obtain ⟨⟨entries, first'⟩, hplace, hnew⟩ := except_bind_ok.mp hnew
  have hpairs : List.Forall₂ (fun a b => a.1 = b.1 ∧ Alike gpt a.2 b.2) config.mirrorSlots
      result.mirrorSlots := by
    rw [map_snd_mirrorSlots h.slot] at halike
    rw [mirrorSlots_eq h.slot, mirrorSlots_eq hslot]
    exact zip_forall₂ halike _
  have hplace' := @place_alike gpt config result none _ _ _ _ hpairs
    (fun pair hpair other hother => fresh_of_nodup hslot hnodup hpair hother) hplace
  cases hnew
  rw [hmirror, Hybrid.new, dif_pos hprotective']
  refine except_bind_ok.mpr ⟨_, hplace', ?_⟩
  have hsame : (⟨result.protectiveSlot, hprotective'⟩ : Fin 4) =
    ⟨config.protectiveSlot, hprotective⟩ :=
    Fin.ext (hslot.trans h.slot.symm)
  rw [hsame]

/-- A hybrid MBR describes the partitions it mirrors, and the configuration read back
from it rebuilds it. -/
theorem new_rebuilt (h : Hybrid.new gpt config = .ok hybrid) :
    hybrid.gpt = gpt ∧ (∃ protective, Describes gpt config hybrid protective) ∧
      (SizesFit gpt config → Hybrid.new hybrid.gpt hybrid.mirror = .ok hybrid) := by
  obtain ⟨protective, starts, first, hlayout⟩ := new_layout h
  exact ⟨hlayout.table, ⟨protective, hlayout.describes⟩, hlayout.rebuild h⟩

theorem start_of_built {index : Nat} (h : Gpt.Built gpt)
    (hentry : gpt.entry index = some partition) :
    1 < partition.start := by
  have hconsistent := h.consistent
  have harray := hconsistent.arrayBlocks_pos
  have hfirst := hconsistent.firstUsable
  obtain ⟨raw, hraw, rfl⟩ := Option.map_eq_some_iff.mp hentry
  obtain ⟨hget, hused⟩ := Option.filter_eq_some_iff.mp hraw
  have hfits := hconsistent.fits raw (mem_of_getElem? hget) (Bool.not_eq_true' _ |>.mp hused)
  change 1 < raw.firstLba.toNat
  omega

theorem sizesFit_of_built (hbuilt : Gpt.Built gpt) (h : Hybrid.new gpt config = .ok hybrid) :
    SizesFit gpt config := by
  obtain ⟨protective, starts, first, hlayout⟩ := new_layout h
  intro pair hpair partition hentry
  obtain ⟨partition', hmirror, -⟩ := hlayout.mirrors pair hpair
  rw [← Option.some.inj (hmirror.entry.symm.trans hentry)]
  have hstart := start_of_built hbuilt hmirror.entry
  exact hmirror.len_lt (Nat.ne_of_gt (Nat.zero_lt_of_lt hstart))

def blank : Gpt where
  blockSize := ⟨512, sectorBytes_pos, sectorBytes_lt⟩
  blockCount := 200
  diskGuid := .nil
  firstUsable := 34
  lastUsable := 166
  backupLba := 199
  primaryEntriesLba := 2
  backupEntriesLba := 167
  entrySize := gptEntrySize
  entries := replicate gptDefaultEntries .default
  damaged := none

def sampleGuid (byte : UInt8) : Guid := ⟨replicate 16 byte, rfl⟩

def sampleEntry (unique : UInt8) (start len : UInt64) : GptEntry :=
  ⟨sampleGuid 1, sampleGuid unique, start, len, .empty, 0⟩

def sampleGpt : Gpt :=
  ((Gpt.Op.add (sampleEntry 3 100 30)).call.run
    ((Gpt.Op.add (sampleEntry 2 60 20)).call.run
      ((Gpt.Op.add (sampleEntry 1 40 10)).call.run blank).2).2).2

def sampleConfig : HybridMbr :=
  ⟨1, [⟨2, ⟨0xEF⟩, ⟨PartitionFlags.bootable⟩⟩, ⟨0, ⟨0x83⟩, ⟨0⟩⟩], Nat.le_succ 2⟩

def sampleHybrid : Hybrid where
  gpt := sampleGpt
  entries := Function.update (Function.update (Function.update (fun _ => .default) 0
    { RawMbrEntry.new ⟨0xEF⟩ 100 30 with bootIndicator := PartitionFlags.mbrActive }) 2
      (RawMbrEntry.new ⟨0x83⟩ 40 10)) 1 (protectiveEntry 39)

theorem new_blank :
    Gpt.new .nil 200 ⟨512, sectorBytes_pos, sectorBytes_lt⟩ = .ok blank := by decide

theorem built_sample : Gpt.Built sampleGpt := .call (.call (.call (.new new_blank) _) _) _

theorem new_sample : Hybrid.new sampleGpt sampleConfig = .ok sampleHybrid := by decide +kernel

/-- No entry covers the blocks after the mirrored partition. -/
theorem rest_not_covered : Gpt.Built sampleGpt ∧
    Hybrid.new sampleGpt sampleConfig = .ok sampleHybrid ∧
    ∃ block, 1 ≤ block ∧ block < sampleGpt.blockCount ∧
      ∀ slot, (entryRegion (sampleHybrid.entries slot)).stop ≤ block :=
  ⟨built_sample, new_sample, 150, by decide, by decide +kernel, by decide⟩

theorem new_rebuilt_sample : sampleHybrid.gpt = sampleGpt ∧
    (∃ protective, Describes sampleGpt sampleConfig sampleHybrid protective) ∧
      Hybrid.new sampleHybrid.gpt sampleHybrid.mirror = .ok sampleHybrid := by
  obtain ⟨hgpt, hdescribes, hrebuild⟩ := new_rebuilt new_sample
  exact ⟨hgpt, hdescribes, hrebuild (sizesFit_of_built built_sample new_sample)⟩

end Hybrid

end Hadris.Part
