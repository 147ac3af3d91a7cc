import Hadris.CleanBit
import Hadris.FatRead
import Mathlib.Logic.Function.Basic
import Hadris.Answers

namespace Hadris

open List

namespace FatKind

/-- What byte `i` of the bytes at the offset of the entry of `cluster` adds to that
entry: a FAT12 entry shares one byte with a neighbour. -/
def part (kind : FatKind) (cluster i : Nat) (byte : UInt8) : Nat :=
  match kind with
  | .fat12 =>
    if cluster % 2 = 0 then if i = 0 then byte.toNat else byte.toNat % 16
    else if i = 0 then byte.toNat / 16 else byte.toNat
  | .fat16 | .fat32 => byte.toNat

variable {kind : FatKind} {cluster : Nat} {bytes bytes' : List UInt8}

theorem decode_congr (h : ∀ i < kind.entryLen,
    kind.part cluster i (bytes.getD i 0) = kind.part cluster i (bytes'.getD i 0)) :
    kind.decode cluster bytes = kind.decode cluster bytes' := by
  cases kind with
  | fat12 =>
    have h₀ := h 0 (by decide)
    have h₁ := h 1 (by decide)
    simp only [part, if_true, if_neg one_ne_zero] at h₀ h₁
    simp only [decode, byteAt]
    split
    · rename_i heven
      rw [if_pos heven, if_pos heven] at h₀ h₁
      rw [h₀, h₁]
    · rename_i hodd
      rw [if_neg hodd, if_neg hodd] at h₀ h₁
      rw [h₀, h₁]
  | fat16 =>
    have h₀ := h 0 (by decide)
    have h₁ := h 1 (by decide)
    simp only [part] at h₀ h₁
    simp only [decode, u16At, byteAt, h₀, h₁]
  | fat32 =>
    have h₀ := h 0 (by decide)
    have h₁ := h 1 (by decide)
    have h₂ := h 2 (by decide)
    have h₃ := h 3 (by decide)
    simp only [part] at h₀ h₁ h₂ h₃
    simp only [decode, u32At, u16At, byteAt, h₀, h₁, h₂, h₃]

def high (kind : FatKind) (bytes : List UInt8) : Nat :=
  match kind with
  | .fat12 | .fat16 => 0
  | .fat32 => byteAt bytes 3 / 16

theorem decode_high (kind : FatKind) (cluster : Nat) (bytes : List UInt8) :
    kind.decode cluster bytes / (kind.mask + 1) = kind.high bytes := by
  have h₀ := byteAt_lt bytes 0
  have h₁ := byteAt_lt bytes 1
  cases kind with
  | fat12 =>
    simp only [decode, mask, high]
    split <;> omega
  | fat16 =>
    simp only [decode, mask, high, u16At, Nat.zero_add]
    omega
  | fat32 =>
    have h₂ := byteAt_lt bytes 2
    simp only [decode, mask, high, u32At, u16At, Nat.zero_add, Nat.reduceAdd]
    omega

theorem encode_high (kind : FatKind) (cluster value : Nat) (bytes : List UInt8) :
    kind.high (kind.encode cluster value bytes) = kind.high bytes := by
  cases kind with
  | fat12 => rfl
  | fat16 => rfl
  | fat32 =>
    have h₀ := byteAt_lt bytes 0
    have h₁ := byteAt_lt bytes 1
    have h₂ := byteAt_lt bytes 2
    have h₃ := byteAt_lt bytes 3
    simp only [high, encode, u32Bytes, u32At, u16At, byteAt_cons_zero, byteAt_cons_succ,
      u8_toNat, Nat.zero_add, Nat.reduceAdd]
    omega

end FatKind

namespace Geometry

def entry (geo : Geometry) (img : Nat → UInt8) (step cluster : Nat) : Nat :=
  geo.kind.decode cluster (slice img (geo.entryAt step cluster) geo.kind.entryLen)

def value (geo : Geometry) (img : Nat → UInt8) (step cluster : Nat) : Nat :=
  geo.entry img step cluster &&& geo.kind.mask

def withEntry (geo : Geometry) (step cluster value : Nat) (img : Nat → UInt8) : Nat → UInt8 :=
  patch img (geo.entryAt step cluster)
    (geo.kind.encode cluster value (slice img (geo.entryAt step cluster) geo.kind.entryLen))

def fatEnd (geo : Geometry) : Nat := geo.fatStart + geo.fatCount * geo.fatSize

def IsCluster (geo : Geometry) (cluster : Nat) : Prop :=
  firstDataCluster ≤ cluster ∧ cluster ≤ geo.maxCluster

/-- Byte `a` is in no entry of a data cluster in the FAT copies written, and holds
no clean bit. -/
def Outside (geo : Geometry) (a : Nat) : Prop :=
  ∀ step < geo.copies, a ≠ geo.cleanAt step ∧
    (a < (geo.entries step).1 ∨ (geo.entries step).2 ≤ a)

/-- What a volume holds: the bytes of `rest`, and the values of `tbl` as the entries
of the data clusters in the FAT copies written. -/
structure Shows (geo : Geometry) (rest : Nat → UInt8) (tbl : Nat → Nat → Nat)
    (img : Nat → UInt8) :
    Prop where
  outside : ∀ a, geo.Outside a → img a = rest a
  high : ∀ step < geo.copies, ∀ c, geo.IsCluster c →
    geo.entry img step c / (geo.kind.mask + 1) = geo.entry rest step c / (geo.kind.mask + 1)
  inside : ∀ step < geo.copies, ∀ c, geo.IsCluster c → geo.value img step c = tbl step c

variable {geo : Geometry} {rest img img' : Nat → UInt8} {tbl : Nat → Nat → Nat}
variable {step cluster : Nat}

theorem fatCopy_le (hv : geo.Valid) (hstep : step < geo.copies) :
    geo.fatStart ≤ geo.fatCopy (geo.activeFat ^^^ step) ∧
      geo.fatCopy (geo.activeFat ^^^ step) + geo.fatSize ≤ geo.fatEnd := by
  have hmul := Nat.mul_le_mul_right geo.fatSize (Nat.succ_le_of_lt (activeFat_xor hv hstep).1)
  rw [Nat.succ_mul] at hmul
  simp only [fatCopy, fatEnd]
  omega

theorem copies_pos (hv : geo.Valid) : 0 < geo.copies := by
  have hcount := hv.fatCount
  simp only [copies]
  split <;> omega

theorem entryAt_bounds (hv : geo.Valid) (hstep : step < geo.copies)
    (hc : cluster ≤ geo.maxCluster) :
    geo.fatStart ≤ geo.entryAt step cluster ∧
      geo.entryAt step cluster + geo.kind.entryLen ≤ geo.fatEnd := by
  have hcopy := fatCopy_le hv hstep
  have hentry := entryAt_le hv step hc
  omega

theorem withEntry_of_lt (value : Nat) {a : Nat} (h : a < geo.entryAt step cluster) :
    geo.withEntry step cluster value img a = img a :=
  patch_of_lt _ _ _ h

theorem withEntry_of_ge (value : Nat) {a : Nat}
    (h : geo.entryAt step cluster + geo.kind.entryLen ≤ a) :
    geo.withEntry step cluster value img a = img a :=
  patch_of_ge _ _ _ (by rwa [FatKind.encode_length])

theorem slice_withEntry (value : Nat) :
    slice (geo.withEntry step cluster value img) (geo.entryAt step cluster) geo.kind.entryLen =
      geo.kind.encode cluster value (slice img (geo.entryAt step cluster) geo.kind.entryLen) := by
  have hslice := slice_patch img (geo.entryAt step cluster) (geo.kind.encode cluster value
    (slice img (geo.entryAt step cluster) geo.kind.entryLen))
  rwa [FatKind.encode_length] at hslice

theorem value_withEntry (value : Nat) :
    geo.value (geo.withEntry step cluster value img) step cluster = value &&& geo.kind.mask := by
  rw [Geometry.value, entry, slice_withEntry, FatKind.decode_encode]

theorem part_shared (img : Nat → UInt8) (at_ : Nat) {c : Nat} (hpair : c / 2 = cluster / 2)
    (hne : c ≠ cluster) (value : Nat) {i : Nat} (hi : i < 2) : FatKind.part .fat12 c i
      (patch img (at_ + cluster * 3 / 2)
        (FatKind.encode .fat12 cluster value (slice img (at_ + cluster * 3 / 2) 2))
          (at_ + c * 3 / 2 + i)) =
      FatKind.part .fat12 c i (img (at_ + c * 3 / 2 + i)) := by
  have hbyte (a : Nat) := (img a).toNat_lt
  rcases Nat.mod_two_eq_zero_or_one c with hc | hc
  · -- the entry is the lower one: its second byte is the first of the other
    have hodd : cluster % 2 ≠ 0 := by omega
    have hat : at_ + cluster * 3 / 2 = at_ + c * 3 / 2 + 1 := by omega
    rw [hat, FatKind.encode, if_neg hodd]
    simp only [FatKind.part, if_pos hc]
    split
    · rw [patch_of_lt _ _ _ (by omega)]
    · obtain rfl : i = 1 := by omega
      have hin := patch_inside img (at_ + c * 3 / 2 + 1)
        [u8 (byteAt (slice img (at_ + c * 3 / 2 + 1) 2) 0 % 16 + value % 16 * 16),
          u8 (value / 16)]
        (i := 0) Nat.two_pos
      rw [Nat.add_zero] at hin
      rw [hin, getD_cons_zero, u8_toNat, byteAt, slice_getD _ _ _ (by decide), Nat.add_zero]
      have := hbyte (at_ + c * 3 / 2 + 1)
      omega
  · have heven : cluster % 2 = 0 := by omega
    have hodd : c % 2 ≠ 0 := by omega
    have hat : at_ + c * 3 / 2 = at_ + cluster * 3 / 2 + 1 := by omega
    rw [hat, FatKind.encode, if_pos heven]
    simp only [FatKind.part, if_neg hodd]
    split
    · rename_i hzero
      subst hzero
      have hin := patch_inside img (at_ + cluster * 3 / 2)
        [u8 value, u8
          (byteAt (slice img (at_ + cluster * 3 / 2) 2) 1 / 16 * 16 + value / 256 % 16)]
        (i := 1) Nat.one_lt_two
      rw [Nat.add_zero, hin, getD_cons_succ, getD_cons_zero, u8_toNat, byteAt,
        slice_getD _ _ _ (by decide)]
      have := hbyte (at_ + cluster * 3 / 2 + 1)
      omega
    · obtain rfl : i = 1 := by omega
      rw [patch_of_ge _ _ _ (by simp)]

/-- What an entry stored makes of the bytes of another: of those of its neighbour
nothing that counts. -/
theorem part_withEntry (hv : geo.Valid) (hstep : step < geo.copies)
    (hcluster : cluster ≤ geo.maxCluster)
    {step' c : Nat} (hstep' : step' < geo.copies) (hc : c ≤ geo.maxCluster)
    (hne : step' ≠ step ∨ c ≠ cluster) (value : Nat) {i : Nat} (hi : i < geo.kind.entryLen) :
    geo.kind.part c i (geo.withEntry step cluster value img (geo.entryAt step' c + i)) =
      geo.kind.part c i (img (geo.entryAt step' c + i)) := by
  have hapart (h : geo.entryAt step' c + geo.kind.entryLen ≤ geo.entryAt step cluster ∨
      geo.entryAt step cluster + geo.kind.entryLen ≤ geo.entryAt step' c) :
      geo.withEntry step cluster value img (geo.entryAt step' c + i) =
        img (geo.entryAt step' c + i) := by
    rcases h with h | h
    · exact withEntry_of_lt value (by omega)
    · exact withEntry_of_ge value (by omega)
  by_cases hcopy : step' = step
  · subst hcopy
    have hne : c ≠ cluster := hne.resolve_left fun h => h rfl
    have hoffset (d : Nat) : d * 3 / 2 = d / 2 * 3 + d % 2 := by omega
    by_cases hpair : geo.kind = .fat12 ∧ c / 2 = cluster / 2
    · obtain ⟨hkind, hpair⟩ := hpair
      rw [hkind] at hi
      have hshared := part_shared img (geo.fatCopy (geo.activeFat ^^^ step')) hpair hne value hi
      simpa only [withEntry, hkind, entryAt, FatKind.entryOffset, FatKind.entryLen] using hshared
    · rw [hapart]
      cases hkind : geo.kind with
      | fat12 =>
        have hpair : c / 2 ≠ cluster / 2 := fun h => hpair ⟨hkind, h⟩
        simp only [entryAt, hkind, FatKind.entryOffset, FatKind.entryLen, hoffset]
        omega
      | fat16 =>
        simp only [entryAt, hkind, FatKind.entryOffset, FatKind.entryLen]
        omega
      | fat32 =>
        simp only [entryAt, hkind, FatKind.entryOffset, FatKind.entryLen]
        omega
  · have hxor := fun heq => hcopy ((activeFat_xor hv hstep').2 step hstep heq)
    have hdis := geo.fatCopy_disjoint hxor
    have hentry := entryAt_le hv step hcluster
    have hother := entryAt_le hv step' hc
    rw [hapart (by omega)]

theorem entry_mixed (hv : geo.Valid) (hstep : step < geo.copies)
    (hcluster : cluster ≤ geo.maxCluster)
    {value : Nat} (hmixed : ∀ a, img' a = img a ∨ img' a = geo.withEntry step cluster value img a)
    {step' c : Nat} (hstep' : step' < geo.copies) (hc : c ≤ geo.maxCluster)
    (hne : step' ≠ step ∨ c ≠ cluster) :
    geo.entry img' step' c = geo.entry img step' c := by
  apply FatKind.decode_congr
  intro i hi
  rw [slice_getD _ _ _ hi, slice_getD _ _ _ hi]
  rcases hmixed (geo.entryAt step' c + i) with h | h
  · rw [h]
  · rw [h, part_withEntry hv hstep hcluster hstep' hc hne value hi]

def stored (step cluster value : Nat) (tbl : Nat → Nat → Nat) : Nat → Nat → Nat :=
  Function.update tbl step (Function.update (tbl step) cluster value)

theorem stored_self (step cluster value : Nat) (tbl : Nat → Nat → Nat) :
    stored step cluster value tbl step cluster = value := by
  rw [stored, Function.update_self, Function.update_self]

theorem stored_of_ne {step' c : Nat} (h : step' ≠ step ∨ c ≠ cluster) (value : Nat)
    (tbl : Nat → Nat → Nat) :
    stored step cluster value tbl step' c = tbl step' c := by
  rw [stored]
  by_cases hstep : step' = step
  · subst hstep
    rw [Function.update_self, Function.update_of_ne (h.resolve_left fun h => h rfl)]
  · rw [Function.update_of_ne hstep]

theorem high_mixed {value : Nat}
    (hmixed : ∀ a, img' a = img a ∨ img' a = geo.withEntry step cluster value img a) :
    geo.entry img' step cluster / (geo.kind.mask + 1) = geo.entry img step cluster /
      (geo.kind.mask + 1) := by
  rw [entry, entry, FatKind.decode_high, FatKind.decode_high]
  have hnew := geo.kind.encode_high cluster value
    (slice img (geo.entryAt step cluster) geo.kind.entryLen)
  rw [← slice_withEntry] at hnew
  cases hkind : geo.kind with
  | fat12 => rfl
  | fat16 => rfl
  | fat32 =>
    have hlen : 3 < FatKind.fat32.entryLen := by decide
    simp only [hkind, FatKind.high, byteAt, slice_getD _ _ _ hlen] at hnew ⊢
    rcases hmixed (geo.entryAt step cluster + 3) with h | h
    · rw [h]
    · rw [h, hnew]

theorem Shows.mixed (h : geo.Shows rest tbl img) (hv : geo.Valid) (hstep : step < geo.copies)
    (hc : geo.IsCluster cluster) {value : Nat}
    (hmixed : ∀ a, img' a = img a ∨ img' a = geo.withEntry step cluster value img a) :
    geo.Shows rest (stored step cluster (geo.value img' step cluster) tbl) img' := by
  have hmem := geo.entry_mem step hc.1 hc.2
  have hother {step' c : Nat} (hstep' : step' < geo.copies) (hc' : geo.IsCluster c)
      (hne : step' ≠ step ∨ c ≠ cluster) := entry_mixed hv hstep hc.2 hmixed hstep' hc'.2 hne
  refine ⟨fun a ha => ?_, fun step' hstep' c hc' => ?_, fun step' hstep' c hc' => ?_⟩
  · rw [← h.outside a ha]
    rcases hmixed a with hold | hnew
    · exact hold
    · rw [hnew]
      rcases (ha step hstep).2 with hlt | hge
      · exact withEntry_of_lt value (by omega)
      · exact withEntry_of_ge value (by omega)
  · by_cases hsame : step' = step ∧ c = cluster
    · rw [hsame.1, hsame.2, high_mixed hmixed, h.high step hstep cluster hc]
    · rw [hother hstep' hc' (by omega), h.high step' hstep' c hc']
  · by_cases hsame : step' = step ∧ c = cluster
    · rw [hsame.1, hsame.2, stored_self]
    · have hne : step' ≠ step ∨ c ≠ cluster := by omega
      rw [stored_of_ne hne, Geometry.value, hother hstep' hc' hne, ← Geometry.value,
        h.inside step' hstep' c hc']

theorem Shows.withEntry (h : geo.Shows rest tbl img) (hv : geo.Valid) (hstep : step < geo.copies)
    (hc : geo.IsCluster cluster) (value : Nat) :
    geo.Shows rest (stored step cluster (value &&& geo.kind.mask) tbl)
      (geo.withEntry step cluster value img) := by
  have hshows := h.mixed hv hstep hc fun a =>
    .inr (Eq.refl (geo.withEntry step cluster value img a))
  rwa [value_withEntry] at hshows

theorem Shows.clean (h : geo.Shows rest tbl img) (hv : geo.Valid) (hk : geo.kind ≠ .fat12)
    (hstep : step < geo.copies) (hsame : ∀ a, a ≠ geo.cleanAt step → img' a = img a) :
    geo.Shows rest tbl img' := by
  have hentry {step' c : Nat} (hstep' : step' < geo.copies) (hc : geo.IsCluster c) :
      geo.entry img' step' c = geo.entry img step' c := by
    have havoid := avoids_entries hv hk hstep' step hstep
    have hmem := geo.entry_mem step' hc.1 hc.2
    rw [entry, slice_congr fun i hi => hsame _ (by omega), ← entry]
  refine ⟨fun a ha => ?_, fun step' hstep' c hc => ?_, fun step' hstep' c hc => ?_⟩
  · rw [hsame a (ha step hstep).1, h.outside a ha]
  · rw [hentry hstep' hc, h.high step' hstep' c hc]
  · rw [value, hentry hstep' hc, ← value, h.inside step' hstep' c hc]

end Geometry

end Hadris

namespace Hadris

open List

theorem patch_slice_set (img : Nat → UInt8) (at_ len i : Nat) (b : UInt8) {a : Nat}
    (ha : a ≠ at_ + i) :
    patch img at_ ((slice img at_ len).set i b) a = img a := by
  have hlen : ((slice img at_ len).set i b).length = len := by rw [length_set, slice_length]
  by_cases hin : at_ ≤ a ∧ a < at_ + len
  · obtain ⟨k, rfl⟩ := Nat.exists_eq_add_of_le hin.1
    rw [patch_inside _ _ _ (by rw [hlen]; omega), getD_eq_getElem?_getD,
      getElem?_set_ne (by omega), ← getD_eq_getElem?_getD, slice_getD _ _ _ (by omega)]
  · rcases Nat.lt_or_ge a at_ with hlt | hge
    · exact patch_of_lt _ _ _ hlt
    · exact patch_of_ge _ _ _ (by rw [hlen]; omega)

namespace Geometry

/-- `img` with the entries of `members` stored in FAT copy `step`, the first
with `value`, each of the others with the one before it, or all with `value`
when they are not linked. -/
def withEntries (geo : Geometry) (step : Nat) (link : Bool) :
    List Nat → Nat → (Nat → UInt8) → Nat → UInt8
  | [], _, img => img
  | cluster :: rest, value, img =>
    geo.withEntries step link rest (if link then cluster else value)
      (geo.withEntry step cluster value img)

def storedAll (geo : Geometry) (step : Nat) (link : Bool) :
    List Nat → Nat → (Nat → Nat → Nat) → Nat → Nat → Nat
  | [], _, tbl => tbl
  | cluster :: rest, value, tbl =>
    geo.storedAll step link rest (if link then cluster else value)
      (stored step cluster (value &&& geo.kind.mask) tbl)

def freeCount (geo : Geometry) (tbl : Nat → Nat) : Nat :=
  (range' firstDataCluster (geo.maxCluster - 1)).countP fun c => tbl c = 0

variable {geo : Geometry} {rest : Nat → UInt8} {tbl : Nat → Nat → Nat}
  {img : Nat → UInt8} {step : Nat}

theorem mem_clusters {c : Nat} : c ∈ range' firstDataCluster (geo.maxCluster - 1) ↔
    geo.IsCluster c := by
  simp only [mem_range'_1, IsCluster, firstDataCluster]
  omega

theorem freeCount_le (tbl : Nat → Nat) : geo.freeCount tbl ≤ geo.maxCluster - 1 :=
  countP_le_length.trans_eq length_range'

theorem freeCount_eq_zero {tbl : Nat → Nat} :
    geo.freeCount tbl = 0 ↔ ∀ c, geo.IsCluster c → tbl c ≠ 0 := by
  rw [freeCount, countP_eq_zero]
  exact forall_congr' fun c => by rw [mem_clusters, decide_eq_true_eq]

theorem freeCount_congr {tbl tbl' : Nat → Nat}
    (h : ∀ c, geo.IsCluster c → (tbl c = 0 ↔ tbl' c = 0)) :
    geo.freeCount tbl = geo.freeCount tbl' :=
  countP_congr fun c hc => by
    rw [decide_eq_true_eq, decide_eq_true_eq]
    exact h c (mem_clusters.mp hc)

theorem countP_update {l : List Nat} (hnodup : l.Nodup) {c : Nat} (hc : c ∈ l)
    (f : Nat → Nat) (v : Nat) :
    l.countP (fun x => decide (Function.update f c v x = 0)) + (if f c = 0 then 1 else 0) =
      l.countP (fun x => decide (f x = 0)) + if v = 0 then 1 else 0 := by
  induction l with
  | nil => cases hc
  | cons x l ih =>
    rw [nodup_cons] at hnodup
    rw [countP_cons, countP_cons]
    simp only [decide_eq_true_eq]
    by_cases hx : x = c
    · subst hx
      have hrest : l.countP (fun y => decide (Function.update f x v y = 0)) =
          l.countP fun y => decide (f y = 0) :=
        countP_congr fun y hy => by
          have hne : y ≠ x := fun heq => hnodup.1 (heq ▸ hy)
          rw [Function.update_of_ne hne]
      rw [hrest, Function.update_self]
      omega
    · have hrest := ih hnodup.2 ((mem_cons.mp hc).resolve_left fun h => hx h.symm)
      rw [Function.update_of_ne hx]
      omega

theorem freeCount_update {c : Nat} (hc : geo.IsCluster c) (tbl : Nat → Nat) (v : Nat) :
    geo.freeCount (Function.update tbl c v) + (if tbl c = 0 then 1 else 0) =
      geo.freeCount tbl + if v = 0 then 1 else 0 :=
  countP_update nodup_range' (mem_clusters.mpr hc) tbl v

theorem Shows.withEntries (h : geo.Shows rest tbl img) (hv : geo.Valid)
    (hstep : step < geo.copies)
    (link : Bool) {members : List Nat} (hmembers : ∀ c ∈ members, geo.IsCluster c) (value : Nat) :
    geo.Shows rest (geo.storedAll step link members value tbl)
      (geo.withEntries step link members value img) := by
  induction members generalizing value tbl img with
  | nil => exact h
  | cons cluster members ih =>
    exact ih (h.withEntry hv hstep (hmembers _ mem_cons_self) value)
      (fun c hc => hmembers c (mem_cons_of_mem _ hc)) _

theorem storedAll_of_ne {step' : Nat} (hne : step' ≠ step) (link : Bool)
    (members : List Nat) (value : Nat)
    (tbl : Nat → Nat → Nat) (c : Nat) :
    geo.storedAll step link members value tbl step' c = tbl step' c := by
  induction members generalizing value tbl with
  | nil => rfl
  | cons cluster members ih => rw [storedAll, ih, stored_of_ne (.inl hne)]

theorem withEntries_outside {link : Bool} {members : List Nat} {lo hi : Nat}
    (hmembers : ∀ c ∈ members, lo ≤ geo.entryAt step c ∧
      geo.entryAt step c + geo.kind.entryLen ≤ hi) (value : Nat) {a :
    Nat} (ha : a < lo ∨ hi ≤ a) :
    geo.withEntries step link members value img a = img a := by
  induction members generalizing value img with
  | nil => rfl
  | cons cluster members ih =>
    have hin := hmembers cluster mem_cons_self
    rw [withEntries, ih fun c hc => hmembers c (mem_cons_of_mem _ hc)]
    rcases ha with ha | ha
    · exact withEntry_of_lt value (by omega)
    · exact withEntry_of_ge value (by omega)

/-- The entry of `cluster` in FAT copy `step` lies in the `size` bytes from `start` on. -/
def Lies (geo : Geometry) (step start size cluster : Nat) : Prop :=
  start ≤ geo.entryAt step cluster ∧ geo.entryAt step cluster + geo.kind.entryLen ≤ start + size

end Geometry

namespace Fat

variable {geo : Geometry} {rest img : Nat → UInt8} {tbl : Nat → Nat → Nat} {step start size : Nat}

/-- The counts of clusters taken and freed after one more entry: `was` and `now`
say whether it was free and is. -/
theorem tally (was now : Bool) (taken freed : Nat) :
    let counts := if was && !now then (taken + 1, freed)
      else if !was && now then (taken, freed + 1) else (taken, freed)
    counts.1 + freed + now.toNat = counts.2 + taken + was.toNat := by
  cases was <;> cases now <;>
    simp only [Bool.and_true, Bool.and_false, Bool.not_true, Bool.not_false,
      Bool.false_eq_true, if_true, if_false, Bool.toNat_true, Bool.toNat_false] <;> omega

theorem toNat_beq_zero (value : Nat) : (value == 0).toNat = if value = 0 then 1 else 0 := by
  by_cases h : value = 0
  · rw [if_pos h, beq_iff_eq.mpr h]
    rfl
  · rw [if_neg h, beq_eq_false_iff_ne.mpr h]
    rfl

/-- Entries that lie in a block are stored in it, and what they free and take is
counted. -/
theorem patchEntries_lies (h : geo.Shows rest tbl img) (hv : geo.Valid)
    (hstep : step < geo.copies) (link : Bool)
    {members : List Nat} (hmembers : ∀ c ∈ members, geo.IsCluster c)
    (hlies : ∀ c ∈ members, geo.Lies step start size c) (value : Nat) (counts : Nat × Nat) :
    ∃ taken freed, patchEntries geo.kind link start (geo.entryAt step) members value
      (slice img start size) counts =
        some (slice (geo.withEntries step link members value img) start size, taken, freed) ∧
      geo.freeCount (geo.storedAll step link members value tbl step) + taken + counts.2 =
        geo.freeCount (tbl step) + freed + counts.1 := by
  induction members generalizing value img tbl counts with
  | nil =>
    exact ⟨counts.1, counts.2, rfl, by rw [Geometry.storedAll]; omega⟩
  | cons cluster members ih =>
    have hcluster := hmembers cluster mem_cons_self
    obtain ⟨hlo, hhi⟩ := hlies cluster mem_cons_self
    obtain ⟨taken, freed⟩ := counts
    have hat : start + (geo.entryAt step cluster - start) = geo.entryAt step cluster := by omega
    have hentry : ((slice img start size).drop (geo.entryAt step cluster - start)).take
        geo.kind.entryLen = slice img (geo.entryAt step cluster) geo.kind.entryLen := by
      have hsize : size = (geo.entryAt step cluster - start) +
          (size - (geo.entryAt step cluster - start)) := by omega
      conv_lhs => rw [hsize]
      rw [drop_slice, take_slice _ _ _ (by omega), hat]
    have hcode := geo.kind.encode_length cluster value
      (slice img (geo.entryAt step cluster) geo.kind.entryLen)
    have hsplice := splice_slice img start size (geo.kind.encode cluster value
      (slice img (geo.entryAt step cluster) geo.kind.entryLen))
      (k := geo.entryAt step cluster - start) (by omega)
    rw [hcode, hat] at hsplice
    have hread : geo.kind.decode cluster
      (slice img (geo.entryAt step cluster) geo.kind.entryLen) &&&
        geo.kind.mask = tbl step cluster := h.inside step hstep cluster hcluster
    rw [patchEntries, if_neg (by rw [slice_length]; omega)]
    simp only [hentry, hsplice, hread]
    have hfree := geo.freeCount_update hcluster (tbl step) (value &&& geo.kind.mask)
    have hstored : Geometry.stored step cluster (value &&& geo.kind.mask) tbl step =
        Function.update (tbl step) cluster (value &&& geo.kind.mask) := Function.update_self _ _ _
    have htally := tally (tbl step cluster == 0) (value &&& geo.kind.mask == 0) taken freed
    obtain ⟨taken', freed', hpatch, hcount⟩ := ih (h.withEntry hv hstep hcluster value)
      (fun c hc => hmembers c (mem_cons_of_mem _ hc)) (fun c hc => hlies c (mem_cons_of_mem _ hc))
      (if link then cluster else value) _
    refine ⟨taken', freed', hpatch, ?_⟩
    rw [hstored] at hcount
    rw [Geometry.storedAll]
    rw [toNat_beq_zero, toNat_beq_zero] at htally
    omega

theorem patchEntries_none (link : Bool) {members : List Nat}
    (h : ¬ ∀ c ∈ members, geo.Lies step start size c) (value : Nat) {data : List UInt8}
    (hdata : data.length = size)
    (counts : Nat × Nat) : patchEntries geo.kind link start (geo.entryAt step) members value
      data counts = none := by
  induction members generalizing value data counts with
  | nil => exact absurd (fun _ hc => absurd hc not_mem_nil) h
  | cons cluster members ih =>
    rw [patchEntries]
    split
    · rfl
    · rename_i hin
      have hlies : geo.Lies step start size cluster := by
        rw [Geometry.Lies]
        omega
      refine ih (fun hrest => h fun c hc => ?_) _ ?_ _
      · rcases mem_cons.mp hc with rfl | hc
        · exact hlies
        · exact hrest c hc
      · have hcode := geo.kind.encode_length cluster value
          ((data.drop (geo.entryAt step cluster - start)).take
          geo.kind.entryLen)
        rw [length_append, length_append, length_take, length_drop, hcode]
        omega

end Fat

end Hadris
