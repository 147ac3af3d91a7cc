import Hadris.Exfat.BootLayout
import Hadris.Format.RoundTrip
import Mathlib.Order.Bounds.Basic

namespace Hadris

def nextMultiple (a b : Nat) : Nat := if a % b = 0 then a else a + (b - a % b)

section

variable {a b c : Nat}

theorem le_nextMultiple (a b : Nat) : a ≤ nextMultiple a b := by
  rw [nextMultiple]
  split <;> omega

theorem nextMultiple_lt (hb : 0 < b) : nextMultiple a b < a + b := by
  have hmod := Nat.mod_lt a hb
  rw [nextMultiple]
  split <;> omega

theorem dvd_nextMultiple (hb : 0 < b) : b ∣ nextMultiple a b := by
  have hmod := Nat.mod_lt a hb
  rw [nextMultiple]
  split
  · exact Nat.dvd_of_mod_eq_zero ‹_›
  · refine ⟨a / b + 1, ?_⟩
    have hdiv := Nat.div_add_mod a b
    rw [Nat.mul_succ]
    omega

theorem nextMultiple_le (hb : 0 < b) (hc : b ∣ c) (h : a ≤ c) : nextMultiple a b ≤ c := by
  obtain ⟨k, rfl⟩ := hc
  obtain ⟨j, hj⟩ := dvd_nextMultiple (a := a) hb
  have hlt := nextMultiple_lt (a := a) hb
  rw [hj] at hlt ⊢
  apply Nat.mul_le_mul_left
  apply Nat.le_of_lt_succ
  apply Nat.lt_of_mul_lt_mul_left (a := b)
  rw [Nat.mul_succ]
  omega

theorem nextMultiple_mono (hb : 0 < b) (h : a ≤ c) : nextMultiple a b ≤ nextMultiple c b :=
  nextMultiple_le hb (dvd_nextMultiple hb) (h.trans (le_nextMultiple c b))

end

namespace Checked

variable {ε α : Type} {width a b : Nat}

def nextMultipleOf (width a b : Nat) : Checked ε Nat :=
  if b = 0 then overflow else if a % b = 0 then pure a else add width a (b - a % b)

theorem nextMultipleOf_of_le (hb : 0 < b) (h : a + b ≤ 2 ^ width) :
    (nextMultipleOf width a b : Checked ε Nat) = pure (nextMultiple a b) := by
  have hlt := nextMultiple_lt (a := a) hb
  rw [nextMultipleOf, if_neg hb.ne']
  rw [nextMultiple] at hlt ⊢
  split
  · rfl
  · rw [if_neg ‹_›] at hlt
    exact add_of_lt (hlt.trans_le h)

def div (a b : Nat) : Checked ε Nat := if b = 0 then overflow else pure (a / b)

theorem div_of_pos (hb : 0 < b) : (div a b : Checked ε Nat) = pure (a / b) := if_neg hb.ne'

/-- The code leaves no integer type, and what it returns satisfies `P`. -/
def Yields (code : Checked ε α) (P : α → Prop) : Prop :=
  ∃ result, code = lift result ∧ ∀ a, result = .ok a → P a

theorem yields_pure {P : α → Prop} {a : α} (h : P a) : Yields (pure a : Checked ε α) P := by
  refine ⟨.ok a, rfl, ?_⟩
  rintro _ ⟨⟩
  exact h

theorem yields_reject {P : α → Prop} {wrong : Bool} {error : ε} {f : Unit → Checked ε α}
    (h : wrong = false → Yields (f ()) P) : Yields (reject wrong error >>= f) P := by
  rw [reject_bind]
  split
  · exact ⟨.error error, rfl, nofun⟩
  · exact h (Bool.eq_false_iff.mpr ‹_›)

def bisect (fits : Nat → Checked ε Bool) : Nat → Nat → Nat → Checked ε Nat
  | 0, count, _ => pure count
  | fuel + 1, count, high =>
    if count < high then do
      let gap ← sub high count
      let half ← divCeil 64 gap 2
      let mid ← add 64 count half
      if ← fits mid then bisect fits fuel mid high
      else do
        let high ← sub mid 1
        bisect fits fuel count high
    else pure count

theorem bisect_isGreatest (fits : Nat → Checked ε Bool) (p : Nat → Prop)
    [DecidablePred p] (top : Nat)
    (hfits : ∀ n ≤ top, fits n = pure (decide (p n))) (hanti : ∀ m n, m ≤ n → p n → p m)
    (htop : top < 2 ^ 63)
    (fuel count high : Nat) (hcount : p count) (hle : count ≤ high) (hhigh : high ≤ top)
    (hfuel : high - count ≤ fuel)
    (habove : ∀ n ≤ top, p n → n ≤ high) : ∃ n, bisect fits fuel count high = pure n ∧
      IsGreatest {n | n ≤ top ∧ p n} n := by
  have hend {count high : Nat} (hcount : p count) (hle : high ≤ count) (hhigh : count ≤ top)
      (habove : ∀ n ≤ top, p n → n ≤ high) :
        IsGreatest {n | n ≤ top ∧ p n} count := by
    constructor
    · exact ⟨hhigh, hcount⟩
    · rintro n ⟨hn, hp⟩
      exact (habove n hn hp).trans hle
  induction fuel generalizing count high with
  | zero => exact ⟨count, rfl, hend hcount (by omega) (by omega) habove⟩
  | succ fuel ih =>
    rw [bisect]
    split
    · have hhalf : (high - count + 2 - 1) / 2 ≤ high - count ∧
        0 < (high - count + 2 - 1) / 2 := by omega
      rw [sub_of_le hle, pure_bind, divCeil_of_lt (by decide) (by omega), pure_bind,
        add_of_lt (by omega), pure_bind, hfits _ (by omega), pure_bind]
      generalize (high - count + 2 - 1) / 2 = half at hhalf
      split
      · apply ih
        · exact of_decide_eq_true ‹_›
        · omega
        · exact hhigh
        · omega
        · exact habove
      · have hnot : ¬ p (count + half) := of_decide_eq_false (Bool.eq_false_iff.mpr ‹_›)
        rw [sub_of_le (by omega), pure_bind]
        apply ih
        · exact hcount
        · omega
        · omega
        · omega
        · intro n hn hp
          apply Nat.le_sub_one_of_lt
          apply Nat.lt_of_not_le
          exact fun hle => hnot (hanti _ _ hle hp)
    · exact ⟨count, rfl, hend hcount (by omega) (by omega) habove⟩

end Checked

namespace Exfat

open Checked

def minVolume : Nat := 2 ^ 20

def maxClusterSize : Nat := 32 * 2 ^ 20

def recommendedUpcaseLen : Nat := 5836

/-- What the caller asks of the layout. -/
structure Options where
  sectorSize : Option UInt32
  clusterSize : Option UInt32
  fatCount : UInt8
  alignment : Option UInt32

def Options.new : Options := ⟨none, none, 1, none⟩

/-- Where the structures of a volume are put, in sectors and clusters. -/
structure Layout where
  sectorShift : Nat
  clusterShift : Nat
  volumeSectors : Nat
  fatOffset : Nat
  fatLength : Nat
  heapOffset : Nat
  clusterCount : Nat
  fats : Nat
  bitmapClusters : Nat
  upcaseClusters : Nat
deriving DecidableEq, Repr

namespace Layout

variable (layout : Layout)

def sector : Nat := 2 ^ layout.sectorShift

def cluster : Nat := 2 ^ layout.clusterShift

def bitmapLen : Nat := divCeil layout.clusterCount 8

def bitmapFirst (index : Nat) : Checked ErrorKind Nat := do
  let before ← mul 32 layout.bitmapClusters index
  add 32 firstCluster before

def upcaseFirst : Checked ErrorKind Nat := layout.bitmapFirst layout.fats

def root : Checked ErrorKind Nat := do
  let first ← layout.upcaseFirst
  add 32 first layout.upcaseClusters

def used : Checked ErrorKind Nat := do
  let bitmaps ← mul 32 layout.bitmapClusters layout.fats
  let tables ← add 32 bitmaps layout.upcaseClusters
  add 32 tables 1

end Layout

def shiftOf (value : Nat) : Checked ErrorKind Nat :=
  lift (if value.isPowerOfTwo then .ok (cast 8 (trailingZeros 64 value))
    else .error .invalidInput)

def Options.sector (options : Options) (blockSize : UInt32) : Nat :=
  options.sectorSize.elim (if blockSize.toNat ∈ [512, 1024, 2048, 4096] then blockSize.toNat
    else 512) UInt32.toNat

def Options.cluster (options : Options) (volume : Nat) : Nat :=
  options.clusterSize.elim (if volume < 256 * 2 ^ 20 then 4 * 2 ^ 10 else if volume < 32 * 2 ^ 30
    then 32 * 2 ^ 10 else 128 * 2 ^ 10)
    UInt32.toNat

def Options.align (options : Options) (volume cluster sector : Nat) (physical : UInt32) : Nat :=
  options.alignment.elim (max (if 64 * 2 ^ 20 ≤ volume then 2 ^ 20 else cluster)
    (if physical.toNat.isPowerOfTwo then physical.toNat else sector)) UInt32.toNat

/-- The room there is: sectors of `sector` bytes, clusters of two to the `perCluster`
sectors, and the FATs and the heap at multiples of `align` sectors. -/
structure Space where
  sector : Nat
  perCluster : Nat
  align : Nat
  fats : Nat
  volumeSectors : Nat

/-- The length of a FAT for `count` clusters, where the heap starts behind the FATs, and how
many clusters it then holds. -/
def Space.layoutFor (space : Space) (fatOffset count : Nat) :
    Checked ErrorKind (Nat × Nat × Nat) := do
  let entries ← add 64 count 2
  let bytes ← mul 64 entries 4
  let fatLength ← Checked.divCeil 64 bytes space.sector
  let fatsLength ← mul 64 fatLength space.fats
  let fatsEnd ← add 64 fatOffset fatsLength
  let heapOffset ← nextMultipleOf 64 fatsEnd space.align
  let fits ← shr 64 (space.volumeSectors - heapOffset) space.perCluster
  pure (fatLength, heapOffset, fits)

def plan (deviceBytes : UInt64) (blockSize physical : UInt32) (options : Options) :
    Checked ErrorKind Layout := do
  let sector := options.sector blockSize
  let fats := options.fatCount.toNat
  reject (!([512, 1024, 2048, 4096].contains sector) || !([1, 2].contains fats)) .invalidInput
  let sectorShift ← shiftOf sector
  let volumeSectors ← shr 64 deviceBytes.toNat sectorShift
  let volume ← shl 64 volumeSectors sectorShift
  reject (volume < minVolume) .noSpace
  let cluster := options.cluster volume
  let clusterShift ← shiftOf cluster
  reject (cluster < sector || maxClusterSize < cluster) .invalidInput
  let align := options.align volume cluster sector physical
  reject (!align.isPowerOfTwo || align < sector) .invalidInput
  let alignSectors ← shr 64 align sectorShift
  let perCluster ← sub clusterShift sectorShift
  let fatOffset ← nextMultipleOf 64 24 alignSectors
  let space : Space := ⟨sector, perCluster, alignSectors, fats, volumeSectors⟩
  let most ← shr 64 volumeSectors perCluster
  let high := min most maxClusterCount
  let count ← bisect (fun mid => do
    let (_, _, fits) ← space.layoutFor fatOffset mid
    pure (mid ≤ fits)) high 0 high
  let (fatLength, heapOffset, _) ← space.layoutFor fatOffset count
  reject (2 ^ 32 ≤ fatOffset) .limitExceeded
  reject (2 ^ 32 ≤ fatLength) .limitExceeded
  reject (2 ^ 32 ≤ heapOffset) .limitExceeded
  let count := cast 32 count
  let bitmapLen ← Checked.divCeil 64 count 8
  let bitmapClusters ← Checked.divCeil 64 bitmapLen cluster
  let bitmapClusters := cast 32 bitmapClusters
  let upcaseClusters ← Checked.divCeil 64 recommendedUpcaseLen cluster
  let upcaseClusters := cast 32 upcaseClusters
  let bitmaps ← mul 32 bitmapClusters fats
  let tables ← add 32 bitmaps upcaseClusters
  let least ← add 32 tables 2
  reject (count < least) .noSpace
  pure {
    sectorShift := sectorShift
    clusterShift := clusterShift
    volumeSectors := volumeSectors
    fatOffset := fatOffset
    fatLength := fatLength
    heapOffset := heapOffset
    clusterCount := count
    fats := fats
    bitmapClusters := bitmapClusters
    upcaseClusters := upcaseClusters }

namespace Space

variable {space : Space} {n : Nat}

def fatOffset (space : Space) : Nat := nextMultiple 24 space.align

def fatLength (space : Space) (n : Nat) : Nat := Hadris.divCeil ((n + 2) * 4) space.sector

def heapOffset (space : Space) (n : Nat) : Nat :=
  nextMultiple (space.fatOffset + space.fatLength n * space.fats) space.align

/-- A FAT behind the boot regions and a heap behind the FATs can be put in the volume, both
where they are to be aligned, for `n` clusters. -/
def Fits (space : Space) (n : Nat) : Prop := ∃ fatOffset fatLength heapOffset,
  24 ≤ fatOffset ∧ space.align ∣ fatOffset ∧ (n + 2) * 4 ≤ fatLength * space.sector ∧
    fatOffset + fatLength * space.fats ≤ heapOffset ∧ space.align ∣ heapOffset ∧
    heapOffset + n * 2 ^ space.perCluster ≤ space.volumeSectors

/-- What the checks of the options say of the room. -/
structure Bounded (space : Space) : Prop where
  sector : 512 ≤ space.sector ∧ space.sector ≤ 4096
  perCluster : space.perCluster ≤ 16
  align : 0 < space.align ∧ space.align ≤ 2 ^ 23
  fats : space.fats ≤ 2
  volumeSectors : space.volumeSectors < 2 ^ 64

variable (h : space.Bounded)

include h

theorem fatOffset_lt : space.fatOffset < 2 ^ 24 := by
  have hlt := nextMultiple_lt (a := 24) h.align.1
  have hle := h.align.2
  rw [fatOffset]
  omega

theorem le_fatLength (n : Nat) : (n + 2) * 4 ≤ space.fatLength n * space.sector := by
  apply (Format.divCeil_le_iff _).mp
  · exact le_rfl
  · have := h.sector.1
    omega

theorem fatLength_le {m : Nat} (hm : (n + 2) * 4 ≤ m * space.sector) : space.fatLength n ≤ m := by
  apply (Format.divCeil_le_iff _).mpr hm
  have := h.sector.1
  omega

theorem fatLength_lt (hn : n ≤ maxClusterCount) : space.fatLength n < 2 ^ 26 := by
  have hsector := h.sector.1
  rw [maxClusterCount] at hn
  have hle : space.fatLength n ≤ 2 ^ 26 - 1 := by
    apply fatLength_le h
    omega
  omega

theorem heapOffset_lt (hn : n ≤ maxClusterCount) : space.heapOffset n < 2 ^ 28 := by
  have hfat := fatOffset_lt h
  have hlength := fatLength_lt h hn
  have hfats : space.fatLength n * space.fats ≤ space.fatLength n * 2 :=
    Nat.mul_le_mul_left _ h.fats
  have hlt := nextMultiple_lt (a := space.fatOffset + space.fatLength n * space.fats) h.align.1
  have hle := h.align.2
  rw [heapOffset]
  omega

theorem fits_iff : space.Fits n ↔ space.heapOffset n + n * 2 ^ space.perCluster ≤
    space.volumeSectors := by
  constructor
  · rintro ⟨fatOffset, fatLength, heapOffset, hboot, hfat, hlength, hheap, haligned, hfits⟩
    have hfatOffset : space.fatOffset ≤ fatOffset := nextMultiple_le h.align.1 hfat hboot
    have hfats := Nat.mul_le_mul_right space.fats (fatLength_le h hlength)
    have hle : space.heapOffset n ≤ heapOffset := nextMultiple_le h.align.1 haligned (by omega)
    omega
  · intro hfits
    refine ⟨space.fatOffset, space.fatLength n, space.heapOffset n, ?_, ?_,
      le_fatLength h n, ?_, ?_, hfits⟩
    · exact le_nextMultiple 24 space.align
    · exact dvd_nextMultiple h.align.1
    · exact le_nextMultiple _ space.align
    · exact dvd_nextMultiple h.align.1

theorem heapOffset_mono {m : Nat} (hm : m ≤ n) : space.heapOffset m ≤ space.heapOffset n := by
  apply nextMultiple_mono h.align.1
  apply Nat.add_le_add_left
  apply Nat.mul_le_mul_right
  apply fatLength_le h
  exact Nat.le_trans (by omega) (le_fatLength h n)

theorem layoutFor_eq (hn : n ≤ maxClusterCount) :
    space.layoutFor space.fatOffset n = pure (space.fatLength n, space.heapOffset n,
    (space.volumeSectors - space.heapOffset n) / 2 ^ space.perCluster) := by
  have hfat := fatOffset_lt h
  have hlength := fatLength_lt h hn
  have hfats : space.fatLength n * space.fats ≤ space.fatLength n * 2 :=
    Nat.mul_le_mul_left _ h.fats
  have hdiv := Nat.div_le_self ((n + 2) * 4) space.sector
  have halign := h.align
  have hper := h.perCluster
  have hsector := h.sector
  rw [maxClusterCount] at hn
  rw [layoutFor, add_of_lt (by omega), pure_bind, mul_of_lt (by omega), pure_bind,
    divCeil_of_lt (by omega) (by omega), pure_bind]
  change (do
    let fatsLength ← mul 64 (space.fatLength n) space.fats
    let fatsEnd ← add 64 space.fatOffset fatsLength
    let heapOffset ← nextMultipleOf 64 fatsEnd space.align
    let fits ← shr 64 (space.volumeSectors - heapOffset) space.perCluster
    pure (space.fatLength n, heapOffset, fits)) = _
  rw [mul_of_lt (by omega), pure_bind, add_of_lt (by omega), pure_bind,
    nextMultipleOf_of_le halign.1 (by omega), pure_bind, shr_of_lt (by omega), pure_bind]
  rfl

theorem search_eq {high : Nat}
    (hhigh : high = min (space.volumeSectors / 2 ^ space.perCluster) maxClusterCount) :
    ∃ count, bisect (fun mid => do
        let (_, _, fits) ← space.layoutFor space.fatOffset mid
        pure (decide (mid ≤ fits))) high 0 high = pure count ∧ count ≤ maxClusterCount ∧
      (count ≠ 0 → IsGreatest {n | n ≤ maxClusterCount ∧ space.Fits n} count) := by
  have hpow : 0 < 2 ^ space.perCluster := Nat.two_pow_pos _
  have hfits (n : Nat) (hn : n ≠ 0) : n ≤ (space.volumeSectors - space.heapOffset n) / 2 ^
      space.perCluster ↔ space.Fits n := by
    have hone := Nat.le_mul_of_pos_right n hpow
    rw [fits_iff h, Nat.le_div_iff_mul_le hpow]
    omega
  have hanti (m n : Nat) (hm : m ≤ n)
      (hn : n ≤ (space.volumeSectors - space.heapOffset n) / 2 ^ space.perCluster) :
        m ≤ (space.volumeSectors - space.heapOffset m) / 2 ^ space.perCluster := by
    have hmono := heapOffset_mono h hm
    exact hm.trans (hn.trans (Nat.div_le_div_right (by omega)))
  have habove (n : Nat) (hn : n ≤ maxClusterCount)
      (hp : n ≤ (space.volumeSectors - space.heapOffset n) / 2 ^ space.perCluster) :
        n ≤ high := by
    rw [hhigh]
    exact le_min (hp.trans (Nat.div_le_div_right (Nat.sub_le _ _))) hn
  obtain ⟨count, hrun, ⟨hle, hcount⟩, hgreatest⟩ := bisect_isGreatest
    (fun mid => do
      let (_, _, fits) ← space.layoutFor space.fatOffset mid
      pure (decide (mid ≤ fits)))
    (fun n => n ≤ (space.volumeSectors - space.heapOffset n) / 2 ^ space.perCluster)
      maxClusterCount
    (fun n hn => by rw [layoutFor_eq h hn, pure_bind]) hanti (by decide) high 0 high
      (Nat.zero_le _) (Nat.zero_le _)
    (hhigh ▸ min_le_right _ _) (by omega) habove
  refine ⟨count, hrun, hle, fun hne => ⟨⟨hle, (hfits count hne).mp hcount⟩, ?_⟩⟩
  rintro n ⟨hn, hfit⟩
  rcases Nat.eq_zero_or_pos n with rfl | hpos
  · exact Nat.zero_le _
  · exact hgreatest ⟨hn, (hfits n hpos.ne').mpr hfit⟩

end Space

/-- What `plan` promises of a layout. -/
structure Layout.Planned (deviceBytes : UInt64) (blockSize physical : UInt32) (options : Options)
    (layout : Layout) : Prop where
  sector : layout.sector = options.sector blockSize
  sectorShift : 9 ≤ layout.sectorShift ∧ layout.sectorShift ≤ 12
  cluster : layout.cluster = options.cluster (layout.volumeSectors * layout.sector)
  clusterShift : layout.sectorShift ≤ layout.clusterShift ∧ layout.clusterShift ≤ 25
  volume : layout.volumeSectors = deviceBytes.toNat / layout.sector
  minVolume : Exfat.minVolume ≤ layout.volumeSectors * layout.sector
  fats : layout.fats = options.fatCount.toNat ∧ (layout.fats = 1 ∨ layout.fats = 2)
  align : options.align (layout.volumeSectors * layout.sector) layout.cluster
    layout.sector physical ∣
      layout.fatOffset * layout.sector ∧
    options.align (layout.volumeSectors * layout.sector) layout.cluster layout.sector physical ∣
      layout.heapOffset * layout.sector
  largest : IsGreatest {n | n ≤ maxClusterCount ∧
    Space.Fits ⟨layout.sector, layout.clusterShift - layout.sectorShift,
    options.align (layout.volumeSectors * layout.sector) layout.cluster layout.sector physical /
      layout.sector, layout.fats,
    layout.volumeSectors⟩ n} layout.clusterCount
  bootRegions : 24 ≤ layout.fatOffset
  fatsEnd : layout.fatOffset + layout.fatLength * layout.fats ≤ layout.heapOffset
  heapEnd : layout.heapOffset + layout.clusterCount * 2 ^
    (layout.clusterShift - layout.sectorShift) ≤ layout.volumeSectors
  fatLength : (layout.clusterCount + 2) * 4 ≤ layout.fatLength * layout.sector
  bitmaps : layout.bitmapLen ≤ layout.bitmapClusters * layout.cluster
  upcase : recommendedUpcaseLen ≤ layout.upcaseClusters * layout.cluster
  room : layout.bitmapClusters * layout.fats + layout.upcaseClusters + 2 ≤ layout.clusterCount
  widths : layout.fatOffset < 2 ^ 32 ∧ layout.fatLength < 2 ^ 32 ∧ layout.heapOffset < 2 ^ 32

theorem yields_shiftOf {α : Type} {P : α → Prop} {value : Nat} {f : Nat → Checked ErrorKind α}
    (hlt : value < 2 ^ 64)
    (h : ∀ k, value = 2 ^ k → Yields (f k) P) : Yields (shiftOf value >>= f) P := by
  rw [shiftOf]
  split
  · obtain ⟨k, rfl⟩ := ‹value.isPowerOfTwo›
    have hk : k < 64 := (Nat.pow_lt_pow_iff_right (by decide)).mp hlt
    rw [trailingZeros_two_pow hk, cast_of_lt (by omega), lift_ok, pure_bind]
    exact h k rfl
  · exact ⟨.error .invalidInput, rfl, nofun⟩

theorem options_cluster_lt (options : Options) (volume : Nat) :
    options.cluster volume < 2 ^ 64 := by
  rw [Options.cluster]
  cases options.clusterSize with
  | none =>
    rw [Option.elim_none]
    split
    · decide
    · split <;> decide
  | some size => exact Nat.lt_of_lt_of_le size.toNat_lt (by decide)

theorem options_align_lt (options : Options) (physical : UInt32) (volume : Nat)
    {cluster sector : Nat} (hcluster : cluster < 2 ^ 32)
    (hsector : sector < 2 ^ 32) : options.align volume cluster sector physical < 2 ^ 32 := by
  have hphysical := physical.toNat_lt
  rw [Options.align]
  cases options.alignment with
  | none =>
    rw [Option.elim_none]
    apply max_lt
    · split
      · decide
      · exact hcluster
    · split
      · exact hphysical
      · exact hsector
  | some size => exact size.toNat_lt

theorem plan_yields (deviceBytes : UInt64) (blockSize physical : UInt32) (options : Options) :
    Yields (plan deviceBytes blockSize physical options)
      (Layout.Planned deviceBytes blockSize physical options) := by
  have hdevice := deviceBytes.toNat_lt
  apply yields_reject
  intro hchecks
  rw [Bool.or_eq_false_iff, Bool.not_eq_false', Bool.not_eq_false', List.contains_iff_mem,
    List.contains_iff_mem] at hchecks
  obtain ⟨hsector, hfats⟩ := hchecks
  have hfats' : options.fatCount.toNat = 1 ∨ options.fatCount.toNat = 2 := by simpa using hfats
  have hsectorLe : 512 ≤ options.sector blockSize ∧ options.sector blockSize ≤ 4096 := by
    simp only [List.mem_cons, List.not_mem_nil, or_false] at hsector
    omega
  apply yields_shiftOf
  · omega
  intro sectorShift hsectorShift
  have hshift : 9 ≤ sectorShift ∧ sectorShift ≤ 12 := by
    rw [hsectorShift] at hsectorLe
    constructor
    · exact (Nat.pow_le_pow_iff_right (a := 2) (by decide)).mp hsectorLe.1
    · exact (Nat.pow_le_pow_iff_right (a := 2) (by decide)).mp hsectorLe.2
  have hvolume : deviceBytes.toNat / 2 ^ sectorShift * 2 ^ sectorShift ≤ deviceBytes.toNat :=
    Nat.div_mul_le_self _ _
  rw [shr_of_lt (by omega), pure_bind, shl_of_lt (by omega) (by omega), pure_bind]
  apply yields_reject
  intro hmin
  rw [decide_eq_false_iff_not, not_lt] at hmin
  apply yields_shiftOf (options_cluster_lt _ _)
  intro clusterShift hclusterShift
  apply yields_reject
  intro hcluster
  rw [Bool.or_eq_false_iff, decide_eq_false_iff_not, decide_eq_false_iff_not,
    not_lt, not_lt] at hcluster
  have hclusterLe : sectorShift ≤ clusterShift ∧ clusterShift ≤ 25 := by
    rw [hclusterShift, hsectorShift] at hcluster
    constructor
    · exact (Nat.pow_le_pow_iff_right (a := 2) (by decide)).mp hcluster.1
    · exact (Nat.pow_le_pow_iff_right (a := 2) (by decide)).mp hcluster.2
  have hclusterLt : options.cluster
    (deviceBytes.toNat / 2 ^ sectorShift * 2 ^ sectorShift) < 2 ^ 32 :=
    Nat.lt_of_le_of_lt hcluster.2 (by decide)
  have halignLt := options_align_lt options physical
    (deviceBytes.toNat / 2 ^ sectorShift * 2 ^ sectorShift) hclusterLt
    (show options.sector blockSize < 2 ^ 32 by omega)
  apply yields_reject
  intro halign
  rw [Bool.or_eq_false_iff, Bool.not_eq_false', decide_eq_true_iff, decide_eq_false_iff_not,
    not_lt] at halign
  generalize haligned : options.align (deviceBytes.toNat / 2 ^ sectorShift * 2 ^ sectorShift)
    (options.cluster (deviceBytes.toNat / 2 ^ sectorShift * 2 ^ sectorShift))
      (options.sector blockSize) physical = align
    at halign halignLt
  obtain ⟨⟨alignShift, rfl⟩, halignLe⟩ := halign
  have halignShift : sectorShift ≤ alignShift ∧ alignShift < 32 := by
    rw [hsectorShift] at halignLe
    constructor
    · exact (Nat.pow_le_pow_iff_right (a := 2) (by decide)).mp halignLe
    · exact (Nat.pow_lt_pow_iff_right (a := 2) (by decide)).mp halignLt
  have halignSectors : 2 ^ alignShift / 2 ^ sectorShift = 2 ^ (alignShift - sectorShift) :=
    Nat.pow_div halignShift.1 (by decide)
  have halignBound : 0 < 2 ^ (alignShift - sectorShift) ∧
    2 ^ (alignShift - sectorShift) ≤ 2 ^ 23 :=
    ⟨Nat.two_pow_pos _, Nat.pow_le_pow_right (by decide) (by omega)⟩
  rw [shr_of_lt (by omega), pure_bind, sub_of_le hclusterLe.1, pure_bind, halignSectors,
    nextMultipleOf_of_le halignBound.1 (by omega), pure_bind]
  have hbounded : Space.Bounded ⟨options.sector blockSize, clusterShift - sectorShift,
    2 ^ (alignShift - sectorShift),
      options.fatCount.toNat, deviceBytes.toNat / 2 ^ sectorShift⟩ :=
    ⟨hsectorLe, by simp only; omega, halignBound, by simp only; omega,
      Nat.lt_of_le_of_lt (Nat.div_le_self _ _) hdevice⟩
  obtain ⟨space, hspace⟩ : ∃ space : Space,
      space = ⟨options.sector blockSize, clusterShift - sectorShift,
        2 ^ (alignShift - sectorShift), options.fatCount.toNat,
        deviceBytes.toNat / 2 ^ sectorShift⟩ := ⟨_, rfl⟩
  rw [← hspace] at hbounded ⊢
  have hoffset : nextMultiple 24 (2 ^ (alignShift - sectorShift)) =
    space.fatOffset := by rw [hspace, Space.fatOffset]
  have hmost : deviceBytes.toNat / 2 ^ sectorShift / 2 ^ (clusterShift - sectorShift) =
      space.volumeSectors / 2 ^ space.perCluster := by rw [hspace]
  rw [hoffset, shr_of_lt (by omega), pure_bind, hmost]
  obtain ⟨count, hrun, hcount, hgreatest⟩ := Space.search_eq hbounded rfl
  dsimp only
  rw [hrun, pure_bind, Space.layoutFor_eq hbounded hcount, pure_bind]
  have hfatOffset := Space.fatOffset_lt hbounded
  have hfatLength := Space.fatLength_lt hbounded hcount
  have hheap := Space.heapOffset_lt hbounded hcount
  have hcountLt : count < 2 ^ 32 := by
    rw [maxClusterCount] at hcount
    omega
  apply yields_reject
  intro _
  apply yields_reject
  intro _
  apply yields_reject
  intro _
  have hsize : 512 ≤ options.cluster (deviceBytes.toNat / 2 ^ sectorShift * 2 ^ sectorShift) :=
    hsectorLe.1.trans hcluster.1
  generalize hclusterSize : options.cluster
    (deviceBytes.toNat / 2 ^ sectorShift * 2 ^ sectorShift) = cluster at *
  have hbitmapLen : (count + 8 - 1) / 8 < 2 ^ 29 + 1 := by omega
  have hbitmap : ((count + 8 - 1) / 8 + cluster - 1) / cluster < 2 ^ 21 := by
    rw [Nat.div_lt_iff_lt_mul (by omega)]
    omega
  have hupcase : (recommendedUpcaseLen + cluster - 1) / cluster < 2 ^ 4 := by
    rw [Nat.div_lt_iff_lt_mul (by omega), recommendedUpcaseLen]
    omega
  have hbitmapDiv := Nat.div_le_self ((count + 8 - 1) / 8) cluster
  have hupcaseDiv := Nat.div_le_self recommendedUpcaseLen cluster
  rw [recommendedUpcaseLen] at hupcaseDiv hupcase
  have hbitmaps : ((count + 8 - 1) / 8 + cluster - 1) / cluster * options.fatCount.toNat ≤
    2 ^ 21 * 2 :=
    Nat.mul_le_mul hbitmap.le (by omega)
  rw [cast_of_lt hcountLt, divCeil_of_lt (by decide) (by omega), pure_bind,
    divCeil_of_lt (by omega) (by omega), pure_bind,
    cast_of_lt (by omega), recommendedUpcaseLen, divCeil_of_lt (by omega) (by omega), pure_bind,
      cast_of_lt (by omega),
    mul_of_lt (by omega), pure_bind, add_of_lt (by omega), pure_bind,
    add_of_lt (by omega), pure_bind]
  apply yields_reject
  intro hroom
  rw [decide_eq_false_iff_not, not_lt] at hroom
  apply yields_pure
  have hlargest := hgreatest (Nat.ne_of_gt (Nat.lt_of_lt_of_le (Nat.succ_pos _) hroom))
  have hfit := (Space.fits_iff hbounded).mp hlargest.1.2
  have hspaceAlign : space.align = 2 ^ (alignShift - sectorShift) := congrArg Space.align hspace
  have hspaceSector : space.sector = 2 ^ sectorShift :=
    (congrArg Space.sector hspace).trans hsectorShift
  have hmultiple (n : Nat) (hn : space.align ∣ n) : 2 ^ alignShift ∣ n * 2 ^ sectorShift := by
    rw [← Nat.sub_add_cancel halignShift.1, Nat.pow_add, ← hspaceAlign]
    exact Nat.mul_dvd_mul_right hn _
  have hsize {n k m : Nat} (hm : 0 < m) (h : (n + m - 1) / m = k) : n ≤ k * m :=
    (Format.divCeil_le_iff hm).mp h.le
  have hheapFit : space.heapOffset count + count * 2 ^ (clusterShift - sectorShift) ≤
      deviceBytes.toNat / 2 ^ sectorShift := by
    rw [hspace] at hfit ⊢
    exact hfit
  have hfatsEnd : space.fatOffset + space.fatLength count * options.fatCount.toNat ≤
      space.heapOffset count := by
    have hle := le_nextMultiple (space.fatOffset + space.fatLength count * space.fats) space.align
    rw [hspace] at hle ⊢
    exact hle
  have hlength := Space.le_fatLength hbounded count
  have hask : options.align (deviceBytes.toNat / 2 ^ sectorShift * 2 ^ sectorShift)
      (2 ^ clusterShift) (2 ^ sectorShift) physical =
        2 ^ alignShift := by
    rw [← hclusterShift]
    nth_rewrite 3 [← hsectorShift]
    exact haligned
  constructor
  case sector => exact hsectorShift.symm
  case sectorShift => exact hshift
  case cluster => exact (hclusterSize.trans hclusterShift).symm
  case clusterShift => exact hclusterLe
  case volume => rfl
  case minVolume => exact hmin
  case fats => exact ⟨rfl, hfats'⟩
  case bootRegions => exact le_nextMultiple 24 space.align
  case fatsEnd => exact hfatsEnd
  case heapEnd => exact hheapFit
  case room => exact hroom
  case widths => exact ⟨by simp only; omega, by simp only; omega, by simp only; omega⟩
  case align =>
    simp only [Layout.sector, Layout.cluster]
    rw [hask]
    constructor
    · exact hmultiple _ (dvd_nextMultiple hbounded.align.1)
    · exact hmultiple _ (dvd_nextMultiple hbounded.align.1)
  case largest =>
    simp only [Layout.sector, Layout.cluster]
    rw [hask, halignSectors]
    nth_rewrite 1 [← hsectorShift]
    rw [← hspace]
    exact hlargest
  case fatLength =>
    rw [hspaceSector] at hlength
    exact hlength
  case bitmaps =>
    simp only [Layout.cluster]
    rw [← hclusterShift]
    exact hsize (by omega) rfl
  case upcase =>
    simp only [Layout.cluster]
    rw [← hclusterShift, recommendedUpcaseLen]
    exact hsize (by omega) rfl

def jumpBoot : List UInt8 := [0xEB, 0x76, 0x90]

def fileSystemRevision : Nat := 0x0100

def encodeBoot (layout : Layout) (partitionOffset : UInt64) (serial : UInt32)
    (root perCluster percent : Nat) : List UInt8 :=
  jumpBoot ++ (fileSystemName ++ (Format.zeros 53 ++
    (u32Bytes partitionOffset.toNat ++ (u32Bytes (partitionOffset.toNat / 4294967296) ++
    (u32Bytes layout.volumeSectors ++ (u32Bytes (layout.volumeSectors / 4294967296) ++
    (u32Bytes layout.fatOffset ++ (u32Bytes layout.fatLength ++ (u32Bytes layout.heapOffset ++
    (u32Bytes layout.clusterCount ++
      (u32Bytes root ++ (u32Bytes serial.toNat ++ (u16Bytes fileSystemRevision ++ (u16Bytes 0 ++
    ([u8 layout.sectorShift, u8 perCluster, u8 layout.fats, 0x80, u8 percent] ++
      (Format.zeros 7 ++
    (List.replicate 390 0xF4 ++ u16Bytes bootSignature)))))))))))))))))

def bootSector (layout : Layout) (partitionOffset : UInt64) (serial : UInt32) :
    Checked ErrorKind (List UInt8) := do
  let root ← layout.root
  let perCluster ← sub layout.clusterShift layout.sectorShift
  let used ← layout.used
  let hundredfold ← mul 64 used 100
  let percent ← div hundredfold layout.clusterCount
  pure (encodeBoot layout partitionOffset serial root perCluster (cast 8 percent))

theorem encodeBoot_length (layout : Layout) (partitionOffset : UInt64) (serial : UInt32)
    (root perCluster percent : Nat) :
    (encodeBoot layout partitionOffset serial root perCluster percent).length = 512 := by
  simp [encodeBoot, jumpBoot, fileSystemName, -List.reduceReplicate]

theorem read_encodeBoot (layout : Layout) (partitionOffset : UInt64) (serial : UInt32)
    (root perCluster percent : Nat) :
    RawBoot.read (encodeBoot layout partitionOffset serial root perCluster percent) = {
      fileSystemName := fileSystemName
      mustBeZero := Format.zeros 53
      volumeLength := layout.volumeSectors % 2 ^ 64
      fatOffset := layout.fatOffset % 2 ^ 32
      fatLength := layout.fatLength % 2 ^ 32
      clusterHeapOffset := layout.heapOffset % 2 ^ 32
      clusterCount := layout.clusterCount % 2 ^ 32
      firstClusterOfRootDirectory := root % 2 ^ 32
      volumeSerialNumber := serial.toNat
      fileSystemRevision := fileSystemRevision
      volumeFlags := 0
      bytesPerSectorShift := layout.sectorShift % 256
      sectorsPerClusterShift := perCluster % 256
      numberOfFats := layout.fats % 256
      percentInUse := percent % 256
      bootSignature := bootSignature } := by
  have hserial := serial.toNat_lt
  simp only [RawBoot.read, u16At, u32At, RawBoot.mk.injEq]
  refine ⟨rfl, rfl, ?_, ?_, ?_, ?_, ?_, ?_, ?_, ?_, ?_, ?_, ?_, ?_, ?_, ?_⟩ <;>
  · simp [encodeBoot, jumpBoot, fileSystemName, fileSystemRevision, bootSignature,
      byteAt_append, u16Bytes, u32Bytes, -List.reduceReplicate]
    try omega

def Layout.geometry (layout : Layout) (serial : UInt32) : Geometry where
  sectorShift := layout.sectorShift
  clusterShift := layout.clusterShift
  volumeLen := layout.volumeSectors * layout.sector
  fatStart := layout.fatOffset * layout.sector
  mirrorFat := if layout.fats = 2
    then some ((layout.fatOffset + layout.fatLength) * layout.sector) else none
  active := 0
  heapStart := layout.heapOffset * layout.sector
  clusterCount := layout.clusterCount
  root := firstCluster + layout.bitmapClusters * layout.fats + layout.upcaseClusters
  serial := serial.toNat
  flags := 0
  percentInUse := (layout.bitmapClusters * layout.fats + layout.upcaseClusters + 1) *
    100 / layout.clusterCount

def Layout.encode (layout : Layout) (partitionOffset : UInt64) (serial : UInt32) : List UInt8 :=
  encodeBoot layout partitionOffset serial (layout.geometry serial).root
    (layout.clusterShift - layout.sectorShift)
    (layout.geometry serial).percentInUse

namespace Layout.Planned

variable {deviceBytes : UInt64} {blockSize physical : UInt32}
  {options : Options} {layout : Layout}
variable (h : layout.Planned deviceBytes blockSize physical options)

include h

theorem clusterCount_lt : layout.clusterCount < 2 ^ 32 :=
  Nat.lt_of_le_of_lt h.largest.1.1 (by decide)

theorem used_eq :
    layout.used = pure (layout.bitmapClusters * layout.fats + layout.upcaseClusters + 1) := by
  have hcount := clusterCount_lt h
  have hroom := h.room
  rw [Layout.used, mul_of_lt (by omega), pure_bind, add_of_lt (by omega), pure_bind,
    add_of_lt (by omega)]

theorem root_eq : layout.root =
    pure (firstCluster + layout.bitmapClusters * layout.fats + layout.upcaseClusters) := by
  have hcount := clusterCount_lt h
  have hroom := h.room
  rw [Layout.root, Layout.upcaseFirst, Layout.bitmapFirst, mul_of_lt (by omega), pure_bind,
    firstCluster, add_of_lt (by omega), pure_bind, add_of_lt (by omega)]

theorem volumeSectors_le : layout.volumeSectors * layout.sector < 2 ^ 64 ∧
    layout.volumeSectors < 2 ^ 64 := by
  have hdevice := deviceBytes.toNat_lt
  rw [h.volume]
  constructor
  · exact Nat.lt_of_le_of_lt (Nat.div_mul_le_self _ _) hdevice
  · exact Nat.lt_of_le_of_lt (Nat.div_le_self _ _) hdevice

theorem percent_lt : (layout.bitmapClusters * layout.fats + layout.upcaseClusters + 1) * 100 /
    layout.clusterCount < 100 := by
  have hroom := h.room
  rw [Nat.div_lt_iff_lt_mul (by omega)]
  omega

theorem read_boot (partitionOffset : UInt64) (serial : UInt32) :
    RawBoot.read (layout.encode partitionOffset serial) = {
        fileSystemName := fileSystemName
        mustBeZero := Format.zeros 53
        volumeLength := layout.volumeSectors
        fatOffset := layout.fatOffset
        fatLength := layout.fatLength
        clusterHeapOffset := layout.heapOffset
        clusterCount := layout.clusterCount
        firstClusterOfRootDirectory := (layout.geometry serial).root
        volumeSerialNumber := serial.toNat
        fileSystemRevision := fileSystemRevision
        volumeFlags := 0
        bytesPerSectorShift := layout.sectorShift
        sectorsPerClusterShift := layout.clusterShift - layout.sectorShift
        numberOfFats := layout.fats
        percentInUse := (layout.geometry serial).percentInUse
        bootSignature := bootSignature } := by
  have hcount := clusterCount_lt h
  have hroom := h.room
  have hsector := h.sectorShift
  have hcluster := h.clusterShift
  have hfats := h.fats.2
  have hwidths := h.widths
  have hvolume := (volumeSectors_le h).2
  have hpercent := percent_lt h
  have hroot : (layout.geometry serial).root < 2 ^ 32 := by
    simp only [Layout.geometry, firstCluster]
    omega
  rw [Layout.encode, read_encodeBoot, RawBoot.mk.injEq]
  refine ⟨rfl, rfl, ?_, ?_, ?_, ?_, ?_, ?_, rfl, rfl, rfl, ?_, ?_, ?_, ?_, rfl⟩
  · exact Nat.mod_eq_of_lt hvolume
  · exact Nat.mod_eq_of_lt hwidths.1
  · exact Nat.mod_eq_of_lt hwidths.2.1
  · exact Nat.mod_eq_of_lt hwidths.2.2
  · exact Nat.mod_eq_of_lt hcount
  · exact Nat.mod_eq_of_lt hroot
  · exact Nat.mod_eq_of_lt (by omega)
  · exact Nat.mod_eq_of_lt (by omega)
  · exact Nat.mod_eq_of_lt (by omega)
  · exact Nat.mod_eq_of_lt (hpercent.trans (by decide))

theorem bootSector_eq (partitionOffset : UInt64) (serial : UInt32) :
    bootSector layout partitionOffset serial = pure (layout.encode partitionOffset serial) := by
  have hcount := clusterCount_lt h
  have hroom := h.room
  have hpercent := percent_lt h
  rw [bootSector, root_eq h, pure_bind, sub_of_le h.clusterShift.1, pure_bind, used_eq h,
    pure_bind, mul_of_lt (by omega), pure_bind,
    div_of_pos (by omega), pure_bind, cast_of_lt (hpercent.trans (by decide))]
  rfl

theorem parseBoot_encode (partitionOffset : UInt64) (serial : UInt32) :
    parseBoot (layout.encode partitionOffset serial) = .ok (layout.geometry serial) := by
  have hroom := h.room
  have hsector := h.sectorShift
  have hcluster := h.clusterShift
  have hmin := h.minVolume
  have hvolume := (volumeSectors_le h).1
  have hheap := h.heapEnd
  have hlength := h.fatLength
  have hmost := h.largest.1.1
  have hclusters : layout.clusterCount ≤ (layout.volumeSectors - layout.heapOffset) / 2 ^
      (layout.clusterShift - layout.sectorShift) := by
    rw [Nat.le_div_iff_mul_le (Nat.two_pow_pos _)]
    omega
  have hsmallest : 2 ^ 20 / 2 ^ layout.sectorShift ≤ layout.volumeSectors :=
    Nat.div_le_of_le_mul (by rw [Nat.mul_comm]; exact hmin)
  have hnone : (RawBoot.read (layout.encode partitionOffset serial)).checks.find? (·.1) =
      none := by
    rw [read_boot h, List.find?_eq_none]
    simp only [RawBoot.checks, List.mem_cons, List.not_mem_nil, or_false, forall_eq_or_imp,
      forall_eq, Bool.not_eq_true,
      Bool.or_eq_false_iff, decide_eq_false_iff_not, Nat.not_lt, Bool.not_eq_false',
        Bool.and_eq_false_iff, bne_eq_false_iff_eq]
    refine ⟨trivial, trivial, rfl, rfl,
      hsector, by omega, h.fats.2, ?_, ?_, hlength, by omega, ?_, ?_⟩
    · exact ⟨hsmallest, Nat.not_le.mpr hvolume⟩
    · exact ⟨h.bootRegions, h.fatsEnd⟩
    · exact ⟨⟨beq_eq_false_iff_ne.mpr (by omega), hmost⟩, hclusters⟩
    · apply RawBoot.isCluster_iff.mpr
      simp only [RawBoot.geometry, Layout.geometry, firstCluster]
      omega
  simp only [parseBoot, hnone]
  rw [read_boot h, RawBoot.geometry, Layout.geometry, Except.ok.injEq, Geometry.mk.injEq]
  refine ⟨rfl, Nat.add_sub_of_le hcluster.1, rfl, ?_, ?_, ?_, rfl, rfl, rfl, rfl, rfl, rfl⟩
  · simp [RawBoot.fatAt, RawBoot.active, Layout.sector]
  · simp [RawBoot.fatAt, RawBoot.active, Layout.sector]
  · simp [RawBoot.active]

end Layout.Planned

end Exfat

/-- Whatever is asked for, formatting refuses it, or lays out as many clusters as fit and
writes a boot sector that reads back as that layout. -/
theorem mkfs_plan_accepted (deviceBytes : UInt64) (blockSize physical : UInt32)
    (options : Exfat.Options) (partitionOffset : UInt64) (serial : UInt32) :
    (Exfat.plan deviceBytes blockSize physical options).Yields fun layout =>
      layout.Planned deviceBytes blockSize physical options ∧
      ∃ sector, Exfat.bootSector layout partitionOffset serial = pure sector ∧
      sector.length = 512 ∧
        Exfat.Machine.parseBoot sector = Checked.lift (.ok (layout.geometry serial)) ∧
        (Exfat.RawBoot.read sector).Sound (layout.geometry serial) := by
  obtain ⟨result, hrun, hplanned⟩ := Exfat.plan_yields deviceBytes blockSize physical options
  refine ⟨result, hrun, ?_⟩
  intro layout hlayout
  have hplan := hplanned layout hlayout
  have hparse := hplan.parseBoot_encode partitionOffset serial
  refine ⟨hplan, layout.encode partitionOffset serial, hplan.bootSector_eq partitionOffset serial,
    ?_, ?_, ?_⟩
  · exact Exfat.encodeBoot_length layout partitionOffset serial _ _ _
  · rw [Exfat.Machine.parseBoot_eq, hparse]
  · exact Exfat.parseBoot_sound hparse

/-- On a device of one mebibyte, 252 clusters are laid out. -/
example : Exfat.plan 0x100000 512 512 Exfat.Options.new = pure {
    sectorShift := 9
    clusterShift := 12
    volumeSectors := 2048
    fatOffset := 24
    fatLength := 2
    heapOffset := 32
    clusterCount := 252
    fats := 1
    bitmapClusters := 1
    upcaseClusters := 2 } := rfl

end Hadris
