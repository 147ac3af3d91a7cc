import Hadris.Bytes
import Hadris.Geometry
import Mathlib.Order.MinMax

namespace Hadris.Format

def mib : Nat := 1024 * 1024

def maxClusterBytes : Nat := 32 * 1024

def maxClusterSectors : Nat := 128

def autoFat12Below : Nat := 16 * mib

def autoFat32From : Nat := 512 * mib

/-- Why no layout fits. -/
inductive LayoutError where
  | tooSmall
  | tooLarge
  | invalid (option : String)
deriving DecidableEq, Repr

/-- What the caller asks for. -/
structure Request where
  kind : Option FatKind
  sectorSize : UInt32
  totalSectors : UInt64
  clusterSize : Option UInt32
  reservedSectors : Option UInt16
  fatCount : UInt8
  rootEntries : UInt16

/-- A volume of `totalSectors` sectors of `sectorSize` bytes, with two FATs
and 512 root entries on FAT12/16. -/
def Request.new (sectorSize : UInt32) (totalSectors : UInt64) : Request where
  kind := none
  sectorSize := sectorSize
  totalSectors := totalSectors
  clusterSize := none
  reservedSectors := none
  fatCount := 2
  rootEntries := 512

/-- A volume layout in sectors. -/
structure Layout where
  kind : FatKind
  sectorSize : Nat
  clusterSectors : Nat
  reservedSectors : Nat
  fatCount : Nat
  rootEntries : Nat
  totalSectors : Nat
  fatSectors : Nat
  clusters : Nat
deriving DecidableEq, Repr

namespace Layout

variable (layout : Layout)

def rootSectors : Nat := divCeil (layout.rootEntries * 32) layout.sectorSize

def fatStart : Nat := layout.reservedSectors * layout.sectorSize

def rootStart : Nat :=
  layout.fatStart + layout.fatCount * layout.fatSectors * layout.sectorSize

def dataStart : Nat := layout.rootStart + layout.rootSectors * layout.sectorSize

def clusterSize : Nat := layout.clusterSectors * layout.sectorSize

end Layout

def clusterRange : FatKind → Nat × Nat
  | .fat12 => (1, fat12MaxClusters)
  | .fat16 => (fat12MaxClusters + 1, fat16MaxClusters)
  | .fat32 => (fat16MaxClusters + 1, fat32MaxClusters)

def defaultClusterTable : FatKind → List (Nat × Nat)
  | .fat12 => [(2, 1), (4, 2), (8, 4), (16, 8)]
  | .fat16 => [(8, 1), (16, 2), (32, 4), (64, 8), (128, 16), (256, 32), (512, 64)]
  | .fat32 => [(64, 1), (128, 2), (256, 4), (9 * 1024 - 1, 8), (17 * 1024 - 1, 16),
      (33 * 1024 - 1, 32)]

def lastClusterSectors : FatKind → Nat
  | .fat12 => 16
  | .fat16 => 128
  | .fat32 => 64

def defaultClusterSectors (kind : FatKind) (bytes : Nat) : Nat :=
  ((defaultClusterTable kind).find? fun row => bytes / mib ≤ row.1).elim
    (lastClusterSectors kind) Prod.snd

def fatBytes (kind : FatKind) (clusters : Nat) : Nat :=
  match kind with
  | .fat12 => divCeil ((clusters + 2) * 3) 2
  | .fat16 => (clusters + 2) * 2
  | .fat32 => (clusters + 2) * 4

section

variable (kind : FatKind) (available clusterSectors fatCount sectorSize : Nat)

def clustersBeside (fat : Nat) : Nat := (available - fatCount * fat) / clusterSectors

def neededFat (fat : Nat) : Nat :=
  divCeil (fatBytes kind (clustersBeside available clusterSectors fatCount fat)) sectorSize

theorem divCeil_mono {a b : Nat} (h : a ≤ b) (n : Nat) : divCeil a n ≤ divCeil b n :=
  Nat.div_le_div_right (by omega)

theorem fatBytes_mono {a b : Nat} (h : a ≤ b) : fatBytes kind a ≤ fatBytes kind b := by
  cases kind with
  | fat12 => exact divCeil_mono (by omega) 2
  | fat16 => exact Nat.mul_le_mul_right 2 (by omega)
  | fat32 => exact Nat.mul_le_mul_right 4 (by omega)

theorem neededFat_anti {a b : Nat} (h : a ≤ b) :
    neededFat kind available clusterSectors fatCount sectorSize b ≤
      neededFat kind available clusterSectors fatCount sectorSize a := by
  have hmul := Nat.mul_le_mul_left fatCount h
  exact divCeil_mono (fatBytes_mono kind (Nat.div_le_div_right (by omega))) _

/-- Tries FATs of `fat` sectors, and the FAT the clusters beside them need
where that is too small. -/
def fatSectorsFrom (fat : Nat) : Option (Nat × Nat) :=
  let needed := neededFat kind available clusterSectors fatCount sectorSize fat
  if needed ≤ fat then
    some (fat, clustersBeside available clusterSectors fatCount fat)
  else if 2 ^ 32 ≤ needed then none
  else if 2 ^ 32 ≤ needed * fatCount then none
  else if available < needed * fatCount then none
  else fatSectorsFrom needed
termination_by neededFat kind available clusterSectors fatCount sectorSize fat - fat
decreasing_by
  have hanti := neededFat_anti kind available clusterSectors fatCount sectorSize
    (Nat.le_of_lt (not_le.mp ‹¬ needed ≤ fat›))
  simp only [needed] at *
  omega

/-- Sectors per FAT and cluster count when `available` sectors hold the FATs
and the data region. -/
def fatSectors : Option (Nat × Nat) :=
  fatSectorsFrom kind available clusterSectors fatCount sectorSize 1

/-- The FAT and the clusters for clusters of `clusterSectors`, where the variant
allows that many. -/
def fits : Except LayoutError (Nat × Nat) :=
  match fatSectors kind available clusterSectors fatCount sectorSize with
  | none => .error .tooSmall
  | some (fat, clusters) =>
    if clusters < (clusterRange kind).1 then .error .tooSmall
    else if (clusterRange kind).2 < clusters then .error .tooLarge
    else .ok (fat, clusters)

end

/-- Doubles or halves the sectors of a cluster until they fit. `grew` tells
which of the two was done, and one is never followed by the other. -/
def chooseClusterSectors (fits : Nat → Except LayoutError (Nat × Nat)) (maxSectors : Nat)
    (grew : Option Bool) (sectors : Nat) (h : 0 < sectors) :
    Except LayoutError (Nat × Nat × Nat) :=
  match fits sectors with
  | .ok found => .ok (sectors, found)
  | .error .tooLarge =>
    if hgrow : sectors < maxSectors ∧ grew ≠ some false then
      chooseClusterSectors fits maxSectors (some true) (sectors * 2) (by omega)
    else .error .tooLarge
  | .error .tooSmall =>
    if hshrink : 1 < sectors ∧ grew ≠ some true then
      chooseClusterSectors fits maxSectors (some false) (sectors / 2) (by omega)
    else .error .tooSmall
  | .error (.invalid option) => .error (.invalid option)
termination_by (if grew = none then 1 else 0, if grew = some false then sectors else
  maxSectors - sectors)
decreasing_by
  · rcases hgrow with ⟨hlt, hgrew⟩
    rcases grew with _ | _ | _
    · exact Prod.Lex.left _ _ (by simp)
    · exact absurd rfl hgrew
    · refine Prod.Lex.right _ ?_
      simp only [Option.some.injEq, Bool.true_eq_false, if_false]
      omega
  · rcases hshrink with ⟨hlt, hgrew⟩
    rcases grew with _ | _ | _
    · exact Prod.Lex.left _ _ (by simp)
    · refine Prod.Lex.right _ ?_
      simp only [if_true]
      omega
    · exact absurd rfl hgrew

def autoKind (bytes : Nat) : FatKind :=
  if bytes < autoFat12Below then .fat12 else if bytes < autoFat32From then .fat16 else .fat32

def planReserved (kind : FatKind) (reserved : Option UInt16) : Except LayoutError Nat :=
  match kind, reserved with
  | .fat32, some reserved =>
    if reserved.toNat < 8 then .error (.invalid "reserved sectors") else .ok reserved.toNat
  | _, some reserved =>
    if reserved = 0 then .error (.invalid "reserved sectors") else .ok reserved.toNat
  | .fat32, none => .ok 32
  | _, none => .ok 1

def planRootEntries (kind : FatKind) (sectorSize : Nat) (rootEntries : UInt16) :
    Except LayoutError Nat :=
  if kind = .fat32 then .ok 0
  else if rootEntries = 0 then .error (.invalid "root entries")
  else
    let perSector := sectorSize / 32
    let entries := divCeil rootEntries.toNat perSector * perSector
    if 2 ^ 16 ≤ entries then .error (.invalid "root entries") else .ok entries

def planAvailable (totalSectors metadata : Nat) : Except LayoutError Nat :=
  if metadata < totalSectors then .ok (totalSectors - metadata) else .error .tooSmall

def planClusterSize (fits : Nat → Except LayoutError (Nat × Nat))
    (maxSectors sectorSize size : Nat) :
    Except LayoutError (Nat × Nat × Nat) := do
  ensure (size.isPowerOfTwo && size % sectorSize == 0 && size / sectorSize ≤ maxSectors)
    (.invalid "cluster size")
  let sectors := size / sectorSize
  let found ← fits sectors
  .ok (sectors, found)

/-- The sectors of a cluster, of `size` bytes or as `chooseClusterSectors`
finds them from `target` bytes, and what fits. -/
def planClusters (fits : Nat → Except LayoutError (Nat × Nat))
    (maxSectors sectorSize target : Nat)
    (size : Option UInt32) : Except LayoutError (Nat × Nat × Nat) :=
  match size with
  | some size => planClusterSize fits maxSectors sectorSize size.toNat
  | none =>
    chooseClusterSectors fits maxSectors none (max 1 (min (target / sectorSize) maxSectors))
      (by omega)

/-- Chooses the variant and the cluster size, where they are not given, so the
cluster count fits the variant. -/
def plan (request : Request) : Except LayoutError Layout := do
  let sectorSize := request.sectorSize.toNat
  let fatCount := request.fatCount.toNat
  ensure ([512, 1024, 2048, 4096].contains sectorSize) (.invalid "sector size")
  ensure ([1, 2].contains fatCount) (.invalid "FAT count")
  let totalSectors := request.totalSectors.toNat
  ensure (totalSectors < 2 ^ 32) .tooLarge
  let bytes := totalSectors * sectorSize
  let kind := request.kind.getD (autoKind bytes)
  let reservedSectors ← planReserved kind request.reservedSectors
  let rootEntries ← planRootEntries kind sectorSize request.rootEntries
  let rootSectors := divCeil (rootEntries * 32) sectorSize
  let available ← planAvailable totalSectors (reservedSectors + rootSectors)
  let maxSectors := min maxClusterSectors (maxClusterBytes / sectorSize)
  let fits := fun clusterSectors => fits kind available clusterSectors fatCount sectorSize
  let target := defaultClusterSectors kind bytes * 512
  let (clusterSectors, fatSectors, clusters) ←
    planClusters fits maxSectors sectorSize target request.clusterSize
  .ok { kind, sectorSize, clusterSectors, reservedSectors, fatCount, rootEntries, totalSectors,
        fatSectors, clusters }

end Hadris.Format

namespace Hadris.Format

/-- What `plan` promises of a layout. -/
structure Layout.Planned (layout : Layout) : Prop where
  sectorSize : layout.sectorSize ∈ [512, 1024, 2048, 4096]
  clusterSectors : ∃ k ≤ 7, layout.clusterSectors = 2 ^ k
  clusterSize : layout.clusterSize ≤ maxClusterBytes
  reserved : 0 < layout.reservedSectors ∧ layout.reservedSectors < 2 ^ 16
  reserved32 : layout.kind = .fat32 → 8 ≤ layout.reservedSectors
  fatCount : layout.fatCount = 1 ∨ layout.fatCount = 2
  rootEntries : if layout.kind = .fat32 then layout.rootEntries = 0
    else 0 < layout.rootEntries ∧ layout.rootEntries < 2 ^ 16
  totalSectors : layout.totalSectors < 2 ^ 32
  metadata : layout.reservedSectors + layout.rootSectors < layout.totalSectors
  clusters : layout.clusters = (layout.totalSectors - (layout.reservedSectors +
    layout.fatCount * layout.fatSectors + layout.rootSectors)) / layout.clusterSectors
  clusterRange : (clusterRange layout.kind).1 ≤ layout.clusters ∧
    layout.clusters ≤ (clusterRange layout.kind).2
  fatBytes : fatBytes layout.kind layout.clusters ≤ layout.fatSectors * layout.sectorSize
  fatSectors : layout.fatSectors < 2 ^ 32
  fatSectors16 : layout.kind ≠ .fat32 → layout.fatSectors < 2 ^ 16

section

variable {kind : FatKind} {available clusterSectors fatCount sectorSize fat clusters : Nat}

theorem fatSectors_ok
    (h : fatSectors kind available clusterSectors fatCount sectorSize = some (fat, clusters)) :
    clusters = clustersBeside available clusterSectors fatCount fat ∧
      neededFat kind available clusterSectors fatCount sectorSize fat ≤ fat ∧ fat < 2 ^ 32 ∧
      (fat = 1 ∨ fat = neededFat kind available clusterSectors fatCount sectorSize 1) := by
  rw [fatSectors, fatSectorsFrom] at h
  split at h
  · rename_i hfirst
    cases h
    exact ⟨rfl, hfirst, by decide, .inl rfl⟩
  rename_i hneeded
  split at h
  · cases h
  rename_i hlt
  split at h
  · cases h
  split at h
  · cases h
  have hanti := neededFat_anti kind available clusterSectors fatCount sectorSize
    (Nat.le_of_lt (not_le.mp hneeded))
  rw [fatSectorsFrom] at h
  simp only [if_pos hanti] at h
  cases h
  exact ⟨rfl, hanti, not_le.mp hlt, .inr rfl⟩

theorem divCeil_le_iff {a b n : Nat} (hn : 0 < n) : divCeil a n ≤ b ↔ a ≤ b * n := by
  rw [divCeil, ← Nat.lt_succ_iff, Nat.div_lt_iff_lt_mul hn, Nat.succ_mul]
  omega

theorem fatBytes_le (hkind : kind ≠ .fat32) (clusters : Nat) :
    fatBytes kind clusters ≤ 2 * (clusters + 2) := by
  cases kind with
  | fat12 =>
    simp only [fatBytes, divCeil]
    omega
  | fat16 => exact (Nat.mul_comm _ _).le
  | fat32 => exact absurd rfl hkind

theorem fatSectors_lt (hkind : kind ≠ .fat32) (hcluster : 0 < clusterSectors)
    (hcount : 1 ≤ fatCount ∧ fatCount ≤ 2) (hsector : 512 ≤ sectorSize)
    (hmax : clusters ≤ fat16MaxClusters)
    (h : fatSectors kind available clusterSectors fatCount sectorSize = some (fat, clusters)) :
    fat < 2 ^ 16 := by
  obtain ⟨hclusters, -, -, rfl | hfat⟩ := fatSectors_ok h
  · decide
  by_contra hlarge
  have hlarge' : 2 ^ 16 ≤ fat := not_lt.mp hlarge
  have hfirst : clustersBeside available clusterSectors fatCount 1 * clusterSectors ≤
      available - fatCount * 1 := Nat.div_mul_le_self _ _
  have hsecond : available - fatCount * fat < (clusters + 1) * clusterSectors := by
    rw [← Nat.div_lt_iff_lt_mul hcluster, hclusters]
    exact Nat.lt_succ_self _
  have hbytes := fatBytes_le hkind (clustersBeside available clusterSectors fatCount 1)
  -- the first FAT tried left `first` clusters, at least 256 for each sector of the second
  generalize hc : clustersBeside available clusterSectors fatCount 1 = first at *
  have hneeded : fat ≤ divCeil (2 * (first + 2)) 512 := by
    rw [hfat, neededFat, hc]
    refine (divCeil_mono hbytes _).trans ?_
    rw [divCeil_le_iff (by omega)]
    exact ((divCeil_le_iff (by decide)).mp le_rfl).trans (Nat.mul_le_mul_left _ hsector)
  simp only [divCeil] at hneeded
  simp only [fat16MaxClusters] at hmax
  have hfats : fatCount * fat ≤ 2 * fat := Nat.mul_le_mul_right _ hcount.2
  have hmul : first * clusterSectors < (clusters + 1) * clusterSectors + 2 * fat := by omega
  have hless : first < clusters + 1 + 2 * fat := by
    by_contra hge
    have hle := Nat.mul_le_mul_right clusterSectors (not_lt.mp hge)
    rw [Nat.add_mul (clusters + 1)] at hle
    have hone := Nat.le_mul_of_pos_right (2 * fat) hcluster
    omega
  omega

theorem fits_ok (h : fits kind available clusterSectors fatCount sectorSize =
      .ok (fat, clusters)) :
    fatSectors kind available clusterSectors fatCount sectorSize = some (fat, clusters) ∧
      (clusterRange kind).1 ≤ clusters ∧ clusters ≤ (clusterRange kind).2 := by
  rw [fits] at h
  split at h
  · cases h
  rename_i hfat
  split at h
  · cases h
  rename_i hmin
  split at h
  · cases h
  rename_i hmax
  cases h
  exact ⟨hfat, not_lt.mp hmin, not_lt.mp hmax⟩

end

theorem defaultClusterSectors_two_pow (kind : FatKind) (bytes : Nat) :
    ∃ k, defaultClusterSectors kind bytes = 2 ^ k := by
  have htable : ∀ row ∈ defaultClusterTable kind, ∃ k, row.2 = 2 ^ k := by
    have hall : ∀ row ∈ defaultClusterTable kind, ∃ k ≤ 7, row.2 = 2 ^ k := by
      cases kind <;> decide
    exact fun row hrow => (hall row hrow).imp fun _ hk => hk.2
  have hlast : ∃ k, lastClusterSectors kind = 2 ^ k := by
    have hall : ∃ k ≤ 7, lastClusterSectors kind = 2 ^ k := by
      cases kind <;> decide
    exact hall.imp fun _ hk => hk.2
  rw [defaultClusterSectors]
  cases hfind : (defaultClusterTable kind).find? fun row => bytes / mib ≤ row.1 with
  | none => exact hlast
  | some row => exact htable row (List.mem_of_find?_eq_some hfind)

theorem chooseClusterSectors_ok {fits : Nat → Except LayoutError (Nat × Nat)} {m : Nat}
    {grew : Option Bool} {sectors : Nat} {h : 0 < sectors} {found : Nat × Nat × Nat}
    (hpow : ∃ k, sectors = 2 ^ k) (hle : sectors ≤ 2 ^ m)
    (hfound : chooseClusterSectors fits (2 ^ m) grew sectors h = .ok found) :
    fits found.1 = .ok found.2 ∧ (∃ k, found.1 = 2 ^ k) ∧ found.1 ≤ 2 ^ m := by
  induction grew, sectors, h using chooseClusterSectors.induct fits (2 ^ m) with
  | case1 grew sectors h pair hfits =>
    rw [chooseClusterSectors, hfits] at hfound
    cases hfound
    exact ⟨hfits, hpow, hle⟩
  | case2 grew sectors h hfits hgrow ih =>
    rw [chooseClusterSectors, hfits] at hfound
    simp only [dif_pos hgrow] at hfound
    obtain ⟨k, rfl⟩ := hpow
    have hlt : k < m := (Nat.pow_lt_pow_iff_right (by omega)).mp hgrow.1
    refine ih ⟨k + 1, (Nat.pow_succ 2 k).symm⟩ ?_ hfound
    rw [← Nat.pow_succ]
    exact Nat.pow_le_pow_right (by omega) hlt
  | case3 grew sectors h hfits hgrow =>
    rw [chooseClusterSectors, hfits] at hfound
    simp only [dif_neg hgrow] at hfound
    cases hfound
  | case4 grew sectors h hfits hshrink ih =>
    rw [chooseClusterSectors, hfits] at hfound
    simp only [dif_pos hshrink] at hfound
    obtain ⟨k, rfl⟩ := hpow
    obtain _ | k := k
    · exact absurd hshrink.1 (by decide)
    rw [Nat.pow_succ] at hle
    refine ih ⟨k, ?_⟩ (by omega) hfound
    rw [Nat.pow_succ]
    omega
  | case5 grew sectors h hfits hshrink =>
    rw [chooseClusterSectors, hfits] at hfound
    simp only [dif_neg hshrink] at hfound
    cases hfound
  | case6 grew sectors h option hfits =>
    rw [chooseClusterSectors, hfits] at hfound
    cases hfound

theorem planReserved_ok {kind : FatKind} {reserved : Option UInt16} {sectors : Nat}
    (h : planReserved kind reserved = .ok sectors) :
    (0 < sectors ∧ sectors < 2 ^ 16) ∧ (kind = .fat32 → 8 ≤ sectors) := by
  rw [planReserved.eq_def] at h
  split at h
  · rename_i reserved
    split at h
    · cases h
    cases h
    have hlt := reserved.toNat_lt
    omega
  · rename_i reserved hkind
    split at h
    · cases h
    rename_i hzero
    cases h
    have hlt := reserved.toNat_lt
    have hpos : reserved.toNat ≠ 0 := fun hnat => hzero (UInt16.toNat_inj.mp hnat)
    exact ⟨by omega, fun hfat => (hkind hfat).elim⟩
  · cases h
    decide
  · rename_i hkind
    cases h
    exact ⟨by decide, fun hfat => (hkind hfat).elim⟩

theorem planRootEntries_ok {kind : FatKind} {sectorSize entries : Nat} {rootEntries : UInt16}
    (hsector : sectorSize ∈ [512, 1024, 2048, 4096])
    (h : planRootEntries kind sectorSize rootEntries = .ok entries) :
    if kind = .fat32 then entries = 0 else 0 < entries ∧ entries < 2 ^ 16 := by
  rw [planRootEntries] at h
  split at h
  · rename_i hkind
    cases h
    rw [if_pos hkind]
  rename_i hkind
  split at h
  · cases h
  rename_i hzero
  simp only at h
  split at h
  · cases h
  rename_i hlt
  cases h
  rw [if_neg hkind]
  have hpos : rootEntries.toNat ≠ 0 := fun hnat => hzero (UInt16.toNat_inj.mp hnat)
  have hper : 0 < sectorSize / 32 := by
    simp only [List.mem_cons, List.not_mem_nil, or_false] at hsector
    omega
  have hceil := divCeil_mul_ge rootEntries.toNat hper
  exact ⟨by omega, not_le.mp hlt⟩

theorem planAvailable_ok {totalSectors metadata available : Nat}
    (h : planAvailable totalSectors metadata = .ok available) :
    metadata < totalSectors ∧ available = totalSectors - metadata := by
  rw [planAvailable] at h
  split at h
  · rename_i hlt
    exact ⟨hlt, (Except.ok.inj h).symm⟩
  · cases h

/-- The most sectors of a cluster are a power of two, and no cluster of that many
is too large. -/
theorem maxSectors_eq {sectorSize : Nat} (h : sectorSize ∈ [512, 1024, 2048, 4096]) :
    ∃ m ≤ 7, min maxClusterSectors (maxClusterBytes / sectorSize) = 2 ^ m ∧
      2 ^ m * sectorSize = maxClusterBytes := by
  have hall : ∀ size ∈ [512, 1024, 2048, 4096], ∃ m ≤ 7,
      min maxClusterSectors (maxClusterBytes / size) = 2 ^ m ∧
        2 ^ m * size = maxClusterBytes := by
    decide
  exact hall sectorSize h

theorem planClusterSize_ok {fits : Nat → Except LayoutError (Nat × Nat)}
    {maxSectors sectorSize size : Nat} {found : Nat × Nat × Nat}
    (hsector : ∃ j, sectorSize = 2 ^ j)
    (h : planClusterSize fits maxSectors sectorSize size = .ok found) :
    fits found.1 = .ok found.2 ∧ (∃ k, found.1 = 2 ^ k) ∧ found.1 ≤ maxSectors := by
  rw [planClusterSize] at h
  obtain ⟨_, hsize, h⟩ := except_bind_ok.mp h
  obtain ⟨pair, hpair, h⟩ := except_bind_ok.mp h
  cases h
  simp only [ensure_ok, Bool.and_eq_true, decide_eq_true_eq, beq_iff_eq] at hsize
  obtain ⟨⟨⟨n, rfl⟩, hmod⟩, hmax⟩ := hsize
  obtain ⟨j, rfl⟩ := hsector
  have hle : j ≤ n := (Nat.pow_dvd_pow_iff_le_right (by decide)).mp (Nat.dvd_of_mod_eq_zero hmod)
  refine ⟨hpair, ⟨n - j, Nat.pow_div hle (by decide)⟩, hmax⟩

theorem two_pow_div_two_pow (a b : Nat) : ∃ k, max 1 (2 ^ a / 2 ^ b) = 2 ^ k := by
  rcases le_or_gt b a with h | h
  · refine ⟨a - b, ?_⟩
    rw [Nat.pow_div h (by decide)]
    exact max_eq_right (Nat.one_le_two_pow)
  · refine ⟨0, ?_⟩
    rw [Nat.div_eq_of_lt (Nat.pow_lt_pow_right (by decide) h)]
    rfl

theorem start_two_pow (kind : FatKind) (bytes m : Nat) {sectorSize : Nat}
    (hsector : ∃ j, sectorSize = 2 ^ j) :
    (∃ k, max 1 (min (defaultClusterSectors kind bytes * 512 / sectorSize) (2 ^ m)) = 2 ^ k) ∧
      max 1 (min (defaultClusterSectors kind bytes * 512 / sectorSize) (2 ^ m)) ≤ 2 ^ m := by
  obtain ⟨j, rfl⟩ := hsector
  obtain ⟨d, hd⟩ := defaultClusterSectors_two_pow kind bytes
  have hpos : 1 ≤ 2 ^ m := Nat.one_le_two_pow
  refine ⟨?_, max_le hpos (min_le_right _ _)⟩
  rw [max_min_distrib_left, max_eq_right hpos, hd, show 512 = 2 ^ 9 by rfl, ← Nat.pow_add]
  obtain ⟨k, hk⟩ := two_pow_div_two_pow (d + 9) j
  rw [hk]
  rcases le_total (2 ^ k) (2 ^ m) with h | h
  · exact ⟨k, min_eq_left h⟩
  · exact ⟨m, min_eq_right h⟩

theorem sub_sub_swap (total reserved fats root : Nat) :
    total - (reserved + root) - fats = total - (reserved + fats + root) := by
  omega

theorem plan_planned {request : Request} {layout : Layout} (h : plan request = .ok layout) :
    layout.Planned := by
  rw [plan] at h
  obtain ⟨_, hsector, h⟩ := except_bind_ok.mp h
  obtain ⟨_, hcount, h⟩ := except_bind_ok.mp h
  obtain ⟨_, htotal, h⟩ := except_bind_ok.mp h
  obtain ⟨reserved, hreserved, h⟩ := except_bind_ok.mp h
  obtain ⟨entries, hentries, h⟩ := except_bind_ok.mp h
  obtain ⟨available, havailable, h⟩ := except_bind_ok.mp h
  obtain ⟨⟨sectors, fat, clusters⟩, hfound, h⟩ := except_bind_ok.mp h
  generalize hkind : request.kind.getD (autoKind (request.totalSectors.toNat *
    request.sectorSize.toNat)) = kind at *
  cases h
  replace hsector := List.contains_iff_mem.mp (ensure_ok.mp hsector)
  replace hcount := List.contains_iff_mem.mp (ensure_ok.mp hcount)
  replace htotal := of_decide_eq_true (ensure_ok.mp htotal)
  have hcount' : request.fatCount.toNat = 1 ∨ request.fatCount.toNat = 2 := by
    simpa using hcount
  have hlow : 512 ≤ request.sectorSize.toNat := by
    have hall : ∀ size ∈ [512, 1024, 2048, 4096], 512 ≤ size := by decide
    exact hall _ hsector
  have hsize : ∃ j, request.sectorSize.toNat = 2 ^ j := by
    have hall : ∀ size ∈ [512, 1024, 2048, 4096], ∃ j ≤ 12, size = 2 ^ j := by decide
    exact (hall _ hsector).imp fun _ hj => hj.2
  obtain ⟨m, hm, hmax, hbytes⟩ := maxSectors_eq hsector
  obtain ⟨hmetadata, havail⟩ := planAvailable_ok havailable
  have hchosen : fits kind available sectors request.fatCount.toNat request.sectorSize.toNat =
      .ok (fat, clusters) ∧ (∃ k, sectors = 2 ^ k) ∧ sectors ≤ 2 ^ m := by
    rw [planClusters.eq_def] at hfound
    split at hfound
    · rw [hmax] at hfound
      exact planClusterSize_ok hsize hfound
    · simp only [hmax] at hfound
      obtain ⟨hpow, hle⟩ := start_two_pow _ _ m hsize
      exact chooseClusterSectors_ok hpow hle hfound
  obtain ⟨hfits, ⟨k, rfl⟩, hle⟩ := hchosen
  obtain ⟨hfat, hrange⟩ := fits_ok hfits
  obtain ⟨hclusters, hneeded, hfat32, -⟩ := fatSectors_ok hfat
  have hk : k ≤ m := (Nat.pow_le_pow_iff_right (by decide)).mp hle
  exact {
    sectorSize := hsector
    clusterSectors := ⟨k, hk.trans hm, rfl⟩
    clusterSize := by
      rw [← hbytes]
      exact Nat.mul_le_mul_right _ hle
    reserved := (planReserved_ok hreserved).1
    reserved32 := (planReserved_ok hreserved).2
    fatCount := hcount'
    rootEntries := planRootEntries_ok hsector hentries
    totalSectors := htotal
    metadata := hmetadata
    clusters := by
      rw [← sub_sub_swap]
      simp only [hclusters, clustersBeside, havail, Layout.rootSectors]
    clusterRange := hrange
    fatBytes := by
      rw [← divCeil_le_iff (Nat.lt_of_lt_of_le (by decide) hlow)]
      rw [neededFat, ← hclusters] at hneeded
      exact hneeded
    fatSectors := hfat32
    fatSectors16 := fun hkind : kind ≠ .fat32 => by
      refine fatSectors_lt hkind (Nat.two_pow_pos k) (by omega) hlow ?_ hfat
      refine hrange.2.trans ?_
      cases kind with
      | fat12 => decide
      | fat16 => decide
      | fat32 => exact absurd rfl hkind }

end Hadris.Format

namespace Hadris.Format

section

variable (kind : FatKind) (available clusterSectors fatCount sectorSize : Nat)

/-- FATs of `fat` sectors hold an entry for every cluster left beside them. -/
def Covers (fat : Nat) : Prop :=
  fatBytes kind (clustersBeside available clusterSectors fatCount fat) ≤ fat * sectorSize

instance (fat : Nat) : Decidable (Covers kind available clusterSectors fatCount sectorSize fat) :=
  inferInstanceAs (Decidable (_ ≤ _))

/-- The largest FAT that can be asked for: its sectors are a 32-bit number and
the copies fit in the sectors there are. -/
def largestFat : Nat :=
  if fatCount = 0 then 2 ^ 32 - 1 else min (2 ^ 32 - 1) (available / fatCount)

/-- The smallest FAT that covers the clusters left beside it, with their number,
or none where no FAT that can be asked for does. -/
def Smallest : Option (Nat × Nat) → Prop
  | some (fat, clusters) =>
    Covers kind available clusterSectors fatCount sectorSize fat ∧
    (∀ smaller < fat, ¬ Covers kind available clusterSectors fatCount sectorSize smaller) ∧
    clusters = clustersBeside available clusterSectors fatCount fat
  | none => ∀ fat ≤ largestFat available fatCount,
      ¬ Covers kind available clusterSectors fatCount sectorSize fat

variable {kind available clusterSectors fatCount sectorSize}

theorem covers_iff (hsector : 0 < sectorSize) (fat : Nat) :
    Covers kind available clusterSectors fatCount sectorSize fat ↔
      neededFat kind available clusterSectors fatCount sectorSize fat ≤ fat :=
  (divCeil_le_iff hsector).symm

theorem Covers.mono (hsector : 0 < sectorSize) {a b : Nat} (hle : a ≤ b)
    (h : Covers kind available clusterSectors fatCount sectorSize a) :
    Covers kind available clusterSectors fatCount sectorSize b := by
  rw [covers_iff hsector] at h ⊢
  exact ((neededFat_anti kind available clusterSectors fatCount sectorSize hle).trans h).trans hle

theorem smaller_not_covers (hsector : 0 < sectorSize) {fat : Nat}
    (h : ¬ Covers kind available clusterSectors fatCount sectorSize (fat - 1)) :
    ∀ smaller < fat, ¬ Covers kind available clusterSectors fatCount sectorSize smaller :=
  fun _ hlt hcovers => h (hcovers.mono hsector (Nat.le_sub_one_of_lt hlt))

theorem neededFat_pos (hsector : 0 < sectorSize) (fat : Nat) :
    0 < neededFat kind available clusterSectors fatCount sectorSize fat := by
  have hbytes : 0 < fatBytes kind (clustersBeside available clusterSectors fatCount fat) := by
    cases kind <;> simp only [fatBytes, divCeil] <;> omega
  by_contra hzero
  have hle := (divCeil_le_iff hsector).mp (Nat.le_of_not_lt hzero)
  omega

theorem le_largestFat_iff (havailable : available < 2 ^ 32) (fat : Nat) :
    fat ≤ largestFat available fatCount ↔
      fat < 2 ^ 32 ∧ fat * fatCount < 2 ^ 32 ∧ fat * fatCount ≤ available := by
  rw [largestFat]
  split
  · rename_i hzero
    subst hzero
    omega
  · rename_i hcount
    rw [le_min_iff, Nat.le_div_iff_mul_le (Nat.pos_of_ne_zero hcount)]
    omega

/-- The loop takes one sector when that covers the clusters, else the FAT that
the clusters beside one sector need, when it can be asked for. -/
theorem fatSectors_eq (havailable : available < 2 ^ 32) {needed : Nat}
    (hneeded : neededFat kind available clusterSectors fatCount sectorSize 1 = needed) :
    fatSectors kind available clusterSectors fatCount sectorSize =
      if needed ≤ 1 then some (1, clustersBeside available clusterSectors fatCount 1)
      else if needed ≤ largestFat available fatCount then
        some (needed, clustersBeside available clusterSectors fatCount needed)
      else none := by
  rw [fatSectors, fatSectorsFrom]
  simp only [hneeded]
  split
  · rfl
  rename_i hone
  have hanti := neededFat_anti kind available clusterSectors fatCount sectorSize
    (Nat.le_of_lt (not_le.mp hone))
  rw [hneeded] at hanti
  have hasked : needed ≤ largestFat available fatCount ↔ _ := le_largestFat_iff havailable needed
  split
  · rw [if_neg (by omega)]
  split
  · rw [if_neg (by omega)]
  split
  · rw [if_neg (by omega)]
  rw [if_pos (by omega), fatSectorsFrom]
  simp only [if_pos hanti]

/-- The size found is the smallest exactly when one sector less than the first
size tried after 1, or the largest size that fits, does not cover its
clusters. The code divides by both sizes, so it panics where one is 0. -/
theorem fatSectors_smallest_iff (havailable : available < 2 ^ 32)
    (_hclusters : 0 < clusterSectors) (hsector : 0 < sectorSize) :
    Smallest kind available clusterSectors fatCount sectorSize
        (fatSectors kind available clusterSectors fatCount sectorSize) ↔
      ¬ Covers kind available clusterSectors fatCount sectorSize
        (min (neededFat kind available clusterSectors fatCount sectorSize 1 - 1)
          (largestFat available fatCount)) := by
  have hpos : 0 < neededFat kind available clusterSectors fatCount sectorSize 1 :=
    neededFat_pos hsector 1
  have hneeded (fat : Nat) : Covers kind available clusterSectors fatCount sectorSize fat ↔
      neededFat kind available clusterSectors fatCount sectorSize fat ≤ fat :=
    covers_iff hsector fat
  generalize hn : neededFat kind available clusterSectors fatCount sectorSize 1 = needed at *
  rw [fatSectors_eq havailable hn]
  have hzero : ¬ Covers kind available clusterSectors fatCount sectorSize 0 := by
    rw [hneeded]
    exact not_le.mpr (neededFat_pos hsector 0)
  split
  · -- one sector is enough, and none is not
    rename_i hone
    obtain rfl : needed = 1 := by omega
    rw [Nat.sub_self, Nat.zero_min]
    refine iff_of_true ⟨(hneeded 1).mpr (by omega), ?_, rfl⟩ hzero
    exact smaller_not_covers hsector hzero
  rename_i hone
  have hanti := neededFat_anti kind available clusterSectors fatCount sectorSize
    (Nat.le_of_lt (not_le.mp hone))
  rw [hn] at hanti
  split
  · rename_i hasked
    rw [Nat.min_eq_left (by omega)]
    constructor
    · rintro ⟨-, hleast, -⟩
      exact hleast _ (by omega)
    · intro hless
      exact ⟨(hneeded needed).mpr hanti, smaller_not_covers hsector hless, rfl⟩
  · rename_i hasked
    rw [Nat.min_eq_right (by omega)]
    constructor
    · intro hnone
      exact hnone _ le_rfl
    · intro hlargest fat hle hcovers
      exact hlargest (hcovers.mono hsector hle)

/-- The FATs of a 1.44 MB floppy disk. -/
theorem fatSectors_smallest_floppy :
    Smallest .fat12 2865 1 2 512 (fatSectors .fat12 2865 1 2 512) :=
  (fatSectors_smallest_iff (by decide) (by decide) (by decide)).mpr (by decide)

/-- 79 sectors are found where 78 are enough. -/
theorem fatSectors_not_smallest :
    ¬ Smallest .fat16 20000 1 2 512 (fatSectors .fat16 20000 1 2 512) := by
  have hneeded : neededFat .fat16 20000 1 2 512 1 = 79 := by decide
  rw [fatSectors_eq (by decide) hneeded, if_neg (by decide), if_pos (by decide)]
  rintro ⟨-, hleast, -⟩
  exact hleast 78 (by decide) (by decide)

end

end Hadris.Format
