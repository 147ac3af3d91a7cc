import Hadris.Exfat.EntrySet

namespace Hadris.Exfat

open List

def maxDirectorySize : Nat := 256 * 2 ^ 20

/-- A position in a directory's clusters, kept across slots. -/
structure DirWalk where
  dir : Extent
  at_ : ChainPos
deriving DecidableEq, Repr

def DirWalk.new (dir : Extent) : DirWalk := ⟨dir, ChainPos.none⟩

def Geometry.clusterOf (geo : Geometry) (offset : Nat) : Option Nat :=
  if offset < geo.heapStart then none
  else
    let cluster := (offset - geo.heapStart) / geo.clusterSize + firstCluster
    if geo.isCluster cluster then some cluster else none

/-- An entry set and where its entries are. -/
structure EntrySet where
  offset : Nat
  at_ : List Nat
  raw : List (List UInt8)
deriving DecidableEq, Repr

variable (geo : Geometry)

def walkLoop : Nat → ChainPos → Prog Io Stop (Bool × ChainPos)
  | 0, at_ => pure (true, at_)
  | turns + 1, at_ => do
      match ← next geo at_.cluster with
      | none => pure (false, at_)
      | some next =>
        match at_.advance next with
        | some at_ => walkLoop turns at_
        | none => Prog.fail Detail.cyclicChain.corrupt

def walkFrom (walk : DirWalk) (want : Nat) : Prog Io Stop ChainPos :=
  if walk.at_.cluster = 0 ∨ want < walk.at_.index then do
    let first ← checkCluster geo walk.dir.first
    pure (.start first)
  else pure walk.at_

def slotOffset (walk : DirWalk) (slot : Nat) : Prog Io Stop (Option Nat × DirWalk) :=
  let bytes := slot * entrySize
  let want := bytes / geo.clusterSize
  let within := bytes % geo.clusterSize
  if walk.dir.first = 0 ∨ walk.dir.len ≤ bytes ∨ maxDirectorySize ≤ bytes then pure (none, walk)
  else if walk.dir.contiguous then do
    let cluster ← checkCluster geo (walk.dir.first + want)
    let base ← clusterAt geo cluster
    pure (some (base + within), walk)
  else do
    let from_ ← walkFrom geo walk want
    let (found, at_) ← walkLoop geo (want - from_.index) from_
    if found then do
      let base ← clusterAt geo at_.cluster
      pure (some (base + within), ⟨walk.dir, at_⟩)
    else pure (none, ⟨walk.dir, at_⟩)

def readSlots : Nat → DirWalk → Nat → Prog Io Stop (Option (List Nat × List (List UInt8)))
  | 0, _, _ => pure (some ([], []))
  | count + 1, walk, slot => do
      match ← slotOffset geo walk slot with
      | (none, _) => pure none
      | (some at_, walk) => do
          let entry ← Io.readBytes at_ entrySize
          let rest ← readSlots count walk (slot + 1)
          pure (rest.map fun rest => (at_ :: rest.1, entry :: rest.2))

def readSet (walk : DirWalk) (slot : Nat) (primary : List UInt8) (offset : Nat) :
    Prog Io Stop (Option EntrySet) :=
  let count := 1 + byteAt primary 1
  if count < 3 ∨ maxSet < count then pure none
  else do
    let rest ← readSlots geo (count - 1) walk (slot + 1)
    pure (rest.bind fun rest =>
      if parseSet (primary :: rest.2) then some ⟨offset, offset :: rest.1, primary :: rest.2⟩
        else none)

def setInSlot (walk : DirWalk) (slot : Nat) : Prog Io Stop (Option EntrySet) := do
  match ← slotOffset geo walk slot with
  | (none, _) => pure none
  | (some offset, walk) => do
      let entry ← Io.readBytes offset entrySize
      if byteAt entry 0 = entryFile then readSet geo walk slot entry offset else pure none

def walkSlots (walk : DirWalk) : List Nat → Prog Io Stop DirWalk
  | [] => pure walk
  | slot :: rest => do
      let (_, walk) ← slotOffset geo walk slot
      walkSlots walk rest

def setThrough (dir : Extent) (slots : List Nat) (slot : Nat) :
    Prog Io Stop (Option EntrySet) := do
  let walk ← walkSlots geo (.new dir) slots
  setInSlot geo walk slot

def clusterHolding (offset : Nat) : Prog Io Stop Nat :=
  match geo.clusterOf offset with
  | some cluster => pure cluster
  | none => Prog.fail (.ofKind .corrupt)

def nextGuess (contiguous : Bool) (cluster : Nat) : Prog Io Stop Nat :=
  if contiguous then pure (cluster + 1) else get geo cluster

/-- The offset of the entry after the one at `at_`, which is in the cluster that the FAT names or
in the next one where `at_` ends its cluster. -/
def stepEntry (contiguous : Bool) (at_ : Nat) : Prog Io Stop (Option Nat) :=
  let at_ := at_ + entrySize
  if at_ % geo.clusterSize = geo.heapStart % geo.clusterSize then do
    let cluster ← clusterHolding geo (at_ - 1)
    let value ← nextGuess geo contiguous cluster
    if geo.isCluster value then do
      let base ← clusterAt geo value
      pure (some base)
    else pure none
  else pure (some at_)

def followEntries (contiguous : Bool) :
    Nat → Nat → Prog Io Stop (List Nat × List (List UInt8) × Bool)
  | 0, _ => pure ([], [], true)
  | count + 1, at_ => do
      match ← stepEntry geo contiguous at_ with
      | none => pure ([], [], false)
      | some at_ => do
          let entry ← Io.readBytes at_ entrySize
          let rest ← followEntries contiguous count at_
          pure (at_ :: rest.1, entry :: rest.2.1, rest.2.2)

def consecutive (offset : Nat) (at_ : List Nat) : Bool :=
  (at_.zip at_.tail).all (fun pair => pair.2 == pair.1 + entrySize) &&
    at_.headD 0 == offset + entrySize

def setTurns (offset : Nat) (primary : List UInt8) : List Bool → List Nat → Prog Io Stop EntrySet
  | [], _ => Prog.fail (.ofKind .corrupt)
  | contiguous :: rest, at_ => do
      let count := 1 + byteAt primary 1
      let (found, entries, ok) ← followEntries geo contiguous (count - 1) offset
      let at_ := found ++ at_.drop found.length
      if ok && parseSet (primary :: entries)
        then pure ⟨offset, offset :: at_.take (count - 1), primary :: entries⟩
      else if consecutive offset (at_.take (count - 1)) then Prog.fail (.ofKind .corrupt)
      else setTurns offset primary rest at_

/-- Reads the entry set whose File entry is at `offset`. The directory holding it is not known, so
where the set crosses into another cluster both the FAT's next cluster and
the one after are tried. -/
def setAt (offset : Nat) : Prog Io Stop EntrySet := do
  let primary ← Io.readBytes offset entrySize
  if byteAt primary 0 = entryFile ∧ 2 ≤ byteAt primary 1 ∧ byteAt primary 1 < maxSet then
    setTurns geo offset primary [false, true] (replicate (maxSet - 1) 0)
  else Prog.fail (.ofKind .corrupt)

open Prog (Triple)
open Upcase (clusterAt_eq runGeo runGeo_valid)

section Offsets

variable (img : Nat → UInt8)

def slotAt (dir : Extent) (slot : Nat) : Option Nat :=
  (geo.clusterOffset (chainAt geo img dir (slot * entrySize / geo.clusterSize))).map
    (· + slot * entrySize % geo.clusterSize)

def entryAfter (contiguous : Bool) (at_ : Nat) : Option Nat :=
  if (at_ + entrySize) % geo.clusterSize = geo.heapStart % geo.clusterSize then
    (geo.clusterOf (at_ + entrySize - 1)).bind fun cluster =>
      geo.clusterOffset (if contiguous then cluster + 1 else fatAt geo img cluster)
  else some (at_ + entrySize)

def entriesAfter (contiguous : Bool) : Nat → Nat → List Nat
  | 0, _ => []
  | count + 1, at_ =>
    match entryAfter geo img contiguous at_ with
    | none => []
    | some at_ => at_ :: entriesAfter contiguous count at_

def guessedSet (contiguous : Bool) (offset : Nat) : Option EntrySet :=
  let primary := slice img offset entrySize
  let at_ := entriesAfter geo img contiguous (byteAt primary 1) offset
  if at_.length = byteAt primary 1 ∧ parseSet (primary :: at_.map (slice img · entrySize)) = true
    then
    some ⟨offset, offset :: at_, primary :: at_.map (slice img · entrySize)⟩
  else none

end Offsets

/-- An entry of a cluster is at `at_`. -/
def InCluster (at_ : Nat) : Prop :=
  ∃ cluster base within, geo.clusterOffset cluster = some base ∧ at_ = base + within ∧
    within % entrySize = 0 ∧
    within + entrySize ≤ geo.clusterSize

section

variable {geo} {img : Nat → UInt8} {dir : Extent}

theorem entrySize_dvd (hgeo : geo.Valid) : entrySize ∣ geo.clusterSize := by
  have hsector := hgeo.sectorShift
  have hcluster := hgeo.clusterShift
  exact Nat.pow_dvd_pow 2 (show 5 ≤ geo.clusterShift by omega)

theorem entrySize_le (hgeo : geo.Valid) : entrySize ≤ geo.clusterSize :=
  Nat.le_of_dvd (clusterSize_pos geo) (entrySize_dvd hgeo)

theorem clusterOffset_eq {cluster base : Nat} (h : geo.clusterOffset cluster = some base) :
    firstCluster ≤ cluster ∧ base = geo.heapStart + (cluster - firstCluster) *
      geo.clusterSize := by
  have hcluster := isCluster_of_clusterOffset h
  rw [Geometry.clusterOffset, if_pos hcluster, Option.some.injEq] at h
  simp only [Geometry.isCluster, Bool.and_eq_true, decide_eq_true_eq] at hcluster
  exact ⟨hcluster.1, h.symm⟩

theorem clusterOf_eq {cluster base within : Nat} (h : geo.clusterOffset cluster = some base)
    (hwithin : within < geo.clusterSize) :
    geo.clusterOf (base + within) = some cluster := by
  obtain ⟨hfirst, rfl⟩ := clusterOffset_eq h
  have hdiv : (geo.heapStart + (cluster - firstCluster) * geo.clusterSize +
      within - geo.heapStart) / geo.clusterSize + firstCluster =
        cluster := by
    rw [Nat.add_assoc, Nat.add_sub_cancel_left, Nat.mul_comm,
      Nat.mul_add_div (clusterSize_pos geo), Nat.div_eq_of_lt hwithin,
      Nat.add_zero, Nat.sub_add_cancel hfirst]
  rw [Geometry.clusterOf, if_neg (by omega)]
  simp only
  rw [hdiv, if_pos (isCluster_of_clusterOffset h)]

theorem entryAfter_within (contiguous : Bool) {cluster base within : Nat}
    (h : geo.clusterOffset cluster = some base) (hwithin : within + entrySize < geo.clusterSize) :
    entryAfter geo img contiguous (base + within) = some (base + within + entrySize) := by
  obtain ⟨-, rfl⟩ := clusterOffset_eq h
  refine if_neg fun hmod => ?_
  have hdvd := Nat.dvd_of_mod_eq_zero (Nat.sub_mod_eq_zero_of_mod_eq hmod)
  rw [show geo.heapStart + (cluster - firstCluster) * geo.clusterSize + within +
    entrySize - geo.heapStart =
    within + entrySize + (cluster - firstCluster) *
      geo.clusterSize by omega, Nat.dvd_add_left (Nat.dvd_mul_left _ _)] at hdvd
  exact absurd (Nat.le_of_dvd (by rw [entrySize]; omega) hdvd) (not_le.mpr hwithin)

theorem entryAfter_last (contiguous : Bool) {cluster base within : Nat}
    (h : geo.clusterOffset cluster = some base)
    (hwithin : within + entrySize = geo.clusterSize) :
    entryAfter geo img contiguous (base + within) =
      geo.clusterOffset (if contiguous then cluster + 1 else fatAt geo img cluster) := by
  have hbase := (clusterOffset_eq h).2
  have hmod : (base + within + entrySize) % geo.clusterSize =
      geo.heapStart % geo.clusterSize := by
    rw [Nat.add_assoc, hwithin, hbase, Nat.add_mod_right, Nat.add_mul_mod_self_right]
  rw [entryAfter, if_pos hmod, Nat.add_assoc, hwithin, Nat.add_sub_assoc (clusterSize_pos geo),
    clusterOf_eq h (by have := clusterSize_pos geo; omega), Option.bind_some]

theorem InCluster.entryAfter (hgeo : geo.Valid) {contiguous : Bool} {at_ at' : Nat}
    (h : InCluster geo at_)
    (hat : entryAfter geo img contiguous at_ = some at') : InCluster geo at' := by
  obtain ⟨cluster, base, within, hbase, rfl, hmod, hle⟩ := h
  rcases hle.lt_or_eq with hlt | heq
  · rw [entryAfter_within contiguous hbase hlt, Option.some.injEq] at hat
    subst hat
    refine ⟨cluster, base, within + entrySize, hbase,
      Nat.add_assoc _ _ _, by rwa [Nat.add_mod_right], ?_⟩
    have hdvd := entrySize_dvd hgeo
    obtain ⟨k, hk⟩ := hdvd
    simp only [entrySize] at *
    omega
  · rw [entryAfter_last contiguous hbase heq] at hat
    exact ⟨_, at', 0, hat, rfl, rfl, (Nat.zero_add _).trans_le (entrySize_le hgeo)⟩

theorem slotAt_inCluster (hgeo : geo.Valid) {slot at_ : Nat}
    (h : slotAt geo img dir slot = some at_) : InCluster geo at_ := by
  rw [slotAt, Option.map_eq_some_iff] at h
  obtain ⟨base, hbase, rfl⟩ := h
  have hdvd := entrySize_dvd hgeo
  have hlt := Nat.mod_lt (slot * entrySize) (clusterSize_pos geo)
  have hmod : slot * entrySize % geo.clusterSize % entrySize = 0 := by
    rw [Nat.mod_mod_of_dvd _ hdvd, Nat.mul_mod_left]
  refine ⟨_, base, _, hbase, rfl, hmod, ?_⟩
  obtain ⟨k, hk⟩ := hdvd
  simp only [entrySize] at *
  omega

theorem entryAfter_slotAt (hgeo : geo.Valid) {slot at_ : Nat}
    (h : slotAt geo img dir slot = some at_) :
    entryAfter geo img dir.contiguous at_ = slotAt geo img dir (slot + 1) := by
  obtain ⟨base, hbase, rfl⟩ := Option.map_eq_some_iff.mp h
  have hsize := clusterSize_pos geo
  have hdvd := entrySize_dvd hgeo
  have hsum := Nat.div_add_mod (slot * entrySize) geo.clusterSize
  have hlt := Nat.mod_lt (slot * entrySize) hsize
  have hmod : slot * entrySize % geo.clusterSize % entrySize = 0 := by
    rw [Nat.mod_mod_of_dvd _ hdvd, Nat.mul_mod_left]
  have hle : slot * entrySize % geo.clusterSize + entrySize ≤ geo.clusterSize := by
    obtain ⟨k, hk⟩ := hdvd
    simp only [entrySize] at *
    omega
  have hnext : (slot + 1) * entrySize = slot * entrySize % geo.clusterSize + entrySize +
      geo.clusterSize * (slot * entrySize / geo.clusterSize) := by
    rw [Nat.succ_mul]
    omega
  rcases hle.lt_or_eq with hin | heq
  · rw [entryAfter_within _ hbase hin, slotAt, hnext, Nat.add_mul_div_left _ _ hsize,
      Nat.div_eq_of_lt hin, Nat.zero_add,
      Nat.add_mul_mod_self_left, Nat.mod_eq_of_lt hin, hbase, Option.map_some, Nat.add_assoc]
  · rw [entryAfter_last _ hbase heq, slotAt, hnext, heq, Nat.add_mul_div_left _ _ hsize,
      Nat.div_self hsize, Nat.add_comm 1, Nat.add_mul_mod_self_left, Nat.mod_self, chainAt]
    simp

variable {J : Device Stop → Prop} {E : Stop → Io → Prop} (hr : Reader geo img J E)

include hr

theorem get_triple {cluster : Nat} (h : geo.isCluster cluster = true) :
    Triple (Io.Sound J) (get geo cluster)
    (fun r io => r = fatAt geo img cluster ∧ Io.Sound J io) E := by
  have hmax : ¬ geo.maxCluster < cluster := by
    simp only [Geometry.isCluster, Bool.and_eq_true, decide_eq_true_eq] at h
    exact not_lt.mpr h.2
  rw [get, if_neg hmax]
  exact hr.fat cluster h

theorem readEntry_triple {at_ : Nat} (h : InCluster geo at_) :
    Triple (Io.Sound J) (Io.readBytes at_ entrySize)
    (fun data io => data = slice img at_ entrySize ∧ Io.Sound J io) E := by
  obtain ⟨cluster, base, within, hbase, rfl, -, hle⟩ := h
  exact hr.data cluster base hbase within entrySize hle

theorem stepEntry_triple (contiguous : Bool) {at_ : Nat} (h : InCluster geo at_) :
    Triple (Io.Sound J) (stepEntry geo contiguous at_)
    (fun r io => r = entryAfter geo img contiguous at_ ∧ Io.Sound J io) E := by
  obtain ⟨cluster, base, within, hbase, rfl, -, hle⟩ := h
  have hpos : 0 < entrySize := by decide
  have hof := clusterOf_eq hbase (show within + entrySize - 1 < geo.clusterSize by omega)
  rw [← Nat.add_sub_assoc (by omega), ← Nat.add_assoc] at hof
  rw [stepEntry, entryAfter]
  refine Triple.ite (fun hend => ?_) fun hin => ?_
  · rw [if_pos hend, clusterHolding, hof, Option.bind_some, pure_bind]
    refine Triple.bind (Q := fun r io =>
      r = (if contiguous then cluster + 1 else fatAt geo img cluster) ∧ Io.Sound J io) ?_
      fun value => Triple.assume ?_
    · refine Triple.ite (fun hnext => ?_) fun hfat => ?_
      · rw [if_pos hnext]
        exact Triple.pure fun io hio => ⟨rfl, hio⟩
      · rw [if_neg hfat]
        exact get_triple hr (isCluster_of_clusterOffset hbase)
    rintro rfl
    generalize (if contiguous then cluster + 1 else fatAt geo img cluster) = value
    refine Triple.ite (fun hvalue => ?_) fun hvalue => ?_
    · have hoffset : geo.clusterOffset value =
        some (geo.heapStart + (value - firstCluster) * geo.clusterSize) := if_pos hvalue
      rw [clusterAt_eq hoffset, pure_bind]
      exact Triple.pure fun io hio => ⟨hoffset.symm, hio⟩
    · exact Triple.pure fun io hio => ⟨(if_neg hvalue).symm, hio⟩
  · rw [if_neg hin]
    exact Triple.pure fun io hio => ⟨rfl, hio⟩

theorem followEntries_triple (hgeo : geo.Valid) (contiguous : Bool) (count : Nat) {at_ : Nat}
    (h : InCluster geo at_) :
    Triple (Io.Sound J) (followEntries geo contiguous count at_)
      (fun r io => r = (entriesAfter geo img contiguous count at_,
        (entriesAfter geo img contiguous count at_).map (slice img · entrySize),
        decide ((entriesAfter geo img contiguous count at_).length = count)) ∧
          Io.Sound J io) E := by
  induction count generalizing at_ with
  | zero => exact Triple.pure fun io hio => ⟨rfl, hio⟩
  | succ count ih =>
    rw [followEntries]
    refine Triple.bind (stepEntry_triple hr contiguous h) fun r => Triple.assume ?_
    rintro rfl
    rcases hafter : entryAfter geo img contiguous at_ with _ | at'
    · rw [entriesAfter, hafter]
      exact Triple.pure fun io hio => ⟨rfl, hio⟩
    · have hat := h.entryAfter hgeo hafter
      simp only [entriesAfter, hafter]
      refine Triple.bind (readEntry_triple hr hat) fun entry => Triple.assume ?_
      rintro rfl
      refine Triple.bind (ih hat) fun rest => Triple.assume ?_
      rintro rfl
      refine Triple.pure fun io hio => ⟨?_, hio⟩
      simp

end

def placesAfter : Nat → Nat → List Nat
  | 0, _ => []
  | count + 1, at_ => (at_ + entrySize) :: placesAfter count (at_ + entrySize)

theorem lt_of_mem_placesAfter {count at_ place : Nat} (h : place ∈ placesAfter count at_) :
    at_ < place := by
  have hpos : 0 < entrySize := by decide
  induction count generalizing at_ with
  | zero => exact absurd h not_mem_nil
  | succ count ih =>
    rcases mem_cons.mp h with rfl | h
    · exact Nat.lt_add_of_pos_right hpos
    · exact (Nat.lt_add_of_pos_right hpos).trans (ih h)

theorem eq_of_consecutive {offset : Nat} {at_ : List Nat} (h : consecutive offset at_ = true) :
    at_ = placesAfter at_.length offset := by
  induction at_ generalizing offset with
  | nil => rfl
  | cons first rest ih =>
    rw [consecutive, Bool.and_eq_true, headD_cons, beq_iff_eq] at h
    obtain ⟨hall, rfl⟩ := h
    rw [length_cons, placesAfter]
    congr 1
    cases rest with
    | nil => rfl
    | cons second rest =>
      simp only [tail_cons, zip_cons_cons, all_cons, Bool.and_eq_true, beq_iff_eq] at hall
      apply ih
      rw [consecutive, Bool.and_eq_true, headD_cons, beq_iff_eq]
      exact ⟨hall.2, hall.1⟩

section

variable {geo} {img : Nat → UInt8}

theorem entryAfter_contiguous {at_ at' : Nat} (h : InCluster geo at_)
    (hat : entryAfter geo img true at_ = some at') :
    at' = at_ + entrySize := by
  obtain ⟨cluster, base, within, hbase, rfl, -, hle⟩ := h
  rcases hle.lt_or_eq with hlt | heq
  · rw [entryAfter_within true hbase hlt, Option.some.injEq] at hat
    exact hat.symm
  · rw [entryAfter_last true hbase heq, if_pos rfl] at hat
    obtain ⟨hfirst, hbase⟩ := clusterOffset_eq hbase
    rw [(clusterOffset_eq hat).2, hbase, Nat.sub_add_comm hfirst, Nat.succ_mul,
      Nat.add_assoc, heq, Nat.add_assoc]

theorem entriesAfter_length_le (contiguous : Bool) (count at_ : Nat) :
    (entriesAfter geo img contiguous count at_).length ≤ count := by
  induction count generalizing at_ with
  | zero => exact le_rfl
  | succ count ih =>
    rw [entriesAfter]
    split
    · exact Nat.zero_le _
    · exact Nat.succ_le_succ (ih _)

theorem entriesAfter_contiguous (hgeo : geo.Valid) {count at_ : Nat} (h : InCluster geo at_)
    (hall : (entriesAfter geo img true count at_).length = count) :
    entriesAfter geo img true count at_ = placesAfter count at_ := by
  induction count generalizing at_ with
  | zero => rfl
  | succ count ih =>
    rcases hafter : entryAfter geo img true at_ with _ | at'
    · rw [entriesAfter, hafter] at hall
      cases hall
    · have hat := entryAfter_contiguous h hafter
      subst hat
      simp only [entriesAfter, hafter, length_cons, Nat.add_right_cancel_iff] at hall ⊢
      rw [ih (h.entryAfter hgeo hafter) hall, placesAfter]

theorem found_of_consecutive {offset count : Nat} {found : List Nat}
    (hfound : found.length ≤ count) (hcount : count ≤ maxSet - 1)
    (h : consecutive offset ((found ++ (replicate (maxSet - 1) 0).drop found.length).take count) =
      true) :
    found = placesAfter count offset := by
  have hplaces := eq_of_consecutive h
  have hlength : ((found ++ (replicate (maxSet - 1) 0).drop found.length).take count).length =
      count := by
    rw [length_take, length_append, length_drop, length_replicate]
    omega
  rw [hlength] at hplaces
  rcases hfound.lt_or_eq with hlt | heq
  · have hzero : 0 ∈ placesAfter count offset := by
      rw [← hplaces, drop_replicate, take_append, mem_append, take_replicate, mem_replicate]
      exact .inr ⟨by omega, rfl⟩
    exact absurd (lt_of_mem_placesAfter hzero) (Nat.not_lt_zero _)
  · rw [take_append_of_le_length heq.ge, take_of_length_le heq.le] at hplaces
    exact hplaces

variable {J : Device Stop → Prop} {E : Stop → Io → Prop} (hr : Reader geo img J E)
  (hgeo : geo.Valid)

include hr hgeo

theorem setTurns_found (contiguous : Bool) (rest : List Bool) (at_ : List Nat) {offset : Nat}
    {set : EntrySet} (h : InCluster geo offset)
    (hset : guessedSet geo img contiguous offset = some set) :
    Triple (Io.Sound J)
      (setTurns geo offset (slice img offset entrySize) (contiguous :: rest) at_)
      (fun r io => r = set ∧ Io.Sound J io) E := by
  rw [guessedSet] at hset
  split at hset
  · rename_i hok
    cases hset
    rw [setTurns]
    refine Triple.bind (followEntries_triple hr hgeo contiguous _ h) fun found => Triple.assume ?_
    rintro rfl
    simp only [Nat.add_sub_cancel_left, hok.1, decide_true, hok.2, Bool.and_self, if_true]
    rw [take_append_of_le_length hok.1.ge, take_of_length_le hok.1.le]
    exact Triple.pure fun io hio => ⟨rfl, hio⟩
  · cases hset

theorem setAt_triple {offset : Nat} {set : EntrySet} (h : InCluster geo offset)
    (hprimary : byteAt (slice img offset entrySize) 0 = entryFile ∧
      2 ≤ byteAt (slice img offset entrySize) 1 ∧
      byteAt (slice img offset entrySize) 1 < maxSet)
    (hset : (guessedSet geo img false offset).or (guessedSet geo img true offset) = some set) :
    Triple (Io.Sound J) (setAt geo offset) (fun r io => r = set ∧ Io.Sound J io) E := by
  rw [setAt]
  refine Triple.bind (readEntry_triple hr h) fun primary => Triple.assume ?_
  rintro rfl
  rw [if_pos hprimary]
  rcases hfat : guessedSet geo img false offset with _ | found
  · rw [hfat, Option.none_or] at hset
    rw [setTurns]
    refine Triple.bind (followEntries_triple hr hgeo false _ h) fun found => Triple.assume ?_
    rintro rfl
    have hnone :
        ¬(decide ((entriesAfter geo img false (1 + byteAt (slice img offset entrySize) 1 - 1)
            offset).length = 1 + byteAt (slice img offset entrySize) 1 - 1) &&
          parseSet (slice img offset entrySize ::
            (entriesAfter geo img false (1 + byteAt (slice img offset entrySize) 1 - 1)
              offset).map (slice img · entrySize))) = true := by
      rw [Nat.add_sub_cancel_left, Bool.and_eq_true, decide_eq_true_eq]
      intro hok
      rw [guessedSet, if_pos hok] at hfat
      cases hfat
    simp only
    rw [if_neg hnone, if_neg]
    · exact setTurns_found hr hgeo true [] _ h hset
    · intro hconsecutive
      rw [Nat.add_sub_cancel_left] at hconsecutive hnone
      have hsame := found_of_consecutive (entriesAfter_length_le false _ _)
        (Nat.le_pred_of_lt hprimary.2.2) hconsecutive
      rw [guessedSet] at hset
      split at hset
      · rename_i hok
        rw [entriesAfter_contiguous hgeo h hok.1, ← hsame] at hok
        exact hnone (by rw [Bool.and_eq_true, decide_eq_true_eq]; exact hok)
      · cases hset
  · rw [hfat, Option.some_or, Option.some.injEq] at hset
    exact setTurns_found hr hgeo false [true] _ h (hset ▸ hfat)

end

/-- The position a walk keeps, if any, is one of the directory's chain. -/
def DirWalk.Sound (geo : Geometry) (img : Nat → UInt8) (dir : Extent) (walk : DirWalk) : Prop :=
  walk.dir = dir ∧
    (walk.at_.cluster = 0 ∨ OnChain geo img dir walk.at_ ∧ geo.isCluster walk.at_.cluster = true)

section

variable {geo} {img : Nat → UInt8} {dir : Extent} {J : Device Stop → Prop} {E : Stop → Io → Prop}
  (hE : ∀ e io, Io.Sound J io → E e io)

include hE

theorem checkCluster_triple (cluster : Nat) : Triple (Io.Sound J) (checkCluster geo cluster)
    (fun r io => (r = cluster ∧ geo.isCluster cluster = true) ∧ Io.Sound J io) E := by
  rw [checkCluster]
  exact Triple.ite (fun h => Triple.pure fun io hio => ⟨⟨rfl, h⟩, hio⟩) fun _ =>
    Triple.fail (hE _)

theorem clusterAt_triple (cluster : Nat) : Triple (Io.Sound J) (clusterAt geo cluster)
    (fun r io => geo.clusterOffset cluster = some r ∧ Io.Sound J io) E := by
  rw [clusterAt]
  split
  · rename_i base hbase
    exact Triple.pure fun io hio => ⟨hbase, hio⟩
  · exact Triple.fail (hE _)

theorem walkFrom_triple {walk : DirWalk} (h : walk.Sound geo img dir) (want : Nat) :
    Triple (Io.Sound J) (walkFrom geo walk want)
    (fun r io => (OnChain geo img dir r ∧ geo.isCluster r.cluster = true ∧ r.index ≤ want) ∧
      Io.Sound J io) E := by
  obtain ⟨rfl, hat⟩ := h
  rw [walkFrom]
  refine Triple.ite (fun _ => ?_) fun hfrom => ?_
  · refine Triple.bind (checkCluster_triple hE _) fun first => Triple.assume ?_
    rintro ⟨rfl, hfirst⟩
    exact Triple.pure fun io hio => ⟨⟨⟨rfl, 0, le_rfl, rfl⟩, hfirst, Nat.zero_le _⟩, hio⟩
  · rw [not_or, not_lt] at hfrom
    obtain ⟨hchain, hcluster⟩ := hat.resolve_left hfrom.1
    exact Triple.pure fun io hio => ⟨⟨hchain, hcluster, hfrom.2⟩, hio⟩

variable (hr : Reader geo img J E)

include hr

theorem next_triple {cluster : Nat} (h : geo.isCluster cluster = true) :
    Triple (Io.Sound J) (next geo cluster)
    (fun r io => (∀ value, r = some value → value = fatAt geo img cluster ∧
      geo.isCluster value = true) ∧ Io.Sound J io) E := by
  rw [next]
  refine Triple.bind (get_triple hr h) fun entry => Triple.assume ?_
  rintro rfl
  refine Triple.ite (fun _ => Triple.pure fun io hio => ⟨fun _ h => (by cases h), hio⟩)
    fun _ => ?_
  refine Triple.ite (fun hvalue => Triple.pure fun io hio => ⟨?_, hio⟩) fun _ => ?_
  · rintro value ⟨⟩
    exact ⟨rfl, hvalue⟩
  · exact Triple.ite (fun _ => Triple.fail (hE _)) fun _ => Triple.fail (hE _)

theorem walkLoop_triple (hchain : dir.contiguous = false) (turns : Nat) {at_ : ChainPos}
    (hat : OnChain geo img dir at_)
    (hcluster : geo.isCluster at_.cluster = true) : Triple (Io.Sound J) (walkLoop geo turns at_)
      (fun r io => (OnChain geo img dir r.2 ∧ geo.isCluster r.2.cluster = true ∧
        (r.1 = true → r.2.index = at_.index + turns)) ∧
        Io.Sound J io) E := by
  induction turns generalizing at_ with
  | zero => exact Triple.pure fun io hio => ⟨⟨hat, hcluster, fun _ => rfl⟩, hio⟩
  | succ turns ih =>
    rw [walkLoop]
    refine Triple.bind (next_triple hE hr hcluster) fun r => Triple.assume fun hnext => ?_
    cases r with
    | none => exact Triple.pure fun io hio => ⟨⟨hat, hcluster, (by intros; contradiction)⟩, hio⟩
    | some value =>
      obtain ⟨hvalue, hvalid⟩ := hnext value rfl
      have hstep : value = chainAt geo img dir (at_.index + 1) := by
        rw [hvalue, chainAt, hchain, hat.1]
        rfl
      simp only
      split
      · rename_i at' hadvance
        have hclusterOf : at'.cluster = value := by
          rw [ChainPos.advance, Option.map_eq_some_iff] at hadvance
          obtain ⟨guard, -, rfl⟩ := hadvance
          rfl
        obtain ⟨hat', hindex⟩ := hat.advance (hstep ▸ hadvance)
        refine (ih hat' (hclusterOf ▸ hvalid)).post fun r io h =>
          ⟨⟨h.1.1, h.1.2.1, fun hfound => ?_⟩, h.2⟩
        rw [h.1.2.2 hfound, hindex, Nat.add_assoc, Nat.add_comm 1]
      · exact Triple.fail (hE _)

theorem slotOffset_triple {walk : DirWalk} (h : walk.Sound geo img dir) (slot : Nat) :
    Triple (Io.Sound J) (slotOffset geo walk slot)
    (fun r io => ((∀ at_, r.1 = some at_ → slotAt geo img dir slot = some at_) ∧
      r.2.Sound geo img dir) ∧ Io.Sound J io) E := by
  have hdir := h.1
  rw [slotOffset]
  refine Triple.ite (fun _ => Triple.pure fun io hio => ⟨⟨(by intros; contradiction), h⟩, hio⟩)
    fun _ => ?_
  refine Triple.ite (fun hcontiguous => ?_) fun hchain => ?_
  · refine Triple.bind (checkCluster_triple hE _) fun cluster => Triple.assume ?_
    rintro ⟨rfl, -⟩
    refine Triple.bind (clusterAt_triple hE _) fun base => Triple.assume fun hbase =>
      Triple.pure fun io hio => ⟨⟨?_, h⟩, hio⟩
    rintro at_ ⟨⟩
    rw [hdir] at hcontiguous hbase
    rw [slotAt, chainAt_contiguous hcontiguous, hbase, Option.map_some]
  · have hchain' : dir.contiguous = false := by
      rw [hdir, Bool.not_eq_true] at hchain
      exact hchain
    refine Triple.bind (walkFrom_triple hE h _) fun from_ => Triple.assume fun hfrom => ?_
    refine Triple.bind (walkLoop_triple hE hr hchain' _ hfrom.1 hfrom.2.1) fun r =>
      Triple.assume fun hwalked => ?_
    have hsound : DirWalk.Sound geo img dir ⟨walk.dir, r.2⟩ :=
      ⟨hdir, .inr ⟨hwalked.1, hwalked.2.1⟩⟩
    refine Triple.ite (fun hfound => ?_) fun _ => Triple.pure fun io hio =>
      ⟨⟨(by intros; contradiction), hsound⟩, hio⟩
    refine Triple.bind (clusterAt_triple hE _) fun base => Triple.assume fun hbase =>
      Triple.pure fun io hio => ⟨⟨?_, hsound⟩, hio⟩
    rintro at_ ⟨⟩
    have hindex : r.2.index = slot * entrySize / geo.clusterSize := by
      rw [hwalked.2.2 hfound, Nat.add_sub_cancel' hfrom.2.2]
    rw [slotAt, ← hindex, ← hwalked.1.1, hbase, Option.map_some]

theorem walkSlots_triple {walk : DirWalk} (h : walk.Sound geo img dir) (slots : List Nat) :
    Triple (Io.Sound J)
    (walkSlots geo walk slots) (fun r io => r.Sound geo img dir ∧ Io.Sound J io) E := by
  induction slots generalizing walk with
  | nil => exact Triple.pure fun io hio => ⟨h, hio⟩
  | cons slot rest ih =>
    rw [walkSlots]
    refine Triple.bind (slotOffset_triple hE hr h slot) fun r => Triple.assume fun hslot => ?_
    exact ih hslot.2

variable (hgeo : geo.Valid)

include hgeo

theorem readSlots_triple (count : Nat) {walk : DirWalk} (h : walk.Sound geo img dir)
    {slot at_ : Nat}
    (hat : slotAt geo img dir slot = some at_) :
    Triple (Io.Sound J) (readSlots geo count walk (slot + 1))
      (fun r io => (∀ rest, r = some rest → rest = (entriesAfter geo img dir.contiguous count at_,
        (entriesAfter geo img dir.contiguous count at_).map (slice img · entrySize)) ∧
          (entriesAfter geo img dir.contiguous count at_).length = count) ∧ Io.Sound J io) E := by
  induction count generalizing walk slot at_ with
  | zero =>
    refine Triple.pure fun io hio => ⟨?_, hio⟩
    rintro rest ⟨⟩
    exact ⟨rfl, rfl⟩
  | succ count ih =>
    rw [readSlots]
    refine Triple.bind (slotOffset_triple hE hr h (slot + 1)) fun r =>
      Triple.assume fun hslot => ?_
    obtain ⟨_ | at', walk'⟩ := r
    · exact Triple.pure fun io hio => ⟨(by intros; contradiction), hio⟩
    have hat' := hslot.1 at' rfl
    have hafter : entryAfter geo img dir.contiguous at_ = some at' :=
      (entryAfter_slotAt hgeo hat).trans hat'
    simp only [entriesAfter, hafter]
    refine Triple.bind (readEntry_triple hr (slotAt_inCluster hgeo hat')) fun entry =>
      Triple.assume ?_
    rintro rfl
    refine Triple.bind (ih hslot.2 hat') fun rest => Triple.assume fun hrest =>
      Triple.pure fun io hio => ⟨?_, hio⟩
    rintro all hall
    obtain ⟨rest, rfl, rfl⟩ := Option.map_eq_some_iff.mp hall
    obtain ⟨rfl, hlength⟩ := hrest rest rfl
    exact ⟨rfl, congrArg Nat.succ hlength⟩

theorem setInSlot_triple {walk : DirWalk} (h : walk.Sound geo img dir) (slot : Nat) :
    Triple (Io.Sound J) (setInSlot geo walk slot)
    (fun r io => (∀ set, r = some set → InCluster geo set.offset ∧
      guessedSet geo img dir.contiguous set.offset = some set ∧
      byteAt (slice img set.offset entrySize) 0 = entryFile ∧
      2 ≤ byteAt (slice img set.offset entrySize) 1 ∧
      byteAt (slice img set.offset entrySize) 1 < maxSet) ∧ Io.Sound J io) E := by
  rw [setInSlot]
  refine Triple.bind (slotOffset_triple hE hr h slot) fun r => Triple.assume fun hslot => ?_
  obtain ⟨_ | offset, walk'⟩ := r
  · exact Triple.pure fun io hio => ⟨(by intros; contradiction), hio⟩
  have hat := hslot.1 offset rfl
  have hin := slotAt_inCluster hgeo hat
  refine Triple.bind (readEntry_triple hr hin) fun entry => Triple.assume ?_
  rintro rfl
  refine Triple.ite (fun hfile => ?_) fun _ => Triple.pure fun io hio =>
    ⟨(by intros; contradiction), hio⟩
  rw [readSet]
  refine Triple.ite (fun _ => Triple.pure fun io hio => ⟨(by intros; contradiction), hio⟩)
    fun hcount => ?_
  rw [not_or, not_lt, not_lt, Nat.add_comm 1] at hcount
  rw [Nat.add_sub_cancel_left]
  refine Triple.bind (readSlots_triple hE hr hgeo _ hslot.2 hat) fun rest =>
    Triple.assume fun hrest =>
    Triple.pure fun io hio => ⟨?_, hio⟩
  rintro set hset
  obtain ⟨rest, rfl, hparse⟩ := Option.bind_eq_some_iff.mp hset
  obtain ⟨rfl, hlength⟩ := hrest rest rfl
  split at hparse
  · rename_i hvalid
    cases hparse
    exact ⟨hin, if_pos ⟨hlength, hvalid⟩, hfile, Nat.le_of_succ_le_succ hcount.1, hcount.2⟩
  · cases hparse

end

theorem setThrough_ok {geo : Geometry} (hgeo : geo.Valid) {io : Io} (hio : Io.Coherent io)
    {dir : Extent} {slots : List Nat}
    {slot : Nat} {set : EntrySet}
    (hset : ((setThrough geo dir slots slot).run io).1 = .ok (some set)) :
    InCluster geo set.offset ∧ guessedSet geo io.dev.bytes dir.contiguous set.offset = some set ∧
      byteAt (slice io.dev.bytes set.offset entrySize) 0 = entryFile ∧
      2 ≤ byteAt (slice io.dev.bytes set.offset entrySize) 1 ∧
      byteAt (slice io.dev.bytes set.offset entrySize) 1 < maxSet := by
  have hreader := Upcase.reader_of_bytes geo io.dev.bytes
  have hwalk : (DirWalk.new dir).Sound geo io.dev.bytes dir := ⟨rfl, .inl rfl⟩
  have hthrough := Triple.bind (walkSlots_triple (fun _ _ h => h) hreader hwalk slots)
    (fun walk => Triple.assume fun hwalk => setInSlot_triple (fun _ _ h => h) hreader hgeo
      hwalk slot) io ⟨hio, rfl⟩
  rw [setThrough] at hset
  rcases hrun : (walkSlots geo (.new dir) slots >>= fun walk => setInSlot geo walk slot).run
    io with ⟨e | found, io'⟩ <;>
    rw [hrun] at hset hthrough <;> cases hset
  exact hthrough.1 set rfl

def EntrySet.unplaced (geo : Geometry) (img : Nat → UInt8) (dir : Extent) (set : EntrySet) :
    EntrySet :=
  if dir.contiguous then (guessedSet geo img false set.offset).getD set else set

theorem EntrySet.unplaced_eq {geo : Geometry} {img : Nat → UInt8} {dir : Extent} {set : EntrySet}
    (h : guessedSet geo img dir.contiguous set.offset = some set) :
    (guessedSet geo img false set.offset).or (guessedSet geo img true set.offset) =
      some (set.unplaced geo img dir) := by
  rw [unplaced]
  cases hcontiguous : dir.contiguous <;> rw [hcontiguous] at h
  · rw [h]
    rfl
  · rw [h]
    cases guessedSet geo img false set.offset <;> rfl

/-- A set read through its directory, by a walk that looked up any slots before, is the one that
its offset leads to, unless the directory is contiguous and the FAT makes another valid set of the
entry there: of a directory with a chain it always is. Reads that fail aside, the set is found. -/
theorem set_at_agrees {geo : Geometry} (hgeo : geo.Valid) {io io' : Io} (hio : Io.Coherent io)
    (hio' : Io.Coherent io')
    (hbytes : io'.dev.bytes = io.dev.bytes) {dir : Extent} {slots : List Nat}
    {slot : Nat} {set : EntrySet}
    (hset : ((setThrough geo dir slots slot).run io).1 = .ok (some set)) :
    (∀ found, ((setAt geo set.offset).run io').1 = .ok found →
      found = set.unplaced geo io.dev.bytes dir) ∧
      (io'.dev.script = [] → geo.volumeLen ≤ io'.dev.size →
        ((setAt geo set.offset).run io').1 = .ok (set.unplaced geo io.dev.bytes dir)) := by
  obtain ⟨hin, hguess, hprimary⟩ := setThrough_ok hgeo hio hset
  have hor := EntrySet.unplaced_eq hguess
  rw [← hbytes] at hprimary hor ⊢
  constructor
  · intro found hfound
    have hrun := setAt_triple (Upcase.reader_of_bytes geo io'.dev.bytes) hgeo hin hprimary hor io'
      ⟨hio', rfl⟩
    rcases hresult : (setAt geo set.offset).run io' with ⟨e | other, io''⟩ <;>
      rw [hresult] at hfound hrun <;> cases hfound
    exact hrun.1
  · intro hscript hlen
    obtain ⟨found, io'', hrun, rfl, -⟩ :=
      (setAt_triple (Upcase.reader_of_holds io'.dev.bytes hgeo hlen) hgeo hin hprimary
      hor).ok_of ⟨hio', rfl, rfl, rfl, hscript⟩
    rw [hrun]

def crossingTail (name : List UInt8) : List (List UInt8) :=
  [[0xC0, 1, 0, 1] ++ replicate 28 0, name ++ replicate (32 - name.length) 0]

def crossingPrimary : List UInt8 := [0x85, 2, 0x66, 0x09] ++ replicate 28 0

def crossingNames : List UInt8 × List UInt8 :=
  ([0xC1, 0, 0x41], [0xC1, 0, 0x42, 0, 0, 0, 0, 0, 0, 0, 254, 0, 0, 0, 0, 0, 0, 0, 0, 255])

/-- A set named "A" from the last slot of cluster 4 into cluster 5. The FAT links cluster 4 to
`next`, and cluster 6 holds the last entries of a set named "B". -/
@[irreducible] def crossingIo (next : UInt8) : Io :=
  Io.sample 2048
    (patch (patch (patch (patch (fun _ => 0) 12304 [next]) 17888 crossingPrimary) 17920
    (crossingTail crossingNames.1).flatten) 18432 (crossingTail crossingNames.2).flatten) []

theorem crossingIo_coherent (next : UInt8) : Io.Coherent (crossingIo next) := by
  unfold crossingIo
  exact ⟨length_replicate, fun _ hc => (by cases hc)⟩

theorem crossingIo_dev : (crossingIo 5).dev.script = [] ∧
    runGeo.volumeLen ≤ (crossingIo 5).dev.size := by
  unfold crossingIo
  exact ⟨rfl, by decide⟩

example : (crossingIo 5).dev.bytes 12304 = 5 := by decide +kernel

theorem crossingIo_set : ∃ set,
    ((setThrough runGeo ⟨4, 1024, false⟩ [16, 3] 15).run (crossingIo 5)).1 = .ok (some set) := by
  have hrun :
      (((setThrough runGeo ⟨4, 1024, false⟩ [16, 3] 15).run
        (crossingIo 5)).1.toOption.join).isSome = true := by
    decide +kernel
  rcases hresult :
    ((setThrough runGeo ⟨4, 1024, false⟩ [16, 3] 15).run (crossingIo 5)).1 with e | _ | set
  · rw [hresult] at hrun
    cases hrun
  · rw [hresult] at hrun
    cases hrun
  · exact ⟨set, rfl⟩

theorem set_at_agrees_sample :
    ∃ set, ((setThrough runGeo ⟨4, 1024, false⟩ [16, 3] 15).run (crossingIo 5)).1 =
    .ok (some set) ∧
    ((setAt runGeo set.offset).run (crossingIo 5)).1 = .ok set := by
  obtain ⟨set, hset⟩ := crossingIo_set
  exact ⟨set, hset,
    (set_at_agrees runGeo_valid (crossingIo_coherent 5) (crossingIo_coherent 5) rfl hset).2
      crossingIo_dev.1
    crossingIo_dev.2⟩

example : nameUnits (crossingPrimary :: crossingTail crossingNames.1) ≠ nameUnits
    (crossingPrimary :: crossingTail crossingNames.2) := by
  decide +kernel

/-- Of a contiguous directory whose first cluster the FAT still links elsewhere,
another set is found. -/
theorem set_at_agrees_fails : ∃ set found,
    ((setThrough runGeo ⟨4, 1024, true⟩ [] 15).run (crossingIo 6)).1.toOption = some (some set) ∧
    ((setAt runGeo set.offset).run (crossingIo 6)).1.toOption = some found ∧ found ≠ set ∧
    nameUnits found.raw ≠ nameUnits set.raw := by
  refine ⟨⟨17888, [17888, 17920, 17952], crossingPrimary :: crossingTail crossingNames.1⟩,
    ⟨17888, [17888, 18432, 18464], crossingPrimary :: crossingTail crossingNames.2⟩, ?_⟩
  decide +kernel

end Hadris.Exfat
