import Hadris.FatView
import Mathlib.Data.List.Sort

namespace Hadris

open List

namespace FatKind

variable {kind : FatKind} {stored max c : Nat}

theorem next_zero (kind : FatKind) (max : Nat) : ∃ err, kind.next 0 max = .error err := by
  cases kind <;> exact ⟨_, rfl⟩

theorem cluster_and_mask (hmax : max < kind.badCluster) (hc : c ≤ max) : c &&& kind.mask = c := by
  rw [and_mask, Nat.mod_eq_of_lt]
  cases kind <;> simp only [badCluster, mask] at hmax ⊢ <;> omega

theorem next_cluster (hmax : max < kind.badCluster) (hc : firstDataCluster ≤ c ∧ c ≤ max) :
    kind.next c max = .ok (some c) := by
  have hmask := cluster_and_mask hmax hc.2
  have hend : ¬ kind.endOfChain ≤ c := by
    cases kind <;> simp only [badCluster, endOfChain] at hmax ⊢ <;> omega
  have hbad : ¬ c = kind.badCluster := by omega
  simp only [next, hmask, isEndOfChain, isBad, decide_eq_true_eq, beq_iff_eq,
    if_neg hend, if_neg hbad]
  rw [if_neg (by omega)]

theorem next_endOfChain (kind : FatKind) (max : Nat) :
    kind.next kind.endOfChain max = .ok none := by
  cases kind <;> rfl

end FatKind

namespace ClusterGroup

variable {group : ClusterGroup} {cluster c : Nat}

@[simp] theorem add_base : (group.add cluster).base = group.base := by
  simp only [add]
  split <;> rfl

theorem spans_iff : group.spans cluster = true ↔ group.base ≤ cluster ∧
    cluster < group.base + span := by
  simp only [spans, Bool.and_eq_true, decide_eq_true_eq]
  omega

theorem has_iff : group.has cluster = true ↔ cluster ∈ group.members := contains_iff_mem

theorem mem_add_iff : c ∈ (group.add cluster).members ↔ c ∈ group.members ∨ c = cluster ∧
    group.spans cluster = true := by
  simp only [add]
  by_cases hnew : (group.spans cluster && !group.has cluster) = true
  · rw [if_pos hnew]
    rw [Bool.and_eq_true, Bool.not_eq_true', Bool.eq_false_iff, Ne, has_iff] at hnew
    simp only [mem_append, mem_filter, mem_cons, decide_eq_true_eq]
    constructor
    · rintro (h | h | h)
      · exact .inl h.1
      · exact .inr ⟨h, hnew.1⟩
      · exact .inl h.1
    · rintro (h | h)
      · have hne : c ≠ cluster := fun heq => hnew.2 (heq ▸ h)
        rcases Nat.lt_or_gt_of_ne hne with hlt | hgt
        · exact .inr (.inr ⟨h, hlt⟩)
        · exact .inl ⟨h, hgt⟩
      · exact .inr (.inl h.1)
  · rw [if_neg hnew]
    refine ⟨.inl, fun h => ?_⟩
    rcases h with h | ⟨rfl, hspans⟩
    · exact h
    · by_contra hmem
      refine hnew (Bool.and_eq_true_iff.mpr ⟨hspans, ?_⟩)
      rwa [Bool.not_eq_true', Bool.eq_false_iff, Ne, has_iff]

theorem add_below (hspans : group.spans cluster = true) (h : ∀ c ∈ group.members, cluster < c) :
    (group.add cluster).members = group.members ++ [cluster] := by
  have hhas : group.has cluster = false := by
    rw [Bool.eq_false_iff, Ne, has_iff]
    exact fun hc => absurd (h _ hc) (Nat.lt_irrefl _)
  have habove : group.members.filter (cluster < ·) = group.members :=
    filter_eq_self.mpr fun c hc => decide_eq_true (h c hc)
  have hbelow : group.members.filter (· < cluster) = [] :=
    filter_eq_nil_iff.mpr fun c hc => by
      have := h c hc
      rw [decide_eq_true_eq]
      omega
  rw [add, hspans, hhas, habove, hbelow]
  rfl

/-- The members stand from the highest to the lowest. -/
def Descending (group : ClusterGroup) : Prop := group.members.Pairwise (· > ·)

def highest (group : ClusterGroup) : Nat := group.highest?.getD group.lowest

theorem Descending.bounds (h : group.Descending) (hc : c ∈ group.members) :
    group.lowest ≤ c ∧ c ≤ group.highest := by
  rw [Descending] at h
  rw [highest, highest?, lowest]
  constructor
  · obtain ⟨front, hfront⟩ : ∃ front, group.members = front ++
      [group.members.getLast (ne_nil_of_mem hc)] :=
      ⟨group.members.dropLast, (dropLast_append_getLast _).symm⟩
    rw [getLastD_eq_getLast?, getLast?_eq_some_getLast (ne_nil_of_mem hc), Option.getD_some]
    rw [hfront] at h hc
    rcases mem_append.mp hc with hin | hin
    · exact ((pairwise_append.mp h).2.2 c hin _ (mem_singleton_self _)).le
    · exact (mem_singleton.mp hin).ge
  · rcases hmembers : group.members with _ | ⟨first, rest⟩
    · rw [hmembers] at hc
      cases hc
    · rw [hmembers] at h hc
      rw [head?_cons, Option.getD_some]
      rcases mem_cons.mp hc with rfl | hin
      · exact le_rfl
      · exact (rel_of_pairwise_cons h hin).le

theorem Descending.add (h : group.Descending) (cluster : Nat) :
    (group.add cluster).Descending := by
  rw [Descending] at h ⊢
  simp only [ClusterGroup.add]
  split
  · rw [pairwise_append, pairwise_cons]
    refine ⟨h.filter _, ⟨fun c hc => ?_, h.filter _⟩, fun a ha b hb => ?_⟩
    · rw [mem_filter, decide_eq_true_eq] at hc
      exact hc.2
    · rw [mem_filter, decide_eq_true_eq] at ha
      rcases mem_cons.mp hb with rfl | hb
      · exact ha.2
      · rw [mem_filter, decide_eq_true_eq] at hb
        exact hb.2.trans ha.2
  · exact h

end ClusterGroup

namespace Medium

variable {m : Medium} {a b c : Nat}

theorem ne_zero_of_link {tbl : Nat → Nat → Nat} {next : Option Nat}
    (h : Fat.link m tbl c = .ok next) : tbl 0 c ≠ 0 := by
  intro hzero
  obtain ⟨err, herr⟩ := FatKind.next_zero m.geo.kind m.geo.maxCluster
  rw [Fat.link, hzero, herr] at h
  cases h

/-- In every FAT copy written, one device block holds the entries of `a` and `b`. -/
def SameBlock (m : Medium) (a b : Nat) : Prop := ∀ step < m.geo.copies,
  m.geo.entryAt step a / m.blockSize = m.geo.entryAt step b / m.blockSize ∧
    m.Whole step a ∧ m.Whole step b

theorem SameBlock.symm (h : m.SameBlock a b) : m.SameBlock b a := fun step hstep =>
  ⟨(h step hstep).1.symm, (h step hstep).2.2, (h step hstep).2.1⟩

theorem SameBlock.trans (h : m.SameBlock a b) (h' : m.SameBlock b c) : m.SameBlock a c :=
  fun step hstep =>
  ⟨(h step hstep).1.trans (h' step hstep).1, (h step hstep).2.1, (h' step hstep).2.2⟩

theorem sameFatBlock_iff {fat : Fat} (hgeo : fat.geo = m.geo) (hbs : 0 < m.blockSize) :
    fat.sameFatBlock m.blockSize a b = true ↔ m.SameBlock a b := by
  simp only [Fat.sameFatBlock, hgeo, all_eq_true, mem_range, Bool.and_eq_true,
    beq_iff_eq, SameBlock, whole_iff hbs, and_assoc]

theorem lies_iff (hbs : 0 < m.blockSize) {step : Nat} :
    m.geo.Lies step (m.geo.entryAt step a / m.blockSize * m.blockSize) m.blockSize c ↔
      m.geo.entryAt step c / m.blockSize = m.geo.entryAt step a / m.blockSize ∧
        m.Whole step c := by
  have hlen := m.entryLen_pos
  have hdiv := Nat.div_add_mod' (m.geo.entryAt step c) m.blockSize
  have hmod := Nat.mod_lt (m.geo.entryAt step c) hbs
  rw [Geometry.Lies, Whole]
  constructor
  · intro h
    have hblock : m.geo.entryAt step c / m.blockSize = m.geo.entryAt step a / m.blockSize :=
      Nat.div_eq_of_lt_le h.1 (by rw [Nat.succ_mul]; omega)
    rw [hblock] at hdiv
    exact ⟨hblock, by omega⟩
  · rintro ⟨hblock, hwhole⟩
    rw [hblock] at hdiv
    omega

theorem fits_of_sameBlock (hbs : 0 < m.blockSize) {group : ClusterGroup} {tail : Option Nat}
    (h : ∀ c ∈ Fat.groupEntries group tail, m.SameBlock c group.lowest) {step : Nat}
    (hstep : step < m.geo.copies) :
    Fat.Fits m group tail step := fun c hc =>
  (lies_iff hbs).mpr ⟨(h c hc step hstep).1, (h c hc step hstep).2.1⟩

theorem Fits.whole (hbs : 0 < m.blockSize) {group : ClusterGroup} {tail : Option Nat} {step : Nat}
    (h : Fat.Fits m group tail step) (hc : c ∈ Fat.groupEntries group tail) : m.Whole step c :=
  ((lies_iff hbs).mp (h c hc)).2

end Medium

namespace Vol

open Device (Faulty Lands)
open Prog (Triple)

variable {m : Medium} {A : Outcome Stop → Prop} {rest : Nat → UInt8}
  {tbl : Nat → Nat → Nat} {fat : Fat}

/-- A free cluster. -/
def Free (m : Medium) (tbl : Nat → Nat → Nat) (c : Nat) : Prop := m.geo.IsCluster c ∧ tbl 0 c = 0

/-- The clusters of a volume. -/
abbrev total (m : Medium) : Nat := m.geo.maxCluster - 1

variable {from_ step turns : Nat}

theorem total_eq (m : Medium) : m.geo.maxCluster - firstDataCluster + 1 = total m := by
  have := m.valid.maxCluster.1
  simp only [firstDataCluster, total] at this ⊢
  omega

theorem total_pos (m : Medium) : 0 < total m := by
  rw [← total_eq]
  omega

theorem isCluster_cyclicAt (hfrom : from_ < total m) (hstep : step < total m) :
    m.geo.IsCluster (cyclicAt (total m) from_ step) := by
  simp only [Geometry.IsCluster, cyclicAt, firstDataCluster, total] at *
  split <;> omega

theorem cyclicAt_inj {i j : Nat} (hi : i < total m) (hj : j < total m)
    (h : cyclicAt (total m) from_ i = cyclicAt (total m) from_ j) : i = j := by
  simp only [cyclicAt] at h
  split at h <;> split at h <;> omega

theorem exists_cyclicAt (hfrom : from_ < total m) {c : Nat} (hc : m.geo.IsCluster c) :
    ∃ i < total m, cyclicAt (total m) from_ i = c := by
  simp only [Geometry.IsCluster, firstDataCluster, total] at hc hfrom
  refine ⟨if from_ ≤ c - 2 then c - 2 - from_ else m.geo.maxCluster - 1 - from_ + (c - 2), ?_, ?_⟩
  · simp only [total]
    split <;> omega
  · simp only [cyclicAt, firstDataCluster, total]
    split <;> split <;> omega

theorem after_cyclicAt (hgeo : fat.geo = m.geo) (hfrom : from_ < total m)
    (hstep : step + 1 < total m) :
    fat.after (cyclicAt (total m) from_ step) = cyclicAt (total m) from_ (step + 1) := by
  simp only [Fat.after, cyclicAt, firstDataCluster, hgeo, total] at *
  split <;> split <;> split <;> omega

theorem cyclicAt_succ (m : Medium) (from_ step : Nat) :
    cyclicAt (total m) from_ (step + 1) = cyclicAt (total m) from_ step + 1 ∨
      cyclicAt (total m) from_ step = m.geo.maxCluster := by
  simp only [cyclicAt, firstDataCluster, total] at *
  split <;> split <;> omega

def frees (m : Medium) (tbl : Nat → Nat → Nat) (from_ lo n : Nat) : List Nat :=
  ((range' lo n).map (cyclicAt (total m) from_)).filter fun c => tbl 0 c = 0

theorem frees_succ (m : Medium) (tbl : Nat → Nat → Nat) (from_ lo n : Nat) :
    frees m tbl from_ lo (n + 1) =
    if tbl 0 (cyclicAt (total m) from_ lo) = 0 then cyclicAt (total m) from_ lo ::
      frees m tbl from_ (lo + 1) n
    else frees m tbl from_ (lo + 1) n := by
  simp only [frees, range'_succ, map_cons, filter_cons, decide_eq_true_eq]

theorem frees_append (m : Medium) (tbl : Nat → Nat → Nat) (from_ lo n k : Nat) :
    frees m tbl from_ lo (n + k) = frees m tbl from_ lo n ++ frees m tbl from_ (lo + n) k := by
  rw [frees, frees, frees, ← filter_append, ← map_append, range'_append_1]

theorem mem_frees {lo n c : Nat} : c ∈ frees m tbl from_ lo n ↔
    (∃ i, lo ≤ i ∧ i < lo + n ∧ cyclicAt (total m) from_ i = c) ∧ tbl 0 c = 0 := by
  simp only [frees, mem_filter, mem_map, mem_range'_1, decide_eq_true_eq, and_assoc]

theorem free_of_mem_frees (hfrom : from_ < total m) {lo n c : Nat} (hn : lo + n ≤ total m)
    (h : c ∈ frees m tbl from_ lo n) : Free m tbl c := by
  obtain ⟨⟨i, -, hi, rfl⟩, hzero⟩ := mem_frees.mp h
  exact ⟨isCluster_cyclicAt hfrom (by omega), hzero⟩

theorem nodup_frees {lo n : Nat} (hn : lo + n ≤ total m) :
    (frees m tbl from_ lo n).Nodup := by
  refine List.Nodup.filter _ (List.Nodup.map_on (fun i hi j hj h => ?_) nodup_range')
  rw [mem_range'_1] at hi hj
  exact cyclicAt_inj (by omega) (by omega) h

theorem length_frees (hfrom : from_ < total m) :
    (frees m tbl from_ 0 (total m)).length = m.geo.freeCount (tbl 0) := by
  have hperm : ((range' 0 (total m)).map (cyclicAt (total m) from_)).Perm
      (range' firstDataCluster (m.geo.maxCluster - 1)) := by
    refine (perm_ext_iff_of_nodup (List.Nodup.map_on (fun i hi j hj h => ?_) nodup_range')
      nodup_range').mpr fun c => ?_
    · rw [mem_range'_1] at hi hj
      exact cyclicAt_inj (by omega) (by omega) h
    · rw [Geometry.mem_clusters]
      simp only [mem_map, mem_range'_1]
      constructor
      · rintro ⟨i, hi, rfl⟩
        exact isCluster_cyclicAt hfrom (by omega)
      · intro hc
        obtain ⟨i, hi, hic⟩ := exists_cyclicAt hfrom hc
        exact ⟨i, ⟨Nat.zero_le _, by omega⟩, hic⟩
  rw [frees, ← countP_eq_length_filter, hperm.countP_eq]
  rfl

theorem shown_findFreeLoop (hgeo : fat.geo = m.geo) (hfrom : from_ < total m)
    (turns step cluster : Nat)
    (hend : step + turns ≤ total m)
    (hcluster : 0 < turns → cluster = cyclicAt (total m) from_ step) :
    Triple (m.Shown A rest tbl) (findFreeLoop fat turns cluster)
      (fun found io => found = (frees m tbl from_ step turns).head? ∧ m.Shown A rest tbl io)
      (fun _ io => Faulty A ∧ m.Shown A rest tbl io) := by
  induction turns generalizing step cluster with
  | zero => exact Triple.pure fun io h => ⟨rfl, h⟩
  | succ turns ih =>
    obtain rfl := hcluster (Nat.succ_pos _)
    have hc := isCluster_cyclicAt hfrom (show step < total m by omega)
    refine Triple.bind ((Fat.shown_get hgeo _).weaken (fun _ _ h => h) fun _ io h =>
      ⟨h.1.resolve_right (not_not.mpr hc), h.2⟩) fun stored => Triple.assume fun hstored => ?_
    rw [hgeo, hstored.2, frees_succ]
    refine Triple.ite (fun hzero => ?_) fun hzero => ?_
    · rw [if_pos hzero]
      exact Triple.pure fun io h => ⟨rfl, h⟩
    · rw [if_neg hzero]
      exact ih (step + 1) _ (by omega) fun hpos => after_cyclicAt hgeo hfrom (by omega)

/-- What a scan of `turns` clusters from `step` on finds, with `found` free clusters
before: how many there are, or the step of the last of `count`. -/
def Scanned (m : Medium) (tbl : Nat → Nat → Nat) (from_ count step turns found : Nat) :
    Nat × Option Nat → Prop
  | (n, none) => n = found + (frees m tbl from_ step turns).length ∧ n < count
  | (_, some last) => step ≤ last ∧ last < step + turns ∧
    tbl 0 (cyclicAt (total m) from_ last) = 0 ∧
      found + (frees m tbl from_ step (last + 1 - step)).length = count

theorem Scanned.succ {count step turns found : Nat} {r : Nat × Option Nat}
    (h : Scanned m tbl from_ count (step + 1) turns
      (if tbl 0 (cyclicAt (total m) from_ step) = 0 then found + 1 else found) r) :
    Scanned m tbl from_ count step (turns + 1) found r := by
  have hlength (n : Nat) : found + (frees m tbl from_ step (n + 1)).length =
      (if tbl 0 (cyclicAt (total m) from_ step) = 0 then found + 1 else found) +
        (frees m tbl from_ (step + 1) n).length := by
    rw [frees_succ]
    split
    · rw [length_cons]
      omega
    · rfl
  obtain ⟨n, last⟩ := r
  cases last with
  | none =>
    rw [Scanned] at h ⊢
    rw [hlength]
    exact h
  | some last =>
    rw [Scanned] at h ⊢
    have hn : last + 1 - step = last + 1 - (step + 1) + 1 := by omega
    rw [hn, hlength]
    exact ⟨by omega, by omega, h.2.2⟩

theorem shown_scanFree (hgeo : fat.geo = m.geo) (hfrom : from_ < total m) {count : Nat}
    (turns step found : Nat) (hend : step + turns ≤ total m) (hfound : found < count) :
    Triple (m.Shown A rest tbl) (scanFree fat (total m) from_ count turns step found)
      (fun r io => Scanned m tbl from_ count step turns found r ∧ m.Shown A rest tbl io)
      (fun _ io => Faulty A ∧ m.Shown A rest tbl io) := by
  induction turns generalizing step found with
  | zero => exact Triple.pure fun io h => ⟨⟨rfl, hfound⟩, h⟩
  | succ turns ih =>
    have hc := isCluster_cyclicAt hfrom (show step < total m by omega)
    refine Triple.bind ((Fat.shown_get hgeo _).weaken (fun _ _ h => h) fun _ io h =>
      ⟨h.1.resolve_right (not_not.mpr hc), h.2⟩) fun stored => Triple.assume fun hstored => ?_
    rw [hgeo, hstored.2]
    refine Triple.ite (fun hzero => ?_) fun hzero => ?_
    · refine Triple.ite (fun hlast => Triple.pure fun io h => ⟨⟨le_rfl, by omega, hzero, ?_⟩, h⟩)
        fun hmore => ?_
      · rw [Nat.add_sub_cancel_left, frees_succ, if_pos hzero]
        simpa [frees] using hlast
      · refine (ih (step + 1) (found + 1) (by omega) (by omega)).post fun r io h =>
          ⟨Scanned.succ ?_, h.2⟩
        rw [if_pos hzero]
        exact h.1
    · refine (ih (step + 1) found (by omega) hfound).post fun r io h => ⟨Scanned.succ ?_, h.2⟩
      rw [if_neg hzero]
      exact h.1

/-- The clusters at the steps `lo` to `top` of a scan, the first of which is `high`,
follow each other downwards, share its block and lie within the span of a group. -/
def Descends (m : Medium) (from_ base lo top : Nat) : Prop :=
  ∀ i, lo ≤ i → i ≤ top → cyclicAt (total m) from_ i + (top - i) = cyclicAt (total m) from_ top ∧
    base ≤ cyclicAt (total m) from_ i ∧ m.SameBlock (cyclicAt (total m) from_ i)
      (cyclicAt (total m) from_ top)

theorem shown_gatherFree (hgeo : fat.geo = m.geo) (hbs : 0 < m.blockSize)
    (hfrom : from_ < total m) {top : Nat}
    (htop : top < total m) (lo : Nat) (group : ClusterGroup) (hlo : lo ≤ top + 1)
    (hbase : group.base = cyclicAt (total m) from_ top - (ClusterGroup.span - 1))
    (hgroup : group.members = (frees m tbl from_ lo (top + 1 - lo)).reverse)
    (hdescends : Descends m from_ group.base lo top) :
    Triple (m.Shown A rest tbl)
      (gatherFree fat m.blockSize (total m) from_ (cyclicAt (total m) from_ top) lo group)
      (fun r io => (r.1 ≤ lo ∧ r.2.base = group.base ∧
        r.2.members = (frees m tbl from_ r.1 (top + 1 - r.1)).reverse ∧
        Descends m from_ group.base r.1 top ∧
        (lo = top + 1 → m.SameBlock (cyclicAt (total m) from_ top)
          (cyclicAt (total m) from_ top) → r.1 ≤ top)) ∧ m.Shown A rest tbl io)
      (fun _ io => Faulty A ∧ m.Shown A rest tbl io) := by
  induction lo generalizing group with
  | zero =>
    exact Triple.pure fun io h =>
      ⟨⟨le_rfl, rfl, hgroup, hdescends, fun htop => absurd htop (by omega)⟩, h⟩
  | succ lo ih =>
    have hc := isCluster_cyclicAt hfrom (show lo < total m by omega)
    have hspan : (2048 : Nat) = ClusterGroup.span := rfl
    refine Triple.ite (fun hstop => Triple.pure fun io h =>
      ⟨⟨le_rfl, rfl, hgroup, hdescends, fun hfirst hwhole => ?_⟩, h⟩)
      fun hgo => ?_
    · obtain rfl : lo = top := by omega
      refine absurd hstop ?_
      rw [not_or, not_or, not_not, not_not, ClusterGroup.spans_iff,
        Medium.sameFatBlock_iff hgeo hbs]
      exact ⟨Nat.lt_irrefl _, by omega, hwhole⟩
    rw [not_or, not_or, not_not, not_not, not_lt, ClusterGroup.spans_iff,
      Medium.sameFatBlock_iff hgeo hbs] at hgo
    obtain ⟨hhigh, hspans, hblock⟩ := hgo
    have hnext : Descends m from_ group.base lo top := by
      intro i hi hitop
      rcases Nat.lt_or_eq_of_le hi with hlt | rfl
      · exact hdescends i hlt hitop
      refine ⟨?_, hspans.1, hblock⟩
      rcases Nat.lt_or_eq_of_le hitop with hlt | rfl
      · have habove := (hdescends (lo + 1) le_rfl hlt).1
        rcases cyclicAt_succ m from_ lo with hup | hmax
        · omega
        · -- the last cluster is not above the one the scan of the block began with
          have hle := (isCluster_cyclicAt (m := m) hfrom htop).2
          have hlo := cyclicAt_inj (m := m) (by omega) htop (show cyclicAt (total m) from_ lo =
            cyclicAt (total m) from_ top by omega)
          omega
      · omega
    have hlen : top + 1 - lo = top + 1 - (lo + 1) + 1 := by omega
    refine Triple.bind ((Fat.shown_get hgeo _).weaken (fun _ _ h => h) fun _ io h =>
      ⟨h.1.resolve_right (not_not.mpr hc), h.2⟩) fun stored => Triple.assume fun hstored => ?_
    rw [hgeo, hstored.2]
    have hadd : (if tbl 0 (cyclicAt (total m) from_ lo) = 0
        then group.add (cyclicAt (total m) from_ lo)
          else group).members = (frees m tbl from_ lo (top + 1 - lo)).reverse := by
      rw [hlen, frees_succ]
      by_cases hzero : tbl 0 (cyclicAt (total m) from_ lo) = 0
      · rw [if_pos hzero, if_pos hzero, reverse_cons, ← hgroup]
        refine ClusterGroup.add_below (ClusterGroup.spans_iff.mpr hspans) fun c hmem => ?_
        rw [hgroup, mem_reverse, mem_frees] at hmem
        obtain ⟨⟨i, hi, hi', rfl⟩, -⟩ := hmem
        have h₀ := (hnext lo le_rfl (by omega)).1
        have h₁ := (hnext i (by omega) (by omega)).1
        omega
      · rw [if_neg hzero, if_neg hzero, hgroup]
    have hsame :
        (if tbl 0 (cyclicAt (total m) from_ lo) = 0 then group.add (cyclicAt (total m) from_ lo)
          else group).base = group.base := by
      split
      · exact ClusterGroup.add_base
      · rfl
    refine (ih _ (by omega) (hsame.trans hbase) hadd (hsame ▸ hnext)).post fun r io h => ⟨?_, h.2⟩
    obtain ⟨hle, hbase', hmembers, hdesc, -⟩ := h.1
    rw [hsame] at hbase' hdesc
    exact ⟨by omega, hbase', hmembers, hdesc, fun _ _ => by omega⟩

/-- How the clusters of a chain from `cluster` on are gathered that share its block:
`next` is how the gathering ends, and `group` what it gathered. -/
inductive Gathered (m : Medium) (A : Outcome Stop → Prop) (tbl : Nat → Nat → Nat) (base : Nat) :
    Nat → ClusterGroup → ChainEnd → ClusterGroup → Prop
  | looped {cluster : Nat} {group : ClusterGroup} (hhas : cluster ∈ group.members) :
      Gathered m A tbl base cluster group (.error Detail.cyclicChain.corrupt) group
  | broken {cluster : Nat} {group : ClusterGroup} {e : Stop} (hhas : cluster ∉ group.members)
      (hwhy : Faulty A ∨ ¬ m.geo.IsCluster cluster ∨ ∃ err, Fat.link m tbl cluster = .error err) :
      Gathered m A tbl base cluster group (.error e) group
  | left {cluster : Nat} {group : ClusterGroup} {next : Option Nat}
      (hhas : cluster ∉ group.members)
      (hc : m.geo.IsCluster cluster) (hlink : Fat.link m tbl cluster = .ok next)
      (hleft : ∀ c, next = some c → ¬ (base ≤ c ∧ m.SameBlock cluster c)) :
      Gathered m A tbl base cluster group (.ok next) (group.add cluster)
  | went {cluster c : Nat} {group group' : ClusterGroup} {next : ChainEnd}
      (hhas : cluster ∉ group.members)
      (hc : m.geo.IsCluster cluster) (hlink : Fat.link m tbl cluster = .ok (some c))
      (hbase : base ≤ c)
      (hblock : m.SameBlock cluster c)
      (hrest : Gathered m A tbl base c (group.add cluster) next group') :
      Gathered m A tbl base cluster group next group'

/-- The turns of the gathering run out. -/
def Endless (m : Medium) (tbl : Nat → Nat → Nat) (base : Nat) : Nat → Nat → ClusterGroup → Prop
  | 0, _, _ => True
  | turns + 1, cluster, group => cluster ∉ group.members ∧ m.geo.IsCluster cluster ∧
      ∃ c, Fat.link m tbl cluster = .ok (some c) ∧ base ≤ c ∧ m.SameBlock cluster c ∧
        Endless m tbl base turns c (group.add cluster)

/-- What comes of following the link of a cluster. -/
def Followed (m : Medium) (A : Outcome Stop → Prop) (tbl : Nat → Nat → Nat) (cluster : Nat) :
    ChainEnd → Prop
  | .ok next => m.geo.IsCluster cluster ∧ Fat.link m tbl cluster = .ok next
  | .error _ => Faulty A ∨ ¬ m.geo.IsCluster cluster ∨ ∃ err, Fat.link m tbl cluster = .error err

theorem shown_gatherChain (hgeo : fat.geo = m.geo) (hbs : 0 < m.blockSize)
    (base turns cluster : Nat) (group : ClusterGroup) :
    Triple (m.Shown A rest tbl) (gatherChain fat m.blockSize base turns cluster group)
      (fun r io => Gathered m A tbl base cluster group r.1 r.2 ∧ m.Shown A rest tbl io)
      (fun e io => (e = .diverged ∧ Endless m tbl base turns cluster group) ∧
        m.Shown A rest tbl io) := by
  induction turns generalizing cluster group with
  | zero => exact Triple.fail fun io h => ⟨⟨rfl, trivial⟩, h⟩
  | succ turns ih =>
    refine Triple.ite (fun hhas => Triple.pure fun io h =>
      ⟨.looped (ClusterGroup.has_iff.mp hhas), h⟩) fun hhas => ?_
    rw [ClusterGroup.has_iff] at hhas
    refine Triple.bind (Q := fun r io => Followed m A tbl cluster r ∧ m.Shown A rest tbl io)
      (Triple.attempt (Fat.shown_next hgeo cluster) (fun _ _ h => h) fun _ _ h => h) fun r =>
        Triple.assume fun hr => ?_
    rcases r with e | next | next
    · exact Triple.pure fun io h => ⟨.broken hhas hr, h⟩
    · exact Triple.pure fun io h =>
        ⟨.left hhas hr.1 hr.2 fun _ hc => absurd hc (Option.some_ne_none _).symm, h⟩
    · refine Triple.ite (fun hin => ?_) fun hout => Triple.pure fun io h =>
        ⟨.left hhas hr.1 hr.2 fun c hc => ?_, h⟩
      · rw [Medium.sameFatBlock_iff hgeo hbs] at hin
        exact (ih next (group.add cluster)).weaken
          (fun r io h => ⟨.went hhas hr.1 hr.2 hin.1 hin.2 h.1, h.2⟩)
          fun e io h => ⟨⟨h.1.1, hhas, hr.1, next, hr.2, hin.1, hin.2, h.1.2⟩, h.2⟩
      · cases hc
        rwa [Medium.sameFatBlock_iff hgeo hbs] at hout

end Vol

end Hadris
