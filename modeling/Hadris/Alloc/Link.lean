import Hadris.DirtyRun
import Hadris.FatView
import Hadris.Alloc.Gather
import Hadris.Alloc.Store

namespace Hadris

section

open Io (Answers)
open Prog (Triple)

variable {A : Outcome Stop → Prop} {bs count : Nat} {img : Nat → UInt8}

theorem answers_readGeometry : Triple (Answers A bs count img) readGeometry
    (fun geo io => geo.dataEnd ≤ count * bs ∧ Answers A bs count img io) fun _ _ => True := by
  refine Triple.bind ((Io.answers_readBytes 0 bootSectorLen).weaken (fun _ _ h => h.2) fun _ _
    _ => trivial) fun sector => ?_
  split
  · exact Triple.fail fun _ _ => trivial
  · intro io hio
    have hsize : io.dev.size = count *
      bs := by rw [Device.size, hio.2.blockSize, hio.2.blockCount]
    refine Triple.bind (Q := fun size io => size = count * bs ∧ Answers A bs count img io)
      (Triple.gets fun io hio => ⟨by rw [Device.size, hio.2.blockSize, hio.2.blockCount], hio⟩)
        (fun size => Triple.assume ?_)
      io hio
    rintro rfl
    exact Triple.ite (fun _ => Triple.fail fun _ _ => trivial) fun hle =>
      Triple.pure fun io hio => ⟨not_lt.mp hle, hio⟩

theorem answers_readFat (geo : Geometry) : Triple (Answers A bs count img) (readFat geo)
    (fun fat io => fat.geo = geo ∧ Answers A bs count img io) fun _ _ => True := by
  have hread (offset len : Nat) : Triple (Answers A bs count img) (Io.readBytes offset len)
      (fun _ => Answers A bs count img) fun _ _ => True :=
    (Io.answers_readBytes offset len).weaken (fun _ _ h => h.2) fun _ _ _ => trivial
  refine Triple.bind (Q := fun _ => Answers A bs count img) ?_ fun wasDirty => ?_
  · exact Triple.ite (fun _ => Triple.pure fun _ h => h) fun _ => Triple.bind (hread _ _) fun _ =>
      Triple.pure fun _ h => h
  · split
    · exact Triple.pure fun _ h => ⟨rfl, h⟩
    · exact Triple.bind (hread _ _) fun _ => Triple.pure fun _ h => ⟨rfl, h⟩

end

theorem Opened.medium {A : Outcome Stop → Prop} {io : Io} {vol : Vol} (h : Opened io vol)
    (hA : ∀ o ∈ io.dev.script, A o) :
    ∃ m : Medium, m.geo = vol.state.geo ∧
      m.At A io.dev.bytes ⟨m.geo.value io.dev.bytes, vol.state, vol.held⟩ vol := by
  have hio : Io.Answers A io.dev.blockSize io.dev.blockCount io.dev.bytes io :=
    ⟨⟨h.length, fun i hi => by rw [h.fresh] at hi; cases hi⟩, rfl, rfl, rfl, hA⟩
  have hrun := h.mount
  have hgeo := answers_readGeometry io hio
  rcases hread : readGeometry.run io with ⟨e | geo, io'⟩
  · rw [openFat, Prog.run_bind_error hread] at hrun
    cases hrun
  · rw [hread] at hgeo
    rw [openFat, Prog.run_bind_ok hread] at hrun
    have hfat := answers_readFat geo io' hgeo.2
    rw [hrun] at hfat
    have hmounted := h.mounted
    refine ⟨⟨vol.state.geo, io.dev.blockSize, io.dev.blockCount, hmounted.1,
      hfat.1.symm ▸ hgeo.1⟩, rfl, ?_⟩
    exact ⟨⟨io.dev.bytes, ⟨fun _ _ => rfl, fun _ _ _ _ => rfl, fun _ _ _ _ => rfl⟩, hfat.2⟩, rfl,
      ⟨vol.state.dirty, vol.state.infoDirty, rfl⟩, rfl⟩

end Hadris

namespace Hadris

namespace View

def hint (v : View) : Nat := Vol.clampCluster v.fat v.fat.nextFree - firstDataCluster

def counted (n : Nat) (v : View) : View :=
  { v with fat := { v.fat with free := some n, counted := true } }

def holding (f : Held → Held) (v : View) : View := { v with held := v.held.map f }

def searched (cluster : Nat) (v : View) : View :=
  { v with fat := { v.fat with nextFree := v.fat.after cluster } }

end View

namespace Vol

open Borrow (getState onIo reading setState setHeld)
open Device (Faulty)
open Prog (Triple)

variable {m : Medium} {A : Outcome Stop → Prop} {rest : Nat → UInt8} {v : View}
  {tbl : Nat → Nat → Nat}
variable {from_ lo top : Nat} {group : ClusterGroup}

theorem hint_lt (hgeo : v.fat.geo = m.geo) : v.hint < total m := by
  have := m.valid.maxCluster.1
  simp only [View.hint, clampCluster, hgeo, firstDataCluster, total] at *
  omega

theorem cyclicAt_hint (hgeo : v.fat.geo = m.geo) :
    clampCluster v.fat v.fat.nextFree = cyclicAt (total m) v.hint 0 := by
  have hlt := hint_lt hgeo
  have := m.valid.maxCluster.1
  rw [cyclicAt, Nat.add_zero, if_neg (not_le.mpr hlt)]
  simp only [View.hint, clampCluster, hgeo, firstDataCluster] at *
  omega

theorem at_counted {α : Type} (n : Nat) {Q : α → Vol → Prop} {p : Prop} [Decidable p]
    (hp : ¬ p → v.fat.free = some n) :
    Triple (m.At A rest v) (do
      Prog.when p (setState fun fat => { fat with free := some n, infoDirty := true })
      setState fun fat => { fat with counted := true }
      Prog.fail (.ofKind .noSpace)) Q (fun e vol => e = .ofKind .noSpace ∧
        m.At A rest (v.counted n) vol) := by
  refine Triple.bind (Q := fun _ => m.At A rest { v with fat := { v.fat with free := some n } })
    ?_ fun _ =>
    Triple.bind (Q := fun _ => m.At A rest (v.counted n))
      (Medium.at_setState (fun hgeo => hgeo) fun dirty info => ⟨dirty, info, rfl⟩) fun _ =>
        Triple.fail fun _ hat => ⟨rfl, hat⟩
  refine Triple.when (fun _ => Medium.at_setState (fun hgeo => hgeo) fun dirty _ =>
    ⟨dirty, true, rfl⟩) fun h vol hat => ?_
  rw [← hp h]
  exact hat

/-- What a search leaves that finds too few clusters. -/
def NoneFound (m : Medium) (A : Outcome Stop → Prop) (rest : Nat → UInt8) (count : Nat) (v : View)
    (vol : Vol) : Prop :=
  v.fat.full = true ∧ m.At A rest v vol ∨
    v.fat.full = false ∧ (frees m v.tbl v.hint 0 (total m)).length < count ∧
      m.At A rest (v.counted (frees m v.tbl v.hint 0 (total m)).length) vol

theorem at_findFree : Triple (m.At A rest v) findFree
    (fun c vol => (v.fat.full = false ∧ (frees m v.tbl v.hint 0 (total m)).head? = some c) ∧
      m.At A rest v vol)
    (fun e vol => Faulty A ∧ m.At A rest v vol ∨ e = .ofKind .noSpace ∧
      NoneFound m A rest 1 v vol) := by
  refine Medium.at_getState fun dirty info => Triple.of_forall fun vol₀ hvol => ?_
  refine Triple.pre ?_ fun vol heq => show m.At A rest v vol from heq ▸ hvol
  have hgeo : v.fat.geo = m.geo := hvol.geo
  have hfull : (v.fat.marked dirty info).full = v.fat.full := rfl
  rw [hfull]
  refine Triple.ite (fun hfull => Triple.fail fun _ hat => .inr ⟨rfl, .inl ⟨hfull, hat⟩⟩)
    fun hfull => ?_
  rw [Bool.not_eq_true] at hfull
  have hcount : (v.fat.marked dirty info).geo.maxCluster - firstDataCluster + 1 = total m := by
    rw [show (v.fat.marked dirty info).geo = m.geo from hgeo, total_eq]
  have hstart : clampCluster (v.fat.marked dirty info) (v.fat.marked dirty info).nextFree =
    cyclicAt (total m) v.hint 0 :=
    cyclicAt_hint hgeo
  rw [hcount, hstart]
  have hmarked : (v.fat.marked dirty info).geo = m.geo := hgeo
  refine Triple.bind (Q := fun found vol => found = (frees m v.tbl v.hint 0 (total m)).head? ∧
    m.At A rest v vol)
    ((Medium.at_reads (shown_findFreeLoop hmarked (hint_lt hgeo) (total m) 0 _
      (Nat.zero_add _).le fun _ => rfl)).weaken
      (fun _ _ h => h) fun _ _ h => .inl h) fun found => Triple.assume fun hfound => ?_
  cases found with
  | some c => exact Triple.pure fun vol hat => ⟨⟨hfull, hfound.symm⟩, hat⟩
  | none =>
    have hnone : (frees m v.tbl v.hint 0 (total m)).length = 0 := by
      rw [List.length_eq_zero_iff, ← List.head?_eq_none_iff]
      exact hfound.symm
    exact (at_counted 0 not_not.mp).weaken (fun _ _ h => h) fun _ _ h =>
      .inr ⟨h.1, .inr ⟨hfull, by omega, hnone.symm ▸ h.2⟩⟩

end Vol

end Hadris

namespace Hadris

namespace Vol

open Borrow (getState onIo reading setState setHeld)
open Device (Faulty)
open Prog (Triple)

variable {m : Medium} {A : Outcome Stop → Prop} {rest : Nat → UInt8} {v : View}
  {tbl : Nat → Nat → Nat}
variable {from_ lo top c d : Nat} {group : ClusterGroup}

/-- The free clusters at the steps `lo` to `top` of a search, which share a device block,
are gathered. -/
structure Gathering (m : Medium) (tbl : Nat → Nat → Nat) (from_ lo top : Nat)
    (group : ClusterGroup) : Prop where
  lo_le : lo ≤ top
  members : group.members = (frees m tbl from_ lo (top + 1 - lo)).reverse
  descends : Descends m from_ group.base lo top

namespace Gathering

theorem mem_iff (h : Gathering m tbl from_ lo top group) : c ∈ group.members ↔
    (∃ i, lo ≤ i ∧ i ≤ top ∧ cyclicAt (total m) from_ i = c) ∧ tbl 0 c = 0 := by
  have hlo := h.lo_le
  have hbound (i : Nat) : i < lo + (top + 1 - lo) ↔ i ≤ top := by omega
  simp only [h.members, List.mem_reverse, mem_frees, hbound]

theorem free (h : Gathering m tbl from_ lo top group) (hfrom : from_ < total m)
    (htop : top < total m) (hc : c ∈ group.members) : Free m tbl c := by
  obtain ⟨⟨i, -, hi, rfl⟩, hzero⟩ := h.mem_iff.mp hc
  exact ⟨isCluster_cyclicAt hfrom (by omega), hzero⟩

theorem sameBlock (h : Gathering m tbl from_ lo top group) (hc : c ∈ group.members)
    (hd : d ∈ group.members) :
    m.SameBlock c d := by
  obtain ⟨⟨i, hlo, hi, rfl⟩, -⟩ := h.mem_iff.mp hc
  obtain ⟨⟨j, hlo', hj, rfl⟩, -⟩ := h.mem_iff.mp hd
  exact (h.descends i hlo hi).2.2.trans (h.descends j hlo' hj).2.2.symm

theorem descending (h : Gathering m tbl from_ lo top group) : group.Descending := by
  have hlo := h.lo_le
  rw [ClusterGroup.Descending, h.members, List.pairwise_reverse, frees]
  have hrange : (List.range' lo (top + 1 - lo)).Pairwise (· < ·) := List.pairwise_lt_range'
  refine List.Pairwise.filter _
    (List.pairwise_map.mpr (hrange.imp_of_mem fun {i j} hi hj hij => ?_))
  rw [List.mem_range'_1] at hi hj
  have h₁ := (h.descends i hi.1 (by omega)).1
  have h₂ := (h.descends j hj.1 (by omega)).1
  omega

theorem mem_of_between (h : Gathering m tbl from_ lo top group) (hne : group.members ≠ [])
    (hlow : group.lowest ≤ c)
    (hhigh : c ≤ group.highest) (hzero : tbl 0 c = 0) : c ∈ group.members := by
  have hlowest := Fat.lowest_mem hne
  have hhighest : group.highest ∈ group.members := by
    rw [ClusterGroup.highest, ClusterGroup.highest?, List.head?_eq_some_head hne]
    exact List.head_mem hne
  obtain ⟨⟨i, hi, hitop, hilow⟩, -⟩ := h.mem_iff.mp hlowest
  obtain ⟨⟨j, hj, hjtop, hjhigh⟩, -⟩ := h.mem_iff.mp hhighest
  have h₁ := (h.descends i hi hitop).1
  have h₂ := (h.descends j hj hjtop).1
  have h₃ := (h.descends (i + (c - group.lowest)) (by omega) (by omega)).1
  exact h.mem_iff.mpr ⟨⟨i + (c - group.lowest), by omega, by omega, by omega⟩, hzero⟩

end Gathering

def heldBefore (m : Medium) (head extra : Nat) (v : View) : View :=
  v.holding fun _ => ⟨if head = m.geo.kind.endOfChain then 0 else head, extra⟩

def heldAfter (head : Nat) (v : View) : View := v.holding fun _ => ⟨head, 0⟩

/-- The rule for the loop of an allocation: `P` holds at its start, of the steps and of
the clusters still to go, the chain so far, and whether the tail is linked; it does not
turn on clusters passed over that are not free; and what the loop writes keeps it. -/
theorem at_linkGroups {P : Nat → Nat → Nat → Bool → View → Prop} {E : Stop → Vol → Prop}
    (hfrom : from_ < total m) (tail : Option Nat)
    (hread : ∀ {top left head linked v e vol}, P top left head linked v → Faulty A →
      m.At A rest v vol → E e vol)
    (hskip : ∀ {lo top left head linked v}, P (top + 1) left head linked v → lo ≤ top →
      frees m v.tbl from_ lo (top + 1 - lo) = [] → P lo left head linked v)
    (hone : ∀ {top left head linked v}, top < total m → P (top + 1) left head linked v →
      ¬ m.SameBlock (cyclicAt (total m) from_ top) (cyclicAt (total m) from_ top) →
      v.tbl 0 (cyclicAt (total m) from_ top) = 0 →
      Triple (m.At A rest (heldBefore m head (cyclicAt (total m) from_ top) v))
    (set (cyclicAt (total m) from_ top) head)
        (fun _ => m.Is A rest fun v => P top (left - 1) (cyclicAt (total m) from_ top) linked
          (heldAfter (cyclicAt (total m) from_ top) v)) E)
    (hgroup : ∀ {lo top left head linked v group} {link : Option Nat}, top < total m →
      P (top + 1) left head linked v →
      Gathering m v.tbl from_ lo top group → group.members ≠ [] →
      (∀ c, link = some c ↔ tail = some c ∧ left = group.count ∧ m.SameBlock c group.lowest) →
      Triple (m.At A rest (heldBefore m head group.lowest v)) (patch group (some head) link)
        (fun _ => m.Is A rest fun v => P lo (left - group.count) group.lowest
          (linked || link.isSome)
          (heldAfter group.lowest v)) E)
    (fuel top left head : Nat) (linked : Bool) (hfuel : top ≤ fuel)
    (htop : top ≤ total m) (v : View) (hP : P top left head linked v) :
    Triple (m.At A rest v) (linkGroups (total m) from_ tail fuel top left head linked)
      (fun r => m.Is A rest fun v => ∃ left, P 0 left r.1 r.2 v) E := by
  induction fuel generalizing top left head linked v with
  | zero =>
    obtain rfl : top = 0 := by omega
    exact Triple.pure fun vol hat => ⟨v, ⟨left, hP⟩, hat⟩
  | succ fuel ih =>
    cases top with
    | zero => exact Triple.pure fun vol hat => ⟨v, ⟨left, hP⟩, hat⟩
    | succ top =>
    have hhold {f : Held → Held} : Triple (m.At A rest v) (setHeld f)
      (fun _ => m.At A rest (v.holding f)) E :=
      Medium.at_setHeld f
    refine Medium.at_getState fun dirty info => Medium.at_size fun hbs =>
      Triple.of_forall fun vol₀ hvol => ?_
    refine Triple.pre ?_ fun vol heq => show m.At A rest v vol from heq ▸ hvol
    have hgeo : (v.fat.marked dirty info).geo = m.geo := hvol.geo
    have hc : m.geo.IsCluster (cyclicAt (total m) from_ top) := isCluster_cyclicAt hfrom htop
    rw [hgeo]
    refine Triple.ite (fun hsplit => ?_) fun hwhole => ?_
    · rw [Medium.sameFatBlock_iff hgeo hbs] at hsplit
      refine Triple.bind
        ((Medium.at_reads (Fat.shown_get hgeo _)).weaken (fun _ _ h => h) fun _ _ h =>
        hread hP (h.1.resolve_right (not_not.mpr hc)) h.2) fun stored =>
          Triple.assume fun hstored => ?_
      rw [hstored.2]
      refine Triple.ite (fun hzero => ?_) fun hzero => ?_
      · refine Triple.bind hhold fun _ => Triple.bind (hone htop hP hsplit hzero) fun _ => ?_
        refine Medium.is_intro fun v' hv' => Triple.bind (Medium.at_setHeld _) fun _ => ?_
        exact ih top _ _ _ (by omega) (by omega) _ hv'
      · refine ih top _ _ _ (by omega) (by omega) _ (hskip hP le_rfl ?_)
        rw [Nat.add_sub_cancel_left, frees_succ, if_neg hzero]
        rfl
    · rw [not_not, Medium.sameFatBlock_iff hgeo hbs] at hwhole
      refine Triple.bind (Q := fun r vol => (Gathering m v.tbl from_ r.1 top r.2) ∧
        m.At A rest v vol)
        ((Medium.at_reads (shown_gatherFree hgeo hbs hfrom htop (top + 1)
          (ClusterGroup.new (cyclicAt (total m) from_ top - (ClusterGroup.span - 1))) le_rfl rfl
          (by rw [Nat.sub_self]; rfl) fun i hi hitop => absurd hitop (not_le.mpr hi))).weaken
            (fun r vol h => ?_) fun _ _ h => hread hP h.1 h.2)
        fun r => Triple.assume fun hgather => ?_
      · obtain ⟨⟨-, hbase, hmembers, hdescends, hfirst⟩, hat⟩ := h
        exact ⟨⟨hfirst rfl hwhole, hmembers, by rwa [hbase]⟩, hat⟩
      obtain ⟨lo, group⟩ := r
      have hlo := hgather.lo_le
      refine Triple.ite (fun hcount => ?_) fun hcount => ?_
      · refine ih lo _ _ _ (by omega) (by omega) _ (hskip hP hlo ?_)
        rwa [ClusterGroup.count, hgather.members, List.length_reverse,
          List.length_eq_zero_iff] at hcount
      · rw [ClusterGroup.count, List.length_eq_zero_iff] at hcount
        refine Triple.bind hhold fun _ =>
          Triple.bind (hgroup htop hP hgather hcount fun c => ?_) fun _ => ?_
        · rw [Option.filter_eq_some_iff, Bool.and_eq_true, decide_eq_true_eq,
            Medium.sameFatBlock_iff hgeo hbs]
        · refine Medium.is_intro fun v' hv' => Triple.bind (Medium.at_setHeld _) fun _ => ?_
          exact ih lo _ _ _ (by omega) (by omega) _ hv'

end Vol

end Hadris
