import Hadris.Alloc.Link
import Hadris.Alloc.Recorded

namespace Hadris

namespace Medium

variable {m : Medium} {tbl active : Nat → Nat → Nat} {head start c : Nat}

/-- A chain to link to: none yet, or one of which no entry is free. -/
def Headed (m : Medium) (tbl : Nat → Nat → Nat) (head : Nat) : Prop :=
  head = m.geo.kind.endOfChain ∨ m.geo.IsCluster head ∧ ∀ c, m.Reaches tbl head c → tbl 0 c ≠ 0

theorem Headed.of_stored (members : List Nat) (hhead : m.Headed active head)
    (hmembers : ∀ c ∈ members, m.geo.IsCluster c)
    (hlinked : ∀ c ∈ members, ∃ next, tbl 0 c = next &&& m.geo.kind.mask ∧
      (next ∈ members ∨ next = head))
    (hnone : ∀ c, c ∉ members → tbl 0 c = active 0 c) (hstart : start ∈ members) :
    m.Headed tbl start := by
  have hlink (c : Nat) (hc : c ∈ members) : ∃ next, Fat.link m tbl c = .ok next ∧
      ∀ d, next = some d → d ∈ members ∨ m.geo.IsCluster head ∧ d = head := by
    obtain ⟨next, hstored, hnext⟩ := hlinked c hc
    rw [link_of_masked hstored]
    rcases hnext with hnext | rfl
    · exact ⟨some next, FatKind.next_cluster m.valid.maxCluster.2 (hmembers next hnext),
        fun d hd => .inl (by cases hd; exact hnext)⟩
    · rcases hhead with rfl | ⟨hcluster, -⟩
      · exact ⟨none, FatKind.next_endOfChain _ _, fun d hd => by cases hd⟩
      · exact ⟨some next, FatKind.next_cluster m.valid.maxCluster.2 hcluster, fun d hd =>
          .inr ⟨hcluster, by cases hd; rfl⟩⟩
  refine .inr ⟨hmembers start hstart, fun c hc => ?_⟩
  have hin : c ∈ members ∨ m.geo.IsCluster head ∧ m.Reaches active head c := by
    induction hc with
    | refl => exact .inl hstart
    | @tail b c _ hstep ih =>
      by_cases hb : b ∈ members
      · obtain ⟨next, hok, hnext⟩ := hlink b hb
        have heq := hok.symm.trans hstep.2
        cases heq
        rcases hnext c rfl with hc | ⟨hcluster, rfl⟩
        · exact .inl hc
        · exact .inr ⟨hcluster, .refl⟩
      · obtain ⟨hcluster, hreach⟩ := ih.resolve_left hb
        refine .inr ⟨hcluster, hreach.tail ⟨hstep.1, ?_⟩⟩
        rw [Fat.link, ← hnone b hb]
        exact hstep.2
  by_cases hc : c ∈ members
  · obtain ⟨next, hok, -⟩ := hlink c hc
    exact ne_zero_of_link hok
  · obtain ⟨hcluster, hreach⟩ := hin.resolve_left hc
    rw [hnone c hc]
    rcases hhead with rfl | ⟨-, hfull⟩
    · exact absurd hcluster.2
        (not_le.mpr (m.valid.maxCluster.2.trans (by cases m.geo.kind <;> decide)))
    · exact hfull c hreach

end Medium

namespace Vol

open Borrow (getState onIo reading setState setHeld)
open Device (Faulty)
open Medium (Is Headed)
open Prog (Triple Keeps)
open View (Recorded Synced)

variable {m : Medium} {A : Outcome Stop → Prop} {rest : Nat → UInt8} {old : Nat → Prop}
  {v : View} {α : Type}

theorem keeps_recorded {x : Prog Vol Stop α} (h : ∀ v, Recorded m old v → Triple (m.At A rest v) x
    (fun _ => m.Is A rest (Recorded m old)) fun _ => m.Is A rest (Recorded m old)) :
    Keeps (m.Is A rest (Recorded m old)) x :=
  Prog.keeps_iff_triple.mpr (Medium.is_intro h)

theorem keeps_recorded_set (hmany : 1 < m.geo.copies) (c value : Nat) :
    Keeps (m.Is A rest (Recorded m old)) (set c value) :=
  keeps_recorded fun _ h => (recorded_set h hmany c value).post fun _ _ h =>
    h.mono fun _ h => h.1.recorded

theorem keeps_recorded_mirror : Keeps (m.Is A rest (Recorded m old)) mirror :=
  keeps_recorded fun _ h => (recorded_mirror h).post fun _ _ h => h.mono fun _ h => h.recorded

theorem keeps_recorded_setHeld (f : Held → Held) :
    Keeps (m.Is A rest (Recorded m old)) (setHeld f) :=
  keeps_recorded fun v h => (Medium.at_setHeld f).post fun _ _ hat =>
    ⟨v.holding f, h.same rfl rfl rfl, hat⟩

theorem keeps_recorded_setState {f : Fat → Fat} (hgeo : ∀ fat, (f fat).geo = fat.geo)
    (hsplit : ∀ fat, (f fat).split = fat.split)
    (hunmirrored : ∀ fat, (f fat).unmirrored = fat.unmirrored) :
    Keeps (m.Is A rest (Recorded m old)) (setState f) := by
  rintro vol ⟨v, hv, hat⟩
  obtain ⟨dirty, info, hstate⟩ := hat.state
  refine ⟨{ v with fat := f (v.fat.marked dirty info) }, hv.same (hsplit _) (hunmirrored _) rfl,
    ⟨hat.io, (hgeo _).trans hat.geo,
      ⟨(f (v.fat.marked dirty info)).dirty, (f (v.fat.marked dirty info)).infoDirty, ?_⟩,
      hat.held⟩⟩
  show f vol.state = _
  rw [hstate]
  rfl

theorem keeps_recorded_setNextFree (c : Nat) :
    Keeps (m.Is A rest (Recorded m old)) (setNextFree c) :=
  keeps_recorded_setState (fun _ => rfl) (fun _ => rfl) fun _ => rfl

theorem keeps_recorded_getState {f : Fat → Prog Vol Stop α}
    (h : ∀ fat, fat.geo = m.geo → Keeps (m.Is A rest (Recorded m old)) (f fat)) :
    Keeps (m.Is A rest (Recorded m old)) (getState >>= f) := by
  rintro vol ⟨v, hv, hat⟩
  have hgeo : vol.state.geo = m.geo := by
    obtain ⟨dirty, info, hstate⟩ := hat.state
    rw [hstate]
    exact hat.geo
  exact h vol.state hgeo vol ⟨v, hv, hat⟩

theorem NoneFound.recorded {count : Nat} {vol : Vol} (h : NoneFound m A rest count v vol)
    (hv : Recorded m old v) :
    m.Is A rest (Recorded m old) vol := by
  rcases h with ⟨-, hat⟩ | ⟨-, -, hat⟩
  · exact ⟨v, hv, hat⟩
  · exact ⟨v.counted _, hv.same rfl rfl rfl, hat⟩

theorem keeps_recorded_findFree : Keeps (m.Is A rest (Recorded m old)) findFree :=
  keeps_recorded fun v h => at_findFree.weaken (fun _ _ hvol => ⟨v, h, hvol.2⟩) fun _ _ hvol => by
    rcases hvol with ⟨-, hat⟩ | ⟨-, hnone⟩
    · exact ⟨v, h, hat⟩
    · exact hnone.recorded h

theorem keeps_recorded_allocate (hmany : 1 < m.geo.copies) :
    Keeps (m.Is A rest (Recorded m old)) allocate :=
  keeps_recorded_findFree.bind fun _ => (keeps_recorded_setHeld _).bind fun _ =>
    keeps_recorded_getState fun _ _ =>
    (keeps_recorded_set hmany _ _).bind fun _ => (keeps_recorded_setNextFree _).bind fun _ =>
      (keeps_recorded_setState (f := fun fat => { fat with infoDirty := true })
        (fun _ => rfl) (fun _ => rfl)
        fun _ => rfl).bind fun _ => .pure _

theorem settled_holding (f : Held → Held) :
    ((v.holding f).settled m).tbl = (v.settled m).tbl := by
  rcases hsplit : v.fat.split with _ | ⟨c, value, free⟩
  · rw [View.settled, View.settled, show (v.holding f).fat.split = v.fat.split from rfl, hsplit]
    rfl
  · rw [View.settled, View.settled, show (v.holding f).fat.split = v.fat.split from rfl, hsplit]
    rfl

/-- What an allocation that fails leaves is recorded, while it links free clusters to
a chain of which none is free. -/
theorem recorded_linkGroups (hmany : 1 < m.geo.copies) {from_ : Nat} (hfrom : from_ < total m)
    {fuel top left : Nat}
    {linked : Bool} (hfuel : top ≤ fuel) (htop : top ≤ total m) (hv : Recorded m old v) :
    Triple (m.At A rest v)
      (linkGroups (total m) from_ none fuel top left m.geo.kind.endOfChain linked)
      (fun _ => m.Is A rest (Recorded m old)) fun _ => m.Is A rest (Recorded m old) := by
  refine (at_linkGroups (P := fun _ _ head _ v => Recorded m old v ∧
    Headed m (v.settled m).tbl head ∧
    (head = m.geo.kind.endOfChain ∨ v.fat.split = none)) hfrom none (fun
      {_ _ _ _ v _ _} hP _ hat => ⟨v, hP.1, hat⟩)
    (fun hP _ _ => hP) (fun {top left head linked v} htop hP hsplit hzero => ?_)
    (fun {lo top left head linked v group link} htop hP hgather hne hlink => ?_) fuel top left
      _ linked hfuel htop v
    ⟨hv, .inl rfl, .inl rfl⟩).post fun _ _ h => h.mono fun v ⟨_, hP⟩ => hP.1
  · have hc := isCluster_cyclicAt hfrom htop
    have hheld : Recorded m old (heldBefore m head (cyclicAt (total m) from_ top) v) :=
      hP.1.same rfl rfl rfl
    refine (recorded_set hheld hmany _ _).post fun _ _ h => h.mono fun v' hv' => ?_
    rw [heldBefore, settled_holding] at hv'
    obtain ⟨hsynced, htbl⟩ := hv'
    refine ⟨hsynced.recorded.same rfl rfl rfl, ?_, .inr hsynced.split⟩
    rw [heldAfter, settled_holding, View.settled_of_none hsynced.split]
    refine hP.2.1.of_stored [cyclicAt (total m) from_ top] (fun c hc' => ?_)
      (fun c hc' => ⟨head, ?_, .inr rfl⟩) (fun c hc' => ?_) List.mem_cons_self
    · rwa [List.mem_singleton.mp hc']
    · rw [List.mem_singleton.mp hc', htbl, Function.update_self]
    · rw [List.mem_singleton] at hc'
      rw [htbl, Function.update_of_ne hc']
  · obtain ⟨hrecorded, hhead, hsettled⟩ := hP
    have hfree (c : Nat) (hc : c ∈ group.members) := hgather.free hfrom htop hc
    have hlowest := Fat.lowest_mem hne
    obtain rfl : link = none := by
      cases link with
      | none => rfl
      | some c => cases ((hlink c).mp rfl).1
    have hout : head = m.geo.kind.endOfChain ∨ m.geo.IsCluster head ∧
        ∀ c, m.Reaches (v.settled m).tbl head c → c ∉ group.members := by
      rcases hsettled with hend | hsplit
      · exact .inl hend
      · rw [View.settled_of_none hsplit] at hhead ⊢
        exact hhead.imp id fun h => ⟨h.1, fun c hreach hc => h.2 c hreach (hfree c hc).2⟩
    have hheld : Recorded m old (heldBefore m head group.lowest v) := hrecorded.same rfl rfl rfl
    refine (recorded_patch hheld hmany hne (fun c hc => (hfree c hc).1) (fun c hc => ?_)
      (fun tbl htbl c hc => ?_)).post
      fun _ _ h => h.mono fun v' hv' => ?_
    · rcases hc.why with ⟨-, hzero⟩ | ⟨hclimbs, -⟩
      · exact hgather.mem_of_between hne hc.lo_le hc.le_hi hzero
      · rcases hclimbs.cases_head with rfl | ⟨next, hstep, -⟩
        · exact hlowest
        · exact absurd (hfree _ hlowest).2 hstep.1.ne_zero
    · rw [heldBefore, settled_holding] at htbl
      exact within_linked hgather.descending (fun c hc => (hfree c hc).1) hout htbl hc
    · rw [heldBefore, settled_holding] at hv'
      obtain ⟨hsynced, htbl⟩ := hv'
      refine ⟨hsynced.recorded.same rfl rfl rfl, ?_, .inr hsynced.split⟩
      rw [heldAfter, settled_holding, View.settled_of_none hsynced.split]
      refine hhead.of_stored group.members (fun c hc => (hfree c hc).1)
        (fun c hc => ⟨_, ?_, View.valueOf_mem group.members head c⟩)
        (fun c hc => ?_) hlowest
      · rw [htbl c, if_pos hc, groupValue_linked]
      · rw [htbl c, if_neg hc]

theorem keeps_recorded_allocateRun (hmany : 1 < m.geo.copies) (count : Nat) :
    Keeps (m.Is A rest (Recorded m old)) (allocateRun count) := by
  refine .ite' (fun _ => ?_) fun hcount => keeps_recorded fun v hv => ?_
  · exact (Keeps.ite (.pure 0) (keeps_recorded_allocate hmany)).bind fun _ =>
      (Keeps.pure ()).bind fun _ => .pure _
  refine Medium.at_getState fun dirty info => Triple.of_forall fun vol₀ hvol => ?_
  refine Triple.pre ?_ fun vol heq => show m.At A rest v vol from heq ▸ hvol
  have hgeo : v.fat.geo = m.geo := hvol.geo
  have hmarked : (v.fat.marked dirty info).geo = m.geo := hgeo
  refine Triple.ite (fun _ => Triple.fail fun _ hat => ⟨v, hv, hat⟩) fun hfull => ?_
  rw [hmarked, total_eq]
  refine Triple.bind (Q := fun r vol => Scanned m v.tbl v.hint count 0 (total m) 0 r ∧
    m.At A rest v vol)
    ((Medium.at_reads
      (shown_scanFree hmarked (hint_lt hgeo) (total m) 0 0 (Nat.zero_add _).le (by omega))).weaken
      (fun _ _ h => h) fun _ _ h => ⟨v, hv, h.2⟩) fun r => Triple.assume fun hscan => ?_
  rcases r with ⟨found, _ | last⟩
  · exact (at_counted found not_not.mp).weaken (fun _ _ h => h) fun _ _ h =>
      ⟨v.counted found, hv.same rfl rfl rfl, h.2⟩
  · rw [Scanned] at hscan
    refine Triple.bind (recorded_linkGroups hmany (hint_lt hgeo) le_rfl (by omega) hv) fun r => ?_
    exact Prog.keeps_iff_triple.mp
      ((Keeps.pure ()).bind fun _ => (keeps_recorded_setNextFree _).bind fun _ => .pure _)

theorem keeps_recorded_freeEach (hmany : 1 < m.geo.copies) (fuel cluster : Nat) :
    Keeps (m.Is A rest (Recorded m old)) (freeEach fuel cluster) := by
  induction fuel generalizing cluster with
  | zero => exact .fail _
  | succ fuel ih =>
    refine keeps_recorded fun v hv => Triple.bind (Q := fun _ => m.Is A rest (Recorded m old))
      ((at_reading fun fat hgeo => Fat.shown_next hgeo cluster).weaken (fun _ _ h => ⟨v, hv, h.2⟩)
        fun _ _ h => ⟨v, hv, h.2⟩) fun next => ?_
    refine Prog.keeps_iff_triple.mp
      ((keeps_recorded_setHeld _).bind fun _ => (keeps_recorded_set hmany _ _).bind fun _ => ?_)
    cases next with
    | none => exact keeps_recorded_setHeld _
    | some next => exact ih next

theorem Gathered.descending {tbl : Nat → Nat → Nat} {base cluster : Nat}
    {group group' : ClusterGroup} {next : ChainEnd}
    (h : Gathered m A tbl base cluster group next group') (hdesc : group.Descending) :
    group'.Descending := by
  induction h with
  | looped | broken => exact hdesc
  | left => exact hdesc.add _
  | went _ _ _ _ _ _ ih => exact ih (hdesc.add _)

theorem blockBase_le {fat : Fat} (hk : fat.geo.kind ≠ .fat12) (size cluster : Nat) :
    fat.blockBase size cluster ≤ cluster := by
  have hdiv := Nat.div_mul_le_self (fat.geo.entryAt 0 cluster) size
  have hoffset : fat.geo.kind.entryOffset cluster = cluster * fat.geo.kind.entryLen := by
    cases hkind : fat.geo.kind with
    | fat12 => exact absurd hkind hk
    | fat16 => rfl
    | fat32 => rfl
  have hat : fat.geo.entryAt 0 cluster = fat.geo.fatCopy fat.geo.activeFat +
      cluster * fat.geo.kind.entryLen := by
    rw [Geometry.entryAt, Nat.xor_zero, hoffset]
  rw [Fat.blockBase]
  exact Nat.div_le_of_le_mul (by rw [Nat.mul_comm fat.geo.kind.entryLen]; omega)

theorem Gathered.within {tbl : Nat → Nat → Nat} {base cluster c : Nat}
    {group : ClusterGroup} {next : ChainEnd}
    (h : Gathered m A tbl base cluster (ClusterGroup.new base) next group)
    (hbase : base ≤ cluster)
    (hne : group.members ≠ []) (hc : View.Within m tbl group.lowest group.highest c) :
    c ∈ group.members := by
  have hlowest := Fat.lowest_mem hne
  have hhighest := highest_mem hne
  have hnew (c : Nat) : c ∉ (ClusterGroup.new base).members := List.not_mem_nil
  rcases hc.why with ⟨hzero, -⟩ | ⟨hlow, hhigh, hback⟩
  · obtain ⟨-, -, -, next, hlink⟩ := (h.reaches hlowest).resolve_left (hnew _)
    exact absurd hzero (Medium.ne_zero_of_link hlink)
  · rcases h.between hbase rfl (hnew _) hlowest (hnew _) hhighest hlow hhigh with hmem | hreach
    · exact hmem
    · obtain hsame := hback.resolve_right (not_not.mpr hreach)
      rw [← hsame] at hc
      rwa [le_antisymm hc.le_hi hc.lo_le]

theorem keeps_recorded_freeGroups (hmany : 1 < m.geo.copies) (hk : m.geo.kind ≠ .fat12)
    (turns fuel cluster : Nat) :
    Keeps (m.Is A rest (Recorded m old)) (freeGroups turns fuel cluster) := by
  induction fuel generalizing cluster with
  | zero => exact .fail _
  | succ fuel ih =>
    refine keeps_recorded fun v hv => Medium.at_getState fun dirty info =>
      Medium.at_size fun hbs => ?_
    refine Triple.of_forall fun vol₀ hvol => Triple.pre ?_ fun vol heq =>
      show m.At A rest v vol from heq ▸ hvol
    have hgeo : (v.fat.marked dirty info).geo = m.geo := hvol.geo
    have hbase := blockBase_le (hgeo ▸ hk) m.blockSize cluster
    generalize (v.fat.marked dirty info).blockBase m.blockSize cluster = base at hbase
    refine Triple.bind (Q := fun r vol => Gathered m A v.tbl base cluster
      (ClusterGroup.new base) r.1 r.2 ∧ m.At A rest v vol)
      ((Medium.at_reads (shown_gatherChain hgeo hbs base turns cluster _)).weaken (fun _ _ h => h)
        fun _ _ h => ⟨v, hv, h.2⟩) fun r => Triple.assume fun hgather => ?_
    obtain ⟨next, group⟩ := r
    have hcluster (c : Nat) (hc : c ∈ group.members) : m.geo.IsCluster c :=
      ((hgather.reaches hc).resolve_left List.not_mem_nil).2.1
    refine Triple.bind (Q := fun _ => m.Is A rest (Recorded m old))
      (Triple.when (fun hcount => ?_) fun _ vol hat =>
      ⟨v, hv, hat⟩) fun _ => Prog.keeps_iff_triple.mp ?_
    · have hne : group.members ≠ [] := List.length_pos_iff.mp hcount
      refine Triple.bind (Medium.at_setHeld _) fun _ => ?_
      have hheld (f : Held → Held) : Recorded m old (v.holding f) := hv.same rfl rfl rfl
      exact (recorded_patch (hheld _) hmany hne hcluster (fun c hc => hgather.within hbase hne hc)
        fun tbl htbl c hc =>
        within_freed (hgather.descending .nil) htbl hc).post fun _ _ h =>
          h.mono fun _ h => h.1.recorded
    · rcases next with e | _ | next
      · exact .fail _
      · exact keeps_recorded_setHeld _
      · exact ih next

theorem keeps_recorded_freeChain (hmany : 1 < m.geo.copies) (turns first : Nat) :
    Keeps (m.Is A rest (Recorded m old)) (freeChainFor turns first) := by
  refine keeps_recorded_getState fun fat hgeo => Keeps.bind (x := fat.checkCluster first)
    (.ite (.pure _) (.fail _)) fun _ => ?_
  refine .ite' (fun _ => keeps_recorded_freeEach hmany _ _) fun hk =>
    keeps_recorded_freeGroups hmany ?_ _ _ _
  rwa [← hgeo]

end Vol

/-- The entry of `c` is the same in all FAT copies written. -/
def Geometry.Agrees (geo : Geometry) (img : Nat → UInt8) (c : Nat) : Prop :=
  ∀ step < geo.copies, geo.value img step c = geo.value img 0 c

namespace Op

/-- The calls that store entries one way: they link no tail to what they allocate. -/
def Plain : Op → Prop
  | .lend _ | .set .. | .mirror | .allocate | .allocateRun _ | .freeChain .. => True
  | _ => False

end Op

section

open Medium (Is)
open Prog (Keeps)
open View (Recorded Synced)

variable {m : Medium} {A : Outcome Stop → Prop} {rest : Nat → UInt8} {old : Nat → Prop}

theorem keeps_recorded_op (hmany : 1 < m.geo.copies) {op : Op} (hop : op.Plain) :
    Keeps (m.Is A rest (Recorded m old)) op.prog := by
  cases op with
  | lend held =>
    exact Keeps.modify fun vol ⟨v, hv, hat⟩ =>
      ⟨{ v with held := held }, hv.same rfl rfl rfl, hat.io, hat.geo, hat.state, rfl⟩
  | set cluster value => exact Vol.keeps_recorded_set hmany cluster value
  | mirror => exact Vol.keeps_recorded_mirror
  | allocate => exact (Vol.keeps_recorded_allocate hmany).bind fun _ => .pure _
  | allocateRun count => exact (Vol.keeps_recorded_allocateRun hmany count).bind fun _ => .pure _
  | freeChain turns first => exact Vol.keeps_recorded_freeChain hmany turns first
  | _ => exact absurd hop id

theorem keeps_recorded_runOps (hmany : 1 < m.geo.copies) {ops : List Op}
    (hops : ∀ op ∈ ops, op.Plain) {vol : Vol}
    (h : m.Is A rest (Recorded m old) vol) : m.Is A rest (Recorded m old) (runOps ops vol) := by
  induction ops generalizing vol with
  | nil => exact h
  | cons op ops ih =>
    exact ih (fun op' hop => hops op' (List.mem_cons_of_mem op hop))
      (keeps_recorded_op hmany (hops op List.mem_cons_self) vol h)

theorem View.differs_of_bytes {v : View} {vol : Vol} (hat : m.At A rest v vol) {c : Nat}
    (hc : m.geo.IsCluster c)
    (hnew : ¬ old c) (h : ¬ m.geo.Agrees vol.io.dev.bytes c) : v.Differs m old c := by
  obtain ⟨img, hshows, hio⟩ := hat.io
  rw [Geometry.Agrees] at h
  push Not at h
  obtain ⟨step, hstep, hne⟩ := h
  rw [hio.2.bytes, hshows.inside step hstep c hc,
    hshows.inside 0 (Geometry.copies_pos m.valid) c hc] at hne
  exact ⟨hc, hnew, step, hstep, hne⟩

/-- However device calls fail, a cluster whose entry was the same in all FAT copies when
the volume was opened and no longer is lies in what is recorded as unmirrored, and a
`mirror` that succeeds makes its entry the same in all of them again. -/
theorem copies_reconcilable {io : Io} {vol : Vol} (h : Opened io vol) (ops : List Op)
    (hops : ∀ op ∈ ops, op.Plain) :
    (∀ c, vol.state.geo.IsCluster c → vol.state.geo.Agrees io.dev.bytes c →
      ¬ vol.state.geo.Agrees (runOps ops vol).io.dev.bytes c →
      ∃ lo hi, (runOps ops vol).state.unmirrored = some (lo, hi) ∧ lo ≤ c ∧ c ≤ hi) ∧
    ((Vol.mirror.run (runOps ops vol)).1 = .ok () → ∀ c, vol.state.geo.IsCluster c →
      vol.state.geo.Agrees io.dev.bytes c →
      vol.state.geo.Agrees (Vol.mirror.run (runOps ops vol)).2.io.dev.bytes c) := by
  obtain ⟨m, hgeo, hat⟩ := h.medium (A := fun _ => True) fun _ _ => trivial
  rw [← hgeo]
  by_cases hmany : 1 < m.geo.copies
  swap
  · have hone (img : Nat → UInt8) (c : Nat) : m.geo.Agrees img c := fun step hstep => by
      obtain rfl : step = 0 := by omega
      rfl
    exact ⟨fun c _ _ hne => absurd (hone _ c) hne, fun _ c _ _ => hone _ c⟩
  have hstart : Synced m (fun c => ¬ m.geo.Agrees io.dev.bytes c)
      ⟨m.geo.value io.dev.bytes, vol.state, vol.held⟩ := by
    refine ⟨h.mounted.2.1.split, h.mounted.2.1.unmirrored, fun c hc => ?_⟩
    obtain ⟨-, hold, step, hstep, hne⟩ := hc
    exact hold fun hagrees => hne (hagrees step hstep)
  have hrun := keeps_recorded_runOps hmany hops ⟨_, hstart.recorded, hat⟩
  obtain ⟨v, hv, hat⟩ := hrun
  constructor
  · intro c hc hold hne
    obtain ⟨lo, hi, hrange, hwithin⟩ :=
      hv.differs c (View.differs_of_bytes hat hc (not_not.mpr hold) hne)
    refine ⟨lo, hi, ?_, hwithin.lo_le, hwithin.le_hi⟩
    obtain ⟨dirty, info, hstate⟩ := hat.state
    rw [hstate]
    exact hrange
  · intro hok c hc hold
    have hmirror := Vol.recorded_mirror hv _ hat
    rcases hrun : Vol.mirror.run (runOps ops vol) with ⟨e | ⟨⟩, vol'⟩
    · rw [hrun] at hok
      cases hok
    · rw [hrun] at hmirror
      obtain ⟨v', hv', hat'⟩ := hmirror
      by_contra hne
      exact hv'.agree c (View.differs_of_bytes hat' hc (not_not.mpr hold) hne)

def sampleTorn : Io :=
  Io.sample 4119 (tableBytes (sampleBoot16 ++ [(515, 0x80)]))
    (List.replicate 7 .done ++ [.failed (.ofKind .io) fun _ => false])

@[irreducible] def sampleVolTorn : Vol := sampleVol sampleTorn sampleGeo16 false

theorem opened_torn : Opened sampleTorn sampleVolTorn := by
  unfold sampleVolTorn
  exact opened_sample (by decide +kernel)

/-- The write of the second copy fails while a cluster is taken: the copies differ in
what is recorded, and a `mirror` makes them agree again. -/
theorem copies_reconcilable_sample :
    (∃ lo hi, (runOps [.allocate] sampleVolTorn).state.unmirrored = some (lo, hi) ∧
      lo ≤ 2 ∧ 2 ≤ hi) ∧
      ∀ c, sampleVolTorn.state.geo.IsCluster c →
        sampleVolTorn.state.geo.Agrees sampleTorn.dev.bytes c →
        sampleVolTorn.state.geo.Agrees
          (Vol.mirror.run (runOps [.allocate] sampleVolTorn)).2.io.dev.bytes c := by
  have hgeo : sampleVolTorn.state.geo = sampleGeo16 := by
    unfold sampleVolTorn
    rfl
  have hcluster : sampleGeo16.IsCluster 2 := ⟨by decide, by decide⟩
  have hstart : ∀ step < sampleGeo16.copies,
      sampleGeo16.value sampleTorn.dev.bytes step 2 =
        sampleGeo16.value sampleTorn.dev.bytes 0 2 := by
    decide +kernel
  have htorn : 1 < sampleGeo16.copies ∧
      sampleGeo16.value (runOps [.allocate] sampleVolTorn).io.dev.bytes 1 2 ≠
        sampleGeo16.value (runOps [.allocate] sampleVolTorn).io.dev.bytes 0 2 := by
    decide +kernel
  have hok : (Vol.mirror.run (runOps [.allocate] sampleVolTorn)).1.toOption = some () := by
    decide +kernel
  obtain ⟨hrecorded, hmirrored⟩ := copies_reconcilable opened_torn [.allocate]
    (by simp [Op.Plain])
  refine ⟨hrecorded 2 (hgeo ▸ hcluster) (hgeo ▸ hstart)
    (hgeo ▸ fun hagrees => htorn.2 (hagrees 1 htorn.1)), hmirrored ?_⟩
  rcases hrun : (Vol.mirror.run (runOps [.allocate] sampleVolTorn)).1 with e | ⟨⟩
  · rw [hrun] at hok
    cases hok
  · rfl

end

end Hadris
