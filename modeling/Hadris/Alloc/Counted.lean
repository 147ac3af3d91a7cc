import Hadris.Alloc.Recorded
import Hadris.Alloc.Tallied

namespace Hadris

open List

namespace View

variable {m : Medium} {ok : Prop} {v v' : View}

theorem Exact.same (h : Exact m ok v) (hgeo : v'.fat.geo = v.fat.geo)
    (hsplit : v'.fat.split = v.fat.split)
    (hunmirrored : v'.fat.unmirrored = v.fat.unmirrored) (hfree : v'.fat.free = v.fat.free)
    (htbl : v'.tbl = v.tbl) :
    Exact m ok v' where
  geo := hgeo.trans h.geo
  tracked := ⟨hsplit ▸ h.tracked.split, hunmirrored ▸ h.tracked.range⟩
  masked := htbl ▸ h.masked
  free := by
    rw [Fat.Counts, hfree, active, hsplit, htbl]
    exact h.free
  intact := by
    rw [Intact, hsplit, htbl]
    exact h.intact

theorem Exact.counted (h : Exact m ok v) {n : Nat} (hn : n = m.geo.freeCount (v.tbl 0)) :
    Exact m ok (v.counted n) where
  geo := h.geo
  tracked := ⟨h.tracked.split, h.tracked.range⟩
  masked := h.masked
  free := fun hok k hk => by
    cases hk
    rw [freeCount_active (v := v.counted n) (h.intact hok)]
    exact hn
  intact := h.intact

theorem Exact.holding (h : Exact m ok v) (f : Held → Held) : Exact m ok (v.holding f) :=
  h.same rfl rfl rfl rfl rfl

end View

namespace Vol

open Borrow (getState onIo reading setState setHeld)
open Device (Faulty Lands)
open Medium (Is)
open Prog (Triple)
open View (Tallied Exact)

variable {m : Medium} {A : Outcome Stop → Prop} {rest : Nat → UInt8} {ok : Prop} {v : View}
  {vol : Vol} {α β : Type}

/-- What is free is counted right before `x` and after it, whether it succeeds or fails. -/
def Tallies (m : Medium) (A : Outcome Stop → Prop) (rest : Nat → UInt8) (ok : Prop)
    (x : Prog Vol Stop α) : Prop :=
  Triple (m.Is A rest (Exact m ok)) x (fun _ => m.Is A rest (Exact m ok)) fun _ =>
    m.Is A rest (Tallied m ok)

namespace Tallies

theorem of_at {x : Prog Vol Stop α} (h : ∀ v, Exact m ok v → Triple (m.At A rest v) x
    (fun _ => m.Is A rest (Exact m ok)) fun _ =>
      m.Is A rest (Tallied m ok)) : Tallies m A rest ok x :=
  Medium.is_intro h

theorem at_view {x : Prog Vol Stop α} (h : Tallies m A rest ok x) (hv : Exact m ok v) :
    Triple (m.At A rest v) x
    (fun _ => m.Is A rest (Exact m ok)) fun _ => m.Is A rest (Tallied m ok) :=
  Triple.pre h fun _ hat => ⟨v, hv, hat⟩

theorem pure (a : α) : Tallies m A rest ok (Pure.pure a) := Triple.pure fun _ h => h

theorem fail (e : Stop) : Tallies m A rest ok (Prog.fail e : Prog Vol Stop α) :=
  Triple.fail fun _ h => h.mono fun _ hv => hv.toTallied

theorem bind {x : Prog Vol Stop α} {f : α → Prog Vol Stop β} (hx : Tallies m A rest ok x)
    (hf : ∀ a, Tallies m A rest ok (f a)) : Tallies m A rest ok (x >>= f) := Triple.bind hx hf

theorem ite {c : Prop} [Decidable c] {x y : Prog Vol Stop α} (hx : c → Tallies m A rest ok x)
    (hy : ¬ c → Tallies m A rest ok y) : Tallies m A rest ok (if c then x else y) :=
  Triple.ite hx hy

theorem whenSome {o : Option α} {f : α → Prog Vol Stop Unit}
    (h : ∀ a, Tallies m A rest ok (f a)) :
    Tallies m A rest ok (Prog.whenSome o f) := by
  cases o with
  | none => exact pure ()
  | some a => exact h a

theorem getState {f : Fat → Prog Vol Stop α}
    (h : ∀ fat, fat.geo = m.geo → Tallies m A rest ok (f fat)) :
    Tallies m A rest ok (Borrow.getState >>= f) := by
  rintro vol ⟨v, hv, hat⟩
  have hgeo : vol.state.geo = m.geo := by
    obtain ⟨dirty, info, hstate⟩ := hat.state
    rw [hstate]
    exact hat.geo
  exact h vol.state hgeo vol ⟨v, hv, hat⟩

theorem setHeld (f : Held → Held) : Tallies m A rest ok (Borrow.setHeld f) :=
  of_at fun v hv => (Medium.at_setHeld f).post fun _ _ hat => ⟨v.holding f, hv.holding f, hat⟩

theorem setState {f : Fat → Fat} (hgeo : ∀ fat, (f fat).geo = fat.geo)
    (hsplit : ∀ fat, (f fat).split = fat.split)
    (hunmirrored : ∀ fat, (f fat).unmirrored = fat.unmirrored)
    (hfree : ∀ fat, (f fat).free = fat.free) :
    Tallies m A rest ok (Borrow.setState f) := by
  rintro vol ⟨v, hv, hat⟩
  obtain ⟨dirty, info, hstate⟩ := hat.state
  refine ⟨{ v with fat := f (v.fat.marked dirty info) }, hv.same (hgeo _) (hsplit _)
    (hunmirrored _) (hfree _) rfl,
    ⟨hat.io, (hgeo _).trans hat.geo,
      ⟨(f (v.fat.marked dirty info)).dirty, (f (v.fat.marked dirty info)).infoDirty, ?_⟩,
      hat.held⟩⟩
  show f vol.state = _
  rw [hstate]
  rfl

theorem setNextFree (c : Nat) : Tallies m A rest ok (Vol.setNextFree c) :=
  setState (fun _ => rfl) (fun _ => rfl) (fun _ => rfl) fun _ => rfl

theorem setInfoDirty :
    Tallies m A rest ok (Borrow.setState fun fat : Fat => { fat with infoDirty := true }) :=
  setState (f := fun fat => { fat with infoDirty := true }) (fun _ => rfl) (fun _ => rfl)
    (fun _ => rfl) fun _ => rfl

theorem set (hno : ¬ Lands A) (c value : Nat) : Tallies m A rest ok (Vol.set c value) :=
  of_at fun _ hv => (tallied_set hno hv.toTallied c value).post fun _ _ h => h.mono fun _ h => h.1

theorem mirror (hno : ¬ Lands A) : Tallies m A rest ok Vol.mirror :=
  of_at fun _ hv => tallied_mirror hno hv.toTallied

end Tallies

theorem NoneFound.tallied {count : Nat} (h : NoneFound m A rest count v vol) (hv : Exact m ok v) :
    m.Is A rest (Tallied m ok) vol := by
  rcases h with ⟨-, hat⟩ | ⟨-, -, hat⟩
  · exact ⟨v, hv.toTallied, hat⟩
  · exact ⟨_, (hv.counted (length_frees (hint_lt hv.geo))).toTallied, hat⟩

theorem tallies_findFree : Tallies m A rest ok findFree :=
  .of_at fun v hv => at_findFree.weaken (fun _ _ h => ⟨v, hv, h.2⟩) fun _ _ h => by
    rcases h with ⟨-, hat⟩ | ⟨-, hnone⟩
    · exact ⟨v, hv.toTallied, hat⟩
    · exact hnone.tallied hv

theorem tallies_allocate (hno : ¬ Lands A) : Tallies m A rest ok allocate :=
  tallies_findFree.bind fun _ => (Tallies.setHeld _).bind fun _ => .getState fun _ _ =>
    (Tallies.set hno _ _).bind fun _ =>
    (Tallies.setNextFree _).bind fun _ => Tallies.setInfoDirty.bind fun _ => .pure _

/-- The tail to link to is not free, as far as it is linked in one write with others. -/
def TailUsed (m : Medium) (tail : Option Nat) (v : View) : Prop :=
  ∀ t, tail = some t → m.geo.IsCluster t ∧ (m.Whole 0 t → v.tbl 0 t ≠ 0)

theorem tallied_linkGroups (hno : ¬ Lands A) {from_ : Nat} (hfrom : from_ < total m)
    {tail : Option Nat} {fuel top left head : Nat}
    {linked : Bool} (hfuel : top ≤ fuel) (htop : top ≤ total m) (hv : Exact m ok v)
    (htail : TailUsed m tail v) :
    Triple (m.At A rest v) (linkGroups (total m) from_ tail fuel top left head linked)
      (fun _ => m.Is A rest (Exact m ok)) fun _ => m.Is A rest (Tallied m ok) := by
  refine (at_linkGroups (P := fun _ _ _ _ v => Exact m ok v ∧ TailUsed m tail v) hfrom tail
    (fun {_ _ _ _ v _ _} hP _ hat => ⟨v, hP.1.toTallied, hat⟩) (fun hP _ _ => hP)
    (fun {top left head linked v} htop hP _ hzero => ?_)
    (fun {lo top left head linked v group link} htop hP hgather hne hlink => ?_) fuel top left
      head linked hfuel htop v
    ⟨hv, htail⟩).post fun _ _ h => h.mono fun v ⟨_, hP⟩ => hP.1
  · refine (tallied_set hno (hP.1.holding _).toTallied _ _).post fun _ _ h =>
      h.mono fun v' hv' => ?_
    refine ⟨hv'.1.holding _, fun t ht => ⟨(hP.2 t ht).1, fun hwhole => ?_⟩⟩
    have hused := (hP.2 t ht).2 hwhole
    have hne : t ≠ cyclicAt (total m) from_ top := fun heq => hused (heq ▸ hzero)
    show v'.tbl 0 t ≠ 0
    rw [hv'.2, Function.update_of_ne hne, View.settled_whole (hP.1.holding _).tracked hwhole]
    exact hused
  · have hfree (c : Nat) (hc : c ∈ group.members) := hgather.free hfrom htop hc
    have hpos := Geometry.copies_pos m.valid
    refine (tallied_patch hno (hP.1.holding _) (some head) hne (fun c hc => ?_) fun t ht =>
      ?_).post fun _ _ h =>
      h.mono fun v' hv' => ⟨hv'.1.holding _, fun t ht => ⟨(hP.2 t ht).1, fun hwhole => ?_⟩⟩
    · rcases mem_append.mp hc with hc | hc
      · exact (hfree c hc).1
      · exact (hP.2 c ((hlink c).mp (Option.mem_toList.mp hc)).1).1
    · obtain ⟨ht, -, hblock⟩ := (hlink t).mp ht
      have hwhole := (hblock 0 hpos).2.1
      have hused := (hP.2 t ht).2 hwhole
      exact ⟨fun hin => hused (hfree t hin).2, hwhole, hused⟩
    · have hused := (hP.2 t ht).2 hwhole
      exact hv'.2 t (fun hin => hused (hfree t hin).2) hwhole hused

theorem tallies_allocateFew (hno : ¬ Lands A) (count : Nat) (tail : Option Nat) :
    Tallies m A rest ok (allocateFew count tail) :=
  (Tallies.ite (fun _ => .pure 0) fun _ => tallies_allocate hno).bind fun _ =>
    (Tallies.whenSome fun _ => .set hno _ _).bind fun _ => .pure _

theorem tallied_allocateRunInner (hno : ¬ Lands A) (count : Nat)
    {tail : Option Nat} (hv : Exact m ok v)
    (htail : TailUsed m tail v) : Triple (m.At A rest v) (allocateRunInner count tail)
      (fun _ => m.Is A rest (Exact m ok)) fun _ => m.Is A rest (Tallied m ok) := by
  refine Triple.ite (fun _ => (tallies_allocateFew hno count tail).at_view hv) fun hcount => ?_
  refine Medium.at_getState fun dirty info => ?_
  have hmarked : (v.fat.marked dirty info).geo = m.geo := hv.geo
  refine Triple.ite (fun _ => Triple.fail fun _ hat => ⟨v, hv.toTallied, hat⟩) fun hfull => ?_
  rw [hmarked, total_eq]
  refine Triple.bind (Q := fun r vol => Scanned m v.tbl v.hint count 0 (total m) 0 r ∧
    m.At A rest v vol)
    ((Medium.at_reads (shown_scanFree hmarked (hint_lt hv.geo) (total m) 0 0
      (Nat.zero_add _).le (by omega))).weaken
      (fun _ _ h => h) fun _ _ h => ⟨v, hv.toTallied, h.2⟩) fun r => Triple.assume fun hscan => ?_
  rcases r with ⟨found, _ | last⟩
  · rw [Scanned, Nat.zero_add, length_frees (hint_lt hv.geo)] at hscan
    exact (at_counted found not_not.mp).weaken (fun _ _ h => h) fun _ _ h =>
      ⟨v.counted found, (hv.counted hscan.1).toTallied, h.2⟩
  · rw [Scanned] at hscan
    refine Triple.bind (tallied_linkGroups hno (hint_lt hv.geo) le_rfl (by omega) hv htail)
      fun r => ?_
    exact (Tallies.whenSome fun _ => .set hno _ _).bind fun _ =>
      (Tallies.setNextFree _).bind fun _ => .pure _

theorem tallies_allocateRun (hno : ¬ Lands A) (count : Nat) :
    Tallies m A rest ok (allocateRun count) :=
  .of_at fun _ hv => tallied_allocateRunInner hno count hv fun t ht =>
    absurd ht (Option.some_ne_none t).symm

theorem tailUsed_of_link {tail : Nat} (hc : m.geo.IsCluster tail) {next : Option Nat}
    (h : Fat.link m v.tbl tail = .ok next) :
    TailUsed m (some tail) v := by
  intro t ht
  cases ht
  exact ⟨hc, fun _ => Medium.ne_zero_of_link h⟩

theorem tallies_linkAfter (hno : ¬ Lands A) (hv : Exact m ok v) {tail cluster : Nat}
    (end_ : Nat) {share : Bool}
    (htail : TailUsed m (some tail) v) (hfree : Free m v.tbl cluster)
    (hshare : share = true → m.Whole 0 tail) :
    Triple (m.At A rest v) (linkAfter share tail cluster end_)
      (fun _ => m.Is A rest (Exact m ok)) fun _ => m.Is A rest (Tallied m ok) := by
  refine Triple.ite (fun hyes => ?_) fun _ =>
    ((Tallies.set hno _ _).bind fun _ => .set hno _ _).at_view hv
  have hspans : (ClusterGroup.new cluster).spans cluster = true :=
    ClusterGroup.spans_iff.mpr ⟨le_rfl, Nat.lt_add_of_pos_right (by decide)⟩
  have hmembers : ((ClusterGroup.new cluster).add cluster).members = [cluster] :=
    ClusterGroup.add_below hspans fun c hc => absurd hc not_mem_nil
  refine (tallied_patch hno hv (some end_) (by rw [hmembers]; exact cons_ne_nil _ _)
    (fun c hc => ?_)
    fun t ht => ?_).post fun _ _ h => h.mono fun _ h => h.1
  · rw [Fat.groupEntries, hmembers] at hc
    rcases mem_append.mp hc with hc | hc
    · rw [mem_singleton.mp hc]
      exact hfree.1
    · exact (htail c (Option.mem_toList.mp hc)).1
  · cases ht
    have hused := (htail tail rfl).2 (hshare hyes)
    refine ⟨fun hin => hused ?_, hshare hyes, hused⟩
    rw [hmembers, mem_singleton] at hin
    rw [hin]
    exact hfree.2

theorem tallies_allocateAfter (hno : ¬ Lands A) (tail : Nat) :
    Tallies m A rest ok (allocateAfter tail) := by
  refine .of_at fun v hv => Triple.bind (Q := fun _ => m.At A rest v)
    (Triple.gets fun _ hat => hat) fun held => ?_
  refine Triple.ite (fun _ => (Tallies.fail _).at_view hv) fun _ => ?_
  refine Triple.bind
    ((at_reading fun fat hgeo => Fat.shown_next hgeo tail).weaken (fun _ _ h => h)
    fun _ _ h => ⟨v, hv.toTallied, h.2⟩) fun next => Triple.assume fun hnext => ?_
  cases next with
  | some next => exact (Tallies.fail _).at_view hv
  | none =>
    have htail := tailUsed_of_link hnext.1 hnext.2
    refine Triple.bind (at_findFree.weaken (fun _ _ h => h) fun _ _ h => ?_) fun cluster =>
      Triple.assume fun hfound => ?_
    · rcases h with ⟨-, hat⟩ | ⟨-, hnone⟩
      · exact ⟨v, hv.toTallied, hat⟩
      · exact hnone.tallied hv
    have hfree : Free m v.tbl cluster := free_of_mem_frees (hint_lt hv.geo) (Nat.zero_add _).le
      (mem_of_mem_head? hfound.2)
    refine Triple.bind (Medium.at_setHeld _) fun _ => Medium.at_getState fun dirty info =>
      Medium.at_size fun hbs => ?_
    refine Triple.bind (tallies_linkAfter hno (hv.holding _) _ htail hfree fun hshare => ?_)
      fun _ =>
      (Tallies.setNextFree _).bind fun _ => Tallies.setInfoDirty.bind fun _ => .pure _
    have hmarked : (v.fat.marked dirty info).geo = m.geo := hv.geo
    exact ((Medium.sameFatBlock_iff hmarked hbs).mp hshare 0 (Geometry.copies_pos m.valid)).2.1

theorem tallies_allocateRunAfter (hno : ¬ Lands A) (tail count : Nat) :
    Tallies m A rest ok (allocateRunAfter tail count) := by
  refine .ite (fun _ => tallies_allocateAfter hno tail) fun _ => .of_at fun v hv => ?_
  refine Triple.bind (Q := fun _ => m.At A rest v) (Triple.gets fun _ hat => hat) fun held => ?_
  refine Triple.ite (fun _ => (Tallies.fail _).at_view hv) fun _ => ?_
  refine Triple.bind
    ((at_reading fun fat hgeo => Fat.shown_next hgeo tail).weaken (fun _ _ h => h)
    fun _ _ h => ⟨v, hv.toTallied, h.2⟩) fun next => Triple.assume fun hnext => ?_
  cases next with
  | some next => exact (Tallies.fail _).at_view hv
  | none => exact tallied_allocateRunInner hno count hv (tailUsed_of_link hnext.1 hnext.2)

theorem tallies_freeEach (hno : ¬ Lands A) (fuel cluster : Nat) :
    Tallies m A rest ok (freeEach fuel cluster) := by
  induction fuel generalizing cluster with
  | zero => exact .fail _
  | succ fuel ih =>
    refine .of_at fun v hv => Triple.bind (Q := fun _ => m.Is A rest (Exact m ok))
      ((at_reading fun fat hgeo => Fat.shown_next hgeo cluster).weaken (fun _ _ h => ⟨v, hv, h.2⟩)
        fun _ _ h => ⟨v, hv.toTallied, h.2⟩) fun next => ?_
    refine (Tallies.setHeld _).bind fun _ => (Tallies.set hno _ _).bind fun _ => ?_
    cases next with
    | none => exact .setHeld _
    | some next => exact ih next

theorem tallies_freeGroups (hno : ¬ Lands A) (turns fuel cluster : Nat) :
    Tallies m A rest ok (freeGroups turns fuel cluster) := by
  induction fuel generalizing cluster with
  | zero => exact .fail _
  | succ fuel ih =>
    refine .of_at fun v hv => Medium.at_getState fun dirty info => Medium.at_size fun hbs => ?_
    have hmarked : (v.fat.marked dirty info).geo = m.geo := hv.geo
    generalize (v.fat.marked dirty info).blockBase m.blockSize cluster = base
    refine Triple.bind (Q := fun r vol => Gathered m A v.tbl base cluster
      (ClusterGroup.new base) r.1 r.2 ∧ m.At A rest v vol)
      ((Medium.at_reads (shown_gatherChain hmarked hbs base turns cluster _)).weaken
        (fun _ _ h => h)
        fun _ _ h => ⟨v, hv.toTallied, h.2⟩) fun r => Triple.assume fun hgather => ?_
    obtain ⟨next, group⟩ := r
    refine Triple.bind (Q := fun _ => m.Is A rest (Exact m ok))
      (Triple.when (fun hcount => ?_) fun _ vol hat =>
      ⟨v, hv, hat⟩) fun _ => ?_
    · refine Triple.bind (Medium.at_setHeld _) fun _ => ?_
      have hne : group.members ≠ [] := length_pos_iff.mp hcount
      refine (tallied_patch hno (hv.holding _) none hne (fun c hc => ?_) fun t ht =>
        absurd ht (Option.some_ne_none t).symm).post
        fun _ _ h => h.mono fun _ h => h.1
      rw [Fat.groupEntries, Option.toList_none, append_nil] at hc
      exact ((hgather.reaches hc).resolve_left not_mem_nil).2.1
    · rcases next with e | _ | next
      · exact Tallies.fail _
      · exact Tallies.setHeld _
      · exact ih next

theorem tallies_freeChain (hno : ¬ Lands A) (turns first : Nat) :
    Tallies m A rest ok (freeChainFor turns first) :=
  .getState fun fat _ => Tallies.bind (x := fat.checkCluster first)
    (.ite (fun _ => .pure _) fun _ => .fail _) fun _ =>
    .ite (fun _ => tallies_freeEach hno _ _) fun _ => tallies_freeGroups hno _ _ _

theorem shown_countFreeLoop {tbl : Nat → Nat → Nat} {fat : Fat} (hgeo : fat.geo = m.geo)
    {clusters : List Nat} (hclusters : ∀ c ∈ clusters, m.geo.IsCluster c) (free : Nat) :
    Triple (m.Shown A rest tbl) (countFreeLoop fat clusters free)
      (fun n io => n = free + clusters.countP (fun c => tbl 0 c = 0) ∧ m.Shown A rest tbl io)
      (fun _ io => Faulty A ∧ m.Shown A rest tbl io) := by
  induction clusters generalizing free with
  | nil => exact Triple.pure fun _ h => ⟨rfl, h⟩
  | cons c clusters ih =>
    refine Triple.bind ((Fat.shown_get hgeo c).weaken (fun _ _ h => h) fun _ _ h =>
      ⟨h.1.resolve_right (not_not.mpr (hclusters c mem_cons_self)), h.2⟩) fun stored =>
        Triple.assume fun hstored => ?_
    rw [hgeo, hstored.2]
    refine (ih (fun c' hc => hclusters c' (mem_cons_of_mem c hc)) _).post fun n io h => ⟨?_, h.2⟩
    rw [h.1, countP_cons]
    simp only [decide_eq_true_eq]
    split <;> omega

theorem tallies_countFree : Tallies m A rest ok countFree := by
  refine .of_at fun v hv => Medium.at_getState fun dirty info => ?_
  have hmarked : (v.fat.marked dirty info).geo = m.geo := hv.geo
  have hrange : (v.fat.marked dirty info).geo.maxCluster + 1 - firstDataCluster =
      m.geo.maxCluster - 1 := by
    rw [hmarked, firstDataCluster]
    omega
  rw [hrange]
  refine Triple.bind (Q := fun n vol => n = m.geo.freeCount (v.tbl 0) ∧ m.At A rest v vol)
    ((Medium.at_reads (shown_countFreeLoop hmarked (fun c hc => Geometry.mem_clusters.mp hc)
      0)).weaken (fun n _ h => ?_)
      fun _ _ h => ⟨v, hv.toTallied, h.2⟩) fun n => Triple.assume fun hn => ?_
  · rw [Nat.zero_add] at h
    exact h
  · refine Triple.bind (Q := fun _ => m.At A rest (v.counted n))
      (Medium.at_setState (fun hgeo => hgeo)
      fun dirty info => ⟨dirty, info, rfl⟩) fun _ => Triple.pure fun _ hat =>
        ⟨_, hv.counted hn, hat⟩

end Vol

/-- A call that fails stores nothing. -/
def Outcome.Clean : Outcome Stop → Prop
  | .done => True
  | .failed _ landed => ∀ i, landed i = false

namespace Vol

/-- The free clusters counted, if any are, are the free entries of the active FAT copy. -/
def Counted (vol : Vol) : Prop :=
  vol.state.Counts (vol.state.geo.freeCount (vol.state.geo.value vol.io.dev.bytes 0))

/-- The entry an interrupted write left to be completed is free where it was before: it
is not left half written. -/
def Intact (vol : Vol) : Prop := ∀ c value free, vol.state.split = some (c, value, free) →
  (free = true ↔ vol.state.geo.value vol.io.dev.bytes 0 c = 0)

end Vol

namespace Op

/-- The calls that change or count what is free. -/
def Counts : Op → Prop
  | .lend _ | .set .. | .mirror | .allocate | .allocateAfter _ | .allocateRun _
    | .allocateRunAfter .. | .freeChain ..
  | .countFree => True
  | _ => False

end Op

section

open Device (Lands)
open Medium (Is)
open View (Tallied Exact)
open Vol (Tallies)

variable {m : Medium} {A : Outcome Stop → Prop} {rest : Nat → UInt8} {ok : Prop} {vol : Vol}

theorem tallies_op (hno : ¬ Lands A) {op : Op} (hop : op.Counts) :
    Tallies m A rest ok op.prog := by
  cases op with
  | lend held => exact Prog.Triple.modify fun vol ⟨v, hv, hat⟩ =>
    ⟨{ v with held := held }, hv.same rfl rfl rfl rfl rfl, hat.io, hat.geo, hat.state, rfl⟩
  | set cluster value => exact .set hno cluster value
  | mirror => exact .mirror hno
  | allocate => exact (Vol.tallies_allocate hno).bind fun _ => .pure _
  | allocateAfter tail => exact (Vol.tallies_allocateAfter hno tail).bind fun _ => .pure _
  | allocateRun count => exact (Vol.tallies_allocateRun hno count).bind fun _ => .pure _
  | allocateRunAfter tail count =>
    exact (Vol.tallies_allocateRunAfter hno tail count).bind fun _ => .pure _
  | freeChain turns first => exact Vol.tallies_freeChain hno turns first
  | countFree => exact Vol.tallies_countFree.bind fun _ => .pure _
  | _ => exact absurd hop id

theorem freeCount_bytes {v : View} (hat : m.At A rest v vol) :
    vol.state.geo.freeCount (vol.state.geo.value vol.io.dev.bytes 0) =
      m.geo.freeCount (v.tbl 0) := by
  obtain ⟨img, hshows, hio⟩ := hat.io
  obtain ⟨dirty, info, hstate⟩ := hat.state
  have hgeo : vol.state.geo = m.geo := by
    rw [hstate]
    exact hat.geo
  rw [hgeo, hio.2.bytes]
  refine Geometry.freeCount_congr fun c hc => ?_
  rw [hshows.inside 0 (Geometry.copies_pos m.valid) c hc]

theorem Vol.Intact.view {v : View} (h : vol.Intact) (hat : m.At A rest v vol)
    (htracked : v.fat.Tracked m) : v.Intact := by
  obtain ⟨img, hshows, hio⟩ := hat.io
  obtain ⟨dirty, info, hstate⟩ := hat.state
  intro c value free hsplit
  have hfree := h c value free (by rw [hstate]; exact hsplit)
  have hgeo : vol.state.geo = m.geo := by
    rw [hstate]
    exact hat.geo
  rwa [hgeo, hio.2.bytes, hshows.inside 0 (Geometry.copies_pos m.valid) c
    (htracked.split c value free hsplit).1] at hfree

theorem tallied_runOps (hno : ¬ Lands A) {ops : List Op} (hops : ∀ op ∈ ops, op.Counts)
    (h : m.Is A rest (Tallied m ok) vol)
    (hintact : ok → ∀ k, (runOps (ops.take k) vol).Intact) :
    m.Is A rest (Tallied m ok) (runOps ops vol) := by
  induction ops generalizing vol with
  | nil => exact h
  | cons op ops ih =>
    obtain ⟨v, hv, hat⟩ := h
    have hexact : Exact m ok v := ⟨hv, fun hok => (hintact hok 0).view hat hv.tracked⟩
    have hstep := tallies_op hno (hops op mem_cons_self) vol ⟨v, hexact, hat⟩
    refine ih (fun op' hop => hops op' (mem_cons_of_mem op hop)) ?_ fun hok k =>
      hintact hok (k + 1)
    show m.Is A rest (Tallied m ok) (op.prog.run vol).2
    rcases hrun : op.prog.run vol with ⟨e | ⟨⟩, vol'⟩ <;> rw [hrun] at hstep
    · exact hstep
    · exact hstep.mono fun _ h => h.toTallied

/-- From where the count of free clusters is right or there is none, after any calls that
succeed or fail the count is right or there is none, and no cluster is free where the
driver says so: if calls that fail store nothing, and no entry is left half written. -/
theorem free_count_exact {io : Io} (h : Opened io vol) (hclean : ∀ o ∈ io.dev.script, o.Clean)
    (before ops : List Op)
    (hbefore : ∀ op ∈ before, op.Counts) (hops : ∀ op ∈ ops, op.Counts)
    (hstart : (runOps before vol).Counted)
    (hintact : ∀ k, (runOps (ops.take k) (runOps before vol)).Intact) :
    (runOps ops (runOps before vol)).Counted ∧
      ((runOps ops (runOps before vol)).state.full = true →
      ∀ c, vol.state.geo.IsCluster c →
      vol.state.geo.value (runOps ops (runOps before vol)).io.dev.bytes 0 c ≠ 0) := by
  obtain ⟨m, hgeo, hat⟩ := h.medium hclean
  have hno : ¬ Lands Outcome.Clean := by
    rintro ⟨e, landed, hA, hland⟩
    rw [hA 0] at hland
    cases hland
  have hmounted := h.mounted.2.1
  have hopened : Tallied m False ⟨m.geo.value io.dev.bytes, vol.state, vol.held⟩ := by
    refine ⟨hgeo.symm, ⟨fun c value free hs => ?_, fun first last hr => ?_⟩,
      fun c _ => ?_, False.elim⟩
    · rw [hmounted.split] at hs
      cases hs
    · rw [hmounted.unmirrored] at hr
      cases hr
    · show (m.geo.entry _ _ _ &&& _) &&& _ = m.geo.entry _ _ _ &&& _
      rw [Nat.and_assoc, Nat.and_self]
  obtain ⟨v, hv, hat⟩ := tallied_runOps hno hbefore ⟨_, hopened, hat⟩ False.elim
  obtain ⟨dirty, info, hstate⟩ := hat.state
  have hcounted : Tallied m True v := by
    refine ⟨hv.geo, hv.tracked, hv.masked, fun _ n hn => ?_⟩
    rw [View.freeCount_active ((hintact 0).view hat hv.tracked), ← freeCount_bytes hat]
    exact hstart n (by rw [hstate]; exact hn)
  obtain ⟨v', hv', hat'⟩ := tallied_runOps hno hops ⟨v, hcounted, hat⟩ fun _ => hintact
  have hend : (runOps ops (runOps before vol)).Intact := by
    have hall := hintact ops.length
    rwa [take_length] at hall
  obtain ⟨dirty', info', hstate'⟩ := hat'.state
  have hexact : (runOps ops (runOps before vol)).Counted := by
    intro n hn
    rw [hstate'] at hn
    rw [freeCount_bytes hat', ← View.freeCount_active (hend.view hat' hv'.tracked)]
    exact hv'.free trivial n hn
  have hsame : (runOps ops (runOps before vol)).state.geo = vol.state.geo := by
    rw [hstate', ← hgeo]
    exact hat'.geo
  refine ⟨hexact, fun hfull => ?_⟩
  rw [Fat.full, Bool.and_eq_true, beq_iff_eq] at hfull
  rw [← hsame]
  exact Geometry.freeCount_eq_zero.mp (hexact 0 hfull.1).symm

/-- The free clusters of a FAT12 volume are counted, and one is taken. -/
theorem free_count_exact_sample :
    (runOps [.allocate] (runOps [.countFree] sampleVol12)).Counted := by
  have hwhole (vol : Vol) (h : vol.state.split = none) : vol.Intact := fun c value free hs =>
    absurd (h.symm.trans hs) (Option.some_ne_none _).symm
  refine (free_count_exact opened_fat12 (fun o ho => absurd ho not_mem_nil)
    [.countFree] [.allocate]
    (by simp [Op.Counts]) (by simp [Op.Counts]) ?_ fun k => ?_).1
  · have hfree : (runOps [.countFree] sampleVol12).state.free = some 10 := by decide +kernel
    have hcount : (runOps [.countFree] sampleVol12).state.geo.freeCount
        ((runOps [.countFree] sampleVol12).state.geo.value
          (runOps [.countFree] sampleVol12).io.dev.bytes 0) = 10 := by
      decide +kernel
    intro n hn
    rw [hfree, Option.some.injEq] at hn
    rw [hcount, hn]
  · cases k with
    | zero => exact hwhole _ (by decide +kernel)
    | succ k =>
      rw [take_succ_cons, take_nil]
      exact hwhole _ (by decide +kernel)

end

end Hadris
