import Hadris.Alloc.Run
import Hadris.Alloc.Chained

namespace Hadris

open List

/-- `img'` is `img` with the entries of the clusters `l` zero in all FAT copies written:
every other entry is the same, and so are the bits FAT32 reserves and all bytes that are no
part of an entry and hold no clean bit. -/
structure Geometry.Freed (geo : Geometry) (img img' : Nat → UInt8) (l : List Nat) : Prop where
  zero : ∀ step < geo.copies, ∀ c ∈ l, geo.value img' step c = 0
  others : ∀ step < geo.copies, ∀ c, geo.IsCluster c → c ∉ l →
    geo.value img' step c = geo.value img step c
  high : ∀ step < geo.copies, ∀ c, geo.IsCluster c →
    geo.entry img' step c / (geo.kind.mask + 1) = geo.entry img step c / (geo.kind.mask + 1)
  outside : ∀ a, geo.Outside a → img' a = img a

namespace Vol

open Borrow (getState onIo reading setState setHeld)
open Device (Faulty)
open Medium (Is Struck)
open Prog (Triple)
open View (overlaid Idle)

variable {m : Medium} {A : Outcome Stop → Prop} {rest : Nat → UInt8} {v : View}
  {tbl : Nat → Nat → Nat} {fat : Fat}
variable {n cluster c : Nat} {struck : Nat → Prop}

theorem stops_next (hno : ¬ Faulty A) (hgeo : fat.geo = m.geo) (cluster : Nat) :
    Triple (m.Shown A rest tbl) (fat.next cluster) (fun _ => m.Shown A rest tbl)
      fun e io => e ≠ .diverged ∧ m.Shown A rest tbl io := by
  have hcheck : Triple (m.Shown A rest tbl) (fat.checkCluster cluster : Prog Io Stop Nat)
      (fun _ io => m.geo.IsCluster cluster ∧ m.Shown A rest tbl io) fun e io => e ≠ .diverged ∧
        m.Shown A rest tbl io := by
    refine Triple.ite (fun hc => Triple.pure fun io h => ⟨?_, h⟩) fun _ =>
      Triple.fail fun io h => ⟨nofun, h⟩
    rwa [Fat.isCluster_iff, hgeo] at hc
  have hget : Triple (m.Shown A rest tbl) (fat.get cluster) (fun _ => m.Shown A rest tbl)
      fun e io => e ≠ .diverged ∧ m.Shown A rest tbl io := by
    refine Triple.bind hcheck fun _ => Triple.assume fun hc => ?_
    rw [hgeo]
    exact Triple.bind ((Fat.shown_entry (Geometry.copies_pos m.valid) hc).weaken
      (fun _ _ h => h) fun _ _ h => absurd h.1 hno)
      fun bytes => Triple.pure fun io h => h.2
  refine Triple.bind hget fun stored => ?_
  split
  · exact Triple.pure fun io h => h
  · exact Triple.fail fun io h => ⟨nofun, h⟩
  · exact Triple.fail fun io h => ⟨nofun, h⟩

theorem stops_gatherChain (hno : ¬ Faulty A) (hgeo : fat.geo = m.geo)
    (size base turns cluster : Nat) (group : ClusterGroup) :
    Triple (m.Shown A rest tbl) (gatherChain fat size base turns cluster group)
      (fun r _ => r.1 ≠ .error .diverged) fun _ _ => True := by
  induction turns generalizing cluster group with
  | zero => exact Triple.fail fun _ _ => trivial
  | succ turns ih =>
    refine Triple.ite (fun _ => Triple.pure fun _ _ => nofun) fun _ => ?_
    refine Triple.bind (Q := fun r io => r ≠ .error .diverged ∧ m.Shown A rest tbl io)
      (Triple.attempt (stops_next hno hgeo cluster)
      (fun _ _ h => ⟨nofun, h⟩) fun e _ h => ⟨fun heq => h.1 (Except.error.inj heq), h.2⟩)
        fun r => Triple.assume fun hr => ?_
    rcases r with e | next | next
    · exact Triple.pure fun _ _ heq => hr (by rw [Except.error.inj heq])
    · exact Triple.pure fun _ _ => nofun
    · exact Triple.ite (fun _ => ih _ _) fun _ => Triple.pure fun _ _ => nofun

theorem struck_overlaid {clusters : List Nat} {values : Nat → Nat}
    (h : ∀ c ∈ clusters, values c = 0) :
    Struck (fun c => c ∈ clusters) v.tbl (overlaid m.geo.copies clusters values v.tbl) where
  free := fun c hc => by rw [View.overlaid_mem (Geometry.copies_pos m.valid) hc, h c hc]
  others := fun c hc => View.overlaid_not_mem hc 0

/-- A chain from `cluster` on was freed: the entries of those of its clusters that `frees`
lets be freed, none of which is refused, are zero. -/
def Erased (m : Medium) (A : Outcome Stop → Prop) (rest : Nat → UInt8)
    (frees refused : Nat → Prop) (v : View) (cluster : Nat) (vol : Vol) : Prop :=
  ∃ l clusters, (l.head? = some cluster ∧ Links (m.geo.next (v.tbl 0)) l) ∧
    (∀ c, c ∈ clusters ↔ c ∈ l ∧ frees c) ∧ (∀ c ∈ clusters, ¬ refused c) ∧
    m.Is A rest (fun v' => v'.tbl = overlaid m.geo.copies clusters (fun _ => 0) v.tbl) vol

/-- Freeing fails for want of turns, or because no chain that starts at `cluster` ends, or
for a cluster on it that is refused. -/
def Fails (m : Medium) (frees refused : Nat → Prop) (v : View) (cluster : Nat) (e : Stop) :
    Prop :=
  e = .diverged ∨ ∀ l, l.head? = some cluster → Links (m.geo.next (v.tbl 0)) l →
    ∃ c ∈ l, frees c ∧ refused c

section

variable {frees refused : Nat → Prop} {seg clusters : List Nat} {v' : View} {e : Stop} {vol : Vol}

theorem overlaid_append {clusters' : List Nat} : overlaid m.geo.copies clusters' (fun _ => 0)
    (overlaid m.geo.copies clusters (fun _ => 0) tbl) = overlaid m.geo.copies
      (clusters ++ clusters') (fun _ => 0) tbl := by
  funext step c
  simp only [overlaid, mem_append]
  by_cases hnew : step < m.geo.copies ∧ c ∈ clusters'
  · rw [if_pos hnew, if_pos ⟨hnew.1, .inr hnew.2⟩]
  · rw [if_neg hnew]
    by_cases hold : step < m.geo.copies ∧ c ∈ clusters
    · rw [if_pos hold, if_pos ⟨hold.1, .inl hold.2⟩]
    · rw [if_neg hold, if_neg fun h => h.2.elim (fun h' => hold ⟨h.1, h'⟩) fun h' =>
        hnew ⟨h.1, h'⟩]

theorem Erased.after (hseg : seg.head? = some cluster ∧ Leads (m.geo.next (v.tbl 0)) seg (some c))
    (hclusters : ∀ x, x ∈ clusters ↔ x ∈ seg ∧ frees x) (hwhole : ∀ x ∈ clusters, ¬ refused x)
    (htbl : v'.tbl = overlaid m.geo.copies clusters (fun _ => 0) v.tbl)
    (h : Erased m A rest frees refused v' c vol) :
    Erased m A rest frees refused v cluster vol := by
  obtain ⟨l, clusters', ⟨hhead, hlinks⟩, hmem, hgood, v'', hv'', hat⟩ := h
  have hstruck : Struck (fun c => c ∈ clusters) v.tbl v'.tbl :=
    htbl ▸ struck_overlaid (m := m) fun _ _ => rfl
  refine ⟨seg ++ l, clusters ++ clusters', ⟨?_, ?_⟩, fun x => ?_, fun x hx => ?_, v'', ?_, hat⟩
  · rw [head?_append, hseg.1, Option.some_or]
  · exact Leads.append (by rw [hhead, Option.some_or]; exact hseg.2) (hstruck.chain hlinks)
  · rw [mem_append, mem_append, hclusters, hmem]
    tauto
  · exact (mem_append.mp hx).elim (hwhole x) (hgood x)
  · show v''.tbl = _
    rw [hv'', htbl, overlaid_append]

theorem Fails.after (hseg : seg.head? = some cluster ∧ Leads (m.geo.next (v.tbl 0)) seg (some c))
    (hclusters : ∀ x, x ∈ clusters ↔ x ∈ seg ∧ frees x)
    (htbl : v'.tbl = overlaid m.geo.copies clusters (fun _ => 0) v.tbl)
    (h : Fails m frees refused v' c e) : Fails m frees refused v cluster e := by
  refine h.imp id fun h l hhead hlinks => ?_
  have hstruck : Struck (fun c => c ∈ clusters) v.tbl v'.tbl :=
    htbl ▸ struck_overlaid (m := m) fun _ _ => rfl
  obtain ⟨l', rfl, hl'⟩ := hseg.2.exists_append hlinks (by rw [hhead, hseg.1, Option.some_or])
  obtain ⟨x, hx, hwhy⟩ := h l' hl' (hstruck.rest hlinks fun x hx => ((hclusters x).mp hx).1)
  exact ⟨x, mem_append_right _ hx, hwhy⟩

end

theorem idle_freeEach (hno : ¬ Faulty A) (hv : v.Idle) (fuel cluster : Nat) :
    Triple (m.At A rest v) (freeEach fuel cluster)
    (fun _ => Erased m A rest (fun _ => True) (fun _ => False) v cluster)
    fun e _ => Fails m (fun _ => True) (fun _ => False) v cluster e := by
  induction fuel generalizing cluster v with
  | zero => exact Triple.fail fun _ _ => .inl rfl
  | succ fuel ih =>
    refine Triple.bind (Q := fun next vol => m.geo.next (v.tbl 0) cluster = some next ∧
      m.At A rest v vol)
      ((at_reading fun fat hgeo => Fat.shown_next hgeo cluster).weaken
        (fun next _ h => ⟨Geometry.next_eq_some_iff.mpr h.1, h.2⟩) fun e vol h =>
          .inr fun l hhead hlinks => ?_)
      fun next => Triple.assume fun hnext => ?_
    · obtain ⟨l, rfl⟩ := head?_eq_some_iff.mp hhead
      obtain ⟨hc, hlink⟩ := Geometry.next_eq_some_iff.mp hlinks.1
      rcases h.1 with hfaulty | hout | ⟨err, herr⟩
      · exact absurd hfaulty hno
      · exact absurd hc hout
      · exact absurd (herr.symm.trans hlink) (by simp)
    have hc := (Geometry.next_eq_some_iff.mp hnext).1
    refine Triple.bind (Medium.at_setHeld _) fun _ =>
      Triple.bind (Q := fun _ => m.Is A rest fun v' => v'.Idle ∧
      v'.tbl = overlaid m.geo.copies [cluster] (fun _ => 0) v.tbl)
        ((idle_set hno (hv.holding _) cluster 0).weaken
        (fun _ vol h => ?_) fun _ _ h => absurd hc h.1) fun _ => Medium.is_intro fun v' hv' => ?_
    · rw [Stored, Nat.zero_and] at h
      exact h.2.mono fun v' hv' => ⟨hv'.1, hv'.2.2⟩
    have hmem (x : Nat) : x ∈ [cluster] ↔ x ∈ [cluster] ∧ True := by rw [and_true]
    cases next with
    | none =>
      refine (Medium.at_setHeld _).post fun _ vol hat =>
        ⟨[cluster], [cluster], ⟨rfl, hnext, trivial⟩, hmem, fun _ _ => id, _, ?_, hat⟩
      exact hv'.2
    | some next =>
      have hseg : [cluster].head? = some cluster ∧
        Leads (m.geo.next (v.tbl 0)) [cluster] (some next) := ⟨rfl, hnext, trivial⟩
      exact (ih hv'.1 next).weaken (fun _ _ h => h.after hseg hmem (fun _ _ => id) hv'.2) fun _ _
        h => h.after hseg hmem hv'.2

/-- What a group that was gathered and written leaves. -/
structure Wrote (m : Medium) (group : ClusterGroup) (v v' : View) : Prop where
  idle : v'.Idle
  tbl : v'.tbl = overlaid m.geo.copies group.members (fun _ => 0) v.tbl
  whole : ∀ c ∈ group.members, m.SameBlock c c

theorem idle_freeGroups_turn (hno : ¬ Faulty A) (hv : v.Idle) {turns fuel : Nat}
    {Q : Unit → Vol → Prop} {E : Stop → Prop}
    (hendless : Endless m v.tbl (m.base cluster) turns cluster
      (ClusterGroup.new (m.base cluster)) → E .diverged)
    (htorn : cluster < m.base cluster + ClusterGroup.span → ¬ m.SameBlock cluster cluster →
      E (.ofKind .corrupt))
    (hfail : ∀ e group, Gathered m A v.tbl (m.base cluster) cluster
      (ClusterGroup.new (m.base cluster)) (.error e) group →
      e ≠ .diverged → E e)
    (hlast : ∀ group v', Gathered m A v.tbl (m.base cluster) cluster
      (ClusterGroup.new (m.base cluster)) (.ok none) group →
      Wrote m group v v' → ∀ vol, m.At A rest v' vol → Q () vol)
    (hnext : ∀ c group v', Gathered m A v.tbl (m.base cluster) cluster
      (ClusterGroup.new (m.base cluster)) (.ok (some c)) group →
      Wrote m group v v' → Triple (m.At A rest v') (freeGroups turns fuel c) Q fun e _ => E e) :
    Triple (m.At A rest v) (freeGroups turns (fuel + 1) cluster) Q fun e _ => E e := by
  refine Medium.at_getState fun dirty info => Medium.at_size fun hbs =>
    Triple.of_forall fun vol₀ hvol => Triple.pre ?_
    fun vol heq => show m.At A rest v vol from heq ▸ hvol
  have hgeo : (v.fat.marked dirty info).geo = m.geo := hvol.geo
  rw [Medium.blockBase_eq hgeo]
  refine Triple.bind (Q := fun r vol =>
    (Gathered m A v.tbl (m.base cluster) cluster (ClusterGroup.new (m.base cluster)) r.1 r.2 ∧
    r.1 ≠ .error .diverged) ∧ m.At A rest v vol) ((Medium.at_reads
      (((shown_gatherChain hgeo hbs (m.base cluster) turns cluster
      (ClusterGroup.new (m.base cluster))).and (stops_gatherChain hno hgeo m.blockSize
        (m.base cluster) turns cluster
        (ClusterGroup.new (m.base cluster)))).conseq (fun _ h => ⟨h, h⟩) (fun _ _ h =>
          ⟨⟨h.1.1, h.2⟩, h.1.2⟩)
          fun _ _ h => h.1)).weaken (fun _ _ h => h) fun e _ h => ?_) fun r =>
            Triple.assume fun hr => ?_
  · rw [h.1.1]
    exact hendless h.1.2
  obtain ⟨next, group⟩ := r
  obtain ⟨hgather, hdone⟩ := hr
  have hcluster (c : Nat) (hc : c ∈ Fat.groupEntries group none) : m.geo.IsCluster c := by
    rw [groupEntries_none] at hc
    exact ((hgather.reaches hc).resolve_left not_mem_nil).2.1
  refine Triple.bind (Q := fun _ => m.Is A rest fun v' => Wrote m group v v')
    (Triple.when (fun hcount => ?_) fun hcount vol hat => ?_)
    fun _ => Medium.is_intro fun v' hv' => ?_
  · have hne : group.members ≠ [] := length_pos_iff.mp hcount
    refine Triple.bind (Medium.at_setHeld _) fun _ =>
      (idle_patch_or hno (hv.holding _) none hne hcluster).weaken
      (fun _ vol h => h.2.mono fun v' hv' => ⟨hv'.1, ?_, fun c hc step hstep => ?_⟩)
        fun e _ h => ?_
    · rw [hv'.2.2, groupEntries_none]
      exact View.overlaid_congr fun c _ => groupValue_freed group c
    · have hwhole := Medium.Fits.whole hbs (h.1 step hstep) (groupEntries_none group ▸ hc)
      exact ⟨rfl, hwhole, hwhole⟩
    · obtain ⟨rfl, step, hstep, hnot⟩ := h
      have htorn' : ¬ (cluster ∈ group.members → m.SameBlock cluster cluster) := fun hwhole =>
        hnot (hgather.fits hbs hne hwhole hstep)
      rw [Classical.not_imp] at htorn'
      have hspan := ((hgather.reaches htorn'.1).resolve_left not_mem_nil).2.2.1
      exact htorn (ClusterGroup.spans_iff.mp hspan).2 htorn'.2
  · have hnil : group.members = [] :=
      eq_nil_iff_length_eq_zero.mpr (Nat.eq_zero_of_not_pos hcount)
    refine ⟨v, ⟨hv, ?_, fun c hc => absurd hc (hnil ▸ not_mem_nil)⟩, hat⟩
    funext step c
    rw [hnil, View.overlaid_not_mem not_mem_nil]
  · rcases next with e | _ | c
    · exact Triple.fail fun _ _ => hfail e group hgather fun he => hdone (he ▸ rfl)
    · refine (Medium.at_setHeld _).post fun _ vol hat =>
        hlast group _ hgather ⟨⟨?_, ?_⟩, ?_, hv'.whole⟩ vol hat
      · exact hv'.idle.split
      · exact hv'.idle.unmirrored
      · exact hv'.tbl
    · exact hnext c group v' hgather hv'

theorem idle_freeGroups (hno : ¬ Faulty A) (hk : m.geo.kind ≠ .fat12) (hv : v.Idle)
    (turns fuel cluster : Nat) :
    Triple (m.At A rest v) (freeGroups turns fuel cluster)
      (fun _ => Erased m A rest m.Spanned (fun c => ¬ m.SameBlock c c) v cluster)
      fun e _ => Fails m m.Spanned (fun c => ¬ m.SameBlock c c) v cluster e := by
  induction fuel generalizing cluster v with
  | zero => exact Triple.fail fun _ _ => .inl rfl
  | succ fuel ih =>
    have hpath {o : Option Nat} {group : ClusterGroup}
        (h : Gathered m A v.tbl (m.base cluster) cluster (ClusterGroup.new (m.base cluster))
          (.ok o) group) :
        ∃ l, (l.head? = some cluster ∧ Leads (m.geo.next (v.tbl 0)) l o) ∧
          ∀ c, c ∈ group.members ↔ c ∈ l ∧ m.Spanned c := by
      obtain ⟨l, hl, hmem⟩ := h.path hk rfl
      exact ⟨l, hl, fun c => (hmem c).trans (or_iff_right not_mem_nil)⟩
    refine idle_freeGroups_turn hno hv (fun _ => .inl rfl)
      (fun hspan hsplit => .inr fun l hhead _ => ?_)
      (fun e group h _ => .inr fun l hhead hlinks => ?_) (fun group v' h hwrote vol hat => ?_)
        fun c group v' h hwrote => ?_
    · exact ⟨cluster, mem_of_mem_head? hhead, hspan, hsplit⟩
    · exact absurd hlinks (h.lost hno (fun c hc => absurd hc not_mem_nil) hhead)
    · obtain ⟨l, hl, hmem⟩ := hpath h
      exact ⟨l, group.members, hl, hmem, fun c hc hsplit => hsplit (hwrote.whole c hc),
        v', hwrote.tbl, hat⟩
    · obtain ⟨l, hl, hmem⟩ := hpath h
      exact (ih hwrote.idle c).weaken
        (fun _ _ h => h.after hl hmem (fun c hc hsplit => hsplit (hwrote.whole c hc)) hwrote.tbl)
        fun _ _ h => h.after hl hmem hwrote.tbl

theorem Wrote.marked {group : ClusterGroup} {v' : View} (hstruck : Struck struck tbl v.tbl)
    (h : Wrote m group v v') :
    Struck (Marked struck group) tbl v'.tbl := by
  rw [h.tbl]
  exact hstruck.trans (struck_overlaid fun _ _ => rfl)

theorem marked_new (struck : Nat → Prop) (base : Nat) :
    Marked struck (ClusterGroup.new base) = struck := by
  funext c
  exact propext (or_iff_left not_mem_nil)

theorem stops_freeGroups (hno : ¬ Faulty A) (hk : m.geo.kind ≠ .fat12) (hv : v.Idle)
    (hstruck : Struck struck tbl v.tbl)
    (hstops : Stops m tbl n struck cluster) {turns fuel : Nat} (hturns : n < turns)
    (hfuel : n < fuel) :
    Triple (m.At A rest v) (freeGroups turns fuel cluster) (fun _ _ => True) fun e _ =>
      e ≠ .diverged := by
  induction fuel generalizing cluster v n struck with
  | zero => exact absurd hfuel (Nat.not_lt_zero n)
  | succ fuel ih =>
    rw [← marked_new struck (m.base cluster)] at hstops
    refine idle_freeGroups_turn hno hv (fun h => ?_) (fun _ _ => nofun) (fun _ _ _ h => h)
      (fun _ _ _ _ _ _ => trivial)
      fun c group v' h hwrote => ?_
    · exact absurd (h.le hk hstruck rfl hstops) (not_le.mpr hturns)
    · rcases h.stops hk hstruck rfl hstops with ⟨hmem, hsplit⟩ | ⟨k, hk', hstops'⟩
      · exact absurd (hwrote.whole cluster hmem) hsplit
      · exact ih hwrote.idle (hwrote.marked hstruck) hstops' (hk'.trans hturns) (by omega)

theorem runs_freeGroups (hno : ¬ Faulty A) (hk : m.geo.kind ≠ .fat12) (hv : v.Idle)
    (hstruck : Struck struck tbl v.tbl) (hruns : Runs m tbl struck cluster) (turns fuel : Nat) :
    Triple (m.At A rest v) (freeGroups turns fuel cluster) (fun _ _ => False) fun e _ =>
      e = .diverged := by
  induction fuel generalizing cluster v struck with
  | zero => exact Triple.fail fun _ _ => rfl
  | succ fuel ih =>
    rw [← marked_new struck (m.base cluster)] at hruns
    have hgathered {next : ChainEnd} {group : ClusterGroup}
        (h : Gathered m A v.tbl (m.base cluster) cluster
          (ClusterGroup.new (m.base cluster)) next group) :=
      h.runs hno hk hstruck rfl hruns
    refine idle_freeGroups_turn hno hv (fun _ => rfl)
      (fun hspan hsplit => absurd hsplit (hruns.accepted hspan))
      (fun e group h _ => ?_) (fun group v' h _ _ _ => ?_) fun c group v' h hwrote => ?_
    · obtain ⟨c, hc, -⟩ := hgathered h
      cases hc
    · obtain ⟨c, hc, -⟩ := hgathered h
      cases hc
    · obtain ⟨c', hc, hruns'⟩ := hgathered h
      cases hc
      exact ih hwrote.idle (hwrote.marked hstruck) hruns'

theorem stops_freeEach (hno : ¬ Faulty A) (hv : v.Idle) {fuel : Nat}
    (hfuel : m.geo.maxCluster - 1 < m.geo.freeCount (v.tbl 0) + fuel) :
    Triple (m.At A rest v) (freeEach fuel cluster) (fun _ _ => True) fun e _ =>
      e ≠ .diverged := by
  induction fuel generalizing cluster v with
  | zero => exact absurd hfuel (not_lt.mpr (Geometry.freeCount_le _))
  | succ fuel ih =>
    refine Triple.bind (Q := fun next vol => m.geo.next (v.tbl 0) cluster = some next ∧
      m.At A rest v vol)
      ((at_reading fun fat hgeo =>
        ((Fat.shown_next hgeo cluster).and (stops_next hno hgeo cluster)).conseq
          (fun _ h => ⟨h, h⟩)
        (fun _ _ h => h.1) fun _ _ h => h.2).weaken (fun next _ h =>
          ⟨Geometry.next_eq_some_iff.mpr h.1, h.2⟩) fun _ _ h => h.1)
      fun next => Triple.assume fun hnext => ?_
    obtain ⟨hc, hlink⟩ := Geometry.next_eq_some_iff.mp hnext
    refine Triple.bind (Medium.at_setHeld _) fun _ =>
      Triple.bind (Q := fun _ => m.Is A rest fun v' => v'.Idle ∧
      v'.tbl = overlaid m.geo.copies [cluster] (fun _ => 0) v.tbl)
        ((idle_set hno (hv.holding _) cluster 0).weaken
        (fun _ vol h => ?_) fun _ _ h => absurd hc h.1) fun _ => Medium.is_intro fun v' hv' => ?_
    · rw [Stored, Nat.zero_and] at h
      exact h.2.mono fun v' hv' => ⟨hv'.1, hv'.2.2⟩
    cases next with
    | none => exact (Medium.at_setHeld _).post fun _ _ _ => trivial
    | some next =>
      refine ih hv'.1 ?_
      have hzero := Medium.ne_zero_of_link hlink
      have hupdate : v'.tbl 0 = Function.update (v.tbl 0) cluster 0 := by
        funext c
        rw [hv'.2, Function.update_apply]
        by_cases heq : c = cluster
        · rw [if_pos heq, View.overlaid_mem (Geometry.copies_pos m.valid) (mem_singleton.mpr heq)]
        · rw [if_neg heq, View.overlaid_not_mem (fun h => heq (mem_singleton.mp h))]
      have hcount := Geometry.freeCount_update hc (v.tbl 0) 0
      rw [if_neg hzero, if_pos rfl] at hcount
      rw [hupdate]
      omega

def next (vol : Vol) : Nat → Option (Option Nat) :=
  vol.state.geo.next (vol.state.geo.value vol.io.dev.bytes 0)

/-- `l` is the chain of clusters from `first` on, and ends. -/
def Chains (vol : Vol) (first : Nat) (l : List Nat) : Prop :=
  l.head? = some first ∧ Links vol.next l

/-- The entry of `c` lies in one device block in every FAT copy written. -/
def Whole (vol : Vol) (c : Nat) : Prop := ∀ step < vol.state.geo.copies,
  vol.state.geo.entryAt step c % vol.io.dev.blockSize + vol.state.geo.kind.entryLen ≤
    vol.io.dev.blockSize

/-- The group of the clusters that share a device block with `c` has room for it. -/
def Spanned (vol : Vol) (c : Nat) : Prop :=
  c < vol.state.blockBase vol.io.dev.blockSize c + ClusterGroup.span

/-- The way from `first` along the links ends, or comes to a cluster its group has room for
that is refused or leads back to itself. -/
def Halts (vol : Vol) (first : Nat) : Prop :=
  (∃ z, Relation.ReflTransGen (fun a b => vol.next a = some (some b)) first z ∧
    ∀ b, vol.next z ≠ some (some b)) ∨
    ∃ c, Relation.ReflTransGen (fun a b => vol.next a = some (some b)) first c ∧ vol.Spanned c ∧
      (¬ vol.Whole c ∨ Relation.TransGen (fun a b => vol.next a = some (some b)) c c)

/-- `free_chain` ends, and where the chain ends it frees all of it and nothing else. -/
def Frees (vol : Vol) (first : Nat) : Prop :=
  (∃ turns, ((freeChainFor turns first).run vol).1 ≠ .error .diverged) ∧
    ∀ l, vol.Chains first l → ∀ turns, ((freeChainFor turns first).run vol).1 ≠ .error .diverged →
      ((freeChainFor turns first).run vol).1 = .ok () ∧
        vol.state.geo.Freed vol.io.dev.bytes ((freeChainFor turns first).run vol).2.io.dev.bytes l

section

variable {vol : Vol} {first : Nat} {l : List Nat} {frees refused : Nat → Prop}

theorem freed_of_erased {vol' : Vol} {img : Nat → UInt8} {held : Option Held} {fat : Fat}
    (hl : l.head? = some first ∧ Links (m.geo.next (m.geo.value img 0)) l)
    (h : Erased m A img frees refused ⟨m.geo.value img, fat, held⟩ first vol') :
    (∀ c ∈ l, frees c) → m.geo.Freed img vol'.io.dev.bytes l := by
  obtain ⟨l', clusters, ⟨hhead, hlinks⟩, hmem, -, v', hv', hat⟩ := h
  obtain rfl := Leads.unique hl.2 hlinks (hl.1.trans hhead.symm)
  obtain ⟨img', hshows, hio⟩ := hat.io
  rw [hio.2.bytes]
  intro hall
  refine ⟨fun step hstep c hc => ?_, fun step hstep c hc hout => ?_, hshows.high, hshows.outside⟩
  · obtain ⟨o, ho⟩ := Option.ne_none_iff_exists'.mp (hlinks.mem_linked hc)
    rw [hshows.inside step hstep c (Geometry.next_eq_some_iff.mp ho).1, hv',
      View.overlaid_mem hstep ((hmem c).mpr ⟨hc, hall c hc⟩)]
  · rw [hshows.inside step hstep c hc, hv', View.overlaid_not_mem fun h => hout ((hmem c).mp h).1]

theorem frees_of_freed {vol' : Vol} {img : Nat → UInt8} {held : Option Held} {fat : Fat}
    (hl : l.head? = some first ∧ Links (m.geo.next (m.geo.value img 0)) l)
    (h : Erased m A img frees refused ⟨m.geo.value img, fat, held⟩ first vol')
    (hfreed : m.geo.Freed img vol'.io.dev.bytes l)
    {c : Nat} (hc : c ∈ l) : frees c ∧ ¬ refused c := by
  obtain ⟨l', clusters, ⟨hhead, hlinks⟩, hmem, hgood, v', hv', hat⟩ := h
  obtain rfl := Leads.unique hl.2 hlinks (hl.1.trans hhead.symm)
  obtain ⟨img', hshows, hio⟩ := hat.io
  obtain ⟨o, ho⟩ := Option.ne_none_iff_exists'.mp (hlinks.mem_linked hc)
  have hin : c ∈ clusters := by
    refine Classical.byContradiction fun hout => ?_
    have hzero := hfreed.zero 0 (Geometry.copies_pos m.valid) c hc
    rw [hio.2.bytes, hshows.inside 0 (Geometry.copies_pos m.valid) c
      (Geometry.next_eq_some_iff.mp ho).1, hv', View.overlaid_not_mem hout] at hzero
    rw [Geometry.next_zero hzero] at ho
    cases ho
  exact ⟨((hmem c).mp hin).2, hgood c hin⟩

end

theorem at_freeChainFor {first turns : Nat} {Q : Unit → Vol → Prop} {E : Stop → Prop}
    (hout : ¬ m.geo.IsCluster first → E (.ofKind .corrupt))
    (h : Triple (m.At A rest v) (if m.geo.kind = .fat12 then freeEach turns first
      else freeGroups turns turns first) Q fun e _ => E e) :
    Triple (m.At A rest v) (freeChainFor turns first) Q fun e _ => E e := by
  refine Medium.at_getState fun dirty info => Triple.of_forall fun vol₀ hvol => Triple.pre ?_
    fun vol heq => show m.At A rest v vol from heq ▸ hvol
  have hgeo : (v.fat.marked dirty info).geo = m.geo := hvol.geo
  rw [hgeo]
  have hcheck : Triple (m.At A rest v)
      ((v.fat.marked dirty info).checkCluster first : Prog Vol Stop Nat)
        (fun c vol => c = first ∧ m.At A rest v vol) fun e _ => E e := by
    refine Triple.ite (fun _ => Triple.pure fun _ h => ⟨rfl, h⟩) fun hc =>
      Triple.fail fun _ _ => hout ?_
    rwa [Fat.isCluster_iff, hgeo] at hc
  refine Triple.bind hcheck fun c => Triple.assume fun hc => ?_
  rw [hc]
  exact h

theorem idle_freeChainFor (hno : ¬ Faulty A) (hv : v.Idle) (turns first : Nat)
    {frees refused : Nat → Prop}
    (h12 : m.geo.kind = .fat12 → frees = (fun _ => True) ∧ refused = fun _ => False)
    (hgroups : m.geo.kind ≠ .fat12 → frees = m.Spanned ∧ refused = fun c => ¬ m.SameBlock c c) :
    Triple (m.At A rest v) (freeChainFor turns first)
      (fun _ => Erased m A rest frees refused v first)
      fun e _ => Fails m frees refused v first e := by
  refine at_freeChainFor (fun hout => .inr fun l hhead hlinks => ?_) ?_
  · obtain ⟨l, rfl⟩ := head?_eq_some_iff.mp hhead
    exact absurd (Geometry.next_eq_some_iff.mp hlinks.1).1 hout
  by_cases hk : m.geo.kind = .fat12
  · obtain ⟨rfl, rfl⟩ := h12 hk
    rw [if_pos hk]
    exact idle_freeEach hno hv turns first
  · obtain ⟨rfl, rfl⟩ := hgroups hk
    rw [if_neg hk]
    exact idle_freeGroups hno hk hv turns turns first

end Vol

section

variable {vol : Vol} (h : vol.Idle) (hdone : ∀ o ∈ vol.io.dev.script, o = .done) (first : Nat)

include h hdone

theorem Vol.Idle.seen : ∃ m : Medium, m.geo = vol.state.geo ∧
    m.At (fun o => o = .done) vol.io.dev.bytes
      ⟨m.geo.value vol.io.dev.bytes, vol.state, vol.held⟩ vol ∧
    vol.next = m.geo.next (m.geo.value vol.io.dev.bytes 0) ∧ vol.Spanned = m.Spanned ∧
    ∀ c, vol.Whole c ↔ m.SameBlock c c := by
  obtain ⟨m, hgeo, hat⟩ := h.medium hdone
  have hsize : vol.io.dev.blockSize = m.blockSize := by
    obtain ⟨img, -, hio⟩ := hat.io
    exact hio.2.blockSize
  refine ⟨m, hgeo, hat, by rw [Vol.next, hgeo], ?_, fun c => ?_⟩
  · funext c
    rw [Vol.Spanned, Medium.Spanned, hsize, Medium.blockBase_eq hgeo.symm]
  · rw [Vol.Whole, hsize, ← hgeo]
    exact ⟨fun h step hstep => ⟨rfl, h step hstep, h step hstep⟩,
      fun h step hstep => (h step hstep).2.1⟩

theorem Vol.freeChain_ends_iff :
    (∃ turns, ((Vol.freeChainFor turns first).run vol).1 ≠ .error .diverged) ↔
    vol.state.geo.kind = .fat12 ∨ vol.Halts first := by
  obtain ⟨m, hgeo, hat, hnext, hspanned, hwhole⟩ := h.seen hdone
  have hno := not_faulty_done
  have hidle : View.Idle ⟨m.geo.value vol.io.dev.bytes, vol.state, vol.held⟩ :=
    ⟨h.split, h.unmirrored⟩
  have hrun {E : Stop → Prop} {Q : Unit → Vol → Prop}
    (hout : ¬ m.geo.IsCluster first → E (.ofKind .corrupt)) (turns : Nat)
      (h : Prog.Triple (m.At (fun o => o = .done) vol.io.dev.bytes
        ⟨m.geo.value vol.io.dev.bytes, vol.state, vol.held⟩)
        (if m.geo.kind = .fat12 then Vol.freeEach turns first
          else Vol.freeGroups turns turns first) Q fun e _ => E e) :=
    Vol.at_freeChainFor hout h vol hat
  have hends {turns : Nat} (h : Prog.Triple (m.At (fun o => o = .done) vol.io.dev.bytes
      ⟨m.geo.value vol.io.dev.bytes, vol.state, vol.held⟩) (if m.geo.kind = .fat12
        then Vol.freeEach turns first else
        Vol.freeGroups turns turns first) (fun _ _ => True) fun e _ => e ≠ .diverged) :
      ((Vol.freeChainFor turns first).run vol).1 ≠ .error .diverged := by
    have hdone := hrun (fun _ => nofun) turns h
    intro hdiverged
    rcases hres : (Vol.freeChainFor turns first).run vol with ⟨e | ⟨⟩, vol'⟩ <;>
      rw [hres] at hdone hdiverged
    · exact hdone (Except.error.inj hdiverged)
    · cases hdiverged
  by_cases hk : m.geo.kind = .fat12
  · refine iff_of_true ⟨m.geo.maxCluster, hends ?_⟩ (.inl (hgeo ▸ hk))
    rw [if_pos hk]
    refine Vol.stops_freeEach hno hidle ?_
    have := Vol.total_pos m
    rw [Vol.total] at this
    omega
  have hstruck : Medium.Struck (fun _ => False) (m.geo.value vol.io.dev.bytes)
    (m.geo.value vol.io.dev.bytes) :=
    ⟨fun _ => False.elim, fun _ _ => rfl⟩
  have hfollows : (fun a b => vol.next a = some (some b)) =
      m.Links (m.geo.value vol.io.dev.bytes) := by
    funext a b
    rw [hnext]
    exact propext Medium.links_iff.symm
  have hhalts : vol.Halts first ↔ ∃ n, Vol.Stops m (m.geo.value vol.io.dev.bytes) n
      (fun _ => False) first := by
    rw [exists_ends_iff, Vol.Halts, hfollows, hspanned]
    refine or_congr (exists_congr fun z => and_congr_right fun _ => forall_congr' fun b => ?_)
      (exists_congr fun c =>
      and_congr_right fun _ => and_congr_right fun _ => by rw [hwhole])
    rw [hnext, Medium.links_iff]
  rw [or_iff_right fun h => hk ((congrArg Geometry.kind hgeo).trans h), hhalts]
  constructor
  · rintro ⟨turns, hturns⟩
    refine Classical.byContradiction fun hnone => hturns ?_
    have hruns : Vol.Runs m (m.geo.value vol.io.dev.bytes) (fun _ => False) first :=
      fun n hn => hnone ⟨n, hn⟩
    have hdiverged := hrun (E := fun e => e = .diverged) (Q := fun _ _ => False)
      (fun hout => ?_) turns (by
      rw [if_neg hk]
      exact Vol.runs_freeGroups hno hk hidle hstruck hruns turns turns)
    · rcases hres : (Vol.freeChainFor turns first).run vol with ⟨e | ⟨⟩, vol'⟩ <;>
        rw [hres] at hdiverged
      · exact congrArg Except.error hdiverged
      · exact hdiverged.elim
    · obtain ⟨c, hc, -⟩ := hruns.exists_next
      exact absurd hc hout
  · rintro ⟨n, hstops⟩
    refine ⟨n + 1, hends ?_⟩
    rw [if_neg hk]
    exact Vol.stops_freeGroups hno hk hidle hstruck hstops (Nat.lt_succ_self n)
      (Nat.lt_succ_self n)

/-- All of a FAT12 chain that ends is freed where freeing it ends, and all of another one
where none of its clusters is refused or left out. -/
theorem Vol.freeChain_frees_iff
    (hends : ∃ turns, ((Vol.freeChainFor turns first).run vol).1 ≠ .error .diverged) :
    vol.Frees first ↔ vol.state.geo.kind = .fat12 ∨ ∀ l, vol.Chains first l →
      ∀ c ∈ l, vol.Whole c ∧ vol.Spanned c := by
  obtain ⟨m, hgeo, hat, hnext, hspanned, hwhole⟩ := h.seen hdone
  have hno := not_faulty_done
  have hidle : View.Idle ⟨m.geo.value vol.io.dev.bytes, vol.state, vol.held⟩ :=
    ⟨h.split, h.unmirrored⟩
  -- where nothing on the chain is in the way, all of the chain is freed
  have hfrees {frees refused : Nat → Prop}
      (h12 : m.geo.kind = .fat12 → frees = (fun _ => True) ∧ refused = fun _ => False)
        (hgroups : m.geo.kind ≠ .fat12 → frees = m.Spanned ∧ refused = fun c => ¬ m.SameBlock c c)
        (hall : ∀ l, vol.Chains first l → ∀ c ∈ l, frees c ∧ ¬ refused c) : vol.Frees first := by
    refine ⟨hends, fun l hl turns hdone => ?_⟩
    have hspec := Vol.idle_freeChainFor hno hidle turns first h12 hgroups vol hat
    have hchain := hl
    rw [Vol.Chains, hnext] at hchain
    rcases hres : (Vol.freeChainFor turns first).run vol with ⟨e | ⟨⟩, vol'⟩ <;>
      rw [hres] at hspec hdone
    · rcases hspec with rfl | hfails
      · exact absurd rfl hdone
      · obtain ⟨c, hc, -, hrefused⟩ := hfails l hchain.1 hchain.2
        exact absurd hrefused (hall l hl c hc).2
    · rw [← hgeo]
      exact ⟨rfl, Vol.freed_of_erased hchain hspec fun c hc => (hall l hl c hc).1⟩
  by_cases hk : m.geo.kind = .fat12
  · exact iff_of_true (hfrees (fun _ => ⟨rfl, rfl⟩) (fun h => absurd hk h) fun _ _ _ _ =>
      ⟨trivial, id⟩) (.inl (hgeo ▸ hk))
  rw [or_iff_right fun h => hk ((congrArg Geometry.kind hgeo).trans h)]
  refine ⟨fun ⟨_, hfreed⟩ l hl c hc => ?_, fun hall => hfrees (fun h => absurd h hk)
    (fun _ => ⟨rfl, rfl⟩) fun l hl c hc => ?_⟩
  · obtain ⟨turns, hturns⟩ := hends
    have hspec := Vol.idle_freeChainFor hno hidle turns first (fun h => absurd h hk)
      (fun _ => ⟨rfl, rfl⟩) vol hat
    obtain ⟨hok, hdone⟩ := hfreed l hl turns hturns
    rw [Vol.Chains, hnext] at hl
    rcases hres : (Vol.freeChainFor turns first).run vol with ⟨e | ⟨⟩, vol'⟩ <;>
      rw [hres] at hspec hok hdone
    · cases hok
    · rw [← hgeo] at hdone
      have hgood := Vol.frees_of_freed hl hspec hdone hc
      rw [hwhole, hspanned]
      exact ⟨Classical.not_not.mp hgood.2, hgood.1⟩
  · obtain ⟨hw, hs⟩ := hall l hl c hc
    rw [hwhole] at hw
    rw [hspanned] at hs
    exact ⟨hs, Classical.not_not.mpr hw⟩

/-- `free_chain` without a failing device call. A FAT12 chain is freed one entry at a time;
of a FAT16 or FAT32 one, the clusters that lie 2048 or more behind the first of their device
block are left out of their group: they stay as they are, and where the chain leads back to
such clusters only, freeing it does not end. -/
theorem free_chain_exact_iff : vol.Frees first ↔ vol.state.geo.kind = .fat12 ∨
    vol.Halts first ∧ ∀ l, vol.Chains first l → ∀ c ∈ l, vol.Whole c ∧ vol.Spanned c := by
  have hends := Vol.freeChain_ends_iff h hdone first
  constructor
  · intro hfrees
    rcases (Vol.freeChain_frees_iff h hdone first hfrees.1).mp hfrees with hk | hall
    · exact .inl hk
    · exact (hends.mp hfrees.1).imp id fun hhalts => ⟨hhalts, hall⟩
  · rintro (hk | ⟨hhalts, hall⟩)
    · exact (Vol.freeChain_frees_iff h hdone first (hends.mpr (.inl hk))).mpr (.inl hk)
    · exact (Vol.freeChain_frees_iff h hdone first (hends.mpr (.inr hhalts))).mpr (.inr hall)

end

/-- A FAT16 volume on a device of 8192-byte blocks: clusters 5, 3900 and 7 are a chain whose
entries lie in two blocks, 2048 is one of its own, and cluster 2049 links to itself. -/
@[irreducible] def sampleVolWide : Vol where
  io := {
    dev := {
      blockSize := 8192
      blockSize_pos := Nat.succ_pos 8191
      blockCount := 258
      bytes := tableBytes (sampleBoot16 ++ [(522, 0x3C), (523, 0x0F), (526, 0xFF), (527, 0xFF),
        (4608, 0xFF), (4609, 0xFF), (4610, 0x01), (4611, 0x08), (8312, 0x07),
          (8714, 0x3C), (8715, 0x0F),
        (8718, 0xFF), (8719, 0xFF), (12800, 0xFF), (12801, 0xFF), (12802, 0x01), (12803, 0x08),
        (16504, 0x07)])
      script := []
      log := [] }
    block := ⟨none, replicate 8192 0, 8192⟩ }
  state := Fat.opened sampleGeo16 false
  held := none

theorem idle_wide : sampleVolWide.Idle := by
  have hgeo : sampleVolWide.state.geo = sampleVolClean16.state.geo := by
    unfold sampleVolWide sampleVolClean16
    rfl
  refine ⟨hgeo ▸ opened_clean16.idle.valid, ?_, ⟨?_, ?_⟩, ?_, ?_⟩
  · unfold sampleVolWide
    decide
  · unfold sampleVolWide
    exact length_replicate
  · unfold sampleVolWide
    exact fun index h => by cases h
  · unfold sampleVolWide
    rfl
  · unfold sampleVolWide
    rfl

theorem done_wide : ∀ o ∈ sampleVolWide.io.dev.script, o = .done := by
  unfold sampleVolWide
  exact fun o ho => absurd ho not_mem_nil

theorem next_wide : sampleVolWide.next 5 = some (some 3900) ∧
    sampleVolWide.next 3900 = some (some 7) ∧
    sampleVolWide.next 7 = some none := by
  unfold sampleVolWide
  decide

theorem next_wide_past : sampleVolWide.next 2048 = some none ∧
    sampleVolWide.next 2049 = some (some 2049) := by
  unfold sampleVolWide
  decide

theorem free_chain_exact_iff_sample : sampleVolWide.Frees 5 := by
  obtain ⟨hfirst, hsecond, hlast⟩ := next_wide
  refine (free_chain_exact_iff idle_wide done_wide 5).mpr
    (.inr ⟨.inl ⟨7, .tail (.single hfirst) hsecond, fun b hb => ?_⟩, fun l hl c hc => ?_⟩)
  · rw [hlast] at hb
    cases hb
  · have hchain : Links sampleVolWide.next [5, 3900, 7] := ⟨hfirst, hsecond, hlast, trivial⟩
    obtain rfl := Leads.unique hl.2 hchain hl.1
    have hall : ∀ c ∈ [5, 3900, 7], sampleVolWide.Whole c ∧ sampleVolWide.Spanned c := by
      unfold Vol.Whole Vol.Spanned sampleVolWide
      decide
    exact hall c hc

/-- A chain of one cluster that stays as it is, and one that is gone round for ever. -/
theorem free_chain_exact_fails :
    sampleVolWide.Idle ∧ (∀ o ∈ sampleVolWide.io.dev.script, o = .done) ∧
    sampleVolWide.Chains 2048 [2048] ∧ ¬ sampleVolWide.Frees 2048 ∧
    ((Vol.freeChainFor 2 2048).run sampleVolWide).1 = .ok () ∧
    ¬ ∃ turns, ((Vol.freeChainFor turns 2049).run sampleVolWide).1 ≠ .error .diverged := by
  have hchain : sampleVolWide.Chains 2048 [2048] := ⟨rfl, next_wide_past.1, trivial⟩
  have hrun : ((Vol.freeChainFor 2 2048).run sampleVolWide).1 = .ok () ∧
      sampleVolWide.state.geo.value ((Vol.freeChainFor 2 2048).run sampleVolWide).2.io.dev.bytes
        0 2048 = 0xFFFF := by
    decide +kernel
  refine ⟨idle_wide, done_wide, hchain, fun hfrees => ?_, hrun.1, fun hends => ?_⟩
  · have hzero := (hfrees.2 [2048] hchain 2 (by rw [hrun.1]; nofun)).2.zero 0
      (by unfold sampleVolWide; decide) 2048
      (mem_singleton_self 2048)
    rw [hrun.2] at hzero
    cases hzero
  · have hstay (z : Nat)
        (h : Relation.ReflTransGen (fun a b => sampleVolWide.next a = some (some b)) 2049 z) : z =
        2049 := by
      induction h with
      | refl => rfl
      | tail _ hstep ih =>
        rw [ih, next_wide_past.2] at hstep
        cases hstep
        rfl
    have hnot : ¬ sampleVolWide.state.geo.kind = .fat12 ∧ ¬ sampleVolWide.Spanned 2049 := by
      unfold Vol.Spanned sampleVolWide
      decide
    rcases ((Vol.freeChain_ends_iff idle_wide done_wide 2049).mp hends).resolve_left
      hnot.1 with ⟨z, hz, hlast⟩ | ⟨c, hc, hspan, -⟩
    · exact hlast 2049 (hstay z hz ▸ next_wide_past.2)
    · exact hnot.2 (hstay c hc ▸ hspan)

end Hadris
