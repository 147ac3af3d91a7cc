import Hadris.Alloc.Gather
import Hadris.Alloc.Store
import Mathlib.Logic.Relation

namespace Hadris

open List

namespace Medium

open Relation (ReflTransGen)

variable {m : Medium} {tbl tbl' : Nat → Nat → Nat} {a b c lo hi : Nat}

/-- The entry of `a` links to `b`. -/
def Links (m : Medium) (tbl : Nat → Nat → Nat) (a b : Nat) : Prop :=
  m.geo.IsCluster a ∧ Fat.link m tbl a = .ok (some b)

/-- The chain at `a` comes to `b`. -/
abbrev Reaches (m : Medium) (tbl : Nat → Nat → Nat) : Nat → Nat → Prop :=
  ReflTransGen (m.Links tbl)

/-- The chain at `a` comes to `b` going up all the way. -/
abbrev Climbs (m : Medium) (tbl : Nat → Nat → Nat) : Nat → Nat → Prop :=
  ReflTransGen fun a b => m.Links tbl a b ∧ a < b

theorem Links.unique (h : m.Links tbl a b) (h' : m.Links tbl a c) : b = c := by
  have heq := h.2.symm.trans h'.2
  cases heq
  rfl

theorem Links.ne_zero (h : m.Links tbl a b) : tbl 0 a ≠ 0 := ne_zero_of_link h.2

theorem link_of_masked {value : Nat} (h : tbl 0 a = value &&& m.geo.kind.mask) :
    Fat.link m tbl a = m.geo.kind.next value m.geo.maxCluster := by
  rw [Fat.link, h, Fat.next_and_mask]

theorem Climbs.le (h : m.Climbs tbl a b) : a ≤ b := by
  induction h with
  | refl => exact le_rfl
  | tail _ hstep ih => exact ih.trans hstep.2.le

theorem Reaches.congr {S : Nat → Prop} (h : m.Reaches tbl a b)
    (hsame : ∀ x, ¬ S x → tbl 0 x = tbl' 0 x)
    (hout : ∀ x, m.Reaches tbl' a x → ¬ S x) : m.Reaches tbl' a b := by
  induction h with
  | refl => exact .refl
  | tail _ hstep ih =>
    refine ih.tail ⟨hstep.1, ?_⟩
    rw [Fat.link, ← hsame _ (hout _ ih)]
    exact hstep.2

theorem Links.of_stored (ha : m.geo.IsCluster a) (hb : m.geo.IsCluster b)
    (h : tbl 0 a = b &&& m.geo.kind.mask) : m.Links tbl a b :=
  ⟨ha, (link_of_masked h).trans (FatKind.next_cluster m.valid.maxCluster.2 hb)⟩

theorem isChain_of_stored {members : List Nat} (hnodup : members.Nodup)
    (hmembers : ∀ c ∈ members, m.geo.IsCluster c)
    {value : Nat}
    (h : ∀ c ∈ members, tbl 0 c = View.valueOf true members value c &&& m.geo.kind.mask) :
    members.IsChain fun a b => m.Links tbl b a := by
  induction members generalizing value with
  | nil => exact .nil
  | cons x rest ih =>
    rw [nodup_cons] at hnodup
    have hrest (c : Nat) (hc : c ∈ rest) : tbl 0 c = View.valueOf true rest x c &&&
        m.geo.kind.mask := by
      rw [h c (mem_cons_of_mem x hc), View.valueOf, if_pos hc, if_pos rfl]
    have hchain := ih hnodup.2 (fun c hc => hmembers c (mem_cons_of_mem x hc)) hrest
    cases rest with
    | nil => exact .singleton x
    | cons y rest =>
      have hy := hrest y mem_cons_self
      rw [View.valueOf, if_neg (nodup_cons.mp hnodup.2).1] at hy
      exact isChain_cons_cons.mpr
        ⟨.of_stored (hmembers y (by simp)) (hmembers x mem_cons_self) hy, hchain⟩

/-- Where each points to the one before it, which is higher, the chain at the last
climbs to the first. -/
theorem climbs_of_isChain {x : Nat} {rest : List Nat}
    (hchain : (x :: rest).IsChain fun a b => m.Links tbl b a)
    (hdesc : (x :: rest).Pairwise (· > ·)) {c : Nat} (hc : c ∈ x :: rest) :
    m.Climbs tbl c x ∧ m.Climbs tbl ((x :: rest).getLast (cons_ne_nil x rest)) c := by
  induction rest generalizing x c with
  | nil =>
    obtain rfl := mem_singleton.mp hc
    exact ⟨.refl, .refl⟩
  | cons y rest ih =>
    rw [isChain_cons_cons] at hchain
    rw [pairwise_cons] at hdesc
    have hup : m.Climbs tbl y x := .single ⟨hchain.1, hdesc.1 y mem_cons_self⟩
    rw [getLast_cons (cons_ne_nil y rest)]
    rcases mem_cons.mp hc with rfl | hc
    · exact ⟨.refl, (ih hchain.2 hdesc.2 mem_cons_self).2.trans hup⟩
    · exact ⟨(ih hchain.2 hdesc.2 hc).1.trans hup, (ih hchain.2 hdesc.2 hc).2⟩

end Medium

namespace Vol

open Medium (Links Reaches Climbs)

variable {m : Medium} {A : Outcome Stop → Prop} {tbl : Nat → Nat → Nat}
  {base cluster lo c hi : Nat}
variable {group group' : ClusterGroup} {next : ChainEnd}

theorem Gathered.mono (h : Gathered m A tbl base cluster group next group')
    (hc : c ∈ group.members) :
    c ∈ group'.members := by
  induction h with
  | looped | broken => exact hc
  | left => exact ClusterGroup.mem_add_iff.mpr (.inl hc)
  | went _ _ _ _ _ _ ih => exact ih (ClusterGroup.mem_add_iff.mpr (.inl hc))

theorem Gathered.reaches (h : Gathered m A tbl base cluster group next group')
    (hc : c ∈ group'.members) :
    c ∈ group.members ∨ m.Reaches tbl cluster c ∧ m.geo.IsCluster c ∧ group.spans c = true ∧
      ∃ next, Fat.link m tbl c = .ok next := by
  induction h with
  | looped | broken => exact .inl hc
  | left hhas hcluster hlink =>
    rcases ClusterGroup.mem_add_iff.mp hc with hc | ⟨rfl, hspans⟩
    · exact .inl hc
    · exact .inr ⟨.refl, hcluster, hspans, _, hlink⟩
  | went hhas hcluster hlink hbase hblock hrest ih =>
    rcases ih hc with hc | ⟨hreach, hc, hspans, hnext⟩
    · rcases ClusterGroup.mem_add_iff.mp hc with hc | ⟨rfl, hspans⟩
      · exact .inl hc
      · exact .inr ⟨.refl, hcluster, hspans, _, hlink⟩
    · exact .inr ⟨.head ⟨hcluster, hlink⟩ hreach,
        hc, by rwa [ClusterGroup.spans, ClusterGroup.add_base] at hspans, hnext⟩

/-- What lies between two clusters gathered, on the way up from the one the gathering
began with, is gathered. -/
theorem Gathered.climbs (h : Gathered m A tbl base cluster group next group')
    (hbase : group.base ≤ cluster)
    (hlow : group.base = base) (hspan : hi < group.base + ClusterGroup.span)
    (hc : m.Climbs tbl cluster c)
    (hhi : m.Climbs tbl c hi) (hnew : hi ∉ group.members) (hmem : hi ∈ group'.members) :
    c ∈ group'.members := by
  have hspans {group : ClusterGroup} (hspan : hi < group.base + ClusterGroup.span) {cluster : Nat}
      (hbase : group.base ≤ cluster) (hc : m.Climbs tbl cluster c) (hhi : m.Climbs tbl c hi) :
      group.spans cluster = true :=
    ClusterGroup.spans_iff.mpr ⟨hbase, (hc.le.trans hhi.le).trans_lt hspan⟩
  induction h with
  | looped | broken => exact absurd hmem hnew
  | left =>
    obtain ⟨rfl, -⟩ := (ClusterGroup.mem_add_iff.mp hmem).resolve_left hnew
    obtain rfl := le_antisymm hc.le hhi.le
    exact hmem
  | @went cluster c' group group' next hhas hcluster hlink hbase' hblock hrest ih =>
    rcases hc.cases_head with rfl | ⟨c'', hstep, hc⟩
    · exact hrest.mono (ClusterGroup.mem_add_iff.mpr (.inr ⟨rfl, hspans hspan hbase .refl hhi⟩))
    · obtain rfl := Links.unique ⟨hcluster, hlink⟩ hstep.1
      have hup : cluster < hi := hstep.2.trans_le ((Climbs.le hc).trans hhi.le)
      refine ih (by rwa [ClusterGroup.add_base, hlow]) (by rwa [ClusterGroup.add_base])
        (by rwa [ClusterGroup.add_base])
        hc (fun hin => ?_) hmem
      rcases ClusterGroup.mem_add_iff.mp hin with hin | hin
      · exact hnew hin
      · exact hup.ne' hin.1

/-- What lies on the way up between two clusters gathered is gathered, unless the
upper one came first. -/
theorem Gathered.between (h : Gathered m A tbl base cluster group next group')
    (hbase : group.base ≤ cluster)
    (hlow : group.base = base) (hnewlo : lo ∉ group.members) (hlo : lo ∈ group'.members)
    (hnewhi : hi ∉ group.members) (hhi : hi ∈ group'.members) (hc : m.Climbs tbl lo c)
    (hc' : m.Climbs tbl c hi) :
    c ∈ group'.members ∨ m.Reaches tbl hi lo := by
  induction h with
  | looped | broken => exact absurd hlo hnewlo
  | left hhas hcluster hlink hleft =>
    obtain ⟨rfl, -⟩ := (ClusterGroup.mem_add_iff.mp hlo).resolve_left hnewlo
    obtain ⟨rfl, -⟩ := (ClusterGroup.mem_add_iff.mp hhi).resolve_left hnewhi
    exact .inr .refl
  | @went cluster c' group group' next hhas hcluster hlink hbase' hblock hrest ih =>
    have hspan : hi < group.base + ClusterGroup.span := by
      rcases (Gathered.went hhas hcluster hlink hbase' hblock hrest).reaches hhi with h | h
      · exact absurd h hnewhi
      · exact (ClusterGroup.spans_iff.mp h.2.2.1).2
    by_cases hfirst : lo = cluster
    · subst hfirst
      exact .inl ((Gathered.went hhas hcluster hlink hbase' hblock hrest).climbs hbase hlow
        hspan hc hc' hnewhi hhi)
    · have hlo' : lo ∉ (group.add cluster).members := fun h =>
        (ClusterGroup.mem_add_iff.mp h).elim hnewlo fun h => hfirst h.1
      by_cases hlast : hi = cluster
      · subst hlast
        rcases hrest.reaches hlo with h | h
        · exact absurd h hlo'
        · exact .inr (.head ⟨hcluster, hlink⟩ h.1)
      · exact ih (by rwa [ClusterGroup.add_base, hlow]) (by rwa [ClusterGroup.add_base]) hlo' hlo
          (fun h => (ClusterGroup.mem_add_iff.mp h).elim hnewhi fun h => hlast h.1) hhi

end Vol

end Hadris

namespace Hadris

open List

namespace View

open Medium (Links Reaches Climbs Toward)

variable {m : Medium} {old : Nat → Prop} {v v' : View} {tbl tbl' : Nat → Nat → Nat}
  {lo hi c : Nat}

/-- The entry of `c` is not the same in all FAT copies written, and was before: `old`
are the clusters whose entries differed then. -/
def Differs (m : Medium) (old : Nat → Prop) (v : View) (c : Nat) : Prop :=
  m.geo.IsCluster c ∧ ¬ old c ∧ ∃ step < m.geo.copies, v.tbl step c ≠ v.tbl 0 c

/-- How `c` lies in the range from `lo` to `hi` that an interrupted write left
unmirrored: both are free, or it is part of the chain that goes up from `lo` to
`hi` and does not come back. -/
structure Within (m : Medium) (tbl : Nat → Nat → Nat) (lo hi c : Nat) : Prop where
  lo_le : lo ≤ c
  le_hi : c ≤ hi
  why : tbl 0 lo = 0 ∧ tbl 0 c = 0 ∨
    m.Climbs tbl lo c ∧ m.Climbs tbl c hi ∧ (lo = hi ∨ ¬ m.Reaches tbl hi lo)

/-- Every cluster whose entry differs between two FAT copies is recorded. -/
structure Recorded (m : Medium) (old : Nat → Prop) (v : View) : Prop where
  tracked : v.fat.Tracked m
  pending : ∀ c value free, v.fat.split = some (c, value, free) → v.fat.unmirrored = some (c, c)
  differs : ∀ c, Differs m old v c → ∃ lo hi, v.fat.unmirrored = some (lo, hi) ∧
    Within m v.tbl lo hi c

/-- All FAT copies agree, and nothing is to be completed. -/
structure Synced (m : Medium) (old : Nat → Prop) (v : View) : Prop where
  split : v.fat.split = none
  unmirrored : v.fat.unmirrored = none
  agree : ∀ c, ¬ Differs m old v c

/-- At most the entry of `c` differs, and it is recorded. -/
structure Ready (m : Medium) (old : Nat → Prop) (c : Nat) (v : View) : Prop where
  split : v.fat.split = none
  unmirrored : v.fat.unmirrored = some (c, c)
  differs : ∀ x, Differs m old v x → x = c

theorem Within.single (m : Medium) (tbl : Nat → Nat → Nat) (c : Nat) : Within m tbl c c c :=
  ⟨le_rfl, le_rfl, .inr ⟨.refl, .refl, .inl rfl⟩⟩

theorem links_congr (h : tbl 0 = tbl' 0) : m.Links tbl = m.Links tbl' := by
  funext a b
  rw [Medium.Links, Medium.Links, Fat.link, Fat.link, h]

theorem Within.congr (h : Within m tbl lo hi c) (hsame : tbl 0 = tbl' 0) :
    Within m tbl' lo hi c := by
  refine ⟨h.lo_le, h.le_hi, ?_⟩
  rw [Climbs, Reaches, ← hsame, ← links_congr hsame]
  exact h.why

theorem Synced.recorded (h : Synced m old v) : Recorded m old v where
  tracked :=
    { split := fun c value free hs =>
      absurd hs (by rw [h.split]; exact (Option.some_ne_none _).symm)
      range := fun first last hr => absurd hr
        (by rw [h.unmirrored]; exact (Option.some_ne_none _).symm) }
  pending := fun c value free hs =>
    absurd hs (by rw [h.split]; exact (Option.some_ne_none _).symm)
  differs := fun c hc => absurd hc (h.agree c)

theorem Ready.recorded (h : Ready m old c v) (hc : m.geo.IsCluster c) : Recorded m old v where
  tracked :=
    { split := fun c value free hs =>
      absurd hs (by rw [h.split]; exact (Option.some_ne_none _).symm)
      range := fun first last hr => by
        rw [h.unmirrored] at hr
        cases hr
        exact hc.1 }
  pending := fun c value free hs =>
    absurd hs (by rw [h.split]; exact (Option.some_ne_none _).symm)
  differs := fun x hx => by
    obtain rfl := h.differs x hx
    exact ⟨x, x, h.unmirrored, .single m _ x⟩

theorem Recorded.toward (h : Recorded m old v) (ht : Toward v v') : Recorded m old v' where
  tracked := ht.fat.symm ▸ h.tracked
  pending := ht.fat.symm ▸ h.pending
  differs := fun c hc => by
    obtain ⟨hcluster, hnew, step, hstep, hne⟩ := hc
    obtain ⟨lo, hi, hrange, hwithin⟩ :=
      h.differs c ⟨hcluster, hnew, step, hstep, ht.differs step c hne⟩
    exact ⟨lo, hi, ht.fat.symm ▸ hrange, hwithin.congr ht.active.symm⟩

theorem Recorded.same (h : Recorded m old v) (hsplit : v'.fat.split = v.fat.split)
    (hunmirrored : v'.fat.unmirrored = v.fat.unmirrored) (htbl : v'.tbl = v.tbl) :
    Recorded m old v' where
  tracked := ⟨hsplit ▸ h.tracked.split, hunmirrored ▸ h.tracked.range⟩
  pending := by
    rw [hsplit, hunmirrored]
    exact h.pending
  differs := fun c hc => by
    rw [hunmirrored, htbl]
    refine h.differs c ?_
    rwa [Differs, htbl] at hc

/-- Besides the clusters in `S`, which entries differ is not changed by writes to the
entries of those in `S`. -/
theorem differs_of_same {S : Nat → Prop} (hsame : ∀ step c, ¬ S c → v'.tbl step c = v.tbl step c)
    (h : ∀ c, Differs m old v c → S c) : ∀ c, Differs m old v' c → S c := by
  intro c ⟨hc, hnew, step, hstep, hne⟩
  by_contra hS
  rw [hsame step c hS, hsame 0 c hS] at hne
  exact hS (h c ⟨hc, hnew, step, hstep, hne⟩)

theorem Recorded.of_pending {value w : Nat} (hc : m.geo.IsCluster c) (hwhole : ¬ m.Whole 0 c)
    (hdiffers : ∀ x, Differs m old v x → x = c) :
    Recorded m old
      { v with tbl := Geometry.stored 0 c w v.tbl, fat := v.pending m 0 c value } where
  tracked :=
    { split := fun c' value' free hs => by
        rw [View.pending, if_pos ⟨rfl, hwhole⟩] at hs
        cases hs
        exact ⟨hc, hwhole⟩
      range := fun first last hr => by
        rw [View.pending, if_pos ⟨rfl, hwhole⟩] at hr
        cases hr
        exact hc.1 }
  pending := fun c' value' free hs => by
    rw [View.pending, if_pos ⟨rfl, hwhole⟩] at hs ⊢
    cases hs
    rfl
  differs := fun x hx => by
    have hx : x = c := differs_of_same (S := fun x => x = c)
      (fun step x hx => Geometry.stored_of_ne (.inr hx) _ _) hdiffers x hx
    subst hx
    refine ⟨x, x, ?_, .single m _ x⟩
    rw [View.pending, if_pos ⟨rfl, hwhole⟩]

theorem Recorded.differs_single (h : Recorded m old v)
    (hrange : v.fat.unmirrored = some (c, c)) {x : Nat} (hx : Differs m old v x) : x = c := by
  obtain ⟨lo, hi, hr, hwithin⟩ := h.differs x hx
  rw [hrange] at hr
  cases hr
  exact le_antisymm hwithin.le_hi hwithin.lo_le

theorem Recorded.agree (h : Recorded m old v) (hnone : v.fat.unmirrored = none) (x : Nat) :
    ¬ Differs m old v x := by
  intro hx
  obtain ⟨lo, hi, hr, -⟩ := h.differs x hx
  rw [hnone] at hr
  cases hr

theorem Recorded.synced (h : Recorded m old v) (hnone : v.fat.unmirrored = none) :
    Synced m old v := by
  refine ⟨?_, hnone, h.agree hnone⟩
  rcases hsplit : v.fat.split with _ | ⟨c, value, free⟩
  · rfl
  · have := h.pending c value free hsplit
    rw [hnone] at this
    cases this

theorem Recorded.settled (h : Recorded m old v) : Recorded m old (v.settled m) := by
  rw [View.settled]
  rcases hsplit : v.fat.split with _ | ⟨c, value, free⟩
  · exact h
  obtain ⟨hc, hwhole⟩ := h.tracked.split _ _ _ hsplit
  refine Ready.recorded (c := c) ⟨?_, ?_, ?_⟩ hc
  · exact written_split.trans (if_pos ⟨rfl, hwhole⟩)
  · exact written_unmirrored.trans (if_pos ⟨rfl, hwhole⟩)
  · exact differs_of_same (fun step x hx => Geometry.stored_of_ne (.inr hx) _ _)
      fun x hx => h.differs_single (h.pending _ _ _ hsplit) hx

theorem Recorded.mirrored (h : Recorded m old v) (hsplit : v.fat.split = none) :
    Synced m old (v.mirrored m) := by
  rw [View.mirrored]
  rcases hrange : v.fat.unmirrored with _ | ⟨first, last⟩
  · exact h.synced hrange
  · refine ⟨hsplit, rfl, fun c hc => ?_⟩
    obtain ⟨hcluster, hnew, step, hstep, hne⟩ := hc
    dsimp only at hne
    rw [Medium.copied_active, Medium.copied] at hne
    split at hne
    · exact hne rfl
    · rename_i hout
      obtain ⟨lo, hi, hr, hwithin⟩ := h.differs c ⟨hcluster, hnew, step, hstep, hne⟩
      rw [hrange] at hr
      cases hr
      exact hout ⟨hstep, hwithin.lo_le, le_min hwithin.le_hi hcluster.2⟩

theorem Recorded.unmirrored {A : Outcome Stop → Prop} {rest : Nat → UInt8}
    {vol : Vol} (h : Recorded m old v)
    (hvol : Vol.Unmirrored m A rest v vol) : m.Is A rest (Recorded m old) vol := by
  rcases hvol with ⟨c, value, free, hsplit, hat | ⟨w, -, hat⟩⟩ | hvol
  · exact ⟨v, h, hat⟩
  · obtain ⟨hc, hwhole⟩ := h.tracked.split _ _ _ hsplit
    exact ⟨_, .of_pending hc hwhole fun x hx => h.differs_single (h.pending _ _ _ hsplit) hx, hat⟩
  · exact hvol.mono fun v' ht => h.settled.toward ht

theorem Recorded.ready (h : Recorded m old v) (hmany : 1 < m.geo.copies) (c : Nat) :
    Ready m old c (v.readyFor m c) := by
  rw [readyFor, recorded, if_pos hmany, upToDate]
  by_cases hdue : v.due c
  · rw [if_pos hdue]
    have hsynced := h.settled.mirrored (Vol.settled_split h.tracked)
    exact ⟨hsynced.split, rfl, fun x hx => absurd hx (hsynced.agree x)⟩
  · rw [if_neg hdue]
    rw [due, Bool.or_eq_true, not_or, Bool.not_eq_true, Option.isSome_eq_false_iff,
      Option.isNone_iff_eq_none] at hdue
    refine ⟨hdue.1, rfl, fun x hx => ?_⟩
    obtain ⟨lo, hi, hrange, hwithin⟩ := h.differs x hx
    rw [hrange, Option.any_some, decide_eq_true_eq, not_not] at hdue
    cases hdue.2
    exact le_antisymm hwithin.le_hi hwithin.lo_le

theorem Ready.puts (h : Ready m old c v) (value i : Nat) :
    Ready m old c (v.puts m c value i) := by
  have hsame (step x : Nat) (hx : ¬ x = c) : (v.puts m c value i).tbl step x = v.tbl step x := by
    rw [puts_tbl, overlaid_not_mem (by rwa [mem_singleton])]
  refine ⟨?_, ?_, differs_of_same hsame h.differs⟩
  · rw [View.puts]
    split
    · exact h.split
    · rw [written_split, h.split, ite_self]
  · rw [View.puts]
    split
    · exact h.unmirrored
    · rw [written_unmirrored, h.unmirrored, ite_self]

theorem Ready.forgotten (h : Ready m old c v) (value : Nat) :
    Synced m old (v.puts m c value m.geo.copies).forgotten := by
  have hputs := h.puts value m.geo.copies
  refine ⟨hputs.split, rfl, fun x hx => ?_⟩
  obtain rfl := hputs.differs x hx
  obtain ⟨-, -, step, hstep, hne⟩ := hx
  have hpos := Geometry.copies_pos m.valid
  have hself (step : Nat) (hstep : step < m.geo.copies) :
      (v.puts m x value m.geo.copies).forgotten.tbl step x = value &&& m.geo.kind.mask := by
    rw [forgotten_tbl, puts_tbl, overlaid_mem hstep (mem_singleton_self x)]
  exact hne ((hself step hstep).trans (hself 0 hpos).symm)

theorem Ready.unput {A : Outcome Stop → Prop} {rest : Nat → UInt8} {vol : Vol}
    (h : Ready m old c v)
    (hc : m.geo.IsCluster c) {i value : Nat} (hvol : Vol.Unput m A rest i c value v vol) : m.Is A
      rest (Recorded m old) vol := by
  rcases hvol with hat | ⟨w, -, hat⟩
  · exact ⟨v, h.recorded hc, hat⟩
  · refine ⟨_, ?_, hat⟩
    by_cases hsplit : i = 0 ∧ ¬ m.Whole 0 c
    · obtain ⟨rfl, hwhole⟩ := hsplit
      exact .of_pending hc hwhole h.differs
    · rw [View.pending, if_neg hsplit]
      exact Ready.recorded (c := c) ⟨h.split, h.unmirrored,
        differs_of_same (fun step x hx => Geometry.stored_of_ne (.inr hx) _ _) h.differs⟩ hc

end View

namespace Vol

open Medium (Is)
open Prog (Triple)
open View (Recorded Synced)

variable {m : Medium} {A : Outcome Stop → Prop} {rest : Nat → UInt8} {old : Nat → Prop} {v : View}

theorem recorded_mirror (h : Recorded m old v) :
    Triple (m.At A rest v) mirror (fun _ => m.Is A rest (Synced m old))
    fun _ => m.Is A rest (Recorded m old) :=
  (at_mirror h.tracked).weaken
    (fun _ _ hat => ⟨_, h.settled.mirrored (settled_split h.tracked), hat⟩)
    fun _ _ hvol => h.unmirrored hvol.2

/-- After an entry is set the copies agree, and in the active one no other entry but
the one left to be completed has changed. -/
theorem recorded_set (h : Recorded m old v) (hmany : 1 < m.geo.copies) (c value : Nat) :
    Triple (m.At A rest v) (set c value)
      (fun _ => m.Is A rest fun v' => Synced m old v' ∧
        v'.tbl 0 = Function.update ((v.settled m).tbl 0) c (value &&& m.geo.kind.mask))
      fun _ => m.Is A rest (Recorded m old) := by
  have hready := h.ready hmany c
  refine (at_set h.tracked c value).weaken
    (fun _ _ hvol => ⟨_, ⟨hready.forgotten value, View.set_active m c value v⟩, hvol.2⟩) fun _ _
      hvol => ?_
  · rcases hvol with ⟨-, hat⟩ | ⟨hc, -, hvol | ⟨i, -, hvol⟩⟩
    · exact ⟨v, h, hat⟩
    · exact h.unmirrored hvol
    · exact (hready.puts value i).unput hc hvol

theorem rangeOf_none (group : ClusterGroup) :
    View.rangeOf group none = (group.lowest, group.highest) := by
  rw [View.rangeOf, Option.getD_none, Option.getD_none, min_self, max_self, ClusterGroup.highest]

theorem recorded_readyForRange (h : Recorded m old v) (hmany : 1 < m.geo.copies)
    {group : ClusterGroup}
    (hrecorded : ∀ c, View.Within m v.tbl group.lowest group.highest c → c ∈ group.members) :
    let u := v.readyForRange m (View.rangeOf group none)
    u.fat.unmirrored = some (group.lowest, group.highest) ∧
      (∀ c, View.Differs m old u c → c ∈ group.members) ∧
      (u.fat.split = none ∧ u.tbl 0 = (v.settled m).tbl 0 ∧ (∀ c, ¬ View.Differs m old u c) ∨
        u.fat = v.fat ∧ u.tbl = v.tbl ∧
          v.fat.unmirrored = some (group.lowest, group.highest)) := by
  have hsynced := h.settled.mirrored (settled_split h.tracked)
  simp only [View.readyForRange, if_pos hmany, View.recorded, View.upToDate, rangeOf_none]
  rcases hrange : v.fat.unmirrored with _ | range
  · have hagree := h.synced hrange
    simp only [Option.any_none, Bool.false_eq_true, if_false]
    exact ⟨trivial, fun c hc => absurd hc (hagree.agree c),
      .inl
        ⟨hagree.split, by rw [View.settled_of_none hagree.split], fun c hc => hagree.agree c hc⟩⟩
  · rw [Option.any_some]
    by_cases hsame : range = (group.lowest, group.highest)
    · subst hsame
      simp only [ne_eq, not_true, decide_false, Bool.false_eq_true, if_false]
      refine ⟨trivial, fun c hc => ?_, .inr ⟨?_, trivial, trivial⟩⟩
      · obtain ⟨lo, hi, hr, hwithin⟩ := h.differs c hc
        rw [hrange] at hr
        cases hr
        exact hrecorded c hwithin
      · rw [← hrange]
    · simp only [ne_eq, hsame, not_false_iff, decide_true, if_true]
      exact ⟨trivial, fun c hc => absurd hc (hsynced.agree c),
        .inl ⟨hsynced.split, View.mirrored_active m _, fun c hc => hsynced.agree c hc⟩⟩

/-- The active entries once a group is linked or freed. -/
def Holds (m : Medium) (group : ClusterGroup) (chain : Option Nat) (active : Nat → Nat)
    (tbl : Nat → Nat → Nat) : Prop :=
  ∀ c, tbl 0 c = if c ∈ group.members then View.groupValue m group chain none c else active c

theorem groupEntries_none (group : ClusterGroup) : Fat.groupEntries group none = group.members :=
  append_nil _

theorem highest_mem {group : ClusterGroup} (hne : group.members ≠ []) :
    group.highest ∈ group.members := by
  rw [ClusterGroup.highest, ClusterGroup.highest?, head?_eq_some_head hne]
  exact head_mem hne

theorem groupValue_freed (group : ClusterGroup) (c : Nat) :
    View.groupValue m group none none c = 0 := by
  have hvalue (members : List Nat) : View.valueOf false members 0 c = 0 := by
    induction members with
    | nil => rfl
    | cons x rest ih =>
      rw [View.valueOf]
      split
      · exact ih
      · rfl
  rw [View.groupValue, Option.toList_none, if_neg not_mem_nil, Option.isSome_none,
    Option.getD_none, hvalue, Nat.zero_and]

theorem groupValue_linked (group : ClusterGroup) (head c : Nat) :
    View.groupValue m group (some head) none c =
    View.valueOf true group.members head c &&& m.geo.kind.mask := by
  rw [View.groupValue, Option.toList_none, if_neg not_mem_nil,
    Option.isSome_some, Option.getD_some]

theorem within_freed {group : ClusterGroup} (hdesc : group.Descending) {active : Nat → Nat}
    {tbl : Nat → Nat → Nat}
    (h : Holds m group none active tbl) {c : Nat} (hc : c ∈ group.members) :
    View.Within m tbl group.lowest group.highest c := by
  have hzero (c : Nat) (hc : c ∈ group.members) :
    tbl 0 c = 0 := by rw [h c, if_pos hc, groupValue_freed]
  exact ⟨(hdesc.bounds hc).1, (hdesc.bounds hc).2,
    .inl ⟨hzero _ (Fat.lowest_mem (ne_nil_of_mem hc)), hzero c hc⟩⟩

theorem within_linked {group : ClusterGroup} (hdesc : group.Descending)
    (hmembers : ∀ c ∈ group.members, m.geo.IsCluster c)
    {head : Nat} {active tbl : Nat → Nat → Nat}
    (hhead : head = m.geo.kind.endOfChain ∨ m.geo.IsCluster head ∧ ∀ c, m.Reaches active head c →
      c ∉ group.members)
    (h : Holds m group (some head) (active 0) tbl) {c : Nat} (hc : c ∈ group.members) :
    View.Within m tbl group.lowest group.highest c := by
  have hvalue (c : Nat) (hc : c ∈ group.members) :
      tbl 0 c = View.valueOf true group.members head c &&& m.geo.kind.mask := by
    rw [h c, if_pos hc, groupValue_linked]
  have hbounds := hdesc.bounds hc
  have hchain := Medium.isChain_of_stored (hdesc.imp fun h => h.ne') hmembers hvalue
  have hnone (c : Nat) (hc : c ∉ group.members) : tbl 0 c = active 0 c := by rw [h c, if_neg hc]
  have hlowest := Fat.lowest_mem (ne_nil_of_mem hc)
  rw [ClusterGroup.Descending] at hdesc
  rw [ClusterGroup.highest, ClusterGroup.highest?] at hbounds ⊢
  rw [ClusterGroup.lowest] at hbounds hlowest ⊢
  rcases hgroup : group.members with _ | ⟨first, rest⟩
  · rw [hgroup] at hc
    cases hc
  rw [getLastD_eq_getLast?] at hbounds hlowest ⊢
  rw [hgroup] at hchain hdesc hc hbounds hlowest hvalue hnone hhead hmembers
  rw [getLast?_eq_some_getLast (cons_ne_nil first rest), Option.getD_some] at hbounds hlowest ⊢
  rw [head?_cons, Option.getD_some] at hbounds ⊢
  have hclimbs := Medium.climbs_of_isChain hchain hdesc hc
  refine ⟨hbounds.1, hbounds.2, .inr ⟨hclimbs.2, hclimbs.1, ?_⟩⟩
  -- the chain goes on from the highest to the head given, and from there it does not come back
  have hlast : Fat.link m tbl first = m.geo.kind.next head m.geo.maxCluster := by
    refine Medium.link_of_masked ?_
    rw [hvalue first mem_cons_self, View.valueOf, if_neg fun h => ?_]
    exact absurd (rel_of_pairwise_cons hdesc h) (Nat.lt_irrefl _)
  by_cases hsame : (first :: rest).getLast (cons_ne_nil first rest) = first
  · exact .inl hsame
  refine .inr fun hback => ?_
  rcases hback.cases_head with heq | ⟨next, hstep, hback⟩
  · exact hsame heq.symm
  rcases hhead with rfl | ⟨hcluster, hout⟩
  · have hlink := hstep.2
    rw [hlast, FatKind.next_endOfChain] at hlink
    cases hlink
  · obtain rfl :=
      hstep.unique ⟨hstep.1, hlast.trans (FatKind.next_cluster m.valid.maxCluster.2 hcluster)⟩
    exact hout _ (Medium.Reaches.congr (S := fun c => c ∈ first :: rest) hback hnone hout) hlowest

/-- After a group is linked or freed the copies agree, when what differed before is in
the group, and the entries of the group are recorded as long as it is written. -/
theorem recorded_patch (h : Recorded m old v) (hmany : 1 < m.geo.copies) {group : ClusterGroup}
    {chain : Option Nat}
    (hne : group.members ≠ []) (hmembers : ∀ c ∈ group.members, m.geo.IsCluster c)
    (hbefore : ∀ c, View.Within m v.tbl group.lowest group.highest c → c ∈ group.members)
    (hafter : ∀ tbl, Holds m group chain ((v.settled m).tbl 0) tbl →
      ∀ c ∈ group.members, View.Within m tbl group.lowest group.highest c) :
    Triple (m.At A rest v) (patch group chain none)
      (fun _ => m.Is A rest fun v' => Synced m old v' ∧
        Holds m group chain ((v.settled m).tbl 0) v'.tbl)
      fun _ => m.Is A rest (Recorded m old) := by
  refine Triple.of_forall fun vol₀ hat₀ => Triple.pre ?_ fun vol heq =>
    show m.At A rest v vol from heq ▸ hat₀
  have hbs := Medium.at_pos hat₀
  obtain ⟨hrange, hdiffers, hstart⟩ := recorded_readyForRange h hmany hbefore
  have hentries := groupEntries_none group
  have hlowest := Fat.lowest_mem hne
  have hpatch : Triple (m.At A rest v) (patch group chain none) _ _ :=
    at_patch h.tracked chain hne (by rwa [hentries])
  unfold Unstored Torn at hpatch
  generalize v.readyForRange m (View.rangeOf group none) = u at hrange hdiffers hstart hpatch
  have hstarted : Recorded m old u := by
    rcases hstart with ⟨hsplit, -, hagree⟩ | ⟨hfat, htbl, -⟩
    · refine ⟨⟨fun c value free hs => ?_, fun first last hr => ?_⟩, fun c value free hs => ?_,
        fun c hc =>
        absurd hc (hagree c)⟩
      · rw [hsplit] at hs
        cases hs
      · rw [hrange] at hr
        cases hr
        exact (hmembers _ hlowest).1
      · rw [hsplit] at hs
        cases hs
    · exact h.same (by rw [hfat]) (by rw [hfat]) htbl
  -- once the group fits no entry is half written, and only the group is to be stored
  have hwhole (hfits : Fat.Fits m group none 0) : u.fat.split = none ∧
      u.tbl 0 = (v.settled m).tbl 0 := by
    rcases hstart with hstart | ⟨hfat, htbl, hsame⟩
    · exact ⟨hstart.1, hstart.2.1⟩
    rcases hsplit : v.fat.split with _ | ⟨c, value, free⟩
    · exact ⟨by rw [hfat, hsplit], by rw [htbl, View.settled_of_none hsplit]⟩
    · have hpending := h.pending c value free hsplit
      rw [hsame, Option.some.injEq, Prod.mk.injEq] at hpending
      refine absurd ?_ (h.tracked.split c value free hsplit).2
      rw [← hpending.1]
      exact Medium.Fits.whole hbs hfits (hentries ▸ hlowest)
  have hholds {i : Nat} (hi : 0 < i) (hfits : Fat.Fits m group none 0) :
      Holds m group chain ((v.settled m).tbl 0)
        (View.overlaid i (Fat.groupEntries group none)
          (View.groupValue m group chain none) u.tbl) := by
    intro c
    rw [hentries]
    split
    · rename_i hc
      exact View.overlaid_mem hi hc
    · rename_i hc
      rw [View.overlaid_not_mem hc, (hwhole hfits).2]
  have hrecorded {i : Nat} {v' : View} (hi : 0 < i) (hfits : Fat.Fits m group none 0)
      (hsplit : v'.fat.split = u.fat.split) (hunmirrored : v'.fat.unmirrored = u.fat.unmirrored)
      (htbl : v'.tbl = View.overlaid i (Fat.groupEntries group none)
        (View.groupValue m group chain none) u.tbl) :
      Recorded m old v' := by
    rw [(hwhole hfits).1] at hsplit
    rw [hrange] at hunmirrored
    refine ⟨⟨fun c value free hs => ?_, fun first last hr => ?_⟩, fun c value free hs => ?_,
      fun c hc => ?_⟩
    · rw [hsplit] at hs
      cases hs
    · rw [hunmirrored] at hr
      cases hr
      exact (hmembers _ hlowest).1
    · rw [hsplit] at hs
      cases hs
    · refine ⟨_, _, hunmirrored, hafter v'.tbl (htbl ▸ hholds hi hfits) c ?_⟩
      refine View.differs_of_same (S := fun c => c ∈ group.members)
        (fun step c hc => ?_) hdiffers c hc
      rw [htbl, View.overlaid_not_mem (by rwa [hentries])]
  refine hpatch.weaken (fun _ vol hvol => ?_) fun _ vol hvol => ?_
  · obtain ⟨taken, freed, -, hfits, hat⟩ := hvol
    have hpos := Geometry.copies_pos m.valid
    have hkept := hholds hpos (hfits 0 hpos)
    rw [← View.patches_tbl m group chain none taken freed] at hkept
    refine ⟨(u.patches m group chain none taken freed m.geo.copies).forgotten,
      ⟨⟨?_, rfl, fun c hc => ?_⟩, hkept⟩, hat⟩
    · rw [View.forgotten_split, View.patches_split, (hwhole (hfits 0 hpos)).1]
    · have hmem : c ∈ group.members := by
        refine View.differs_of_same (S := fun c => c ∈ group.members)
          (fun step c hc => ?_) hdiffers c hc
        rw [View.forgotten_tbl, View.patches_tbl, View.overlaid_not_mem (by rwa [hentries])]
      obtain ⟨-, -, step, hstep, hdiff⟩ := hc
      rw [View.forgotten_tbl, View.patches_tbl, View.overlaid_mem hstep (hentries ▸ hmem),
        View.overlaid_mem hpos (hentries ▸ hmem)] at hdiff
      exact hdiff rfl
  · rcases hvol with ⟨-, hat | hvol⟩ | ⟨i, -, taken, freed, -, hfits, ⟨-, hat⟩ | ⟨⟨hfit, -⟩, hat⟩⟩
    · exact ⟨v, h, hat⟩
    · exact h.unmirrored hvol
    · rcases Nat.eq_zero_or_pos i with rfl | hi
      · exact ⟨u, hstarted, by rwa [View.patches, if_pos rfl] at hat⟩
      · refine ⟨_, hrecorded hi (hfits 0 hi) ?_ ?_ ?_, hat⟩
        · exact View.patches_split m group chain none taken freed i u
        · exact View.patches_unmirrored m group chain none taken freed i u
        · exact View.patches_tbl m group chain none taken freed i u
    · have hfirst : Fat.Fits m group none 0 := by
        rcases Nat.eq_zero_or_pos i with rfl | hi
        · exact hfit
        · exact hfits 0 hi
      refine ⟨_, hrecorded (Nat.succ_pos i) hfirst ?_ ?_ rfl, hat⟩
      · exact View.patches_split m group chain none taken freed i u
      · exact View.patches_unmirrored m group chain none taken freed i u

end Vol

end Hadris
