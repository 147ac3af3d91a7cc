import Hadris.Alloc.Reconciled
import Hadris.Links

namespace Hadris

namespace Geometry

variable {geo : Geometry} {entry entry' : Nat → Nat} {c : Nat}

instance (geo : Geometry) (c : Nat) : Decidable (geo.IsCluster c) :=
  inferInstanceAs (Decidable (_ ∧ _))

def next (geo : Geometry) (entry : Nat → Nat) (c : Nat) : Option (Option Nat) :=
  if geo.IsCluster c then (geo.kind.next (entry c) geo.maxCluster).toOption else none

theorem next_eq_some_iff {o : Option Nat} : geo.next entry c = some o ↔
    geo.IsCluster c ∧ geo.kind.next (entry c) geo.maxCluster = .ok o := by
  rw [next]
  split
  · rename_i hc
    rcases geo.kind.next (entry c) geo.maxCluster with e | o'
    · exact ⟨nofun, fun h => nomatch h.2⟩
    · exact ⟨fun h => ⟨hc, congrArg Except.ok (Option.some.inj h)⟩, fun h =>
        congrArg some (Except.ok.inj h.2)⟩
  · rename_i hc
    exact ⟨nofun, fun h => absurd h.1 hc⟩

theorem next_congr (h : entry' c = entry c) : geo.next entry' c = geo.next entry c := by
  rw [next, next, h]

theorem next_zero (h : entry c = 0) : geo.next entry c = none := by
  obtain ⟨err, herr⟩ := FatKind.next_zero geo.kind geo.maxCluster
  refine Option.eq_none_iff_forall_ne_some.mpr fun o ho => ?_
  have hok := (next_eq_some_iff.mp ho).2
  rw [h, herr] at hok
  cases hok

end Geometry

namespace Medium

open Relation (TransGen)

variable {m : Medium} {tbl tbl' : Nat → Nat → Nat} {a b c : Nat} {l seg : List Nat}

theorem links_iff : m.Links tbl a b ↔ m.geo.next (tbl 0) a = some (some b) :=
  Geometry.next_eq_some_iff.symm

theorem mem_of_transGen (h : Hadris.Links (m.geo.next (tbl 0)) (a :: l))
    (hab : TransGen (m.Links tbl) a b) : b ∈ l := by
  have hstep {xs : List Nat} {x y : Nat} (h : Hadris.Links (m.geo.next (tbl 0)) (x :: xs))
      (hxy : m.Links tbl x y) : y ∈ xs := by
    have heq := h.1.symm.trans (links_iff.mp hxy)
    rw [Option.or_none, Option.some.injEq] at heq
    exact List.mem_of_mem_head? heq
  induction hab with
  | single hab => exact hstep h hab
  | tail _ hbc ih =>
    obtain ⟨xs, ys, rfl⟩ := List.append_of_mem ih
    have hright : Hadris.Links (m.geo.next (tbl 0)) _ := h.2.right
    exact List.mem_append_right _ (List.mem_cons_of_mem _ (hstep hright hbc))

theorem not_cyclic (h : Hadris.Links (m.geo.next (tbl 0)) (a :: l)) :
    ¬ TransGen (m.Links tbl) a a := fun hback =>
  (List.nodup_cons.mp h.nodup).1 (mem_of_transGen h hback)

/-- The clusters `struck` are free in `tbl'`, and all others as in `tbl`. -/
structure Struck (struck : Nat → Prop) (tbl tbl' : Nat → Nat → Nat) : Prop where
  free : ∀ c, struck c → tbl' 0 c = 0
  others : ∀ c, ¬ struck c → tbl' 0 c = tbl 0 c

namespace Struck

variable {struck struck' : Nat → Prop} {tbl'' : Nat → Nat → Nat}

theorem trans (h : Struck struck tbl tbl') (h' : Struck struck' tbl' tbl'') :
    Struck (fun c => struck c ∨ struck' c) tbl tbl'' where
  free := fun c hc => by
    by_cases hnew : struck' c
    · exact h'.free c hnew
    · rw [h'.others c hnew, h.free c (hc.resolve_right hnew)]
  others := fun c hc => by
    rw [h'.others c fun hnew => hc (.inr hnew), h.others c fun hold => hc (.inl hold)]

theorem next_eq (h : Struck struck tbl tbl') (hc : ¬ struck c) :
    m.geo.next (tbl' 0) c = m.geo.next (tbl 0) c :=
  Geometry.next_congr (h.others c hc)

theorem not_struck (h : Struck struck tbl tbl') {o : Option Nat}
    (hc : m.geo.next (tbl' 0) c = some o) : ¬ struck c :=
  fun hin => by
    rw [Geometry.next_zero (h.free c hin)] at hc
    cases hc

theorem links (h : Struck struck tbl tbl') (hab : m.Links tbl' a b) :
    ¬ struck a ∧ m.Links tbl a b := by
  have hout := h.not_struck (links_iff.mp hab)
  exact ⟨hout, links_iff.mpr ((h.next_eq hout).symm.trans (links_iff.mp hab))⟩

theorem chain (h : Struck struck tbl tbl') (hl : Hadris.Links (m.geo.next (tbl' 0)) l) :
    Hadris.Links (m.geo.next (tbl 0)) l := by
  refine hl.congr fun c hc => ?_
  obtain ⟨o, ho⟩ := Option.ne_none_iff_exists'.mp (hl.mem_linked hc)
  exact (h.next_eq (h.not_struck ho)).symm

theorem rest (h : Struck struck tbl tbl') (hl : Hadris.Links (m.geo.next (tbl 0)) (seg ++ l))
    (hstruck : ∀ c, struck c → c ∈ seg) :
    Hadris.Links (m.geo.next (tbl' 0)) l :=
  Leads.congr hl.right fun _ hc => h.next_eq fun hin =>
    List.disjoint_of_nodup_append hl.nodup (hstruck _ hin) hc

end Struck

def base (m : Medium) (c : Nat) : Nat := (Fat.new m.geo).blockBase m.blockSize c

theorem blockBase_eq {fat : Fat} (hgeo : fat.geo = m.geo) (c : Nat) :
    fat.blockBase m.blockSize c = m.base c := by
  rw [base, Fat.blockBase, Fat.blockBase, hgeo]
  rfl

theorem base_le (hk : m.geo.kind ≠ .fat12) (c : Nat) : m.base c ≤ c :=
  Vol.blockBase_le hk m.blockSize c

theorem SameBlock.base_eq (h : m.SameBlock a b) : m.base a = m.base b := by
  have hblock := (h 0 (Geometry.copies_pos m.valid)).1
  have hgeo : (Fat.new m.geo).geo = m.geo := rfl
  rw [base, base, Fat.blockBase, Fat.blockBase, hgeo, hblock]

/-- The group has room for `c`. -/
def Spanned (m : Medium) (c : Nat) : Prop := c < m.base c + ClusterGroup.span

theorem spans_iff (hk : m.geo.kind ≠ .fat12) {group : ClusterGroup} (h : m.base c = group.base) :
    group.spans c = true ↔ m.Spanned c := by
  have hle := base_le hk c
  rw [ClusterGroup.spans_iff, Spanned, h]
  omega

end Medium

namespace Vol

open Device (Faulty)
open Medium (Struck)
open Relation (TransGen)

variable {m : Medium} {A : Outcome Stop → Prop} {tbl tbl' : Nat → Nat → Nat}
  {base cluster c turns n : Nat}
variable {group group' : ClusterGroup} {next : ChainEnd} {struck : Nat → Prop}

/-- The clusters passed by a gathering are part of a chain; those the group has room for
are gathered. -/
theorem Gathered.path {o : Option Nat} (h : Gathered m A tbl base cluster group (.ok o) group')
    (hk : m.geo.kind ≠ .fat12)
    (hbase : m.base cluster = group.base) :
    ∃ l, (l.head? = some cluster ∧ Leads (m.geo.next (tbl 0)) l o) ∧
      ∀ c, c ∈ group'.members ↔ c ∈ group.members ∨ c ∈ l ∧ m.Spanned c := by
  have hadd {cluster : Nat} {group : ClusterGroup} (hbase : m.base cluster = group.base)
      (c : Nat) :
        c ∈ (group.add cluster).members ↔ c ∈ group.members ∨ c = cluster ∧ m.Spanned c := by
    rw [ClusterGroup.mem_add_iff, Medium.spans_iff hk hbase]
    exact or_congr_right (and_congr_right fun heq => by rw [heq])
  generalize hnext : (Except.ok o : ChainEnd) = next at h
  induction h with
  | looped | broken => cases hnext
  | left hhas hc hlink =>
    cases hnext
    refine ⟨[_], ⟨rfl, Geometry.next_eq_some_iff.mpr ⟨hc, hlink⟩, trivial⟩, fun c => ?_⟩
    rw [hadd hbase, List.mem_singleton]
  | @went cluster c' group group' next hhas hc hlink hlow hblock hrest ih =>
    obtain ⟨l, ⟨hhead, hleads⟩, hmem⟩ :=
      ih (by rw [ClusterGroup.add_base, ← hbase, hblock.base_eq]) hnext
    refine ⟨cluster :: l, ⟨rfl, ?_, hleads⟩, fun c => ?_⟩
    · rw [hhead]
      exact Geometry.next_eq_some_iff.mpr ⟨hc, hlink⟩
    · rw [hmem, hadd hbase, List.mem_cons]
      tauto

theorem Gathered.sameBlock (h : Gathered m A tbl base cluster group next group')
    (hc : c ∈ group'.members) :
    c ∈ group.members ∨ c = cluster ∨ m.SameBlock cluster c := by
  induction h with
  | looped | broken => exact .inl hc
  | left => exact (ClusterGroup.mem_add_iff.mp hc).imp id fun h => .inl h.1
  | went hhas hcluster hlink hlow hblock hrest ih =>
    rcases ih hc with hc | rfl | hc
    · exact (ClusterGroup.mem_add_iff.mp hc).imp id fun h => .inl h.1
    · exact .inr (.inr hblock)
    · exact .inr (.inr (hblock.trans hc))

theorem Gathered.fits (h : Gathered m A tbl base cluster (ClusterGroup.new base) next group)
    (hbs : 0 < m.blockSize)
    (hne : group.members ≠ []) (hwhole : cluster ∈ group.members → m.SameBlock cluster cluster)
    {step : Nat} (hstep : step < m.geo.copies) : Fat.Fits m group none step := by
  have hblock (c : Nat) (hc : c ∈ group.members) : m.SameBlock cluster c := by
    rcases h.sameBlock hc with hc | rfl | hc
    · cases hc
    · exact hwhole hc
    · exact hc
  refine Medium.fits_of_sameBlock hbs (fun c hc => ?_) hstep
  rw [groupEntries_none] at hc
  exact (hblock c hc).symm.trans (hblock _ (Fat.lowest_mem hne))

theorem Gathered.lost {e : Stop} (h : Gathered m A tbl base cluster group (.error e) group')
    (hno : ¬ Faulty A)
    (hback : ∀ c ∈ group.members, TransGen (m.Links tbl) c cluster) {l : List Nat}
    (hhead : l.head? = some cluster) :
    ¬ Hadris.Links (m.geo.next (tbl 0)) l := by
  generalize hnext : (Except.error e : ChainEnd) = next at h
  induction h generalizing l with
  | @looped cluster group hhas =>
    obtain ⟨rest, rfl⟩ := List.head?_eq_some_iff.mp hhead
    exact fun hl => Medium.not_cyclic hl (hback cluster hhas)
  | @broken cluster group e' hhas hwhy =>
    obtain ⟨rest, rfl⟩ := List.head?_eq_some_iff.mp hhead
    intro hl
    obtain ⟨hc, hlink⟩ := Geometry.next_eq_some_iff.mp hl.1
    rcases hwhy with hfaulty | hout | ⟨err, herr⟩
    · exact hno hfaulty
    · exact hout hc
    · exact absurd (herr.symm.trans hlink) (by simp)
  | left => cases hnext
  | @went cluster c' group group' next hhas hc hlink hlow hblock hrest ih =>
    obtain ⟨rest, rfl⟩ := List.head?_eq_some_iff.mp hhead
    intro hl
    have heq := hl.1.symm.trans (Geometry.next_eq_some_iff.mpr ⟨hc, hlink⟩)
    rw [Option.or_none, Option.some.injEq] at heq
    refine ih (fun c hin => ?_) heq hnext hl.2
    rcases ClusterGroup.mem_add_iff.mp hin with hin | ⟨rfl, -⟩
    · exact (hback c hin).tail ⟨hc, hlink⟩
    · exact .single ⟨hc, hlink⟩

/-- The clusters struck out and those gathered. -/
def Marked (struck : Nat → Prop) (group : ClusterGroup) (c : Nat) : Prop :=
  struck c ∨ c ∈ group.members

theorem marked_add (hk : m.geo.kind ≠ .fat12) (hbase : m.base cluster = group.base) :
    (fun c => Marked struck group c ∨
    c = cluster ∧ m.Spanned cluster) = Marked struck (group.add cluster) := by
  funext c
  rw [Marked, Marked, ClusterGroup.mem_add_iff, Medium.spans_iff hk hbase, or_assoc]

/-- What a walk along a chain that ends does as its clusters are freed: a cluster whose entry
is in two blocks is refused. -/
abbrev Stops (m : Medium) (tbl : Nat → Nat → Nat) : Nat → (Nat → Prop) → Nat → Prop :=
  Ends (m.Links tbl) m.Spanned fun c => ¬ m.SameBlock c c

/-- What it does as long as it does not end. -/
abbrev Runs (m : Medium) (tbl : Nat → Nat → Nat) : (Nat → Prop) → Nat → Prop :=
  Hadris.Endless (m.Links tbl) m.Spanned fun c => ¬ m.SameBlock c c

theorem Stops.cases_of_links (hstruck : Struck struck tbl tbl')
    (h : Stops m tbl n (Marked struck group) cluster)
    (hhas : cluster ∉ group.members) {next : Option Nat} (hc : m.geo.IsCluster cluster)
    (hlink : Fat.link m tbl' cluster = .ok next) :
    next = none ∨ (m.Spanned cluster ∧ ¬ m.SameBlock cluster cluster) ∨
      ∃ c k, next = some c ∧ n = k + 1 ∧
        Stops m tbl k (fun x => Marked struck group x ∨ x = cluster ∧ m.Spanned cluster) c := by
  have hnext := Geometry.next_eq_some_iff.mpr ⟨hc, hlink⟩
  have hout := hstruck.not_struck hnext
  cases next with
  | none => exact .inl rfl
  | some c =>
    have hlinks := (hstruck.links (Medium.links_iff.mpr hnext)).2
    cases h with
    | marked h => exact absurd h (not_or.mpr ⟨hout, hhas⟩)
    | last h => exact absurd hlinks (h c)
    | refused h h' => exact .inr (.inl ⟨h, h'⟩)
    | step h hrest =>
      obtain rfl := Medium.Links.unique hlinks h
      exact .inr (.inr ⟨_, _, rfl, rfl, hrest⟩)

theorem Gathered.stops {c' : Nat}
    (h : Gathered m A tbl' base cluster group (.ok (some c')) group') (hk : m.geo.kind ≠ .fat12)
    (hstruck : Struck struck tbl tbl') (hbase : m.base cluster = group.base)
    (hstops : Stops m tbl n (Marked struck group) cluster) :
    (cluster ∈ group'.members ∧ ¬ m.SameBlock cluster cluster) ∨
      ∃ k < n, Stops m tbl k (Marked struck group') c' := by
  generalize hnext : (Except.ok (some c') : ChainEnd) = next at h
  induction h generalizing n with
  | looped | broken => cases hnext
  | @left cluster group next hhas hc hlink =>
    cases hnext
    rcases hstops.cases_of_links hstruck hhas hc
      hlink with h | ⟨hspan, hsplit⟩ | ⟨c, k, h, rfl, hrest⟩
    · cases h
    · exact .inl
        ⟨ClusterGroup.mem_add_iff.mpr (.inr ⟨rfl, (Medium.spans_iff hk hbase).mpr hspan⟩), hsplit⟩
    · cases h
      rw [marked_add hk hbase] at hrest
      exact .inr ⟨k, Nat.lt_succ_self k, hrest⟩
  | @went cluster c group group' next hhas hc hlink hlow hblock hrest ih =>
    have hself := hblock.trans hblock.symm
    rcases hstops.cases_of_links hstruck hhas hc
      hlink with h | ⟨-, hsplit⟩ | ⟨c, k, h, rfl, hstops'⟩
    · cases h
    · exact absurd hself hsplit
    · cases h
      rw [marked_add hk hbase] at hstops'
      rcases ih (by rw [ClusterGroup.add_base, ← hbase, hblock.base_eq]) hstops'
        hnext with ⟨-, hsplit⟩ | ⟨k', hk', h⟩
      · exact absurd (hblock.symm.trans hblock) hsplit
      · exact .inr ⟨k', hk'.trans (Nat.lt_succ_self k), h⟩

theorem Endless.le (h : Endless m tbl' base turns cluster group) (hk : m.geo.kind ≠ .fat12)
    (hstruck : Struck struck tbl tbl')
    (hbase : m.base cluster = group.base) (hstops : Stops m tbl n (Marked struck group) cluster) :
    turns ≤ n := by
  induction turns generalizing cluster group n with
  | zero => exact Nat.zero_le n
  | succ turns ih =>
    obtain ⟨hhas, hc, c, hlink, -, hblock, hrest⟩ := h
    rcases hstops.cases_of_links hstruck hhas hc
      hlink with h | ⟨-, hsplit⟩ | ⟨c', k, h, rfl, hstops'⟩
    · cases h
    · exact absurd (hblock.trans hblock.symm) hsplit
    · cases h
      rw [marked_add hk hbase] at hstops'
      exact Nat.succ_le_succ
        (ih hrest (by rw [ClusterGroup.add_base, ← hbase, hblock.base_eq]) hstops')

theorem Gathered.runs (h : Gathered m A tbl' base cluster group next group') (hno : ¬ Faulty A)
    (hk : m.geo.kind ≠ .fat12)
    (hstruck : Struck struck tbl tbl') (hbase : m.base cluster = group.base)
    (hruns : Runs m tbl (Marked struck group) cluster) :
    ∃ c, next = .ok (some c) ∧ Runs m tbl (Marked struck group') c := by
  have hnext {cluster c : Nat} {group : ClusterGroup}
      (hruns : Runs m tbl (Marked struck group) cluster)
        (hlink : m.Links tbl cluster c) (hbase : m.base cluster = group.base) :
          Runs m tbl (Marked struck (group.add cluster)) c := by
    have h := hruns.step hlink
    rwa [marked_add hk hbase] at h
  induction h with
  | looped hhas => exact absurd (.inr hhas) hruns.unmarked
  | @broken cluster group e hhas hwhy =>
    obtain ⟨c, hc, hlink⟩ := hruns.exists_next
    have hold := hstruck.others cluster fun h => hruns.unmarked (.inl h)
    rcases hwhy with hfaulty | hout | ⟨err, herr⟩
    · exact absurd hfaulty hno
    · exact absurd hc hout
    · rw [Fat.link, hold] at herr
      exact absurd (herr.symm.trans hlink) (by simp)
  | @left cluster group next hhas hc hlink =>
    obtain ⟨c, hlinks⟩ := hruns.exists_next
    have hold := hstruck.others cluster fun h => hruns.unmarked (.inl h)
    have heq := hlinks.2
    rw [Fat.link, ← hold] at heq
    obtain rfl := Except.ok.inj (hlink.symm.trans heq)
    exact ⟨c, rfl, hnext hruns hlinks hbase⟩
  | @went cluster c group group' next hhas hc hlink hlow hblock hrest ih =>
    have hlinks := (hstruck.links ⟨hc, hlink⟩).2
    exact ih (by rw [ClusterGroup.add_base, ← hbase, hblock.base_eq]) (hnext hruns hlinks hbase)

end Vol

end Hadris
