import Hadris.Alloc.Run
import Hadris.Alloc.Interrupted
import Mathlib.Data.List.Perm.Subperm

namespace Hadris

namespace Vol

open List
open Borrow (getState onIo reading setState setHeld)
open Device (Faulty)
open Medium (Is)
open Prog (Triple)
open Relation (ReflTransGen)
open View (Left Mends Names Synced Takes Void overlaid)

def links (owner : Option Nat) (head : Nat) : Prog Vol Stop Bool :=
  match owner with
  | none => pure false
  | some prev => do
      let fat ← getState
      if fat.isCluster prev then do
        let stored ← onIo (fat.get prev)
        pure (stored &&& fat.geo.kind.mask == head)
      else pure false

def linksHead (owner : Option Nat) (held : Held) : Prog Vol Stop Bool :=
  if held.head ≠ 0 then links owner held.head else pure false

def linksHeld (owner : Option Nat) (held : Held) : Prog Vol Stop Bool := do
  let owned ← linksHead owner held
  if owner.isSome = true ∧ ¬ owned = true ∧ held.extra ≠ 0 then links owner held.extra
    else pure owned

def reclaimLoop (keep : Nat) : Nat → Nat → Prog Vol Stop Unit
  | 0, _ => pure ()
  | turns + 1, cluster => do
      let fat ← getState
      let kind := fat.geo.kind
      if ¬ fat.isCluster cluster then pure ()
      else do
        let stored ← onIo (fat.get cluster)
        if stored &&& kind.mask = 0 ∨ kind.isBad (stored &&& kind.mask) = true then pure ()
        else do
          let next := (kind.next (stored &&& kind.mask) fat.geo.maxCluster).toOption.getD none
          setHeld fun _ => ⟨next.getD keep, cluster⟩
          set cluster 0
          match next with
          | some next => reclaimLoop keep turns next
          | none => pure ()

/-- Frees the clusters of a chain from `head` for as long as they are allocated,
stopping at a free or bad cluster, the end, or a link out of range. `keep` stays held
once the chain ends. -/
def reclaim (head keep : Nat) : Prog Vol Stop Unit := do
  let fat ← getState
  reclaimLoop keep fat.geo.maxCluster head

/-- Completes what an allocation interrupted left of the chain to be linked after `owner`, when
it was for one: mirrors the entries, detaches the owner, and frees what is held. -/
def finishInterrupted (owner : Option Nat) : Prog Vol Stop Unit := do
  let fat ← getState
  Prog.when (fat.unmirrored.isSome = true) mirror
  match ← Prog.gets fun vol : Vol => vol.held with
  | none => pure ()
  | some held => do
      let owned ← linksHeld owner held
      Prog.whenSome (owner.filter fun _ => owned) fun tail => set tail fat.geo.kind.endOfChain
      Prog.when (held.extra ≠ 0) (reclaim held.extra held.head)
      Prog.when (held.head ≠ 0) (reclaim held.head 0)
      setHeld fun _ => Held.none

variable {m : Medium} {A : Outcome Stop → Prop} {rest : Nat → UInt8} {old : Nat → Prop} {v : View}
  {tbl : Nat → Nat → Nat}
variable {chain : List Nat} {tail : Option Nat} {c : Nat}

theorem synced_set (hno : ¬ Faulty A) (h : Synced m old v) (hc : m.geo.IsCluster c)
    (value : Nat) :
    Triple (m.At A rest v) (set c value) (fun _ => m.Is A rest fun u => Synced m old u ∧
      u.tbl = overlaid m.geo.copies [c] (fun _ => value &&& m.geo.kind.mask)
        v.tbl) fun _ _ => False :=
  (mends_set h c value).weaken (fun _ _ hvol => hvol.2.mono fun _ hu => ⟨hu.1, hu.2.2⟩)
    fun _ _ hvol =>
    hvol.elim (fun hout => hout.1 hc) fun hfaulty => hno hfaulty.2.1

theorem overlaid_cons {copies value : Nat} {rest : List Nat} (tbl : Nat → Nat → Nat) :
    overlaid copies rest (fun _ => value) (overlaid copies [c] (fun _ => value) tbl) =
      overlaid copies (c :: rest) (fun _ => value) tbl := by
  funext step x
  simp only [overlaid, mem_cons]
  grind

theorem reclaim_turn (hno : ¬ Faulty A) {d keep turns : Nat} (h : Synced m old v)
    (hd : m.geo.IsCluster d) (next : Option Nat)
    (hnext : ∀ n, next = some n → m.geo.IsCluster n)
    (hvalue : v.tbl 0 d = next.getD m.geo.kind.endOfChain)
    {Q : Unit → Vol → Prop} (hrest : ∀ u, Synced m old u →
      u.tbl = overlaid m.geo.copies [d] (fun _ => 0) v.tbl →
      Triple (m.At A rest u) (next.elim (pure ()) (reclaimLoop keep turns)) Q fun _ _ => False) :
    Triple (m.At A rest v) (reclaimLoop keep (turns + 1) d) Q fun _ _ => False := by
  refine Medium.at_getState fun dirty info => Triple.of_forall fun vol₀ hvol => ?_
  refine Triple.pre ?_ fun vol heq => show m.At A rest v vol from heq ▸ hvol
  have hgeo : (v.fat.marked dirty info).geo = m.geo := hvol.geo
  have hcluster : (v.fat.marked dirty info).isCluster d = true := by rwa [Fat.isCluster_iff, hgeo]
  have hused : next.getD m.geo.kind.endOfChain ≠ 0 ∧
      m.geo.kind.isBad (next.getD m.geo.kind.endOfChain) = false ∧
        m.geo.kind.next (next.getD m.geo.kind.endOfChain) m.geo.maxCluster = .ok next := by
    cases next with
    | none => exact ⟨endOfChain_ne_zero
        _, by cases m.geo.kind <;> decide, FatKind.next_endOfChain _ _⟩
    | some n =>
      have hn := hnext n rfl
      have hbad := m.valid.maxCluster.2
      have hlow : 2 ≤ n := hn.1
      have hhigh := hn.2
      exact ⟨by rw [Option.getD_some]; omega, beq_false_of_ne (by rw [Option.getD_some]; omega),
        FatKind.next_cluster hbad hn⟩
  refine Triple.ite (fun hout => absurd hcluster hout) fun _ => ?_
  refine Triple.bind
    ((Medium.at_reads (Fat.shown_get hgeo d)).weaken (fun _ _ hvol => hvol) fun _ _ hvol =>
    hvol.1.elim hno fun hout => hout hd) fun stored => Triple.assume fun hstored => ?_
  rw [hgeo, hstored.2, hvalue, hused.2.2, hused.2.1]
  refine Triple.ite (fun hstop => absurd hstop (by simp [hused.1])) fun _ => ?_
  refine Triple.bind (Medium.at_setHeld _) fun _ =>
    Triple.bind (synced_set hno (h.holding _) hd 0) fun _ => ?_
  refine Medium.is_intro fun u hu => ?_
  rw [Nat.zero_and] at hu
  cases next with
  | none => exact hrest u hu.1 hu.2
  | some n => exact hrest u hu.1 hu.2

theorem synced_reclaimLoop (hno : ¬ Faulty A) {d : Nat} {chain : List Nat} (keep : Nat)
    {turns : Nat} (h : Synced m old v)
    (horder : (d :: (chain ++ [m.geo.kind.endOfChain])).IsChain fun a b => v.tbl 0 a = b)
    (hnodup : (d :: chain).Nodup)
    (hcluster : ∀ c ∈ d :: chain, m.geo.IsCluster c) (hturns : chain.length < turns) :
    Triple (m.At A rest v) (reclaimLoop keep turns d)
      (fun _ => m.Is A rest fun u => Synced m old u ∧
      u.tbl = overlaid m.geo.copies (d :: chain) (fun _ => 0) v.tbl) fun _ _ => False := by
  have hd := hcluster d mem_cons_self
  induction chain generalizing d turns v with
  | nil =>
    obtain ⟨turns, rfl⟩ := Nat.exists_eq_succ_of_ne_zero (by omega : turns ≠ 0)
    refine reclaim_turn hno h hd none nofun (isChain_cons_cons.mp horder).1 fun u hu htbl => ?_
    exact Triple.pure fun _ hat => ⟨u, ⟨hu, htbl⟩, hat⟩
  | cons d' chain ih =>
    obtain ⟨turns, rfl⟩ := Nat.exists_eq_succ_of_ne_zero (by omega : turns ≠ 0)
    rw [cons_append, isChain_cons_cons] at horder
    rw [nodup_cons] at hnodup
    have hrest (c : Nat) (hc : c ∈ d' :: chain) : m.geo.IsCluster c :=
      hcluster c (mem_cons_of_mem d hc)
    have hd' := hrest d' mem_cons_self
    refine reclaim_turn hno h hd (some d') (fun n hn => Option.some_inj.mp hn ▸ hd')
      horder.1 fun u hu htbl => ?_
    have hkept : (d' :: (chain ++ [m.geo.kind.endOfChain])).IsChain fun a b => u.tbl 0 a = b := by
      refine horder.2.imp_of_mem_imp fun a b ha _ hab => ?_
      rw [htbl, View.overlaid_not_mem]
      · exact hab
      · rw [mem_singleton]
        rintro rfl
        rw [← cons_append] at ha
        rcases mem_append.mp ha with ha | ha
        · exact hnodup.1 ha
        · rw [mem_singleton.mp ha] at hd
          exact endOfChain_not_cluster hd
    refine (ih hu hkept hnodup.2 hrest (by rw [length_cons] at hturns; omega) hd').post fun _ _
      hvol => hvol.mono fun w hw =>
      ⟨hw.1, ?_⟩
    rw [hw.2, htbl, overlaid_cons]

theorem reclaim_void (hno : ¬ Faulty A) {d keep turns : Nat} (hd : m.geo.IsCluster d)
    (hfree : v.tbl 0 d = 0) :
    Triple (m.At A rest v) (reclaimLoop keep turns d) (fun _ => m.At A rest v) fun _ _ =>
      False := by
  cases turns with
  | zero => exact Triple.pure fun _ hat => hat
  | succ turns =>
    refine Medium.at_getState fun dirty info => Triple.of_forall fun vol₀ hvol => ?_
    refine Triple.pre ?_ fun vol heq => show m.At A rest v vol from heq ▸ hvol
    have hgeo : (v.fat.marked dirty info).geo = m.geo := hvol.geo
    refine Triple.ite (fun _ => Triple.pure fun _ hat => hat) fun _ => ?_
    refine Triple.bind
      ((Medium.at_reads (Fat.shown_get hgeo d)).weaken (fun _ _ hvol => hvol) fun _ _ hvol =>
      hvol.1.elim hno fun hout => hout hd) fun stored => Triple.assume fun hstored => ?_
    rw [hgeo, hstored.2, hfree]
    exact Triple.ite (fun _ => Triple.pure fun _ hat => hat) fun hnot => absurd (.inl rfl) hnot

theorem length_lt_of_nodup (hnodup : chain.Nodup) (hcluster : ∀ c ∈ chain, m.geo.IsCluster c) :
    chain.length < m.geo.maxCluster := by
  have hsub : chain ⊆ range' firstDataCluster (m.geo.maxCluster - 1) :=
    fun c hc => Geometry.mem_clusters.mpr (hcluster c hc)
  have hle := (subperm_of_subset hnodup hsub).length_le
  have hmax := m.valid.maxCluster.1
  rw [length_range'] at hle
  exact Nat.lt_of_le_of_lt hle (Nat.sub_lt (Nat.lt_of_lt_of_le Nat.two_pos hmax) Nat.one_pos)

theorem synced_reclaim (hno : ¬ Faulty A) {d : Nat} (keep : Nat) (h : Synced m old v)
    (horder : (chain ++ [m.geo.kind.endOfChain]).IsChain fun a b => v.tbl 0 a = b)
    (hnodup : chain.Nodup)
    (hcluster : ∀ c ∈ chain, m.geo.IsCluster c) (hd : chain.head? = some d) :
    Triple (m.At A rest v) (Prog.when (d ≠ 0) (reclaim d keep))
      (fun _ => m.Is A rest fun u => Synced m old u ∧
      u.tbl = overlaid m.geo.copies chain (fun _ => 0) v.tbl) fun _ _ => False := by
  cases chain with
  | nil => cases hd
  | cons d' chain =>
    obtain rfl : d' = d := Option.some_inj.mp hd
    refine Triple.when (fun _ => ?_) fun hzero => ?_
    · refine Medium.at_getState fun dirty info vol hat => ?_
      have hmarked : (v.fat.marked dirty info).geo = m.geo := hat.geo
      have hlength := length_lt_of_nodup hnodup hcluster
      rw [length_cons, ← hmarked] at hlength
      exact synced_reclaimLoop hno keep h horder hnodup hcluster (by omega) vol hat
    · have hlow : 2 ≤ d' := (hcluster d' mem_cons_self).1
      omega

theorem synced_reclaim_void (hno : ¬ Faulty A) {d : Nat} (keep : Nat) (hd : Void m (v.tbl 0) d) :
    Triple (m.At A rest v) (Prog.when (d ≠ 0) (reclaim d keep)) (fun _ => m.At A rest v)
      fun _ _ => False := by
  refine Triple.when (fun hne => ?_) fun _ _ hat => hat
  obtain ⟨hcluster, hfree⟩ := hd.resolve_left hne
  exact Medium.at_getState fun dirty info => reclaim_void hno hcluster hfree

theorem synced_reclaim_held (hno : ¬ Faulty A) {held : Held} (h : Synced m old v)
    (horder : (chain ++ [m.geo.kind.endOfChain]).IsChain fun a b => v.tbl 0 a = b)
    (hnodup : chain.Nodup)
    (hcluster : ∀ c ∈ chain, m.geo.IsCluster c) (hnames : Names m chain (v.tbl 0) held)
    {x : Prog Vol Stop Unit}
    {Q : Unit → Vol → Prop} (hx : ∀ u, Synced m old u →
      u.tbl = overlaid m.geo.copies chain (fun _ => 0) v.tbl →
      Triple (m.At A rest u) x Q fun _ _ => False) :
    Triple (m.At A rest v) (do
      Prog.when (held.extra ≠ 0) (reclaim held.extra held.head)
      Prog.when (held.head ≠ 0) (reclaim held.head 0)
      x) Q fun _ _ => False := by
  rcases hnames with ⟨hextra, hhead⟩ | ⟨hextra, hhead⟩
  · refine Triple.bind (synced_reclaim hno held.head h horder hnodup hcluster hextra) fun _ =>
      Medium.is_intro fun u hu => ?_
    refine Triple.bind (synced_reclaim_void hno 0 ?_) fun _ => hx u hu.1 hu.2
    refine hhead.imp id fun hin => ⟨hcluster _ hin, ?_⟩
    rw [hu.2, View.overlaid_mem (Geometry.copies_pos m.valid) hin]
  · refine Triple.bind (synced_reclaim_void hno held.head hextra) fun _ => ?_
    rcases hhead with hhead | ⟨rfl, hhead⟩
    · exact Triple.bind (synced_reclaim hno 0 h horder hnodup hcluster hhead) fun _ =>
        Medium.is_intro fun u hu => hx u hu.1 hu.2
    · refine Triple.bind (synced_reclaim_void hno 0 hhead) fun _ => hx v h ?_
      funext step c
      exact (View.overlaid_not_mem not_mem_nil step).symm

/-- Whether a tail links to `d`. -/
def Owns (m : Medium) (active : Nat → Nat) (tail : Option Nat) (d : Nat) : Prop :=
  ∃ t, tail = some t ∧ m.geo.IsCluster t ∧ active t = d

theorem at_links (hno : ¬ Faulty A) (tail : Option Nat) (d : Nat) :
    Triple (m.At A rest v) (links tail d)
    (fun owned vol => (owned = true ↔ Owns m (v.tbl 0) tail d) ∧ m.At A rest v vol) fun _ _ =>
      False := by
  cases tail with
  | none => exact Triple.pure fun _ hat =>
    ⟨⟨fun h => absurd h Bool.false_ne_true, fun ⟨_, h, _⟩ => nomatch h⟩, hat⟩
  | some t =>
    have howns : Owns m (v.tbl 0) (some t) d ↔ m.geo.IsCluster t ∧ v.tbl 0 t = d :=
      ⟨fun ⟨_, ht, h⟩ => Option.some_inj.mp ht ▸ h, fun h => ⟨t, rfl, h⟩⟩
    refine Medium.at_getState fun dirty info => Triple.of_forall fun vol₀ hvol => ?_
    refine Triple.pre ?_ fun vol heq => show m.At A rest v vol from heq ▸ hvol
    have hgeo : (v.fat.marked dirty info).geo = m.geo := hvol.geo
    have hcluster : (v.fat.marked dirty info).isCluster t = true ↔ m.geo.IsCluster t := by
      rw [Fat.isCluster_iff, hgeo]
      rfl
    refine Triple.ite (fun hin => ?_) fun hout => Triple.pure fun _ hat => ⟨?_, hat⟩
    · refine Triple.bind
        ((Medium.at_reads (Fat.shown_get hgeo t)).weaken (fun _ _ hvol => hvol) fun _ _ hvol =>
        hvol.1.elim hno fun hout => hout (hcluster.mp hin)) fun stored =>
          Triple.assume fun hstored => Triple.pure fun _ hat => ⟨?_, hat⟩
      rw [hgeo, hstored.2, howns, beq_iff_eq]
      exact ⟨fun h => ⟨hstored.1, h⟩, And.right⟩
    · rw [howns]
      exact ⟨fun h => absurd h Bool.false_ne_true, fun h => absurd (hcluster.mpr h.1) hout⟩

theorem at_linksHeld (hno : ¬ Faulty A) (tail : Option Nat) (held : Held) :
    Triple (m.At A rest v) (linksHeld tail held)
    (fun owned vol => (owned = true ↔ held.head ≠ 0 ∧ Owns m (v.tbl 0) tail held.head ∨
      held.extra ≠ 0 ∧ Owns m (v.tbl 0) tail held.extra) ∧
        m.At A rest v vol) fun _ _ => False := by
  refine Triple.bind (Q := fun owned vol =>
    (owned = true ↔ held.head ≠ 0 ∧ Owns m (v.tbl 0) tail held.head) ∧ m.At A rest v vol)
    (Triple.ite (fun hne => (at_links hno tail held.head).post fun owned _ hvol => ⟨?_, hvol.2⟩)
      fun hzero => Triple.pure fun _ hat =>
      ⟨⟨fun h => absurd h Bool.false_ne_true, fun h => absurd h.1 hzero⟩, hat⟩) fun ownsHead =>
        Triple.assume fun hhead => ?_
  · rw [hvol.1]
    exact ⟨fun h => ⟨hne, h⟩, And.right⟩
  refine Triple.ite (fun hlook => (at_links hno tail held.extra).post fun owned _ hvol =>
    ⟨?_, hvol.2⟩) fun hnot =>
    Triple.pure fun _ hat => ⟨?_, hat⟩
  · rw [hvol.1, ← hhead]
    exact ⟨fun h => .inr ⟨hlook.2.2, h⟩, fun h => (h.resolve_left hlook.2.1).2⟩
  · rw [← hhead]
    refine ⟨.inl, fun h => h.elim id fun h => ?_⟩
    obtain ⟨hne, t, ht, -⟩ := h
    by_contra hnone
    exact hnot ⟨by rw [ht]; rfl, hnone, hne⟩

/-- What is left of an interrupted allocation once its tail links to no part of it. -/
structure Detached (m : Medium) (old : Nat → Prop) (tbl : Nat → Nat → Nat) (tail : Option Nat)
    (chain : List Nat) (held : Held) (u : View) : Prop where
  synced : Synced m old u
  order : (chain ++ [m.geo.kind.endOfChain]).IsChain fun a b => u.tbl 0 a = b
  names : Names m chain (u.tbl 0) held
  others : ∀ c, c ∉ chain → tail ≠ some c → u.tbl 0 c = tbl 0 c
  tail : ∀ t, tail = some t → t ∉ chain ∧
    (u.tbl 0 t = tbl 0 t ∨ ∀ step < m.geo.copies, u.tbl step t = m.geo.kind.endOfChain)

theorem takes_tail_not_mem {active : Nat → Nat} (h : Takes m tbl tail chain active) {t : Nat}
    (ht : tail = some t) : t ∉ chain := by
  intro hin
  have hfree := (h.free t hin).2
  obtain ⟨pre, post, rfl⟩ := append_of_mem hin
  have horder := h.order
  rw [append_assoc, List.isChain_append] at horder
  have hlink := Medium.rel_headD (horder.2.1 : (t :: (post ++ [m.geo.kind.endOfChain])).IsChain _)
  rcases h.tail t ht with hsame | ⟨-, hused, -⟩
  · rw [hsame, hfree] at hlink
    rcases post with _ | ⟨x, post⟩
    · exact endOfChain_ne_zero _ hlink.symm
    · have hcluster := (h.free x (by simp)).1.1
      rw [headD_cons] at hlink
      rw [← hlink, firstDataCluster] at hcluster
      omega
  · exact hused hfree

theorem synced_detach (hno : ¬ Faulty A) (h : Synced m old v) {held : Held}
    (htakes : Takes m tbl tail chain (v.tbl 0))
    (hnames : Names m chain (v.tbl 0) held) {owned : Bool} (howned : owned = true ↔
      held.head ≠ 0 ∧ Owns m (v.tbl 0) tail held.head ∨ held.extra ≠ 0 ∧
        Owns m (v.tbl 0) tail held.extra) :
    Triple (m.At A rest v) (Prog.whenSome (tail.filter fun _ => owned) fun t =>
      set t m.geo.kind.endOfChain)
      (fun _ => m.Is A rest (Detached m old tbl tail chain held)) fun _ _ => False := by
  have hout {t : Nat} (ht : tail = some t) : t ∉ chain := takes_tail_not_mem htakes ht
  cases hdone : tail.filter fun _ => owned with
  | none =>
    refine Triple.pure fun _ hat =>
      ⟨v, ⟨h, htakes.order, hnames, htakes.others, fun t ht => ⟨hout ht, .inl ?_⟩⟩, hat⟩
    refine (htakes.tail t ht).resolve_right fun hlinked => ?_
    obtain ⟨hcluster, -, hhead⟩ := hlinked
    have hne : v.tbl 0 t ≠ 0 := by
      have hin := htakes.free _ (mem_of_mem_head? (Option.mem_def.mpr hhead))
      have hlow : 2 ≤ v.tbl 0 t := hin.1.1
      omega
    have howns : Owns m (v.tbl 0) tail (v.tbl 0 t) := ⟨t, ht, hcluster, rfl⟩
    -- the chain starts with what is held, so the tail would be detached
    have hyes : owned = true := by
      rw [howned]
      rcases hnames with ⟨hextra, -⟩ | ⟨-, hhead' | ⟨hnil, -⟩⟩
      · rw [← Option.some_inj.mp (hhead.symm.trans hextra)]
        exact .inr ⟨hne, howns⟩
      · rw [← Option.some_inj.mp (hhead.symm.trans hhead')]
        exact .inl ⟨hne, howns⟩
      · rw [hnil] at hhead
        cases hhead
    rw [ht, hyes] at hdone
    cases hdone
  | some t =>
    obtain ⟨ht, hyes⟩ := Option.filter_eq_some_iff.mp hdone
    obtain ⟨hne, hcluster⟩ : v.tbl 0 t ≠ 0 ∧ m.geo.IsCluster t := by
      rcases howned.mp hyes with ⟨hne, t', ht', hcluster, heq⟩ | ⟨hne, t', ht', hcluster, heq⟩
      all_goals
        obtain rfl := Option.some_inj.mp (ht.symm.trans ht')
        exact ⟨heq ▸ hne, hcluster⟩
    refine (synced_set hno h hcluster m.geo.kind.endOfChain).post fun _ _ hvol =>
      hvol.mono fun u hu => ?_
    have hsame {c : Nat} (hc : c ≠ t) : u.tbl 0 c = v.tbl 0 c := by
      rw [hu.2, View.overlaid_not_mem (by rwa [mem_singleton])]
    have hvoid {d : Nat} (hd : Void m (v.tbl 0) d) : Void m (u.tbl 0) d := by
      refine hd.imp id fun hd => ⟨hd.1, ?_⟩
      rw [hsame, hd.2]
      rintro rfl
      exact hne hd.2
    refine ⟨hu.1, ?_, ?_, fun c hc htail => ?_, fun t' ht' =>
      ⟨hout ht', .inr fun step hstep => ?_⟩⟩
    · refine htakes.order.imp_of_mem_imp fun a b ha _ hab => ?_
      rw [hsame]
      · exact hab
      · rintro rfl
        rcases mem_append.mp ha with ha | ha
        · exact hout ht ha
        · rw [mem_singleton.mp ha] at hcluster
          exact endOfChain_not_cluster hcluster
    · exact hnames.imp id fun hnames =>
        ⟨hvoid hnames.1, hnames.2.imp id fun hnil => ⟨hnil.1, hvoid hnil.2⟩⟩
    · rw [hsame, htakes.others c hc htail]
      rintro rfl
      exact htail ht
    · obtain rfl := Option.some_inj.mp (ht.symm.trans ht')
      rw [hu.2, View.overlaid_mem hstep (mem_singleton_self t), Medium.endOfChain_and_mask]

/-- The entries are as they were before an allocation, but for the tail, whose chain may end
with another mark. -/
structure Undone (m : Medium) (old : Nat → Prop) (tbl : Nat → Nat → Nat) (tail : Option Nat)
    (u : View) : Prop where
  synced : Synced m old u
  others : ∀ c, tail ≠ some c → u.tbl 0 c = tbl 0 c
  tail : ∀ t, tail = some t → u.tbl 0 t = tbl 0 t ∨ ∀ step < m.geo.copies,
    u.tbl step t = m.geo.kind.endOfChain

theorem undone_finish (hno : ¬ Faulty A) (h : Mends m old (Left m tbl tail) v) :
    Triple (m.At A rest v) (finishInterrupted tail)
    (fun _ => m.Is A rest (Undone m old tbl tail)) fun _ _ => False := by
  obtain ⟨chain, held, htakes, hheld, hnames⟩ := h.kept
  have hsynced := h.synced
  refine Medium.at_getState fun dirty info => Triple.of_forall fun vol₀ hvol => ?_
  refine Triple.pre ?_ fun vol heq => show m.At A rest v vol from heq ▸ hvol
  have hgeo : (v.fat.marked dirty info).geo = m.geo := hvol.geo
  rw [hgeo]
  refine Triple.bind (Q := fun _ => m.At A rest ((v.settled m).mirrored m)) ?_ fun _ => ?_
  · refine Triple.when (fun _ => (at_mirror h.tracked).weaken (fun _ _ hat => hat) fun _ _ hvol =>
      hno hvol.1) fun hno' vol hat => ?_
    have hnone : v.fat.unmirrored = none := Option.not_isSome_iff_eq_none.mp hno'
    rwa [View.settled_of_none (h.known hnone), View.mirrored_of_none hnone]
  generalize (v.settled m).mirrored m = u at htakes hheld hnames hsynced
  refine Triple.bind (Q := fun r vol => r = some held ∧ m.At A rest u vol)
    (Triple.gets fun vol hat => ⟨hat.held.trans hheld, hat⟩) fun r => Triple.assume fun hr => ?_
  subst hr
  refine Triple.bind (at_linksHeld hno tail held) fun owned => Triple.assume fun howned => ?_
  refine Triple.bind (synced_detach hno hsynced htakes hnames howned) fun _ =>
    Medium.is_intro fun w hw => ?_
  have hcluster (c : Nat) (hc : c ∈ chain) : m.geo.IsCluster c := (htakes.free c hc).1
  refine synced_reclaim_held hno hw.synced hw.order htakes.nodup hcluster hw.names
    fun w' hw' htbl => ?_
  refine (Medium.at_setHeld _).post fun _ _ hat => ⟨_, ?_, hat⟩
  have hpos := Geometry.copies_pos m.valid
  refine ⟨hw'.holding _, fun c htail => ?_, fun t ht => ?_⟩
  · show w'.tbl 0 c = tbl 0 c
    rw [htbl]
    by_cases hc : c ∈ chain
    · rw [View.overlaid_mem hpos hc, (htakes.free c hc).2]
    · rw [View.overlaid_not_mem hc, hw.others c hc htail]
  · obtain ⟨hout, htail⟩ := hw.tail t ht
    have hsame (step : Nat) : w'.tbl step t = w.tbl step t := by
      rw [htbl, View.overlaid_not_mem hout]
    refine htail.imp (hsame 0).trans fun hend step hstep => (hsame step).trans (hend step hstep)

end Vol

namespace Geometry

/-- The chain at a cluster comes to another, by the active FAT copy. -/
def Reaches (geo : Geometry) (img : Nat → UInt8) : Nat → Nat → Prop :=
  Relation.ReflTransGen fun a b => geo.IsCluster a ∧
    geo.kind.next (geo.value img 0 a) geo.maxCluster = .ok (some b)

/-- The entry of `c` is as it was: the active one, and all copies of it where they were the
same. -/
structure Kept (geo : Geometry) (img img' : Nat → UInt8) (c : Nat) : Prop where
  active : geo.value img' 0 c = geo.value img 0 c
  copies : (∀ step < geo.copies, geo.value img step c = geo.value img 0 c) →
    ∀ step < geo.copies, geo.value img' step c = geo.value img step c

/-- `img'` is `img` again but for the clean bits, and the entry of the tail may be another
end of its chain. -/
structure Restored (geo : Geometry) (img img' : Nat → UInt8) (tail : Option Nat) : Prop where
  entries : ∀ c, geo.IsCluster c → tail ≠ some c → geo.Kept img img' c
  tail : ∀ t, tail = some t → geo.IsCluster t →
    geo.Kept img img' t ∨ ∀ step < geo.copies, geo.value img' step t = geo.kind.endOfChain
  high : ∀ step < geo.copies, ∀ c, geo.IsCluster c →
    geo.entry img' step c / (geo.kind.mask + 1) = geo.entry img step c / (geo.kind.mask + 1)
  outside : ∀ a, geo.Outside a → img' a = img a

end Geometry

namespace Vol

open List
open Device (Faulty)
open Prog (Triple)
open View (Left Mends Names Synced Takes Void)

/-- Of what an allocation on `vol` left that came to `vol'` nothing is lost: once mirrored,
the clusters that were free and are used are those that what is held comes to and that are
not free, and the volume can be restored. -/
structure LosesNothing (vol : Vol) (tail : Option Nat) (vol' : Vol) : Prop where
  mirrors : (mirror.run vol').1 = .ok ()
  taken : ∃ held, vol'.held = some held ∧ ∀ c, vol.state.geo.IsCluster c →
    (vol.state.geo.value vol.io.dev.bytes 0 c = 0 ∧
      vol.state.geo.value (mirror.run vol').2.io.dev.bytes 0 c ≠ 0 ↔
      (vol.state.geo.Reaches (mirror.run vol').2.io.dev.bytes held.head c ∨
        vol.state.geo.Reaches (mirror.run vol').2.io.dev.bytes held.extra c) ∧
          vol.state.geo.value (mirror.run vol').2.io.dev.bytes 0 c ≠ 0)
  finishes : ((finishInterrupted tail).run vol').1 = .ok ()
  restored : vol.state.geo.Restored vol.io.dev.bytes
    ((finishInterrupted tail).run vol').2.io.dev.bytes tail

variable {m : Medium} {A : Outcome Stop → Prop} {rest : Nat → UInt8} {old : Nat → Prop} {v : View}
  {tbl : Nat → Nat → Nat}
variable {chain : List Nat} {tail : Option Nat} {vol : Vol} {a b c d : Nat}

theorem reaches_of_order
    (horder : (chain ++ [m.geo.kind.endOfChain]).IsChain fun a b => tbl 0 a = b)
    (hcluster : ∀ c ∈ chain, m.geo.IsCluster c) :
    (∀ d, chain.head? = some d → ∀ c ∈ chain, m.Reaches tbl d c) ∧ ∀ a ∈ chain, ∀ c,
      m.Reaches tbl a c → c ∈ chain := by
  have hlink {x y : Nat} (hx : m.geo.IsCluster x) (hy : m.geo.IsCluster y) (hxy : tbl 0 x = y) :
    m.Links tbl x y :=
    .of_stored hx hy (hxy.trans (Medium.cluster_and_mask hy).symm)
  induction chain with
  | nil => exact ⟨fun _ hd => (nomatch hd), fun _ ha => absurd ha not_mem_nil⟩
  | cons x rest ih =>
    have hx := hcluster x mem_cons_self
    have hrest (c : Nat) (hc : c ∈ rest) := hcluster c (mem_cons_of_mem x hc)
    have hih := ih horder.of_cons hrest
    have hfirst := Medium.rel_headD horder
    refine ⟨fun d hd c hc => ?_, fun a ha c hreach => ?_⟩
    · obtain rfl : x = d := Option.some_inj.mp hd
      rcases mem_cons.mp hc with rfl | hc
      · exact .refl
      · rcases rest with _ | ⟨y, rest⟩
        · cases hc
        · exact .head (hlink hx (hrest y mem_cons_self) hfirst) (hih.1 y rfl c hc)
    · rcases mem_cons.mp ha with rfl | ha
      · rcases hreach.cases_head with rfl | ⟨y, hstep, hreach⟩
        · exact mem_cons_self
        · rcases rest with _ | ⟨z, rest⟩
          · have hend : Fat.link m tbl a = .ok none := by
              rw [Fat.link, hfirst]
              exact FatKind.next_endOfChain _ _
            have heq := hend.symm.trans hstep.2
            cases heq
          · obtain rfl := hstep.unique (hlink hx (hrest z mem_cons_self) hfirst)
            exact mem_cons_of_mem _ (hih.2 _ mem_cons_self c hreach)
      · exact mem_cons_of_mem _ (hih.2 a ha c hreach)

theorem eq_of_reaches_void (hd : Void m (tbl 0) d) (hreach : m.Reaches tbl d c) : d = c := by
  rcases hreach.cases_head with heq | ⟨x, hstep, -⟩
  · exact heq
  · rcases hd with rfl | ⟨-, hfree⟩
    · have hlow : 2 ≤ 0 := hstep.1.1
      omega
    · exact absurd hfree hstep.ne_zero

theorem taken_iff {u : View} {held : Held} (htakes : Takes m tbl tail chain (u.tbl 0))
    (hnames : Names m chain (u.tbl 0) held)
    (hc : m.geo.IsCluster c) : tbl 0 c = 0 ∧ u.tbl 0 c ≠ 0 ↔
      (m.Reaches u.tbl held.head c ∨ m.Reaches u.tbl held.extra c) ∧ u.tbl 0 c ≠ 0 := by
  have hcluster (c : Nat) (hc : c ∈ chain) : m.geo.IsCluster c := (htakes.free c hc).1
  obtain ⟨hreaches, hstays⟩ := reaches_of_order htakes.order hcluster
  refine ⟨fun ⟨hfree, hused⟩ => ⟨?_, hused⟩, fun ⟨hreach, hused⟩ => ⟨?_, hused⟩⟩
  · have hin : c ∈ chain := by
      by_contra hout
      by_cases ht : tail = some c
      · rcases htakes.tail c ht with hsame | ⟨-, hwas, -⟩
        · exact hused (hsame.trans hfree)
        · exact hwas hfree
      · exact hused ((htakes.others c hout ht).trans hfree)
    rcases hnames with ⟨hextra, -⟩ | ⟨-, hhead | ⟨rfl, -⟩⟩
    · exact .inr (hreaches _ hextra c hin)
    · exact .inl (hreaches _ hhead c hin)
    · cases hin
  · have hvoid {d : Nat} (hd : Void m (u.tbl 0) d) (hreach : m.Reaches u.tbl d c) : False := by
      obtain rfl := eq_of_reaches_void hd hreach
      rcases hd with rfl | ⟨-, hfree⟩
      · have hlow : 2 ≤ 0 := hc.1
        omega
      · exact hused hfree
    have hheld {d : Nat} (hd : Void m (u.tbl 0) d ∨ d ∈ chain) (hreach : m.Reaches u.tbl d c) :
        tbl 0 c = 0 := by
      rcases hd with hd | hd
      · exact (hvoid hd hreach).elim
      · exact (htakes.free c (hstays d hd c hreach)).2
    have hmem {d : Nat} (hd : chain.head? = some d) : d ∈ chain :=
      mem_of_mem_head? (Option.mem_def.mpr hd)
    rcases hnames with ⟨hextra, hhead⟩ | ⟨hextra, hhead⟩
    · exact hreach.elim (hheld (hhead.imp .inl id)) (hheld (.inr (hmem hextra)))
    · exact hreach.elim
        (hheld (hhead.elim (fun hhead => .inr (hmem hhead)) fun hnil => .inl hnil.2))
          (hheld (.inl hextra))

theorem reaches_iff (hat : m.At A rest v vol) : m.geo.Reaches vol.io.dev.bytes a b ↔
    m.Reaches v.tbl a b := by
  obtain ⟨img, hshows, hio⟩ := hat.io
  rw [hio.2.bytes, Geometry.Reaches, Medium.Reaches]
  refine iff_of_eq
    (congrArg (fun r => Relation.ReflTransGen r a b) (funext fun x => funext fun y => propext ?_))
  refine and_congr_right fun hx => ?_
  rw [Fat.link, ← hshows.inside 0 (Geometry.copies_pos m.valid) x hx]

theorem value_eq (hat : m.At A rest v vol) {step : Nat} (hstep : step < m.geo.copies)
    (hc : m.geo.IsCluster c) :
    m.geo.value vol.io.dev.bytes step c = v.tbl step c := by
  obtain ⟨img, hshows, hio⟩ := hat.io
  rw [hio.2.bytes]
  exact hshows.inside step hstep c hc

theorem at_done (hat : m.At A rest v vol) {A' : Outcome Stop → Prop}
    (hA : ∀ o ∈ vol.io.dev.script, A' o) : m.At A' rest v vol := by
  obtain ⟨img, hshows, hio⟩ := hat.io
  exact ⟨⟨img, hshows, hio.1, ⟨hio.2.blockSize, hio.2.blockCount, hio.2.bytes, hA⟩⟩, hat.geo,
    hat.state, hat.held⟩

/-- Clusters whose entries differ between the copies. -/
def Differing (geo : Geometry) (img : Nat → UInt8) (c : Nat) : Prop :=
  ¬ ∀ step < geo.copies, geo.value img step c = geo.value img 0 c

theorem kept_of_synced {img : Nat → UInt8} {u : View} (hat : m.At A rest u vol)
    (hu : Synced m (Differing m.geo img) u)
    (hc : m.geo.IsCluster c) (h : u.tbl 0 c = m.geo.value img 0 c) :
    m.geo.Kept img vol.io.dev.bytes c := by
  refine ⟨(value_eq hat (Geometry.copies_pos m.valid) hc).trans h, fun hagree step hstep => ?_⟩
  rw [value_eq hat hstep hc, hagree step hstep, ← h]
  by_contra hne
  exact hu.agree c ⟨hc, not_not.mpr hagree, step, hstep, hne⟩

theorem losesNothing_of_interrupted {vol vol' : Vol} (hgeo : m.geo = vol.state.geo)
    (h : Interrupted m A vol.io.dev.bytes (Differing m.geo vol.io.dev.bytes)
      (m.geo.value vol.io.dev.bytes) tail vol')
    (hdone : ∀ o ∈ vol'.io.dev.script, o = .done) : vol.LosesNothing tail vol' := by
  obtain ⟨v, hv, hat⟩ := h
  have hat := at_done hat hdone
  have hpos := Geometry.copies_pos m.valid
  have hmirror := (at_mirror hv.tracked).weaken (fun _ _ h => h)
    (fun _ _ h => not_faulty_done h.1) _ hat
  have hfinish := undone_finish not_faulty_done hv _ hat
  have hheld : ((v.settled m).mirrored m).held = vol'.held := by
    rw [View.mirrored_held, hat.held, View.settled]
    split <;> rfl
  obtain ⟨chain, held, htakes, hkept, hnames⟩ := hv.kept
  rcases hrun : mirror.run vol' with ⟨e | ⟨⟩, w⟩ <;> rw [hrun] at hmirror
  · exact hmirror.elim
  rcases hrun' : (finishInterrupted tail).run vol' with ⟨e | ⟨⟩, w'⟩ <;> rw [hrun'] at hfinish
  · exact hfinish.elim
  obtain ⟨u, hu, hat'⟩ := hfinish
  refine ⟨by rw [hrun], ⟨held, hheld.symm.trans hkept, fun c hc => ?_⟩, by rw [hrun'], ?_⟩
  · rw [← hgeo] at hc ⊢
    rw [hrun, reaches_iff hmirror, reaches_iff hmirror, value_eq hmirror hpos hc]
    exact taken_iff htakes hnames hc
  · rw [hrun', ← hgeo]
    obtain ⟨img, hshows, hio⟩ := hat'.io
    refine ⟨fun c hc htail => kept_of_synced hat' hu.synced hc (hu.others c htail),
      fun t ht hc => ?_, ?_, ?_⟩
    · exact (hu.tail t ht).imp (kept_of_synced hat' hu.synced hc) fun hend step hstep =>
        (value_eq hat' hstep hc).trans (hend step hstep)
    · rw [hio.2.bytes]
      exact hshows.high
    · rw [hio.2.bytes]
      exact hshows.outside

end Vol

/-- Allocation with device calls that fail, in whatever way, and none that fail any more once it
has returned: mirroring the entries left half written shows that what the call took is just what
the driver holds, and mirroring, detaching the tail and reclaiming what is held restores the
volume. -/
theorem failed_allocation_loses_nothing {vol : Vol} (h : vol.Idle)
    (hheld : vol.held = some Held.none) :
    (∀ count, (∀ o ∈ ((Vol.allocateRun count).run vol).2.io.dev.script, o = .done) →
      vol.LosesNothing none ((Vol.allocateRun count).run vol).2) ∧
    (∀ tail count,
      (∀ o ∈ ((Vol.allocateRunAfter tail count).run vol).2.io.dev.script, o = .done) →
      vol.LosesNothing (some tail) ((Vol.allocateRunAfter tail count).run vol).2) ∧
    ∀ tail, (∀ o ∈ ((Vol.allocateAfter tail).run vol).2.io.dev.script, o = .done) →
      vol.LosesNothing (some tail) ((Vol.allocateAfter tail).run vol).2 := by
  obtain ⟨m, hgeo, hat⟩ := h.medium (A := fun _ => True) fun _ _ => trivial
  have hsynced : View.Synced m (Vol.Differing m.geo vol.io.dev.bytes)
      ⟨m.geo.value vol.io.dev.bytes, vol.state, vol.held⟩ := by
    refine ⟨h.split, h.unmirrored, fun c hc => ?_⟩
    obtain ⟨-, hnew, step, hstep, hne⟩ := hc
    exact hne (not_not.mp hnew step hstep)
  have hend {x : Prog Vol Stop Nat} {tail : Option Nat}
    (hx : Prog.Triple (m.At (fun _ => True) vol.io.dev.bytes
      ⟨m.geo.value vol.io.dev.bytes, vol.state, vol.held⟩) x
      (fun _ => Vol.Finished m (fun _ => True) vol.io.dev.bytes
        (Vol.Differing m.geo vol.io.dev.bytes) (m.geo.value vol.io.dev.bytes) tail)
      fun _ => Vol.Interrupted m (fun _ => True) vol.io.dev.bytes
        (Vol.Differing m.geo vol.io.dev.bytes)
        (m.geo.value vol.io.dev.bytes) tail) (hdone : ∀ o ∈ (x.run vol).2.io.dev.script,
          o = .done) :
      vol.LosesNothing tail (x.run vol).2 :=
    Vol.losesNothing_of_interrupted hgeo
      ((hx.post fun _ _ hvol => hvol.interrupted).state_of hat) hdone
  refine ⟨fun count =>
    hend (Vol.left_allocateRunInner hsynced hheld count fun t ht => by cases ht),
    fun tail count =>
    hend (Vol.left_allocateRunAfter hsynced hheld tail count), fun tail =>
      hend (Vol.left_allocateAfter hsynced hheld tail)⟩

def sampleGeoSplit : Geometry where
  kind := .fat12
  sectorSize := 512
  clusterSize := 512
  clusterShift := 9
  reservedSectors := 1
  fatStart := 512
  fatSize := 1024
  fatCount := 2
  activeFat := 0
  mirrored := true
  root := .fixed 2560 512
  dataStart := 3072
  maxCluster := 401
  fsInfoSector := none
  volumeSerial := none

def failsAfter (n : Nat) : List (Outcome Stop) :=
  List.replicate n .done ++ [.failed (.ofKind .io) fun _ => false]

/-- A driver of such a volume, about to take cluster 341, whose entry lies in two blocks: the
chains at the clusters 2 and 8 end there, and cluster 342 is free in the active FAT only. -/
@[irreducible] def sampleVolSplit (n : Nat) : Vol where
  io := Io.sample 406
    (tableBytes [(12, 2), (13, 1), (14, 1), (16, 2), (17, 16), (19, 0x96), (20, 1),
      (22, 2), (510, 0x55),
    (511, 0xAA), (515, 0xFF), (516, 0x0F), (524, 0xF8), (525, 0x0F), (1539, 0xFF), (1540, 0x0F),
      (1548, 0xF8), (1549, 0x0F),
    (2049, 0x23), (2050, 0x01)]) (failsAfter n)
  state := { Fat.opened sampleGeoSplit false with nextFree := 341 }
  held := some Held.none

@[irreducible] def sampleVolFailing (n : Nat) : Vol where
  io := Io.sample 4119 (tableBytes (sampleBoot16 ++ [(515, 0x80)])) (failsAfter n)
  state := Fat.opened sampleGeo16 false
  held := some Held.none

theorem sampleGeoSplit_valid : sampleGeoSplit.Valid := by
  have h : (parseBoot (slice (sampleVolSplit 0).io.dev.bytes 0 512)).toOption =
      some sampleGeoSplit := by
    decide +kernel
  rcases hparse : parseBoot (slice (sampleVolSplit 0).io.dev.bytes 0 512) with e | geo
  · rw [hparse] at h
    cases h
  · rw [hparse] at h
    cases h
    exact parseBoot_valid hparse

theorem idle_split (n : Nat) : (sampleVolSplit n).Idle := by
  unfold sampleVolSplit
  exact ⟨sampleGeoSplit_valid, show sampleGeoSplit.dataEnd ≤
    406 * 512 by decide, ⟨List.length_replicate, fun _ h => nomatch h⟩, rfl, rfl⟩

example : (sampleVolSplit 7).state.geo.maxCluster = 401 := by decide +kernel

theorem failed_allocation_loses_nothing_sample :
    (sampleVolSplit 7).LosesNothing none ((Vol.allocateRun 1).run (sampleVolSplit 7)).2 ∧
      (sampleVolSplit 22).LosesNothing (some 2)
        ((Vol.allocateRunAfter 2 2).run (sampleVolSplit 22)).2 ∧
        (sampleVolSplit 12).LosesNothing (some 2)
          ((Vol.allocateAfter 2).run (sampleVolSplit 12)).2 := by
  have hnone {vol : Vol} (h : vol.io.dev.script.isEmpty = true) : ∀ o ∈ vol.io.dev.script,
    o = .done := fun o ho => by
    rw [List.isEmpty_iff.mp h] at ho
    cases ho
  have hheld (n : Nat) : (sampleVolSplit n).held = some Held.none := by
    unfold sampleVolSplit
    rfl
  refine ⟨(failed_allocation_loses_nothing (idle_split 7) (hheld 7)).1 1 (hnone ?_),
    (failed_allocation_loses_nothing (idle_split 22) (hheld 22)).2.1 2 2 (hnone ?_),
    (failed_allocation_loses_nothing (idle_split 12) (hheld 12)).2.2 2 (hnone ?_)⟩
  all_goals decide +kernel

example : (sampleVolSplit 7).io.dev.bytes 2049 = 0x23 := by decide +kernel

/-- Word by word: the clusters that were free and are used are those that what is held comes
to. -/
def Vol.TakesHeld (vol vol' : Vol) : Prop :=
  ∃ held, vol'.held = some held ∧ ∀ c, vol.state.geo.IsCluster c →
    (vol.state.geo.value vol.io.dev.bytes 0 c = 0 ∧
      vol.state.geo.value vol'.io.dev.bytes 0 c ≠ 0 ↔
      vol.state.geo.Reaches vol'.io.dev.bytes held.head c ∨
        vol.state.geo.Reaches vol'.io.dev.bytes held.extra c)

/-- Word by word: every FAT copy is as before. -/
def Vol.RestoresCopies (vol vol' : Vol) : Prop :=
  ∀ a, vol.state.geo.fatStart ≤ a → a < vol.state.geo.fatEnd →
    vol'.io.dev.bytes a = vol.io.dev.bytes a

/-- An entry half written seems to link to a cluster that was in use; the mark that ended the
tail's chain and the entry of a copy that differed are not restored, and neither is the clean
bit. -/
theorem failed_allocation_not_restored :
    ¬ (sampleVolSplit 7).TakesHeld ((Vol.allocateRun 1).run (sampleVolSplit 7)).2 ∧
      ¬ (sampleVolSplit 22).RestoresCopies
        ((Vol.finishInterrupted (some 2)).run
          ((Vol.allocateRunAfter 2 2).run (sampleVolSplit 22)).2).2 ∧
        ¬ (sampleVolFailing 5).RestoresCopies
          ((Vol.finishInterrupted none).run
            ((Vol.allocateRun 1).run (sampleVolFailing 5)).2).2 := by
  refine ⟨fun ⟨held, hheld, htaken⟩ => ?_, fun h => ?_, fun h => ?_⟩
  · have hhead : held.head = 341 := by
      have h : (((Vol.allocateRun 1).run (sampleVolSplit 7)).2.held.map Held.head) =
          some 341 := by
        decide +kernel
      rw [hheld] at h
      exact Option.some_inj.mp h
    have hreach : (sampleVolSplit 7).state.geo.Reaches
        ((Vol.allocateRun 1).run (sampleVolSplit 7)).2.io.dev.bytes 341 8 := by
      refine .single ⟨?_, ?_⟩
      · unfold sampleVolSplit
        exact ⟨by decide, show 341 ≤ sampleGeoSplit.maxCluster by decide⟩
      · have hlink : ((sampleVolSplit 7).state.geo.kind.next ((sampleVolSplit 7).state.geo.value
            ((Vol.allocateRun 1).run (sampleVolSplit 7)).2.io.dev.bytes 0 341)
              (sampleVolSplit 7).state.geo.maxCluster).toOption =
              some (some 8) := by
          decide +kernel
        rcases hnext : (sampleVolSplit 7).state.geo.kind.next ((sampleVolSplit 7).state.geo.value
            ((Vol.allocateRun 1).run (sampleVolSplit 7)).2.io.dev.bytes 0 341)
              (sampleVolSplit 7).state.geo.maxCluster with e | next
        · rw [hnext] at hlink
          cases hlink
        · rw [hnext] at hlink
          cases hlink
          rfl
    have hused : (sampleVolSplit 7).state.geo.value (sampleVolSplit 7).io.dev.bytes 0 8 ≠ 0 := by
      unfold sampleVolSplit
      decide
    refine hused ((htaken 8 ?_).mpr (.inl (hhead ▸ hreach))).1
    unfold sampleVolSplit
    exact ⟨by decide, show 8 ≤ sampleGeoSplit.maxCluster by decide⟩
  · refine absurd (h 515 ?_ ?_) ?_
    all_goals decide +kernel
  · refine absurd (h 515 ?_ ?_) ?_
    all_goals decide +kernel

example : (sampleVolFailing 5).state.geo.mirrored = true := by decide +kernel

end Hadris
