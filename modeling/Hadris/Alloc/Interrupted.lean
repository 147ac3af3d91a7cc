import Hadris.Alloc.Idle
import Hadris.Alloc.Recorded
import Hadris.Alloc.Run

namespace Hadris

open List

namespace View

open Medium (Toward)

variable {m : Medium} {old : Nat → Prop} {P Q : View → Prop} {v v' : View} {c value : Nat}

/-- Of what a failed write leaves `mirror` makes a volume of which `P` holds, where all FAT
copies agree and nothing is to be completed. -/
structure Mends (m : Medium) (old : Nat → Prop) (P : View → Prop) (v : View) : Prop where
  tracked : v.fat.Tracked m
  known : v.fat.unmirrored = none → v.fat.split = none
  synced : Synced m old ((v.settled m).mirrored m)
  kept : P ((v.settled m).mirrored m)

theorem Mends.mono (h : Mends m old P v) (hPQ : ∀ v, P v → Q v) : Mends m old Q v :=
  ⟨h.tracked, h.known, h.synced, hPQ _ h.kept⟩

theorem Synced.idle (h : Synced m old v) : v.Idle := ⟨h.split, h.unmirrored⟩

theorem mirrored_of_none (h : v.fat.unmirrored = none) : v.mirrored m = v := by
  rw [mirrored, h]

theorem Synced.mends (h : Synced m old v) (hv : P v) : Mends m old P v := by
  have hsame : (v.settled m).mirrored m = v := by
    rw [settled_of_none h.split, mirrored_of_none h.unmirrored]
  exact ⟨h.idle.tracked, fun _ => h.split, by rwa [hsame], by rwa [hsame]⟩

theorem mirrored_held (v : View) : (v.mirrored m).held = v.held := by
  rw [mirrored]
  split <;> rfl

theorem Synced.toward (h : Synced m old v) (ht : Toward v v') : Synced m old v' := by
  refine ⟨ht.fat ▸ h.split, ht.fat ▸ h.unmirrored, fun c hc => ?_⟩
  obtain ⟨hcluster, hnew, step, hstep, hne⟩ := hc
  exact h.agree c ⟨hcluster, hnew, step, hstep, ht.differs step c hne⟩

theorem agree_of_single (hsingle : ¬ 1 < m.geo.copies) (c : Nat) : ¬ Differs m old v c := by
  rintro ⟨-, -, step, hstep, hne⟩
  obtain rfl : step = 0 := by omega
  exact hne rfl

theorem mends_of_range {lo hi : Nat} (hsplit : v.fat.split = none)
    (hrange : v.fat.unmirrored = some (lo, hi) ∨ v.fat.unmirrored = none ∧ ¬ 1 < m.geo.copies)
    (hlo : firstDataCluster ≤ lo) (hdiffers : ∀ c, Differs m old v c → lo ≤ c ∧ c ≤ hi)
    (hkept : ∀ v', v'.held = v.held → v'.tbl 0 = v.tbl 0 → P v') : Mends m old P v := by
  have hsettled : v.settled m = v := settled_of_none hsplit
  refine ⟨⟨fun c value free hs => ?_, fun first last hr => ?_⟩, fun _ => hsplit, ?_, ?_⟩
  · rw [hsplit] at hs
    cases hs
  · rcases hrange with hrange | ⟨hnone, -⟩
    · rw [hrange] at hr
      cases hr
      exact hlo
    · rw [hnone] at hr
      cases hr
  · rw [hsettled]
    rcases hrange with hrange | ⟨hnone, hsingle⟩
    · rw [mirrored, hrange]
      refine ⟨hsplit, rfl, fun c hc => ?_⟩
      obtain ⟨hcluster, hnew, step, hstep, hne⟩ := hc
      dsimp only at hne
      rw [Medium.copied_active, Medium.copied] at hne
      split at hne
      · exact hne rfl
      · rename_i hout
        have hin := hdiffers c ⟨hcluster, hnew, step, hstep, hne⟩
        exact hout ⟨hstep, hin.1, le_min hin.2 hcluster.2⟩
    · rw [mirrored_of_none hnone]
      exact ⟨hsplit, hnone, agree_of_single hsingle⟩
  · rw [hsettled]
    exact hkept _ (mirrored_held v) (mirrored_active m v)

theorem mends_of_split {free : Bool} (hsplit : v.fat.split = some (c, value, free))
    (hrange : v.fat.unmirrored = some (c, c))
    (hc : m.geo.IsCluster c) (hwhole : ¬ m.Whole 0 c) (hdiffers : ∀ x, Differs m old v x → x = c)
    (hkept : ∀ v', v'.held = v.held →
      v'.tbl 0 = Function.update (v.tbl 0) c (value &&& m.geo.kind.mask) → P v') :
    Mends m old P v := by
  have hsettled : v.settled m = v.put m 0 c value := by rw [settled, hsplit]
  have hnone : (v.put m 0 c value).fat.split = none := written_split.trans (if_pos ⟨rfl, hwhole⟩)
  have hput : Mends m old P (v.put m 0 c value) := by
    refine mends_of_range hnone (.inl (written_unmirrored.trans (if_pos ⟨rfl, hwhole⟩))) hc.1
      (fun x hx => ?_)
      fun v' hheld htbl => hkept v' hheld ?_
    · obtain rfl := differs_of_same (S := fun x => x = c)
        (fun step x hx => Geometry.stored_of_ne (.inr hx) _ _) hdiffers x hx
      exact ⟨le_rfl, le_rfl⟩
    · rw [htbl, put_tbl, Geometry.stored, Function.update_self]
  refine ⟨⟨fun c' value' free' hs => ?_, fun first last hr => ?_⟩, fun hr => ?_, ?_, ?_⟩
  · rw [hsplit] at hs
    cases hs
    exact ⟨hc, hwhole⟩
  · rw [hrange] at hr
    cases hr
    exact hc.1
  · rw [hrange] at hr
    cases hr
  · have hsynced := hput.synced
    rwa [settled_of_none hnone, ← hsettled] at hsynced
  · have hkept := hput.kept
    rwa [settled_of_none hnone, ← hsettled] at hkept

end View

namespace Vol

open Device (Faulty)
open Medium (Is Toward)
open Prog (Triple)
open View (Differs Mends Synced overlaid)

variable {m : Medium} {A : Outcome Stop → Prop} {rest : Nat → UInt8} {old : Nat → Prop}
  {v : View} {vol : Vol}

/-- What a write makes of a volume on which it comes to the entries `active`, in all copies
where it succeeds: mirrored, a failed one has been made in full or not at all. -/
def OldOrNew (active : Nat → Nat) (v u : View) : Prop :=
  u.held = v.held ∧ (u.tbl 0 = v.tbl 0 ∨ u.tbl 0 = active)

theorem Unmirrored.mends {P : View → Prop} (h : Synced m old v)
    (hP : ∀ u, u.held = v.held → u.tbl 0 = v.tbl 0 → P u)
    (hvol : Unmirrored m A rest v vol) : m.Is A rest (Mends m old P) vol := by
  rcases hvol with ⟨c, value, free, hsplit, -⟩ | hvol
  · rw [h.split] at hsplit
    cases hsplit
  · rw [View.settled_of_none h.split] at hvol
    exact hvol.mono fun u ht => (h.toward ht).mends (hP u ht.held ht.active)

theorem synced_stored {u : View} {clusters : List Nat} {values : Nat → Nat} (h : Synced m old v)
    (hsplit : u.fat.split = none)
    (hunmirrored : u.fat.unmirrored = none)
    (htbl : u.tbl = overlaid m.geo.copies clusters values v.tbl) : Synced m old u := by
  refine ⟨hsplit, hunmirrored, fun c hc => ?_⟩
  obtain ⟨hcluster, hnew, step, hstep, hne⟩ := hc
  by_cases hin : c ∈ clusters
  · rw [htbl, View.overlaid_mem hstep hin,
      View.overlaid_mem (Geometry.copies_pos m.valid) hin] at hne
    exact hne rfl
  · rw [htbl, View.overlaid_not_mem hin, View.overlaid_not_mem hin] at hne
    exact h.agree c ⟨hcluster, hnew, step, hstep, hne⟩

theorem recorded_range (h : v.fat.unmirrored = none) (range : Nat × Nat) :
    (v.recorded m range).fat.unmirrored = some range ∨
    (v.recorded m range).fat.unmirrored = none ∧ ¬ 1 < m.geo.copies := by
  rw [View.recorded]
  split
  · exact .inl rfl
  · rename_i hsingle
    exact .inr ⟨h, hsingle⟩

theorem puts_range {c value i : Nat} {w : View} (h : w.fat.unmirrored = some (c, c) ∨
    w.fat.unmirrored = none ∧ ¬ 1 < m.geo.copies) :
    (w.puts m c value i).fat.unmirrored = some (c, c) ∨
      (w.puts m c value i).fat.unmirrored = none ∧ ¬ 1 < m.geo.copies := by
  rw [View.puts]
  split
  · exact h
  · rw [View.written_unmirrored]
    split
    · exact .inl rfl
    · exact h

theorem Unput.mends {P : View → Prop} {c value i : Nat} (hsplit : v.fat.split = none)
    (hrange : v.fat.unmirrored = some (c, c) ∨ v.fat.unmirrored = none ∧ ¬ 1 < m.geo.copies)
    (hc : m.geo.IsCluster c)
    (hdiffers : ∀ x, Differs m old v x → x = c)
    (hP : ∀ u, u.held = v.held → (u.tbl 0 = v.tbl 0 ∨ i = 0 ∧
      u.tbl 0 = Function.update (v.tbl 0) c (value &&& m.geo.kind.mask)) → P u) (hput :
        Unput m A rest i c value v vol) :
    m.Is A rest (Mends m old P) vol := by
  have hsame {w : View} (h : ∀ x, Differs m old w x → x = c) (x : Nat) (hx : Differs m old w x) :
      c ≤ x ∧ x ≤ c := by
    rw [h x hx]
    exact ⟨le_rfl, le_rfl⟩
  rcases hput with hat | ⟨x, hx, hat⟩
  · exact ⟨v, View.mends_of_range hsplit hrange hc.1 (hsame hdiffers) fun u hheld htbl =>
      hP u hheld (.inl htbl), hat⟩
  refine ⟨_, ?_, hat⟩
  have hone : ∀ y, Differs m old
    { v with tbl := Geometry.stored i c x v.tbl, fat := v.pending m i c value } y → y = c :=
    View.differs_of_same (S := fun y => y = c)
      (fun step y hy => Geometry.stored_of_ne (.inr hy) _ _) hdiffers
  have hstored : Geometry.stored 0 c x v.tbl 0 = Function.update (v.tbl 0) c x :=
    Function.update_self _ _ _
  by_cases hhalf : i = 0 ∧ ¬ m.Whole 0 c
  · obtain ⟨rfl, hwhole⟩ := hhalf
    have hpending : v.pending m 0 c value = _ := if_pos ⟨rfl, hwhole⟩
    have hlast :
      { v with tbl := Geometry.stored 0 c x v.tbl, fat := v.pending m 0 c value }.fat.split =
        some (c, value, v.fat.wasFree c (v.tbl 0 c)) := by rw [hpending]
    refine View.mends_of_split hlast (by rw [hpending]) hc hwhole hone fun u hheld htbl =>
      hP u hheld (.inr ⟨rfl, ?_⟩)
    dsimp only at htbl
    rw [htbl, hstored, Function.update_idem]
  · rw [View.pending, if_neg hhalf] at hone ⊢
    refine View.mends_of_range hsplit hrange hc.1 (hsame hone) fun u hheld htbl => hP u hheld ?_
    rcases Nat.eq_zero_or_pos i with rfl | hpos
    · have hwhole : m.Whole 0 c := not_not.mp fun hnot => hhalf ⟨rfl, hnot⟩
      dsimp only at htbl
      rw [htbl, hstored]
      rcases hx hwhole with rfl | ⟨rfl, -⟩
      · exact .inl (Function.update_eq_self _ _)
      · exact .inr ⟨rfl, rfl⟩
    · refine .inl ?_
      rw [htbl]
      exact funext fun y => Geometry.stored_of_ne (.inl hpos.ne) _ _

theorem overlaid_single {copies c value : Nat} {tbl : Nat → Nat → Nat} (hpos : 0 < copies) :
    overlaid copies [c] (fun _ => value) tbl 0 = Function.update (tbl 0) c value := by
  funext x
  by_cases hx : x = c
  · rw [hx, Function.update_self, View.overlaid_mem hpos (mem_singleton_self c)]
  · rw [Function.update_of_ne hx, View.overlaid_not_mem (by rwa [mem_singleton])]

theorem mends_set (h : Synced m old v) (c value : Nat) : Triple (m.At A rest v) (set c value)
    (fun _ vol => m.geo.IsCluster c ∧ m.Is A rest (fun u => Synced m old u ∧ u.held = v.held ∧
      u.tbl = overlaid m.geo.copies [c] (fun _ => value &&& m.geo.kind.mask) v.tbl) vol)
    fun _ vol => ¬ m.geo.IsCluster c ∧ m.At A rest v vol ∨ m.geo.IsCluster c ∧ Faulty A ∧
      m.Is A rest (Mends m old
        (OldOrNew (overlaid m.geo.copies [c] (fun _ => value &&& m.geo.kind.mask) v.tbl 0) v))
        vol := by
  have hv := h.idle
  have hready : v.readyFor m c = v.recorded m (c, c) := by
    rw [View.readyFor, View.upToDate, if_neg (hv.not_due c)]
  have hsplit (i : Nat) := View.puts_split m c value i (hv.readyFor_split (m := m) c)
  have hheld (i : Nat) := (View.puts_held m c value i _).trans (hv.readyFor_held (m := m) c)
  have htbl (i : Nat) := View.puts_tbl m c value i (v.readyFor m c)
  rw [hv.readyFor_tbl] at htbl
  refine (at_set hv.tracked c value).weaken (fun _ _ hvol => ?_) fun _ vol hvol =>
    hvol.imp_right fun hvol =>
    ⟨hvol.1, hvol.2.1, ?_⟩
  · have hdone : Synced m old ((v.readyFor m c).puts m c value m.geo.copies).forgotten :=
      synced_stored h (hsplit _) rfl (htbl _)
    exact ⟨hvol.1, _, ⟨hdone, hheld _, htbl _⟩, hvol.2⟩
  obtain ⟨hc, -, hmirror | ⟨i, -, hput⟩⟩ := hvol
  · exact hmirror.mends h fun u hheld htbl => ⟨hheld, .inl htbl⟩
  have hdiffers : ∀ x, Differs m old ((v.readyFor m c).puts m c value i) x → x = c := by
    refine View.differs_of_same (S := fun x => x = c) (fun step x hx => ?_) fun x hx =>
      absurd hx (h.agree x)
    rw [htbl, View.overlaid_not_mem (by rwa [mem_singleton])]
  refine hput.mends (hsplit i) (puts_range (hready ▸ recorded_range h.unmirrored (c, c)))
    hc hdiffers
    fun u hu hactive => ⟨hu.trans (hheld i), ?_⟩
  -- the active entries are old before the first copy is written, and new after it
  rw [htbl] at hactive
  rw [overlaid_single (Geometry.copies_pos m.valid)]
  rcases Nat.eq_zero_or_pos i with rfl | hpos
  · rw [View.overlaid_zero] at hactive
    exact hactive.imp_right And.right
  · exact .inr ((hactive.resolve_right fun h => hpos.ne' h.1).trans (overlaid_single hpos))

theorem mem_rangeOf {group : ClusterGroup} (hdesc : group.Descending)
    {tail : Option Nat} {c : Nat} (hc : c ∈ Fat.groupEntries group tail) :
    (View.rangeOf group tail).1 ≤ c ∧ c ≤ (View.rangeOf group tail).2 := by
  have hhighest : group.highest?.getD group.lowest = group.highest := rfl
  rw [View.rangeOf, hhighest]
  rcases mem_append.mp hc with hc | hc
  · exact ⟨(min_le_left _ _).trans (hdesc.bounds hc).1,
      (hdesc.bounds hc).2.trans (le_max_left _ _)⟩
  · rw [Option.mem_def.mp (Option.mem_toList.mp hc), Option.getD_some, Option.getD_some]
    exact ⟨min_le_right _ _, le_max_right _ _⟩

theorem firstDataCluster_le_rangeOf {group : ClusterGroup} (hne : group.members ≠ [])
    {tail : Option Nat}
    (hmembers : ∀ c ∈ Fat.groupEntries group tail, m.geo.IsCluster c) :
    firstDataCluster ≤ (View.rangeOf group tail).1 := by
  have hlowest := (hmembers _ (mem_append_left _ (Fat.lowest_mem hne))).1
  refine le_min hlowest ?_
  cases tail with
  | none => exact hlowest
  | some t => exact (hmembers t (mem_append_right _ (by simp))).1

theorem mends_patch (h : Synced m old v) {group : ClusterGroup}
    (chain : Option Nat) {tail : Option Nat}
    (hne : group.members ≠ []) (hdesc : group.Descending)
    (hmembers : ∀ c ∈ Fat.groupEntries group tail, m.geo.IsCluster c)
    (hfits : ∀ j < m.geo.copies, Fat.Fits m group tail j) :
    Triple (m.At A rest v) (patch group chain tail)
      (fun _ => m.Is A rest fun u => Synced m old u ∧ u.held = v.held ∧
        u.tbl = overlaid m.geo.copies (Fat.groupEntries group tail)
          (View.groupValue m group chain tail) v.tbl)
      fun _ vol => Faulty A ∧ m.Is A rest (Mends m old (OldOrNew
        (overlaid m.geo.copies (Fat.groupEntries group tail) (View.groupValue m group chain tail)
          v.tbl 0) v)) vol := by
  have hv := h.idle
  have hpos := Geometry.copies_pos m.valid
  have hready := hv.readyForRange_eq (m := m) (View.rangeOf group tail)
  refine (at_patch hv.tracked chain hne hmembers).weaken
    (fun _ vol hvol => ?_) fun e vol hvol => ?_
  · obtain ⟨taken, freed, -, -, hat⟩ := hvol
    rw [hready] at hat
    have hsplit : ((v.recorded m (View.rangeOf group tail)).patches m group chain tail taken freed
        m.geo.copies).forgotten.fat.split = none := by
      rw [View.forgotten_split, View.patches_split, View.recorded_split, h.split]
    have htbl : ((v.recorded m (View.rangeOf group tail)).patches m group chain tail taken freed
        m.geo.copies).forgotten.tbl =
          overlaid m.geo.copies (Fat.groupEntries group tail)
            (View.groupValue m group chain tail) v.tbl := by
      rw [View.forgotten_tbl, View.patches_tbl, View.recorded_tbl]
    exact ⟨_, ⟨synced_stored h hsplit rfl htbl,
      (View.patches_held m group chain tail taken freed _ _).trans
      (View.recorded_held m _ v), htbl⟩, hat⟩
  rcases hvol with ⟨hfaulty, hat | hmirror⟩ | ⟨i, hi, taken, freed, -, -, htorn⟩
  · exact ⟨hfaulty, v, h.mends ⟨rfl, .inl rfl⟩, hat⟩
  · exact ⟨hfaulty, hmirror.mends h fun u hheld htbl => ⟨hheld, .inl htbl⟩⟩
  rw [hready] at htorn
  -- the group is stored in the first copies, or in none
  have hmends {j : Nat} {w : View} (hsplit : w.fat.split = none)
      (hrange : w.fat.unmirrored = (v.recorded m (View.rangeOf group tail)).fat.unmirrored)
        (hheld : w.held = v.held)
      (htbl : w.tbl = overlaid j (Fat.groupEntries group tail)
        (View.groupValue m group chain tail) v.tbl) :
      Mends m old (OldOrNew (overlaid m.geo.copies (Fat.groupEntries group tail)
        (View.groupValue m group chain tail) v.tbl 0)
        v) w := by
    refine View.mends_of_range hsplit
      (hrange ▸ recorded_range h.unmirrored (View.rangeOf group tail))
      (firstDataCluster_le_rangeOf hne hmembers)
        (fun c hc => mem_rangeOf hdesc ?_) fun u hu hactive =>
        ⟨hu.trans hheld, ?_⟩
    · refine View.differs_of_same (S := fun c => c ∈ Fat.groupEntries group tail)
        (fun step c hc => ?_)
        (fun c hc => absurd hc (h.agree c)) c hc
      rw [htbl, View.overlaid_not_mem hc]
    · rw [hactive, htbl]
      rcases Nat.eq_zero_or_pos j with rfl | hj
      · exact .inl (by rw [View.overlaid_zero])
      · refine .inr (funext fun c => ?_)
        by_cases hc : c ∈ Fat.groupEntries group tail
        · rw [View.overlaid_mem hj hc, View.overlaid_mem hpos hc]
        · rw [View.overlaid_not_mem hc, View.overlaid_not_mem hc]
  have hsplit :
      ((v.recorded m (View.rangeOf group tail)).patches m group chain tail taken freed
        i).fat.split = none := by
    rw [View.patches_split, View.recorded_split, h.split]
  have hunmirrored := View.patches_unmirrored m group chain tail taken freed i
    (v.recorded m (View.rangeOf group tail))
  have hheld := (View.patches_held m group chain tail taken freed i _).trans
    (View.recorded_held m (View.rangeOf group tail) v)
  rcases htorn with ⟨hwhy, hat⟩ | ⟨⟨-, hlands⟩, hat⟩
  · refine ⟨hwhy.resolve_left fun hnot => hnot.1 (hfits i hi), _,
      hmends (j := i) hsplit hunmirrored hheld ?_, hat⟩
    rw [View.patches_tbl, View.recorded_tbl]
  · refine ⟨hlands.faulty, _, ?_, hat⟩
    refine hmends (j := i + 1) hsplit hunmirrored hheld ?_
    rw [View.recorded_tbl]

end Vol

end Hadris

namespace Hadris

open List

namespace View

open Medium (Toward)
open Vol (Free)

/-- How far an allocation has come, by the active entries: the clusters of `chain`, which
were free, are linked in this order and ended, the tail may be linked to them, and no other
entry has changed. -/
structure Takes (m : Medium) (tbl : Nat → Nat → Nat) (tail : Option Nat) (chain : List Nat)
    (active : Nat → Nat) : Prop where
  free : ∀ c ∈ chain, Free m tbl c
  nodup : chain.Nodup
  order : (chain ++ [m.geo.kind.endOfChain]).IsChain fun a b => active a = b
  others : ∀ c, c ∉ chain → tail ≠ some c → active c = tbl 0 c
  tail : ∀ t, tail = some t → active t = tbl 0 t ∨ m.geo.IsCluster t ∧ tbl 0 t ≠ 0 ∧
    chain.head? = some (active t)

/-- Nothing is to be reclaimed at `c`. -/
def Void (m : Medium) (active : Nat → Nat) (c : Nat) : Prop :=
  c = 0 ∨ m.geo.IsCluster c ∧ active c = 0

/-- What is held names `chain`: the extra cluster starts it, and the head is part of it, or
the head does and the extra cluster is not taken yet. -/
def Names (m : Medium) (chain : List Nat) (active : Nat → Nat) (held : Held) : Prop :=
  chain.head? = some held.extra ∧ (held.head = 0 ∨ held.head ∈ chain) ∨
    Void m active held.extra ∧
      (chain.head? = some held.head ∨ chain = [] ∧ Void m active held.head)

/-- What an allocation leaves: all it took is held. -/
def Left (m : Medium) (tbl : Nat → Nat → Nat) (tail : Option Nat) (v : View) : Prop :=
  ∃ chain held, Takes m tbl tail chain (v.tbl 0) ∧ v.held = some held ∧
    Names m chain (v.tbl 0) held

variable {m : Medium} {old : Nat → Prop} {tbl : Nat → Nat → Nat} {tail : Option Nat}
  {chain : List Nat} {active : Nat → Nat}
variable {v : View}

theorem Takes.none (tail : Option Nat) : Takes m tbl tail [] (tbl 0) :=
  ⟨fun _ hc => absurd hc not_mem_nil, nodup_nil, .singleton _, fun _ _ _ => rfl,
    fun _ _ => .inl rfl⟩

theorem Left.none (h : v.held = some Held.none) (tail : Option Nat) : Left m v.tbl tail v :=
  ⟨[], Held.none, .none tail, h, .inr ⟨.inl rfl, .inr ⟨rfl, .inl rfl⟩⟩⟩

theorem Takes.link (h : Takes m tbl tail chain active) {t head : Nat} (ht : tail = some t)
    (hcluster : m.geo.IsCluster t)
    (hused : tbl 0 t ≠ 0) (hhead : chain.head? = some head) :
    Takes m tbl tail chain (Function.update active t head) := by
  have hout : t ∉ chain := fun hin => hused (h.free t hin).2
  refine ⟨h.free, h.nodup, ?_, fun c hc htail => ?_, fun t' ht' => .inr ?_⟩
  · refine h.order.imp_of_mem_imp fun a b ha _ hab => ?_
    rwa [Function.update_of_ne]
    rintro rfl
    rcases mem_append.mp ha with ha | ha
    · exact hout ha
    · rw [mem_singleton.mp ha] at hcluster
      exact Vol.endOfChain_not_cluster hcluster
  · rw [Function.update_of_ne, h.others c hc htail]
    rintro rfl
    exact htail ht
  · obtain rfl : t = t' := Option.some_inj.mp (ht.symm.trans ht')
    rw [Function.update_self]
    exact ⟨hcluster, hused, hhead⟩

theorem Idle.storing (h : v.Idle) (tbl : Nat → Nat → Nat) : View.Idle { v with tbl := tbl } :=
  ⟨h.split, h.unmirrored⟩

theorem Synced.holding (h : Synced m old v) (f : Held → Held) : Synced m old (v.holding f) :=
  ⟨h.split, h.unmirrored, h.agree⟩

end View

namespace Vol

open Borrow (getState onIo reading setState setHeld)
open Device (Faulty)
open Medium (Is Relinks)
open Prog (Triple)
open View (Left Mends Names Synced Takes Void overlaid)

variable {m : Medium} {A : Outcome Stop → Prop} {rest : Nat → UInt8} {old : Nat → Prop} {v : View}
  {tbl : Nat → Nat → Nat}
variable {from_ lo last top left head : Nat} {tail : Option Nat} {linked : Bool}

theorem Linking.head? (h : Linking m tbl from_ last tail top left head linked v) :
    (frees m tbl from_ top (last + 1 - top)).head? = some head ∨
      frees m tbl from_ top (last + 1 - top) = [] ∧ head = m.geo.kind.endOfChain := by
  have hstart := h.start
  rcases hl : frees m tbl from_ top (last + 1 - top) with _ | ⟨x, l⟩
  · rw [hl] at hstart
    exact .inr ⟨rfl, hstart⟩
  · rw [hl] at hstart
    exact .inl (congrArg some hstart.symm)

section

variable (hfrom : from_ < total m) (hlast : last < total m)
  (htail : ∀ t, tail = some t → m.geo.IsCluster t ∧ tbl 0 t ≠ 0)
  (hsome : frees m tbl from_ 0 (last + 1) ≠ [])

include hfrom hlast htail hsome in
theorem Linking.takes (h : Linking m tbl from_ last tail top left head linked v) :
    Takes m tbl tail (frees m tbl from_ top (last + 1 - top)) (v.tbl 0) := by
  have hpos := Geometry.copies_pos m.valid
  have htop := h.top_le
  have horder := h.relinks.order 0 hpos
  have hmember {c : Nat} : c ∈ linkedTail linked tail → tail = some c := by
    rw [linkedTail]
    split
    · exact Option.mem_toList.mp
    · exact fun hc => absurd hc not_mem_nil
  refine ⟨fun c hc => free_of_mem_frees hfrom (by omega) hc, nodup_frees (by omega), ?_,
    fun c hc ht =>
    h.relinks.others 0 hpos c fun hin => (mem_append.mp hin).elim
      (fun hin => ht (hmember hin)) hc, fun t ht => ?_⟩
  · rw [append_assoc] at horder
    exact horder.right_of_append
  · have hused := htail t ht
    cases linked with
    | false =>
      refine .inl (h.relinks.others 0 hpos t fun hin => ?_)
      rw [linkedTail, if_neg Bool.false_ne_true, nil_append] at hin
      exact hused.2 (mem_frees.mp hin).2
    | true =>
      -- once the tail is linked all are
      have hall := frees_append m tbl from_ 0 top (last + 1 - top)
      have hnone : frees m tbl from_ 0 top = [] := by
        rw [← length_eq_zero_iff, ← h.count]
        exact (h.done rfl).1
      rw [Nat.zero_add, hnone, nil_append, show top + (last + 1 - top) =
        last + 1 by omega] at hall
      rw [linkedTail, if_pos rfl, ht, Option.toList_some, singleton_append, cons_append] at horder
      have hlink := Medium.rel_headD horder
      refine .inr ⟨hused.1, hused.2, ?_⟩
      rw [hlink]
      rcases hl : frees m tbl from_ top (last + 1 - top) with _ | ⟨x, l⟩
      · exact absurd (hall.trans hl) hsome
      · rfl

include hfrom hlast in
theorem head_mem_frees (hle : lo ≤ last + 1)
    (h : (frees m tbl from_ lo (last + 1 - lo)).head? = some head) :
    m.geo.IsCluster head := by
  have hin := mem_of_mem_head? (Option.mem_def.mpr h)
  exact (free_of_mem_frees hfrom (by omega) hin).1

theorem ne_endOfChain (hc : m.geo.IsCluster head) : head ≠ m.geo.kind.endOfChain := by
  rintro rfl
  exact endOfChain_not_cluster hc

include hfrom hlast in
theorem Linking.names (h : Linking m tbl from_ last tail top left head linked v)
    {active : Nat → Nat} {extra : Nat}
    (hextra : Void m active extra) : Names m (frees m tbl from_ top (last + 1 - top)) active
      ⟨if head = m.geo.kind.endOfChain then 0 else head, extra⟩ := by
  rcases h.head? with hhead | ⟨hnil, hend⟩
  · rw [if_neg (ne_endOfChain (head_mem_frees hfrom hlast h.top_le hhead))]
    exact .inr ⟨hextra, .inl hhead⟩
  · rw [if_pos hend]
    exact .inr ⟨hextra, .inr ⟨hnil, .inl rfl⟩⟩

include hfrom hlast in
theorem Linking.names_after (h : Linking m tbl from_ last tail (top + 1) left head linked v)
    (hle : lo ≤ top)
    {active : Nat → Nat} {extra : Nat}
    (hextra : (frees m tbl from_ lo (last + 1 - lo)).head? = some extra) :
    Names m (frees m tbl from_ lo (last + 1 - lo)) active
      ⟨if head = m.geo.kind.endOfChain then 0 else head, extra⟩ := by
  refine .inl ⟨hextra, ?_⟩
  rcases h.head? with hhead | ⟨-, hend⟩
  · rw [if_neg (ne_endOfChain (head_mem_frees hfrom hlast h.top_le hhead)), h.above hle]
    exact .inr (mem_append_right _ (mem_of_mem_head? (Option.mem_def.mpr hhead)))
  · exact .inl (if_pos hend)

include hfrom hlast htail hsome in
theorem Linking.left_of_oldOrNew (h : Linking m tbl from_ last tail (top + 1) left head linked v)
    {held : Held} (hheld : v.held = some held) {left' extra : Nat} {linked' : Bool} {w u : View}
    (hnew : Linking m tbl from_ last tail lo left' extra linked' w) (hle : lo ≤ top)
    (hcluster : m.geo.IsCluster extra)
    (hzero : v.tbl 0 extra = 0) (hu : OldOrNew (w.tbl 0) (heldBefore m head extra v) u) :
    Left m tbl tail u := by
  obtain ⟨hsame, hactive⟩ := hu
  have hkept : u.held = some ⟨if head = m.geo.kind.endOfChain then 0 else head, extra⟩ := by
    rw [hsame, heldBefore, View.holding, hheld]
    rfl
  rcases hactive with hactive | hactive
  · have hactive : u.tbl 0 = v.tbl 0 := hactive
    have htakes := h.takes hfrom hlast htail hsome
    have hnames := h.names hfrom hlast (.inr ⟨hcluster, hzero⟩)
    rw [← hactive] at htakes hnames
    exact ⟨_, _, htakes, hkept, hnames⟩
  · have htakes := hnew.takes hfrom hlast htail hsome
    have hstart := hnew.head?.resolve_right fun hend => ne_endOfChain hcluster hend.2
    rw [← hactive] at htakes
    exact ⟨_, _, htakes, hkept, h.names_after hfrom hlast hle hstart⟩

/-- What the loop of an allocation keeps: what is linked is held, and all copies agree. -/
structure Going (m : Medium) (old : Nat → Prop) (tbl : Nat → Nat → Nat)
    (from_ last : Nat) (tail : Option Nat)
    (top left head : Nat) (linked : Bool) (v : View) : Prop where
  linking : Linking m tbl from_ last tail top left head linked v
  synced : Synced m old v
  held : v.held = some ⟨if head = m.geo.kind.endOfChain then 0 else head, 0⟩

include hfrom hlast htail hsome in
theorem Going.left_ (h : Going m old tbl from_ last tail top left head linked v) :
    Left m tbl tail v :=
  ⟨_, _, h.linking.takes hfrom hlast htail hsome, h.held, h.linking.names hfrom hlast (.inl rfl)⟩

theorem Linking.going (h : Linking m tbl from_ last tail top left head linked v)
    (hsynced : Synced m old v)
    (hheld : v.held.isSome) (hc : m.geo.IsCluster head) :
    Going m old tbl from_ last tail top left head linked (heldAfter head v) := by
  refine ⟨h.holding _, hsynced.holding _, ?_⟩
  obtain ⟨held, hheld⟩ := Option.isSome_iff_exists.mp hheld
  rw [heldAfter, View.holding, hheld, if_neg (ne_endOfChain hc)]
  rfl

include hfrom hlast htail hsome in
theorem going_linkGroups (h : Going m old tbl from_ last tail top left head linked v) (fuel : Nat)
    (hfuel : top ≤ fuel) :
    Triple (m.At A rest v) (linkGroups (total m) from_ tail fuel top left head linked)
      (fun r => m.Is A rest fun v => ∃ left, Going m old tbl from_ last tail 0 left r.1 r.2 v)
      fun _ => m.Is A rest (Mends m old (Left m tbl tail)) := by
  have htop := h.linking.top_le
  refine at_linkGroups (P := Going m old tbl from_ last tail) hfrom tail
    (fun {_ _ _ _ v _ _} hP _ hat => ⟨v, hP.synced.mends (hP.left_ hfrom hlast htail hsome), hat⟩)
    (fun hP hle hnone => ⟨hP.linking.skip hfrom hlast htail hle hnone, hP.synced, hP.held⟩)
    (fun {top left head linked v} htop hP _ hzero => ?_)
    (fun {lo top left head linked v group link} htop hP hgather hne hlink => ?_) fuel top left
      head linked hfuel (by omega) v h
  · have hc := isCluster_cyclicAt hfrom htop
    have hheld := hP.held
    refine (mends_set (hP.synced.holding _) _ _).weaken
      (fun _ _ hvol => hvol.2.mono fun v' hv' => ?_) fun _ _ hvol => ?_
    · refine (hP.linking.single hfrom hlast htail hzero hv'.1.idle hv'.2.2).going hv'.1 ?_ hc
      rw [hv'.2.1, View.holding, hheld]
      rfl
    · refine (hvol.resolve_left fun h => h.1 hc).2.2.mono fun u hu => hu.mono fun u hu => ?_
      have hnew := hP.linking.single hfrom hlast htail hzero (hP.linking.idle.storing _) rfl
      exact hP.linking.left_of_oldOrNew hfrom hlast htail hsome hheld hnew le_rfl hc hzero hu
  · refine Triple.of_forall fun vol₀ hat₀ => Triple.pre ?_ fun vol heq =>
      show m.At A rest _ vol from heq ▸ hat₀
    obtain ⟨hentries, hfits⟩ := fits_of_gathering hfrom htail (Medium.at_pos hat₀) htop
      hgather hne fun t ht =>
      ⟨((hlink t).mp ht).1, ((hlink t).mp ht).2.2⟩
    have hlast' (t : Nat) (ht : link = some t) : tail = some t ∧ left = group.count :=
      ⟨((hlink t).mp ht).1, ((hlink t).mp ht).2.1⟩
    have hheld := hP.held
    have hlowest := hgather.free hfrom htop (Fat.lowest_mem hne)
    refine (mends_patch (hP.synced.holding _) (some head) hne hgather.descending
      hentries hfits).weaken
      (fun _ _ hvol => hvol.mono fun v' hv' => ?_) fun _ _ hvol => hvol.2.mono fun u hu =>
        hu.mono fun u hu => ?_
    · refine (hP.linking.group hfrom hlast htail htop hgather hne hlast' hv'.1.idle hv'.2.2).going
        hv'.1 ?_ hlowest.1
      rw [hv'.2.1, View.holding, hheld]
      rfl
    · have hnew := hP.linking.group hfrom hlast htail htop hgather hne hlast'
        (hP.linking.idle.storing _) rfl
      exact hP.linking.left_of_oldOrNew hfrom hlast htail hsome hheld hnew hgather.lo_le
        hlowest.1 hlowest.2 hu

end

theorem takes_of_relinks {tbl' : Nat → Nat → Nat} {chain : List Nat}
    (hfree : ∀ c ∈ chain, Free m tbl c) (hnodup : chain.Nodup)
    (htail : ∀ t, tail = some t → m.geo.IsCluster t ∧ tbl 0 t ≠ 0) (hne : chain ≠ [])
    (h : Relinks m tbl tbl' (tail.toList ++ chain)) : Takes m tbl tail chain (tbl' 0) := by
  have hpos := Geometry.copies_pos m.valid
  have horder := h.order 0 hpos
  refine ⟨hfree, hnodup, ?_, fun c hc ht => h.others 0 hpos c fun hin => ?_, fun t ht => .inr ?_⟩
  · rw [append_assoc] at horder
    exact horder.right_of_append
  · rcases mem_append.mp hin with hin | hin
    · exact ht (Option.mem_toList.mp hin)
    · exact hc hin
  · refine ⟨(htail t ht).1, (htail t ht).2, ?_⟩
    rw [ht, Option.toList_some, singleton_append, cons_append] at horder
    rw [Medium.rel_headD horder]
    rcases hl : chain with _ | ⟨x, l⟩
    · exact absurd hl hne
    · rfl

/-- What a call leaves that was interrupted: once mirrored, all that was taken is held. -/
abbrev Interrupted (m : Medium) (A : Outcome Stop → Prop) (rest : Nat → UInt8) (old : Nat → Prop)
    (tbl : Nat → Nat → Nat)
    (tail : Option Nat) : Vol → Prop := m.Is A rest (Mends m old (Left m tbl tail))

/-- What it leaves that was not. -/
abbrev Finished (m : Medium) (A : Outcome Stop → Prop) (rest : Nat → UInt8) (old : Nat → Prop)
    (tbl : Nat → Nat → Nat)
    (tail : Option Nat) : Vol → Prop := m.Is A rest fun v => Synced m old v ∧ Left m tbl tail v

theorem Finished.interrupted {vol : Vol} (h : Finished m A rest old tbl tail vol) :
    Interrupted m A rest old tbl tail vol :=
  h.mono fun _ hv => hv.1.mends hv.2

theorem interrupted_none (h : Synced m old v) (hheld : v.held = some Held.none) {vol : Vol}
    (hat : m.At A rest v vol) :
    Interrupted m A rest old v.tbl tail vol := ⟨v, h.mends (.none hheld tail), hat⟩

theorem interrupted_counted (h : Synced m old v) (hheld : v.held = some Held.none)
    (n : Nat) {vol : Vol}
    (hat : m.At A rest (v.counted n) vol) : Interrupted m A rest old v.tbl tail vol := by
  have hsynced : Synced m old (v.counted n) := ⟨h.split, h.unmirrored, h.agree⟩
  exact ⟨v.counted n, hsynced.mends (.none hheld tail), hat⟩

theorem finished_searched (v : View) (c : Nat) (h : Synced m old v ∧ Left m tbl tail v) :
    Synced m old (v.searched c) ∧ Left m tbl tail (v.searched c) :=
  ⟨⟨h.1.split, h.1.unmirrored, h.1.agree⟩, h.2⟩

theorem left_findFree (h : Synced m old v) (hheld : v.held = some Held.none) :
    Triple (m.At A rest v) findFree
    (fun c vol => Free m v.tbl c ∧ m.At A rest v vol) fun _ =>
      Interrupted m A rest old v.tbl tail := by
  intro vol₀ hat₀
  refine at_findFree.weaken
    (fun c vol hvol => ⟨free_of_mem_frees (hint_lt hat₀.geo) (Nat.zero_add _).le
    (mem_of_mem_head? (Option.mem_def.mpr hvol.1.2)), hvol.2⟩) (fun e vol hvol => ?_) vol₀ hat₀
  rcases hvol with ⟨-, hat⟩ | ⟨-, ⟨-, hat⟩ | ⟨-, -, hat⟩⟩
  · exact interrupted_none h hheld hat
  · exact interrupted_none h hheld hat
  · exact interrupted_counted h hheld _ hat

theorem takes_single {c : Nat} (hfree : Free m tbl c) (htail : tail ≠ some c) :
    Takes m tbl tail [c]
      (overlaid m.geo.copies [c] (fun _ => m.geo.kind.endOfChain &&& m.geo.kind.mask) tbl 0) := by
  have hpos := Geometry.copies_pos m.valid
  refine ⟨fun x hx => mem_singleton.mp hx ▸ hfree, nodup_singleton c, isChain_pair.mpr ?_,
    fun x hx _ => View.overlaid_not_mem hx 0, fun t ht =>
      .inl (View.overlaid_not_mem (fun hin => htail ?_) 0)⟩
  · rw [View.overlaid_mem hpos (mem_singleton_self c), Medium.endOfChain_and_mask]
  · rw [ht, mem_singleton.mp hin]

theorem left_set (h : Synced m old v) {c : Nat} (hfree : Free m v.tbl c) (htail : tail ≠ some c)
    (hheld : v.held = some ⟨c, 0⟩) :
    Triple (m.At A rest v) (set c m.geo.kind.endOfChain)
      (fun _ => m.Is A rest fun u => (Synced m old u ∧ u.held = some ⟨c, 0⟩) ∧
        u.tbl = overlaid m.geo.copies [c]
          (fun _ => m.geo.kind.endOfChain &&& m.geo.kind.mask) v.tbl)
      fun _ => Interrupted m A rest old v.tbl tail := by
  refine (mends_set h c _).weaken
    (fun _ _ hvol => hvol.2.mono fun u hu => ⟨⟨hu.1, hu.2.1.trans hheld⟩, hu.2.2⟩) fun _ _ hvol =>
    (hvol.resolve_left fun hout => hout.1 hfree.1).2.2.mono fun u hu => hu.mono fun u hu => ?_
  have hkept : u.held = some ⟨c, 0⟩ := hu.1.trans hheld
  rcases hu.2 with hactive | hactive
  · refine ⟨[], _, ?_, hkept, .inr ⟨.inl rfl, .inr ⟨rfl, .inr ⟨hfree.1, ?_⟩⟩⟩⟩
    · rw [hactive]
      exact .none tail
    · rw [hactive, hfree.2]
  · refine ⟨[c], _, ?_, hkept, .inr ⟨.inl rfl, .inl rfl⟩⟩
    rw [hactive]
    exact takes_single hfree htail

theorem left_single {c : Nat} (hfree : Free m tbl c) (htail : tail ≠ some c) (u : View)
    (hu : (Synced m old u ∧
    u.held = some ⟨c, 0⟩) ∧ u.tbl = overlaid m.geo.copies [c] (fun _ => m.geo.kind.endOfChain &&&
      m.geo.kind.mask) tbl) :
    Synced m old u ∧ Left m tbl tail u := by
  refine ⟨hu.1.1, [c], _, ?_, hu.1.2, .inr ⟨.inl rfl, .inl rfl⟩⟩
  rw [hu.2]
  exact takes_single hfree htail

theorem left_allocate (h : Synced m old v) (hheld : v.held = some Held.none) :
    Triple (m.At A rest v) allocate
    (fun _ => Finished m A rest old v.tbl none) fun _ => Interrupted m A rest old v.tbl none := by
  refine Triple.bind (left_findFree h hheld) fun c => Triple.assume fun hfree => ?_
  refine Triple.bind (Medium.at_setHeld _) fun _ => Medium.at_getState fun dirty info => ?_
  intro vol hat
  have hmarked : (v.fat.marked dirty info).geo = m.geo := hat.geo
  have hkept : (v.holding fun held => if held.head = 0 then { held with head := c }
    else { held with extra := c }).held =
      some ⟨c, 0⟩ := by
    rw [View.holding, hheld]
    rfl
  have hnone : (none : Option Nat) ≠ some c := (Option.some_ne_none c).symm
  have hset : Triple (m.At A rest _) _ _ _ := left_set (h.holding _) hfree hnone hkept
  rw [← hmarked] at hset
  refine Triple.bind (Q := fun _ => Finished m A rest old v.tbl none)
    (hset.post fun _ _ hvol => hvol.mono fun u hu => left_single hfree hnone u (hmarked ▸ hu))
      (fun _ => ?_) vol hat
  exact Triple.bind (is_setNextFree finished_searched c) fun _ =>
    Triple.bind is_setInfoDirty fun _ => Triple.pure fun _ h => h

/-- What linking a tail that is used to a free cluster that is held comes to, also where it
fails. -/
theorem left_linkAfter (h : Synced m old v) {t c : Nat} {share : Bool} (ht : m.geo.IsCluster t)
    (hused : v.tbl 0 t ≠ 0)
    (hfree : Free m v.tbl c) (hheld : v.held = some ⟨c, 0⟩)
    (hshare : share = true → m.SameBlock t c) :
    Triple (m.At A rest v) (linkAfter share t c m.geo.kind.endOfChain)
      (fun _ => Finished m A rest old v.tbl (some t)) fun _ =>
        Interrupted m A rest old v.tbl (some t) := by
  have hne : t ≠ c := fun heq => hused (heq ▸ hfree.2)
  have hout : (some t : Option Nat) ≠ some c := fun heq => hne (Option.some_inj.mp heq)
  have htail (t' : Nat) (ht' : some t = some t') : m.geo.IsCluster t' ∧ v.tbl 0 t' ≠ 0 :=
    Option.some_inj.mp ht' ▸ ⟨ht, hused⟩
  refine Triple.ite (fun hyes => ?_) fun _ => ?_
  · refine Triple.of_forall fun vol₀ hat₀ => Triple.pre ?_ fun vol heq =>
      show m.At A rest _ vol from heq ▸ hat₀
    obtain ⟨hentries, hfits⟩ := fits_pair (Medium.at_pos hat₀) ht hfree.1 (hshare hyes)
    have hdesc : ((ClusterGroup.new c).add c).Descending := by
      rw [ClusterGroup.Descending, single_members]
      exact pairwise_singleton _ c
    have htakes {tbl' : Nat → Nat → Nat} (hlinked : Relinks m v.tbl tbl' [t, c]) :
      Takes m v.tbl (some t) [c] (tbl' 0) :=
      takes_of_relinks (fun x hx => mem_singleton.mp hx ▸ hfree) (nodup_singleton c) htail
        (cons_ne_nil _ _) hlinked
    refine (mends_patch h (some m.geo.kind.endOfChain)
      (by rw [single_members]; exact cons_ne_nil _ _) hdesc hentries
      hfits).weaken (fun _ _ hvol => hvol.mono fun u hu => ?_) fun _ _ hvol =>
        hvol.2.mono fun u hu => hu.mono fun u hu => ?_
    · refine ⟨hu.1, [c], _, htakes ?_, hu.2.1.trans hheld, .inr ⟨.inl rfl, .inl rfl⟩⟩
      rw [hu.2.2]
      exact relinks_pair hfree.1 hne
    · have hkept : u.held = some ⟨c, 0⟩ := hu.1.trans hheld
      rcases hu.2 with hactive | hactive
      · refine ⟨[], _, ?_, hkept, .inr ⟨.inl rfl, .inr ⟨rfl, .inr ⟨hfree.1, ?_⟩⟩⟩⟩
        · rw [hactive]
          exact .none _
        · rw [hactive, hfree.2]
      · refine ⟨[c], _, ?_, hkept, .inr ⟨.inl rfl, .inl rfl⟩⟩
        rw [hactive]
        exact htakes (relinks_pair hfree.1 hne)
  · refine Triple.bind (left_set h hfree hout hheld) fun _ => Medium.is_intro fun u hu => ?_
    obtain ⟨⟨hsynced, hkept⟩, htbl⟩ := hu
    have hfirst := takes_single hfree hout
    rw [← htbl] at hfirst
    have hlinked := hfirst.link rfl ht hused rfl
    have hactive : overlaid m.geo.copies [t] (fun _ => c &&& m.geo.kind.mask) u.tbl 0 =
        Function.update (u.tbl 0) t c := by
      rw [Medium.cluster_and_mask hfree.1]
      exact overlaid_single (Geometry.copies_pos m.valid)
    refine (mends_set hsynced t c).weaken
      (fun _ _ hvol => hvol.2.mono fun w hw => ?_) fun _ _ hvol =>
      (hvol.resolve_left fun hno => hno.1 ht).2.2.mono fun w hw => hw.mono fun w hw => ?_
    · refine ⟨hw.1, [c], _, ?_, hw.2.1.trans hkept, .inr ⟨.inl rfl, .inl rfl⟩⟩
      rw [hw.2.2, hactive]
      exact hlinked
    · refine ⟨[c], _, ?_, hw.1.trans hkept, .inr ⟨.inl rfl, .inl rfl⟩⟩
      rcases hw.2 with hw | hw
      · rw [hw]
        exact hfirst
      · rw [hw, hactive]
        exact hlinked

/-- The reads before an allocation after a tail: it goes on only for a tail that ends its
chain. -/
theorem left_checkTail (h : Synced m old v) (hheld : v.held = some Held.none) {t : Nat}
    {f : Prog Vol Stop Nat}
    {refuses : Option Held → Prop} [DecidablePred refuses]
    (hf : m.geo.IsCluster t → v.tbl 0 t ≠ 0 → Triple (m.At A rest v) f
      (fun _ => Finished m A rest old v.tbl (some t)) fun _ =>
        Interrupted m A rest old v.tbl (some t)) :
    Triple (m.At A rest v) (do
      let held ← Prog.gets fun vol : Vol => vol.held
      if refuses held then Prog.fail (.ofKind .invalidInput)
      else do
        match ← reading fun fat => fat.next t with
        | some _ => Prog.fail (.ofKind .invalidInput)
        | .none => f) (fun _ => Finished m A rest old v.tbl (some t)) fun _ =>
          Interrupted m A rest old v.tbl (some t) := by
  refine Triple.bind (Q := fun _ => m.At A rest v) (Triple.gets fun _ hat => hat) fun held => ?_
  refine Triple.ite (fun _ => Triple.fail fun _ hat => interrupted_none h hheld hat) fun _ => ?_
  refine Triple.bind ((at_reading fun fat hgeo => Fat.shown_next hgeo t).weaken
    (fun _ _ hvol => hvol) fun _ _ hvol =>
    interrupted_none h hheld hvol.2) fun next => Triple.assume fun hnext => ?_
  cases next with
  | some _ => exact Triple.fail fun _ hat => interrupted_none h hheld hat
  | none => exact hf hnext.1 (Medium.ne_zero_of_link hnext.2)

theorem left_allocateAfter (h : Synced m old v) (hheld : v.held = some Held.none) (t : Nat) :
    Triple (m.At A rest v) (allocateAfter t) (fun _ => Finished m A rest old v.tbl (some t))
      fun _ => Interrupted m A rest old v.tbl (some t) := by
  refine left_checkTail h hheld fun ht hused => ?_
  refine Triple.bind (left_findFree h hheld) fun c => Triple.assume fun hfree => ?_
  refine Triple.bind (Medium.at_setHeld _) fun _ => Medium.at_getState fun dirty info =>
    Medium.at_size fun hbs => ?_
  intro vol hat
  have hmarked : (v.fat.marked dirty info).geo = m.geo := hat.geo
  have hkept : (v.holding fun held => { held with head := c }).held = some ⟨c, 0⟩ := by
    rw [View.holding, hheld]
    rfl
  have hshare : (v.fat.marked dirty info).sameFatBlock m.blockSize t c = true → m.SameBlock t c :=
    (Medium.sameFatBlock_iff hmarked hbs).mp
  have hlink : Triple (m.At A rest _) _ _ _ :=
    left_linkAfter (h.holding _) ht hused hfree hkept hshare
  rw [← hmarked] at hlink
  refine Triple.bind (Q := fun _ => Finished m A rest old v.tbl (some t)) (hmarked ▸ hlink)
    (fun _ => ?_) vol hat
  exact Triple.bind (is_setNextFree finished_searched c) fun _ =>
    Triple.bind is_setInfoDirty fun _ => Triple.pure fun _ h => h

theorem left_linkTail {from_ last left head : Nat} {linked : Bool} (hfrom : from_ < total m)
    (hlast : last < total m)
    (htail : ∀ t, tail = some t → m.geo.IsCluster t ∧ tbl 0 t ≠ 0)
    (hsome : frees m tbl from_ 0 (last + 1) ≠ [])
    (h : Going m old tbl from_ last tail 0 left head linked v) :
    Triple (m.At A rest v) (Prog.whenSome (tail.filter fun _ => !linked) fun t => set t head)
      (fun _ => Finished m A rest old tbl tail) fun _ => Interrupted m A rest old tbl tail := by
  cases hdone : tail.filter fun _ => !linked with
  | none => exact Triple.pure fun _ hat => ⟨v, ⟨h.synced, h.left_ hfrom hlast htail hsome⟩, hat⟩
  | some t =>
    have ht := (Option.filter_eq_some_iff.mp hdone).1
    obtain ⟨hcluster, hused⟩ := htail t ht
    have htakes := h.linking.takes hfrom hlast htail hsome
    have hhead := h.linking.head?.resolve_right fun hnil => hsome (by simpa using hnil.1)
    have hlinked := htakes.link ht hcluster hused hhead
    have hnames {active : Nat → Nat} : Names m _ active _ :=
      h.linking.names hfrom hlast (.inl rfl)
    have hactive : overlaid m.geo.copies [t] (fun _ => head &&& m.geo.kind.mask) v.tbl 0 =
        Function.update (v.tbl 0) t head := by
      rw [h.linking.head_masked hfrom hlast]
      exact overlaid_single (Geometry.copies_pos m.valid)
    refine (mends_set h.synced t head).weaken
      (fun _ _ hvol => hvol.2.mono fun u hu => ⟨hu.1, _, _, ?_, hu.2.1.trans h.held,
      hnames⟩) fun _ _ hvol => (hvol.resolve_left fun hno => hno.1 hcluster).2.2.mono fun u hu =>
        hu.mono fun u hu =>
        ⟨_, _, ?_, hu.1.trans h.held, hnames⟩
    · rw [hu.2.2, hactive]
      exact hlinked
    · rcases hu.2 with hu | hu
      · rw [hu]
        exact htakes
      · rw [hu, hactive]
        exact hlinked

theorem left_allocateRunInner (h : Synced m old v) (hheld : v.held = some Held.none) (count : Nat)
    (htail : ∀ t, tail = some t → m.geo.IsCluster t ∧ v.tbl 0 t ≠ 0 ∧ 1 < count) :
    Triple (m.At A rest v) (allocateRunInner count tail)
      (fun _ => Finished m A rest old v.tbl tail)
      fun _ => Interrupted m A rest old v.tbl tail := by
  refine Triple.ite (fun hfew => ?_) fun hmany => ?_
  · obtain rfl : tail = none := by
      cases tail with
      | none => rfl
      | some t => exact absurd (htail t rfl).2.2 (not_lt.mpr hfew)
    refine Triple.bind (Q := fun _ => Finished m A rest old v.tbl none)
      (Triple.ite (fun _ => Triple.pure fun _ hat =>
      ⟨v, ⟨h, .none hheld none⟩, hat⟩) fun _ => left_allocate h hheld) fun first => ?_
    exact Triple.bind (Triple.pure fun _ h => h) fun _ => Triple.pure fun _ h => h
  intro vol hat
  have hlt := hint_lt (v := v) hat.geo
  refine Medium.at_getState (fun dirty info => ?_) vol hat
  have hmarked : (v.fat.marked dirty info).geo = m.geo := hat.geo
  refine Triple.ite (fun _ => Triple.fail fun _ hat => interrupted_none h hheld hat) fun _ => ?_
  rw [hmarked, total_eq]
  refine Triple.bind (Q := fun r vol => Scanned m v.tbl v.hint count 0 (total m) 0 r ∧
    m.At A rest v vol)
    ((Medium.at_reads
      (shown_scanFree hmarked hlt (total m) 0 0 (Nat.zero_add _).le (by omega))).weaken
      (fun _ _ hvol => hvol) fun _ _ hvol => interrupted_none h hheld hvol.2) fun r =>
        Triple.assume fun hscan => ?_
  rcases r with ⟨found, _ | last⟩
  · exact (at_counted found not_not.mp).weaken (fun _ _ hvol => hvol) fun _ _ hvol =>
      interrupted_counted h hheld found hvol.2
  · rw [Scanned, Nat.zero_add, Nat.zero_add, Nat.sub_zero] at hscan
    obtain ⟨-, hlast, -, hcount⟩ := hscan
    have hused (t : Nat) (ht : tail = some t) : m.geo.IsCluster t ∧ v.tbl 0 t ≠ 0 :=
      ⟨(htail t ht).1, (htail t ht).2.1⟩
    have hsome : frees m v.tbl v.hint 0 (last + 1) ≠ [] := by
      rintro hnil
      rw [hnil, length_nil] at hcount
      omega
    have hstart : Going m old v.tbl v.hint last tail
        (last + 1) count m.geo.kind.endOfChain false v := by
      refine ⟨⟨h.idle, le_rfl, hcount.symm, ?_, ?_, fun hyes => absurd hyes Bool.false_ne_true⟩,
        h, ?_⟩
      · rw [Nat.sub_self]
        rfl
      · rw [Nat.sub_self]
        exact ⟨fun _ _ => .singleton _, fun _ _ _ _ => rfl⟩
      · rw [hheld, if_pos rfl]
        rfl
    refine Triple.bind (going_linkGroups hlt hlast hused hsome hstart (last + 1) le_rfl)
      fun r => ?_
    refine Triple.bind (Q := fun _ => Finished m A rest old v.tbl tail)
      (Medium.is_intro fun u hu => ?_) fun _ =>
      Triple.bind (is_setNextFree finished_searched _) fun _ => Triple.pure fun _ h => h
    obtain ⟨left, hgoing⟩ := hu
    exact left_linkTail hlt hlast hused hsome hgoing

theorem left_allocateRunAfter (h : Synced m old v) (hheld : v.held = some Held.none)
    (t count : Nat) :
    Triple (m.At A rest v) (allocateRunAfter t count)
      (fun _ => Finished m A rest old v.tbl (some t))
      fun _ => Interrupted m A rest old v.tbl (some t) := by
  refine Triple.ite (fun _ => left_allocateAfter h hheld t) fun hone => ?_
  by_cases hzero : count = 0
  · refine Triple.bind (Q := fun _ => m.At A rest v) (Triple.gets fun _ hat => hat) fun held => ?_
    exact Triple.ite (fun _ => Triple.fail fun _ hat => interrupted_none h hheld hat) fun hnot =>
      absurd (.inl hzero) hnot
  · refine left_checkTail h hheld fun ht hused =>
      left_allocateRunInner h hheld count fun t' ht' => ?_
    obtain rfl := Option.some_inj.mp ht'
    exact ⟨ht, hused, by omega⟩

end Vol

end Hadris
