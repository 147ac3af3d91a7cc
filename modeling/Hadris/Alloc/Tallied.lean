import Hadris.Alloc.Link
import Hadris.Alloc.Store

namespace Hadris

/-- The free clusters counted, if any are, are `count`. -/
def Fat.Counts (fat : Fat) (count : Nat) : Prop := ∀ n, fat.free = some n → n = count

theorem Fat.Counts.adjust {fat : Fat} {a b freed taken : Nat} (h : fat.Counts a)
    (hle : b ≤ fat.geo.maxCluster - 1)
    (hcount : b + taken = a + freed) : (fat.adjustFree freed taken).Counts b := by
  intro n hn
  rw [Fat.adjustFree] at hn
  dsimp only at hn
  rcases hfree : fat.free with _ | k
  · rw [hfree] at hn
    cases hn
  · obtain rfl := h k hfree
    rw [hfree, Option.bind_some, if_neg (by omega), Option.map_some, Option.some.injEq] at hn
    omega

namespace View

variable {m : Medium} {ok : Prop} {v v' : View} {c value i : Nat}

/-- The active entries as far as being free goes: one left to be completed counts as it
was before. -/
def active (v : View) : Nat → Nat :=
  match v.fat.split with
  | some (c, _, free) => Function.update (v.tbl 0) c (if free then 0 else 1)
  | none => v.tbl 0

/-- The free clusters are counted right, if that is `ok`, or not counted. -/
structure Tallied (m : Medium) (ok : Prop) (v : View) : Prop where
  geo : v.fat.geo = m.geo
  tracked : v.fat.Tracked m
  masked : ∀ c, m.geo.IsCluster c → v.tbl 0 c &&& m.geo.kind.mask = v.tbl 0 c
  free : ok → v.fat.Counts (m.geo.freeCount v.active)

/-- The entry left to be completed is free where it was. -/
def Intact (v : View) : Prop :=
  ∀ c value free, v.fat.split = some (c, value, free) → (free = true ↔ v.tbl 0 c = 0)

/-- The free clusters counted are those of the active FAT copy. -/
structure Exact (m : Medium) (ok : Prop) (v : View) : Prop extends Tallied m ok v where
  intact : ok → v.Intact

theorem active_of_none (h : v.fat.split = none) : v.active = v.tbl 0 := by rw [active, h]

theorem active_of_ne (h : ∀ c' value free, v.fat.split = some (c', value, free) → c' = c)
    {x : Nat} (hx : x ≠ c) :
    v.active x = v.tbl 0 x := by
  rcases hs : v.fat.split with _ | ⟨c', value, free⟩
  · rw [active_of_none hs]
  · obtain rfl := h c' value free hs
    rw [active, hs]
    exact Function.update_of_ne hx _ _

theorem freeCount_active (h : v.Intact) :
    m.geo.freeCount v.active = m.geo.freeCount (v.tbl 0) := by
  rw [active]
  split
  · rename_i c value free hsplit
    refine Geometry.freeCount_congr fun x _ => ?_
    by_cases hx : x = c
    · subst hx
      have hfree := h x value free hsplit
      rw [Function.update_self]
      cases free
      · simpa using hfree
      · simpa using hfree
    · rw [Function.update_of_ne hx]
  · rfl

theorem Tallied.congr (h : Tallied m ok v) (hfat : v'.fat = v.fat) (htbl : v'.tbl 0 = v.tbl 0) :
    Tallied m ok v' where
  geo := hfat ▸ h.geo
  tracked := hfat ▸ h.tracked
  masked := htbl ▸ h.masked
  free := by
    rw [active, hfat, htbl, ← active]
    exact h.free

theorem Tallied.exact_of_none (h : Tallied m ok v) (hsplit : v.fat.split = none) :
    Exact m ok v where
  toTallied := h
  intact := fun _ c value free hs =>
    absurd hs (by rw [hsplit]; exact (Option.some_ne_none _).symm)

theorem Tallied.unmirrored (h : Tallied m ok v) {range : Option (Nat × Nat)}
    (hrange : ∀ first last, range = some (first, last) → firstDataCluster ≤ first) :
    Tallied m ok { v with fat := { v.fat with unmirrored := range } } where
  geo := h.geo
  tracked := ⟨h.tracked.split, hrange⟩
  masked := h.masked
  free := h.free

theorem wasFree_iff (hgeo : v.fat.geo = m.geo)
    (hmasked : v.tbl 0 c &&& m.geo.kind.mask = v.tbl 0 c) :
    v.fat.wasFree c (v.tbl 0 c) = true ↔ v.active c = 0 := by
  rw [Fat.wasFree, active, hgeo, hmasked]
  rcases v.fat.split with _ | ⟨c', value, free⟩
  · exact beq_iff_eq
  · dsimp only
    by_cases hc : c' = c
    · rw [if_pos hc, hc, Function.update_self]
      cases free <;> simp
    · rw [if_neg hc, Function.update_of_ne (Ne.symm hc)]
      exact beq_iff_eq

theorem put_free (m : Medium) (c value : Nat) (v : View) : (v.put m 0 c value).fat.free =
    (if v.fat.wasFree c (v.tbl 0 c) ≠ (value &&& m.geo.kind.mask == 0) then
      if (value &&& m.geo.kind.mask == 0) = true then v.fat.adjustFree 1 0
        else v.fat.adjustFree 0 1 else v.fat).free := by
  have hpending : (v.pending m 0 c value).free = v.fat.free ∧
      (v.pending m 0 c value).geo = v.fat.geo := by
    rw [pending]
    split <;> exact ⟨rfl, rfl⟩
  have hadjust (freed taken : Nat) : ((v.pending m 0 c value).adjustFree freed taken).free =
      (v.fat.adjustFree freed taken).free := by
    rw [Fat.adjustFree, Fat.adjustFree, hpending.1, hpending.2]
  rw [put_fat, written]
  simp only [true_and]
  split <;> split <;> (try split) <;> simp only [hadjust, hpending.1]

theorem Tallied.put (h : Tallied m ok v) (hc : m.geo.IsCluster c)
    (hpending : ∀ c' value free, v.fat.split = some (c', value, free) → c' = c) (value : Nat) :
    Tallied m ok (v.put m 0 c value) ∧ (v.put m 0 c value).fat.split = none := by
  have hsplit : (v.put m 0 c value).fat.split = none := by
    rw [put_fat, written_split]
    split
    · rfl
    · rename_i hwhole
      rcases hs : v.fat.split with _ | ⟨c', value', free⟩
      · rfl
      · obtain rfl := hpending c' value' free hs
        exact absurd ⟨rfl, (h.tracked.split _ _ _ hs).2⟩ hwhole
  have hactive : (v.put m 0 c value).active = Function.update v.active c
      (value &&& m.geo.kind.mask) := by
    rw [active_of_none hsplit, put_tbl, Geometry.stored, Function.update_self, active]
    split
    · rename_i c' value' free hs
      obtain rfl := hpending c' value' free hs
      rw [Function.update_idem]
    · rfl
  refine ⟨⟨written_geo.trans h.geo, ⟨fun c' value' free hs => ?_, fun first last hr => ?_⟩,
    fun x hx => ?_, fun hok => ?_⟩, hsplit⟩
  · rw [hsplit] at hs
    cases hs
  · rw [put_fat, written_unmirrored] at hr
    split at hr
    · cases hr
      exact hc.1
    · exact h.tracked.range _ _ hr
  · by_cases hxc : x = c
    · rw [hxc, put_tbl, Geometry.stored_self, Nat.and_assoc, Nat.and_self]
    · rw [put_tbl, Geometry.stored_of_ne (.inr hxc), h.masked x hx]
  · have hcount := Geometry.freeCount_update hc v.active (value &&& m.geo.kind.mask)
    have hle : m.geo.freeCount (Function.update v.active c (value &&& m.geo.kind.mask)) ≤
        v.fat.geo.maxCluster - 1 := by
      rw [h.geo]
      exact Geometry.freeCount_le _
    have hwas := wasFree_iff h.geo (h.masked c hc)
    have hfree := h.free hok
    rw [hactive, Fat.Counts, put_free, ← Fat.Counts]
    by_cases hvalue : value &&& m.geo.kind.mask = 0
    · rw [if_pos hvalue] at hcount
      simp only [hvalue, beq_self_eq_true, if_true] at hcount hle ⊢
      split
      · rename_i hne
        rw [Ne, hwas] at hne
        rw [if_neg hne] at hcount
        exact hfree.adjust hle (by omega)
      · rename_i heq
        rw [not_not, hwas] at heq
        rw [if_pos heq] at hcount
        rwa [Nat.add_right_cancel hcount]
    · rw [if_neg hvalue] at hcount
      have hbeq : (value &&& m.geo.kind.mask == 0) = false := beq_false_of_ne hvalue
      simp only [hbeq, Bool.false_eq_true, if_false]
      split
      · rename_i hne
        rw [Ne, Bool.not_eq_false, hwas] at hne
        rw [if_pos hne] at hcount
        exact hfree.adjust hle (by omega)
      · rename_i heq
        rw [not_not, ← Bool.not_eq_true, hwas] at heq
        rw [if_neg heq] at hcount
        rwa [Nat.add_right_cancel hcount]

theorem Tallied.settled (h : Tallied m ok v) : Tallied m ok (v.settled m) := by
  rw [View.settled]
  split
  · rename_i c value free hsplit
    refine (h.put (h.tracked.split c value free hsplit).1 (fun c' value' free' hs => ?_) value).1
    rw [hsplit] at hs
    cases hs
    rfl
  · exact h

theorem Tallied.mirrored (h : Tallied m ok v) : Tallied m ok (v.mirrored m) := by
  rw [View.mirrored]
  split
  · rename_i first last _
    have hcopied : Tallied m ok
      { v with tbl := Medium.copied m.geo.copies first (min last m.geo.maxCluster) v.tbl } :=
      h.congr rfl (Medium.copied_active _ _ _ _)
    refine hcopied.unmirrored fun _ _ hr => ?_
    cases hr
  · exact h

theorem mirrored_split (v : View) : (v.mirrored m).fat.split = v.fat.split := by
  rw [View.mirrored]
  split <;> rfl

theorem Tallied.upToDate (h : Tallied m ok v) (due : Bool) : Tallied m ok (v.upToDate m due) := by
  rw [View.upToDate]
  split
  · exact h.settled.mirrored
  · exact h

theorem Tallied.recorded (h : Tallied m ok v) {range : Nat × Nat}
    (hrange : firstDataCluster ≤ range.1) :
    Tallied m ok (v.recorded m range) := by
  rw [View.recorded]
  split
  · exact h.unmirrored fun first last hr => by
      cases hr
      exact hrange
  · exact h

theorem Tallied.readyFor (h : Tallied m ok v) (hc : m.geo.IsCluster c) :
    Tallied m ok (v.readyFor m c) ∧ (v.readyFor m c).fat.split = none := by
  refine ⟨(h.upToDate _).recorded hc.1, ?_⟩
  rw [View.readyFor, recorded_split, View.upToDate]
  split
  · rw [mirrored_split, Vol.settled_split h.tracked]
  · rename_i hdue
    exact split_of_not_due hdue

theorem Tallied.forgotten (h : Tallied m ok v) : Tallied m ok v.forgotten :=
  h.unmirrored fun _ _ hr => absurd hr (Option.some_ne_none _).symm

theorem Tallied.puts (h : Tallied m ok v) (hc : m.geo.IsCluster c) (hsplit : v.fat.split = none)
    (value i : Nat) :
    Tallied m ok (v.puts m c value i) ∧ (v.puts m c value i).fat.split = none := by
  rw [View.puts]
  split
  · exact ⟨h, hsplit⟩
  · rename_i hi
    have hput :=
      h.put hc (fun c' value' free hs =>
        absurd hs (by rw [hsplit]; exact (Option.some_ne_none _).symm)) value
    refine ⟨hput.1.congr rfl ?_, hput.2⟩
    funext x
    dsimp only
    by_cases hx : x = c
    · rw [hx, put_tbl, Geometry.stored_self, overlaid_mem (Nat.pos_of_ne_zero hi)
        (List.mem_singleton_self c)]
    · rw [put_tbl, Geometry.stored_of_ne (.inr hx),
        overlaid_not_mem (by rwa [List.mem_singleton])]

theorem settled_whole (h : v.fat.Tracked m) (hwhole : m.Whole 0 c) :
    (v.settled m).tbl 0 c = v.tbl 0 c := by
  rw [View.settled]
  split
  · rename_i c' value free hsplit
    have hne : c ≠ c' := fun heq => (h.split c' value free hsplit).2 (heq ▸ hwhole)
    rw [put_tbl, Geometry.stored_of_ne (.inr hne)]
  · rfl

theorem Exact.readyForRange (h : Exact m ok v) {range : Nat × Nat}
    (hrange : firstDataCluster ≤ range.1) :
    Exact m ok (v.readyForRange m range) := by
  rw [View.readyForRange]
  split
  · refine ⟨(h.upToDate _).recorded hrange, fun hok c value free hs => ?_⟩
    rw [recorded_tbl]
    rw [recorded_split] at hs
    rw [View.upToDate] at hs ⊢
    split at hs
    · rw [mirrored_split, Vol.settled_split h.tracked] at hs
      cases hs
    · rename_i hdue
      rw [if_neg hdue]
      exact h.intact hok c value free hs
  · exact h

theorem readyForRange_whole (h : v.fat.Tracked m) (hwhole : m.Whole 0 c) (range : Nat × Nat) :
    (v.readyForRange m range).tbl 0 c = v.tbl 0 c := by
  rw [View.readyForRange]
  split
  · rw [recorded_tbl, View.upToDate]
    split
    · rw [mirrored_active, settled_whole h hwhole]
    · rfl
  · rfl

theorem groupValue_tail {group : ClusterGroup} (hlowest : m.geo.IsCluster group.lowest)
    (chain : Option Nat) (t : Nat) :
    groupValue m group chain (some t) t ≠ 0 := by
  rw [groupValue, if_pos (by simp), FatKind.cluster_and_mask m.valid.maxCluster.2 hlowest.2]
  have := hlowest.1
  rw [firstDataCluster] at this
  omega

/-- A group is stored that fits in one block, with a tail that is not free: what that
takes and frees is counted. -/
theorem Exact.patches (h : Exact m ok v) (hbs : 0 < m.blockSize) {group : ClusterGroup}
    {chain tail : Option Nat}
    (hlowest : m.geo.IsCluster group.lowest)
    (htail : ∀ t, tail = some t → t ∉ group.members ∧ v.tbl 0 t ≠ 0)
    (hfits : Fat.Fits m group tail 0) {taken freed : Nat}
    (hcounts : Vol.Counts m group chain v taken freed) (hi : i ≠ 0) :
    Exact m ok (v.patches m group chain tail taken freed i) := by
  have hpos : 0 < i := Nat.pos_of_ne_zero hi
  have hsplit := patches_split m group chain tail taken freed i v
  have htbl (c : Nat) : (v.patches m group chain tail taken freed i).tbl 0 c =
      if c ∈ Fat.groupEntries group tail then groupValue m group chain tail c else v.tbl 0 c := by
    rw [patches_tbl]
    split
    · rename_i hc
      exact overlaid_mem hpos hc
    · rename_i hc
      exact overlaid_not_mem hc 0
  have hintact : ok → (v.patches m group chain tail taken freed i).Intact := by
    intro hok c value free hs
    rw [hsplit] at hs
    have hout : c ∉ Fat.groupEntries group tail := fun hc =>
      (h.tracked.split c value free hs).2 (Medium.Fits.whole hbs hfits hc)
    rw [htbl, if_neg hout]
    exact h.intact hok c value free hs
  -- linking the tail to the group does not change what is free
  have hfree : m.geo.freeCount ((v.patches m group chain tail taken freed i).tbl 0) =
      m.geo.freeCount (Fat.groupMembers m.geo 0 group chain v.tbl 0) := by
    refine Geometry.freeCount_congr fun c hc => ?_
    rw [htbl, Fat.groupMembers, storedAll_self, Fat.groupEntries]
    cases tail with
    | none =>
      rw [Option.toList_none, List.append_nil, groupValue, Option.toList_none,
        if_neg List.not_mem_nil]
    | some t =>
      obtain ⟨hout, hzero⟩ := htail t rfl
      by_cases hct : c = t
      · subst hct
        rw [if_pos (by simp), if_neg hout]
        exact iff_of_false (groupValue_tail hlowest chain c) hzero
      · have hmem : c ∈ group.members ++ (some t).toList ↔ c ∈ group.members := by simp [hct]
        have hvalue : groupValue m group chain (some t) c =
            valueOf chain.isSome group.members (chain.getD 0) c &&& m.geo.kind.mask := by
          rw [groupValue, if_neg (by simp [hct])]
        rw [hvalue]
        simp only [hmem]
  have hcount : m.geo.freeCount ((v.patches m group chain tail taken freed i).tbl 0) + taken =
      m.geo.freeCount (v.tbl 0) + freed := hfree ▸ hcounts
  have hle : m.geo.freeCount ((v.patches m group chain tail taken freed i).tbl 0) ≤
      v.fat.geo.maxCluster - 1 := by
    rw [h.geo]
    exact Geometry.freeCount_le _
  have hfat : (v.patches m group chain tail taken freed i).fat =
      if taken ≠ freed then v.fat.adjustFree freed taken
        else v.fat := by rw [View.patches, if_neg hi]
  refine ⟨⟨?_, ⟨?_, ?_⟩, fun c hc => ?_, fun hok => ?_⟩, hintact⟩
  · rw [hfat]
    split <;> exact h.geo
  · rw [hsplit]
    exact h.tracked.split
  · rw [patches_unmirrored]
    exact h.tracked.range
  · rw [htbl]
    split
    · rw [groupValue, Nat.and_assoc, Nat.and_self]
    · exact h.masked c hc
  · have hbefore := h.free hok
    rw [freeCount_active (h.intact hok)] at hbefore
    rw [freeCount_active (hintact hok), hfat]
    split
    · exact hbefore.adjust hle hcount
    · rename_i heq
      rw [not_not] at heq
      rwa [show m.geo.freeCount ((v.patches m group chain tail taken freed i).tbl 0) =
        m.geo.freeCount (v.tbl 0) by omega]

end View

namespace Vol

open Borrow (getState onIo reading setState setHeld)
open Device (Faulty Lands)
open Medium (Is)
open Prog (Triple)
open View (Tallied Exact)

variable {m : Medium} {A : Outcome Stop → Prop} {rest : Nat → UInt8} {ok : Prop} {v : View}
  {vol : Vol} {α : Type}

theorem Unput.tallied (hno : ¬ Lands A) {c value i : Nat} (h : Unput m A rest i c value v vol)
    (hv : Tallied m ok v)
    (hc : m.geo.IsCluster c)
    (hpending : ∀ c' value free, v.fat.split = some (c', value, free) → c' = c) :
    m.Is A rest (Tallied m ok) vol := by
  rcases h with hat | ⟨w, hw, hat⟩
  · exact ⟨v, hv, hat⟩
  by_cases hi : i = 0
  swap
  · refine ⟨_, hv.congr ?_ ?_, hat⟩
    · exact pending_mirror hi c value
    · exact funext fun x => Geometry.stored_of_ne (.inl (Ne.symm hi)) _ _
  subst hi
  by_cases hwhole : m.Whole 0 c
  · obtain rfl := (hw hwhole).resolve_right fun h => hno h.2
    rw [stored_same, View.pending, if_neg fun h => h.2 hwhole] at hat
    exact ⟨v, hv, hat⟩
  · have hmasked (x : Nat) (hx : m.geo.IsCluster x) :=
      at_masked hat (Geometry.copies_pos m.valid) hx
    refine ⟨_, ⟨View.pending_geo.trans hv.geo,
      ⟨fun c' value' free hs => ?_, fun first last hr => ?_⟩, hmasked, fun hok => ?_⟩, hat⟩
    · rw [View.pending, if_pos ⟨rfl, hwhole⟩] at hs
      cases hs
      exact ⟨hc, hwhole⟩
    · rw [View.pending, if_pos ⟨rfl, hwhole⟩] at hr
      cases hr
      exact hc.1
    · have hcount : m.geo.freeCount (View.active { v with
          tbl := Geometry.stored 0 c w v.tbl
          fat := v.pending m 0 c value }) = m.geo.freeCount v.active := by
        refine Geometry.freeCount_congr fun x hx => ?_
        have hwas := View.wasFree_iff hv.geo (hv.masked c hc)
        rw [View.active, View.pending, if_pos ⟨rfl, hwhole⟩]
        dsimp only
        by_cases hxc : x = c
        · rw [hxc, Function.update_self]
          cases hfree : v.fat.wasFree c (v.tbl 0 c)
          · rw [hfree] at hwas
            simpa using hwas
          · rw [hfree] at hwas
            simpa using hwas
        · rw [Function.update_of_ne hxc, Geometry.stored_of_ne (.inr hxc),
            View.active_of_ne hpending hxc]
      rw [hcount]
      intro n hn
      rw [View.pending, if_pos ⟨rfl, hwhole⟩] at hn
      exact hv.free hok n hn

theorem Unmirrored.tallied (hno : ¬ Lands A) (h : Unmirrored m A rest v vol)
    (hv : Tallied m ok v) :
    m.Is A rest (Tallied m ok) vol := by
  rcases h with ⟨c, value, free, hsplit, hunput⟩ | h
  · refine hunput.tallied hno hv (hv.tracked.split _ _ _ hsplit).1 fun c' value' free' hs => ?_
    rw [hsplit] at hs
    cases hs
    rfl
  · exact h.mono fun v' hv' => hv.settled.congr hv'.fat hv'.active

theorem tallied_mirror (hno : ¬ Lands A) (hv : Tallied m ok v) : Triple (m.At A rest v) mirror
    (fun _ => m.Is A rest (Exact m ok)) fun _ => m.Is A rest (Tallied m ok) :=
  (at_mirror hv.tracked).weaken (fun _ _ hat => ⟨_, hv.settled.mirrored.exact_of_none
    ((View.mirrored_split _).trans (settled_split hv.tracked)),
      hat⟩) fun _ _ h => h.2.tallied hno hv

theorem tallied_set (hno : ¬ Lands A) (hv : Tallied m ok v) (c value : Nat) :
    Triple (m.At A rest v) (set c value)
    (fun _ => m.Is A rest fun v' => Exact m ok v' ∧
      v'.tbl 0 = Function.update ((v.settled m).tbl 0) c (value &&& m.geo.kind.mask))
    fun _ => m.Is A rest (Tallied m ok) := by
  refine (at_set hv.tracked c value).weaken (fun _ _ h => ?_) fun _ _ h => ?_
  · obtain ⟨hc, hat⟩ := h
    obtain ⟨hready, hsplit⟩ := hv.readyFor hc
    obtain ⟨hputs, hnone⟩ := hready.puts hc hsplit value m.geo.copies
    exact ⟨_, ⟨hputs.forgotten.exact_of_none hnone, View.set_active m c value v⟩, hat⟩
  · rcases h with ⟨-, hat⟩ | ⟨hc, -, hvol | ⟨i, -, hvol⟩⟩
    · exact ⟨v, hv, hat⟩
    · exact hvol.tallied hno hv
    · obtain ⟨hready, hsplit⟩ := hv.readyFor hc
      obtain ⟨hputs, hnone⟩ := hready.puts hc hsplit value i
      exact hvol.tallied hno hputs hc fun c' value' free hs =>
        absurd hs (by rw [hnone]; exact (Option.some_ne_none _).symm)

/-- After a group is stored what is free is counted as before, and an entry not free
that is in one block is not free yet. -/
theorem tallied_patch (hno : ¬ Lands A) (hv : Exact m ok v) {group : ClusterGroup}
    (chain : Option Nat) {tail : Option Nat}
    (hne : group.members ≠ []) (hmembers : ∀ c ∈ Fat.groupEntries group tail, m.geo.IsCluster c)
    (htail : ∀ t, tail = some t → t ∉ group.members ∧ m.Whole 0 t ∧ v.tbl 0 t ≠ 0) :
    Triple (m.At A rest v) (patch group chain tail)
      (fun _ => m.Is A rest fun v' => Exact m ok v' ∧
        ∀ t, t ∉ group.members → m.Whole 0 t → v.tbl 0 t ≠ 0 → v'.tbl 0 t ≠ 0)
      fun _ => m.Is A rest (Tallied m ok) := by
  refine Triple.of_forall fun vol₀ hat₀ => Triple.pre ?_ fun vol heq =>
    show m.At A rest v vol from heq ▸ hat₀
  have hbs := Medium.at_pos hat₀
  have hlowest : m.geo.IsCluster group.lowest :=
    hmembers _ (List.mem_append_left _ (Fat.lowest_mem hne))
  have hrange : firstDataCluster ≤ (View.rangeOf group tail).1 := by
    rw [View.rangeOf]
    refine le_min hlowest.1 ?_
    cases tail with
    | none => exact hlowest.1
    | some t => exact (hmembers t (by simp [Fat.groupEntries])).1
  have hu := hv.readyForRange hrange
  have hkept (t : Nat) (hwhole : m.Whole 0 t) := View.readyForRange_whole hv.tracked hwhole
    (View.rangeOf group tail)
  have hpatch : Triple (m.At A rest v) (patch group chain tail) _ _ :=
    at_patch hv.tracked chain hne hmembers
  unfold Unstored Torn at hpatch
  generalize v.readyForRange m (View.rangeOf group tail) = u at hu hkept hpatch
  have htail' (t : Nat) (ht : tail = some t) : t ∉ group.members ∧ u.tbl 0 t ≠ 0 := by
    obtain ⟨hout, hwhole, hzero⟩ := htail t ht
    exact ⟨hout, by rwa [hkept t hwhole]⟩
  refine hpatch.weaken (fun _ vol h => ?_) fun _ vol h => ?_
  · obtain ⟨taken, freed, hcounts, hfits, hat⟩ := h
    have hpos := Geometry.copies_pos m.valid
    have hexact := hu.patches hbs hlowest htail' (hfits 0 hpos) hcounts hpos.ne'
    refine ⟨_, ⟨⟨hexact.forgotten, hexact.intact⟩, fun t hout hwhole hzero => ?_⟩, hat⟩
    rw [View.forgotten_tbl, View.patches_tbl, View.overlaid]
    split
    · rename_i hmem
      have ht : tail = some t := by
        rcases List.mem_append.mp hmem.2 with h | h
        · exact absurd h hout
        · exact Option.mem_toList.mp h
      rw [ht]
      exact View.groupValue_tail hlowest chain t
    · rwa [hkept t hwhole]
  · rcases h with ⟨-, hat | h⟩ | ⟨i, -, taken, freed, hcounts, hfits, ⟨-, hat⟩ | ⟨⟨-, hlands⟩, -⟩⟩
    · exact ⟨v, hv.toTallied, hat⟩
    · exact h.tallied hno hv.toTallied
    · by_cases hi : i = 0
      · subst hi
        rw [View.patches, if_pos rfl] at hat
        exact ⟨u, hu.toTallied, hat⟩
      · exact ⟨_, (hu.patches hbs hlowest htail' (hfits 0 (Nat.pos_of_ne_zero hi))
          (hcounts hi) hi).toTallied, hat⟩
    · exact absurd hlands hno

end Vol

end Hadris
