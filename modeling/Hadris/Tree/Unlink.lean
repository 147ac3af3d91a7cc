import Hadris.Tree.Change

namespace Hadris.Tree

open List

variable {t t' : Tree} {cut : List Nat} {i k : Nat} {slot : Slot} {ε : Type}

theorem Consistent.leaf_of_links (ht : t.Consistent cut) (hi : t.live i = some slot)
    (hlinks : 1 < slot.links) (name : List UInt8) : t.child i name = none := by
  rw [child_of_live hi]
  cases hc : slot.children.get name with
  | none => rfl
  | some c =>
    have hsingle := ht.single hi (ht.dir hi hc)
    omega

theorem Consistent.reached_leaf (ht : t.Consistent (i :: cut)) (hi : t.live i = some slot)
    (hlinks : 1 < slot.links) (hk : t.Reached (i :: cut) k) : t.Reached cut k := by
  have hother : ∀ {k}, t.Reached (i :: cut) k → k ≠ i → t.Reached cut k := by
    intro k hk
    induction hk with
    | root => exact fun _ => .root
    | cut hmem => exact fun hne => .cut ((mem_cons.mp hmem).resolve_left hne)
    | @child k n c _ hc ih =>
      refine fun _ => .child (ih ?_) hc
      rintro rfl
      rw [ht.leaf_of_links hi hlinks] at hc
      cases hc
  by_cases hki : k = i
  · subst hki
    have hcount := ht.links hi
    have hroot := (ht.cut_live (i := k) mem_cons_self).1
    rw [count_cons_self, if_neg hroot] at hcount
    by_cases hmem : k ∈ cut
    · exact .cut hmem
    · rw [count_eq_zero.mpr hmem] at hcount
      have hpos : 0 < (t.parents k).card := by omega
      obtain ⟨⟨j, n⟩, hjn⟩ := Finset.card_pos.mp hpos
      have hc := mem_parents.mp hjn
      obtain ⟨s, hs, _⟩ := child_eq_some.mp hc
      refine .child (hother (ht.reached (by rw [hs]; rfl)) ?_) hc
      rintro rfl
      rw [ht.leaf_of_links hi hlinks] at hc
      cases hc
  · exact hother hk hki

theorem Consistent.counted (ht : t.Consistent (i :: cut)) (hi : t.live i = some slot)
    (hlinks : 1 < slot.links)
    (hlive : ∀ k, t'.live k = if k = i then some { slot with links := slot.links - 1 }
      else t.live k) :
    t'.Consistent cut := by
  have hchild : ∀ k n, t'.child k n = t.child k n := by
    intro k n
    rw [Tree.child, hlive]
    split
    · rename_i hk
      rw [hk, child_of_live hi]
      rfl
    · rfl
  have hparents : ∀ k, t'.parents k = t.parents k := by
    intro k
    ext ⟨i, n⟩
    rw [mem_parents, mem_parents, hchild]
  have hkept : Kept t t' := by
    refine ⟨?_, ?_, fun hc => .inl ((hchild _ _).symm.trans hc)⟩
    · intro k s hk
      rw [hlive] at hk
      split at hk
      · rename_i hki
        cases hk
        subst hki
        have hcheck : slot.node.check = .ok () := ht.check hi
        refine ⟨slot, hi, rfl, hcheck, fun hdir => ?_⟩
        have hsingle := ht.single hi hdir
        omega
      · exact ⟨s, hk, rfl, ht.check hk, fun _ => rfl⟩
    · intro k hk
      rw [hlive]
      split
      · rfl
      · exact hk
  refine hkept.consistent ht (fun k hk => ht.cut_live (mem_cons_of_mem _ hk)) ?_ ?_
  · intro k s hk
    rw [hparents]
    rw [hlive] at hk
    split at hk
    · rename_i hki
      cases hk
      subst hki
      have hcount := ht.links hi
      rw [count_cons_self] at hcount
      change slot.links - 1 = _
      omega
    · rename_i hki
      rw [ht.links hk, count_cons_of_ne (Ne.symm hki)]
  · intro k hk
    refine (ht.reached_leaf hi hlinks (ht.reached hk)).mono (fun _ hc => .cut hc) ?_
    exact fun _ _ _ hc hk => .child hk ((hchild _ _).trans hc)

section Freed

/-- `t'` is `t` without the slot at `i`, which lost its last name. -/
structure Freed (t t' : Tree) (i : Nat) (slot : Slot) : Prop where
  gone : t.live i = some slot
  last : slot.links ≤ 1
  live : ∀ k, t'.live k = if k = i then none else t.live k

variable (ht : t.Consistent (i :: cut)) (h : Freed t t' i slot)

include h

theorem Freed.child (k : Nat) (n : List UInt8) :
    t'.child k n = if k = i then none else t.child k n := by
  rw [Tree.child, h.live]
  split <;> rfl

theorem Freed.parents (c : Nat) :
    t'.parents c = (t.parents c).filter fun name => ¬ name.1 = i := by
  ext ⟨k, n⟩
  rw [mem_parents, h.child, Finset.mem_filter, mem_parents]
  split <;> simp_all

theorem Freed.count_values (c : Nat) :
    ((t.parents c).filter fun name => name.1 = i).card = slot.children.values.count c := by
  have himage : ((t.parents c).filter fun name => name.1 = i) =
      ((slot.children.entries.filter fun e => e.2 = c).map fun e => (i, e.1)).toFinset := by
    ext ⟨k, n⟩
    rw [Finset.mem_filter, mem_parents, mem_toFinset, mem_map]
    constructor
    · rintro ⟨hc, hk⟩
      change k = i at hk
      subst hk
      rw [child_of_live h.gone] at hc
      exact ⟨(n, c), mem_filter.mpr ⟨SortedMap.get_eq_some.mp hc, decide_eq_true rfl⟩, rfl⟩
    · rintro ⟨e, he, heq⟩
      obtain ⟨hmem, hec⟩ := mem_filter.mp he
      cases heq
      refine ⟨?_, rfl⟩
      rw [child_of_live h.gone, SortedMap.get_eq_some, ← of_decide_eq_true hec]
      exact hmem
  have hnodup :
      ((slot.children.entries.filter fun e => e.2 = c).map fun e => (i, e.1)).Nodup := by
    have hkeys := (slot.children.keys_nodup).sublist
      ((filter_sublist (p := fun e => decide (e.2 = c))).map Prod.fst)
    have hmap := hkeys.map (f := fun n => (i, n)) (fun a b hab => congrArg Prod.snd hab)
    rwa [map_map] at hmap
  rw [himage, toFinset_card_of_nodup hnodup, length_map, SortedMap.values, count_eq_countP,
    countP_map, countP_eq_length_filter]
  rfl

theorem Freed.live_isSome (hne : k ≠ i) (hk : (t.live k).isSome) : (t'.live k).isSome := by
  rw [h.live, if_neg hne]
  exact hk

include ht

theorem Freed.no_parent (k : Nat) (n : List UInt8) : t.child k n ≠ some i := by
  intro hc
  have hcount := ht.links h.gone
  have hpos := Finset.card_pos.mpr ⟨_, mem_parents.mpr hc⟩
  have hlast := h.last
  rw [count_cons_self] at hcount
  omega

theorem Freed.not_cut : i ∉ cut := by
  intro hmem
  have hcount := ht.links h.gone
  have hpos := count_pos_iff.mpr hmem
  have hlast := h.last
  rw [count_cons_self] at hcount
  omega

theorem Freed.reached (hk : t.Reached (i :: cut) k) (hne : k ≠ i) :
    t'.Reached (slot.children.values.reverse ++ cut) k := by
  induction hk with
  | root => exact .root
  | cut hmem => exact .cut (mem_append_right _ ((mem_cons.mp hmem).resolve_left hne))
  | @child k n c _ hc ih =>
    by_cases hki : k = i
    · subst hki
      rw [child_of_live h.gone] at hc
      exact .cut (mem_append_left _ (mem_reverse.mpr (SortedMap.mem_values.mpr ⟨n, hc⟩)))
    · exact .child (ih hki) ((h.child k n).trans ((if_neg hki).trans hc))

theorem Freed.consistent : t'.Consistent (slot.children.values.reverse ++ cut) where
  root := by
    obtain ⟨root, hroot, hdir⟩ := ht.root
    have hne : Tree.root ≠ i := (ht.cut_live mem_cons_self).1.symm
    exact ⟨root, (h.live _).trans ((if_neg hne).trans hroot), hdir⟩
  dir := by
    intro k s n c hk hc
    rw [h.live] at hk
    split at hk
    · cases hk
    · exact ht.dir hk hc
  child := by
    intro k n c hc
    rw [h.child] at hc
    split at hc
    · cases hc
    · obtain ⟨hn, hc0, hlive⟩ := ht.child hc
      refine ⟨hn, hc0, h.live_isSome ?_ hlive⟩
      rintro rfl
      exact h.no_parent ht _ _ hc
  cut_live := by
    intro k hk
    rcases mem_append.mp hk with hk | hk
    · obtain ⟨n, hn⟩ := SortedMap.mem_values.mp (mem_reverse.mp hk)
      have hc := (child_of_live h.gone n).trans hn
      obtain ⟨_, hc0, hlive⟩ := ht.child hc
      refine ⟨hc0, h.live_isSome ?_ hlive⟩
      rintro rfl
      exact h.no_parent ht _ _ hc
    · refine ⟨(ht.cut_live (mem_cons_of_mem _ hk)).1, h.live_isSome ?_
        (ht.cut_live (mem_cons_of_mem _ hk)).2⟩
      rintro rfl
      exact h.not_cut ht hk
  links := by
    intro k s hk
    rw [h.live] at hk
    split at hk
    · cases hk
    · rename_i hki
      have hsplit := Finset.card_filter_add_card_filter_not (s := t.parents k)
        (fun name => name.1 = i)
      rw [ht.links hk, count_cons_of_ne (Ne.symm hki), count_append, count_reverse,
        ← h.count_values, h.parents]
      omega
  single := by
    intro k s hk hdir
    rw [h.live] at hk
    split at hk
    · cases hk
    · exact ht.single hk hdir
  check := by
    intro k s hk
    rw [h.live] at hk
    split at hk
    · cases hk
    · exact ht.check hk
  reached := by
    intro k hk
    rw [h.live] at hk
    split at hk
    · cases hk
    · rename_i hki
      exact h.reached ht (ht.reached hk) hki

end Freed

theorem sum_set {α : Type} {f : α → Nat} {l : List α} {i : Nat} {a : α}
    (h : l[i]? = some a) (b : α) :
    ((l.set i b).map f).sum + f a = (l.map f).sum + f b := by
  induction l generalizing i with
  | nil => cases h
  | cons first l ih =>
    cases i with
    | zero =>
      cases h
      simp only [set_cons_zero, map_cons, sum_cons]
      omega
    | succ i =>
      have hrest := ih (i := i) h
      simp only [set_cons_succ, map_cons, sum_cons]
      omega

theorem getElem_of_live (h : t.live i = some slot) : t.slots[i]? = some (some slot) := by
  rw [live] at h
  rcases hi : t.slots[i]? with _ | _ | s
  · rw [hi] at h
    cases h
  · rw [hi] at h
    cases h
  · rw [hi] at h
    cases h
    rfl

theorem FreeList.set (hf : t.FreeList) (hi : t.live i = some slot) (slot' : Slot) :
    (t.set i slot').FreeList := by
  refine ⟨hf.nodup, fun k => (hf.mem k).trans ?_⟩
  rw [set_live hi, Tree.set, length_set]
  split
  · rename_i hk
    rw [hk, hi]
    simp
  · rfl

def freed (i : Nat) (t : Tree) : Tree :=
  { t with slots := t.slots.set i none, free := i :: t.free }

theorem freed_live (hi : t.live i = some slot) (k : Nat) :
    (t.freed i).live k = if k = i then none else t.live k := by
  have hlt := live_lt (t := t) (i := i) (by rw [hi]; rfl)
  rw [live, freed, getElem?_set]
  split
  · rename_i hk
    rw [if_pos hk.symm]
    rfl
  · rename_i hk
    rw [if_neg (Ne.symm hk)]
    rfl

theorem FreeList.freed (hf : t.FreeList) (hi : t.live i = some slot) : (t.freed i).FreeList := by
  have hlt := live_lt (t := t) (i := i) (by rw [hi]; rfl)
  refine ⟨nodup_cons.mpr ⟨?_, hf.nodup⟩, ?_⟩
  · rw [hf.mem, hi]
    simp
  · intro k
    rw [freed_live hi]
    change k ∈ i :: t.free ↔ k < (t.slots.set i none).length ∧ _
    rw [mem_cons, hf.mem, length_set]
    split
    · rename_i hk
      simp [hk, hlt]
    · rename_i hk
      simp [hk]

theorem names_set (hi : t.live i = some slot) {slot' : Slot}
    (h : slot'.children = slot.children) :
    (t.set i slot').names = t.names := by
  have hsum := sum_set (f := fun slot : Option Slot => slot.elim 0 (·.children.entries.length))
    (getElem_of_live hi)
    (some slot')
  rw [names, Tree.set]
  simp only [Option.elim_some, h] at hsum
  exact Nat.add_right_cancel hsum

theorem names_freed (hi : t.live i = some slot) :
    (t.freed i).names + slot.children.entries.length = t.names :=
  sum_set (f := fun slot : Option Slot => slot.elim 0 (·.children.entries.length))
    (getElem_of_live hi) none

theorem run_unlinkAll {fuel : Nat} (ht : t.Consistent cut) (hf : t.FreeList)
    (hfuel : cut.length + t.names ≤ fuel) :
    ∃ t', (unlinkAll fuel cut : Prog Tree (Fault ε) Unit).run t = (.ok (), t') ∧
      t'.WellFormed := by
  induction fuel generalizing t cut with
  | zero =>
    have hcut : cut = [] := length_eq_zero_iff.mp (by omega)
    subst hcut
    exact ⟨t, rfl, ht, hf⟩
  | succ fuel ih =>
    cases cut with
    | nil => exact ⟨t, rfl, ht, hf⟩
    | cons i cut =>
      obtain ⟨slot, hi⟩ := Option.isSome_iff_exists.mp (ht.cut_live (i := i) mem_cons_self).2
      have hslot : t.slot (ε := ε) i = .ok slot := by rw [Tree.slot, hi]
      rw [length_cons] at hfuel
      rw [unlinkAll, Prog.run_bind_ok (a := t) (t := t) rfl, hslot,
        Prog.run_bind_ok (a := slot) (t := t) rfl]
      by_cases hlinks : 1 < slot.links
      · rw [if_pos hlinks]
        have hnames : (t.set i { slot with links := slot.links - 1 }).names = t.names :=
          names_set hi rfl
        exact ih (ht.counted hi hlinks (set_live hi _)) (hf.set hi _) (by omega)
      · rw [if_neg hlinks]
        have hnames := names_freed hi
        refine ih (t := t.freed i)
          (Freed.consistent ht ⟨hi, Nat.le_of_not_lt hlinks, freed_live hi⟩) (hf.freed hi) ?_
        rw [length_append, length_reverse, SortedMap.values, length_map]
        omega

theorem run_unlink (ht : t.Consistent [i]) (hf : t.FreeList) :
    ∃ t', (unlink i : Prog Tree (Fault ε) Unit).run t = (.ok (), t') ∧ t'.WellFormed :=
  run_unlinkAll ht hf (Nat.le_of_eq (Nat.add_comm _ _))

end Hadris.Tree
