import Hadris.Tree

namespace Hadris.Tree

variable {t t' : Tree} {cut : List Nat} {i j c new target k : Nat}
  {name : List UInt8} {dir slot : Slot}
variable {node : Node}

theorem Reached.mono {cut' : List Nat} (hcut : ∀ c ∈ cut, t'.Reached cut' c)
    (hchild : ∀ k n c, t.child k n = some c → t'.Reached cut' k → t'.Reached cut' c) {k : Nat}
    (h : t.Reached cut k) : t'.Reached cut' k := by
  induction h with
  | root => exact .root
  | cut hmem => exact hcut _ hmem
  | child _ hc ih => exact hchild _ _ _ hc ih

section Attach

/-- `t'` is `t` with a new node under a name of the directory at `j`. -/
structure Attached (t t' : Tree) (j new : Nat) (name : List UInt8) (dir : Slot) (node : Node) :
    Prop where
  parent : t.live j = some dir
  isDir : dir.node.isDir
  isName : IsName name
  fresh : t.live new = none
  check : node.check = .ok ()
  live : ∀ k, t'.live k = if k = new then some ⟨node, .empty, 1⟩
    else if k = j then some { dir with children := dir.children.insert name new } else t.live k

variable (ht : t.Consistent cut) (h : Attached t t' j new name dir node)

include h

theorem Attached.ne : j ≠ new := by
  rintro rfl
  have hparent := h.parent
  rw [h.fresh] at hparent
  cases hparent

theorem Attached.child (k : Nat) (n : List UInt8) :
    t'.child k n = if k = j ∧ n = name then some new else t.child k n := by
  rw [Tree.child, h.live]
  by_cases hk : k = new
  · subst hk
    rw [if_pos rfl, if_neg (fun hjk => h.ne hjk.1.symm), Tree.child, h.fresh]
    rfl
  · rw [if_neg hk]
    by_cases hkj : k = j
    · subst hkj
      rw [if_pos rfl, Option.bind_some, SortedMap.get_insert, child_of_live h.parent]
      simp only [true_and]
    · rw [if_neg hkj, if_neg (fun hk => hkj hk.1)]
      rfl

theorem Attached.old : t.child j name = dir.children.get name := child_of_live h.parent name

theorem Attached.live_isSome (hk : (t.live k).isSome) : (t'.live k).isSome := by
  rw [h.live]
  split
  · rfl
  · split
    · rfl
    · exact hk

theorem Attached.links (hk : t'.live k = some slot) (hne : k ≠ new) :
    ∃ old, t.live k = some old ∧ old.links = slot.links ∧ old.node = slot.node := by
  rw [h.live, if_neg hne] at hk
  split at hk
  · rename_i hkj
    cases hk
    exact ⟨dir, hkj ▸ h.parent, rfl, rfl⟩
  · exact ⟨slot, hk, rfl, rfl⟩

theorem Attached.parents (hne : c ≠ new) : t'.parents c = (t.parents c).erase (j, name) := by
  ext ⟨k, n⟩
  rw [mem_parents, h.child, Finset.mem_erase, mem_parents]
  split
  · rename_i hk
    obtain ⟨rfl, rfl⟩ := hk
    simp [Ne.symm hne]
  · rename_i hk
    exact ⟨fun hc => ⟨fun heq => hk (by cases heq; exact ⟨rfl, rfl⟩), hc⟩, And.right⟩

theorem Attached.count (k : Nat) (hne : k ≠ new) :
    (t.parents k).card + cut.count k =
      (t'.parents k).card + ((dir.children.get name).toList ++ cut).count k := by
  rw [h.parents hne, List.count_append]
  by_cases hget : dir.children.get name = some k
  · have hmem : (j, name) ∈ t.parents k := mem_parents.mpr (h.old.trans hget)
    have hpos := Finset.card_pos.mpr ⟨_, hmem⟩
    rw [Finset.card_erase_of_mem hmem, hget, Option.toList_some, List.count_singleton_self]
    omega
  · have hmem : (j, name) ∉ t.parents k :=
      fun hmem => hget (h.old.symm.trans (mem_parents.mp hmem))
    have hzero : (dir.children.get name).toList.count k = 0 :=
      List.count_eq_zero.mpr fun hmem => hget (Option.mem_toList.mp hmem)
    rw [Finset.erase_eq_of_notMem hmem, hzero, Nat.zero_add]

include ht

theorem Attached.child_ne {k : Nat} {n : List UInt8} (hc : t.child k n = some c) : c ≠ new := by
  rintro rfl
  have hsome := (ht.child hc).2.2
  rw [h.fresh] at hsome
  cases hsome

theorem Attached.root_ne : Tree.root ≠ new := by
  obtain ⟨slot, hroot, _⟩ := ht.root
  rintro heq
  rw [heq, h.fresh] at hroot
  cases hroot

theorem Attached.parents_new : t'.parents new = {(j, name)} := by
  ext ⟨k, n⟩
  rw [mem_parents, h.child, Finset.mem_singleton]
  split
  · rename_i hk
    obtain ⟨rfl, rfl⟩ := hk
    simp
  · rename_i hk
    constructor
    · intro hc
      exact absurd rfl (h.child_ne ht hc)
    · intro heq
      cases heq
      exact absurd ⟨rfl, rfl⟩ hk

theorem Attached.count_new : ((dir.children.get name).toList ++ cut).count new = 0 := by
  rw [List.count_eq_zero]
  intro hmem
  rcases List.mem_append.mp hmem with hmem | hmem
  · exact h.child_ne ht (h.old.trans (Option.mem_toList.mp hmem)) rfl
  · have hsome := (ht.cut_live hmem).2
    rw [h.fresh] at hsome
    cases hsome

theorem Attached.reached (hk : (t'.live k).isSome) :
    t'.Reached ((dir.children.get name).toList ++ cut) k := by
  have hstep : ∀ {k}, t.Reached cut k → t'.Reached ((dir.children.get name).toList ++ cut) k := by
    intro k hk
    refine hk.mono (fun c hc => .cut (List.mem_append_right _ hc)) ?_
    intro k n c hc hk
    by_cases hkn : k = j ∧ n = name
    · obtain ⟨rfl, rfl⟩ := hkn
      exact .cut (List.mem_append_left _ (Option.mem_toList.mpr (h.old.symm.trans hc)))
    · exact .child hk ((h.child k n).trans ((if_neg hkn).trans hc))
  by_cases hne : k = new
  · subst hne
    have hparent : (t.live j).isSome := by
      rw [h.parent]
      rfl
    exact .child (hstep (ht.reached hparent)) ((h.child j name).trans (if_pos ⟨rfl, rfl⟩))
  · obtain ⟨slot, hslot⟩ := Option.isSome_iff_exists.mp hk
    obtain ⟨old, hold, _⟩ := h.links hslot hne
    exact hstep (ht.reached (by rw [hold]; rfl))

theorem Attached.consistent : t'.Consistent ((dir.children.get name).toList ++ cut) where
  root := by
    obtain ⟨slot, hroot, hdir⟩ := ht.root
    by_cases hj : Tree.root = j
    · exact ⟨_, (h.live _).trans ((if_neg (h.root_ne ht)).trans (if_pos hj)), h.isDir⟩
    · exact ⟨slot, (h.live _).trans ((if_neg (h.root_ne ht)).trans ((if_neg hj).trans hroot)),
        hdir⟩
  dir := by
    intro k s n c hk hc
    rw [h.live] at hk
    split at hk
    · cases hk
      cases hc
    · split at hk
      · cases hk
        exact h.isDir
      · exact ht.dir hk hc
  child := by
    intro k n c hc
    rw [h.child] at hc
    split at hc
    · rename_i hk
      cases hc
      refine ⟨hk.2 ▸ h.isName, (h.root_ne ht).symm, ?_⟩
      rw [h.live, if_pos rfl]
      rfl
    · obtain ⟨hn, hc0, hlive⟩ := ht.child hc
      exact ⟨hn, hc0, h.live_isSome hlive⟩
  cut_live := by
    intro k hk
    rcases List.mem_append.mp hk with hk | hk
    · obtain ⟨_, hc0, hlive⟩ := ht.child (h.old.trans (Option.mem_toList.mp hk))
      exact ⟨hc0, h.live_isSome hlive⟩
    · exact ⟨(ht.cut_live hk).1, h.live_isSome (ht.cut_live hk).2⟩
  links := by
    intro k s hk
    by_cases hne : k = new
    · subst hne
      rw [h.live, if_pos rfl] at hk
      cases hk
      rw [h.parents_new ht, h.count_new ht, if_neg (h.root_ne ht).symm, Finset.card_singleton]
    · obtain ⟨old, hold, hlinks, _⟩ := h.links hk hne
      rw [← hlinks, ht.links hold, h.count _ hne]
  single := by
    intro k s hk hdir
    by_cases hne : k = new
    · subst hne
      rw [h.live, if_pos rfl] at hk
      cases hk
      rfl
    · obtain ⟨old, hold, hlinks, hnode⟩ := h.links hk hne
      rw [← hlinks]
      exact ht.single hold (hnode ▸ hdir)
  check := by
    intro k s hk
    by_cases hne : k = new
    · subst hne
      rw [h.live, if_pos rfl] at hk
      cases hk
      exact h.check
    · obtain ⟨old, hold, _, hnode⟩ := h.links hk hne
      exact hnode ▸ ht.check hold
  reached := h.reached ht

end Attach

/-- A change that frees no slot and adds none. -/
structure Kept (t t' : Tree) : Prop where
  old : ∀ {k : Nat} {slot : Slot}, t'.live k = some slot → ∃ old, t.live k = some old ∧
    slot.node.isDir = old.node.isDir ∧ slot.node.check = .ok () ∧
      (old.node.isDir → slot.links = old.links)
  live : ∀ {k : Nat}, (t.live k).isSome → (t'.live k).isSome
  child : ∀ {k : Nat} {n : List UInt8} {c : Nat}, t'.child k n = some c → t.child k n = some c ∨
    IsName n ∧ c ≠ Tree.root ∧ (t.live c).isSome ∧ ∃ slot, t.live k = some slot ∧ slot.node.isDir

theorem Kept.consistent {cut' : List Nat} (ht : t.Consistent cut) (h : Kept t t')
    (hcut : ∀ c ∈ cut', c ≠ Tree.root ∧ (t.live c).isSome)
    (hlinks : ∀ {k slot}, t'.live k = some slot →
      slot.links = (t'.parents k).card + cut'.count k + if k = Tree.root then 1 else 0)
    (hreached : ∀ {k}, (t.live k).isSome → t'.Reached cut' k) : t'.Consistent cut' where
  root := by
    obtain ⟨slot, hroot, hdir⟩ := ht.root
    obtain ⟨slot', hroot'⟩ := Option.isSome_iff_exists.mp
      (h.live (k := Tree.root) (by rw [hroot]; rfl))
    obtain ⟨old, hold, hsame, _⟩ := h.old hroot'
    cases hroot.symm.trans hold
    exact ⟨slot', hroot', hsame.trans hdir⟩
  dir := by
    intro k slot n c hk hc
    obtain ⟨old, hold, hsame, _⟩ := h.old hk
    rcases h.child ((child_of_live hk n).trans hc) with hc | ⟨_, _, _, slot', hslot', hdir⟩
    · exact hsame.trans (ht.dir hold ((child_of_live hold n).symm.trans hc))
    · cases hold.symm.trans hslot'
      exact hsame.trans hdir
  child := by
    intro k n c hc
    rcases h.child hc with hc | ⟨hn, hc0, hlive, _⟩
    · obtain ⟨hn, hc0, hlive⟩ := ht.child hc
      exact ⟨hn, hc0, h.live hlive⟩
    · exact ⟨hn, hc0, h.live hlive⟩
  cut_live := fun hk => ⟨(hcut _ hk).1, h.live (hcut _ hk).2⟩
  links := hlinks
  single := by
    intro k slot hk hdir
    obtain ⟨old, hold, hsame, _, hlinks⟩ := h.old hk
    rw [hlinks (hsame ▸ hdir)]
    exact ht.single hold (hsame ▸ hdir)
  check := by
    intro k slot hk
    obtain ⟨old, hold, _, hcheck, _⟩ := h.old hk
    exact hcheck
  reached := by
    intro k hk
    obtain ⟨slot, hslot⟩ := Option.isSome_iff_exists.mp hk
    obtain ⟨old, hold, _⟩ := h.old hslot
    exact hreached (by rw [hold]; rfl)

section Dropped

/-- `t'` is `t` without a name of the directory at `j`. -/
structure Dropped (t t' : Tree) (j c : Nat) (name : List UInt8) (dir : Slot) : Prop where
  parent : t.live j = some dir
  old : dir.children.get name = some c
  live : ∀ k, t'.live k =
    if k = j then some { dir with children := dir.children.erase name } else t.live k

variable (ht : t.Consistent cut) (h : Dropped t t' j c name dir)

include h

theorem Dropped.child (k : Nat) (n : List UInt8) :
    t'.child k n = if k = j ∧ n = name then none else t.child k n := by
  rw [Tree.child, h.live]
  by_cases hk : k = j
  · subst hk
    rw [if_pos rfl, Option.bind_some, SortedMap.get_erase, child_of_live h.parent]
    simp only [true_and]
  · rw [if_neg hk, if_neg (fun hkn => hk hkn.1)]
    rfl

theorem Dropped.parents (k : Nat) : t'.parents k = (t.parents k).erase (j, name) := by
  ext ⟨i, n⟩
  rw [mem_parents, h.child, Finset.mem_erase, mem_parents]
  split
  · rename_i hk
    obtain ⟨rfl, rfl⟩ := hk
    simp
  · rename_i hk
    exact ⟨fun hc => ⟨fun heq => hk (by cases heq; exact ⟨rfl, rfl⟩), hc⟩, And.right⟩

theorem Dropped.count (k : Nat) :
    (t.parents k).card + cut.count k = (t'.parents k).card + (c :: cut).count k := by
  have hold : t.child j name = some c := (child_of_live h.parent name).trans h.old
  rw [h.parents, List.count_cons]
  by_cases hk : c = k
  · subst hk
    have hmem : (j, name) ∈ t.parents c := mem_parents.mpr hold
    have hpos := Finset.card_pos.mpr ⟨_, hmem⟩
    rw [Finset.card_erase_of_mem hmem, if_pos (beq_self_eq_true c)]
    omega
  · have hmem : (j, name) ∉ t.parents k := fun hmem => hk (by
      have := hold.symm.trans (mem_parents.mp hmem)
      cases this
      rfl)
    rw [Finset.erase_eq_of_notMem hmem, if_neg (fun heq => hk (beq_iff_eq.mp heq)), Nat.add_zero]

theorem Dropped.reached {k : Nat} (hk : t.Reached cut k) : t'.Reached (c :: cut) k := by
  refine hk.mono (fun k hk => .cut (List.mem_cons_of_mem _ hk)) ?_
  intro k n x hx hk
  by_cases hkn : k = j ∧ n = name
  · obtain ⟨rfl, rfl⟩ := hkn
    have hxc := hx.symm.trans ((child_of_live h.parent n).trans h.old)
    cases hxc
    exact .cut List.mem_cons_self
  · exact .child hk ((h.child k n).trans ((if_neg hkn).trans hx))

include ht

theorem Dropped.kept : Kept t t' where
  old := by
    intro k slot hk
    rw [h.live] at hk
    split at hk
    · rename_i hkj
      cases hk
      subst hkj
      have hcheck : dir.node.check = .ok () := ht.check h.parent
      exact ⟨dir, h.parent, rfl, hcheck, fun _ => rfl⟩
    · exact ⟨slot, hk, rfl, ht.check hk, fun _ => rfl⟩
  live := by
    intro k hk
    rw [h.live]
    split
    · rfl
    · exact hk
  child := by
    intro k n c hc
    rw [h.child] at hc
    split at hc
    · cases hc
    · exact .inl hc

theorem Dropped.consistent : t'.Consistent (c :: cut) := by
  refine (h.kept ht).consistent ht ?_ ?_ (fun hk => h.reached (ht.reached hk))
  · intro k hk
    rcases List.mem_cons.mp hk with rfl | hk
    · exact (ht.child ((child_of_live h.parent name).trans h.old)).2
    · exact ht.cut_live hk
  · intro k slot hk
    rw [← h.count]
    rw [h.live] at hk
    split at hk
    · rename_i hkj
      cases hk
      subst hkj
      have hlinks := ht.links h.parent
      exact hlinks
    · exact ht.links hk

end Dropped

section Named

/-- `t'` is `t` with another name of `target` in the directory at `j`. -/
structure Named (t t' : Tree) (j target : Nat) (name : List UInt8) (dir slot : Slot) : Prop where
  parent : t.live j = some dir
  isDir : dir.node.isDir
  isName : IsName name
  vacant : dir.children.get name = none
  shared : t.live target = some slot
  notDir : slot.node.isDir = false
  live : ∀ k, t'.live k = if k = target then some { slot with links := slot.links + 1 }
    else if k = j then some { dir with children := dir.children.insert name target } else t.live k

variable (ht : t.Consistent cut) (h : Named t t' j target name dir slot)

include h

theorem Named.ne : j ≠ target := by
  rintro rfl
  have hnot := h.notDir
  cases h.parent.symm.trans h.shared
  rw [h.isDir] at hnot
  cases hnot

theorem Named.child (k : Nat) (n : List UInt8) :
    t'.child k n = if k = j ∧ n = name then some target else t.child k n := by
  rw [Tree.child, h.live]
  by_cases hk : k = target
  · subst hk
    rw [if_pos rfl, if_neg (fun hkn => h.ne hkn.1.symm), child_of_live h.shared]
    rfl
  · rw [if_neg hk]
    by_cases hkj : k = j
    · subst hkj
      rw [if_pos rfl, Option.bind_some, SortedMap.get_insert, child_of_live h.parent]
      simp only [true_and]
    · rw [if_neg hkj, if_neg (fun hkn => hkj hkn.1)]
      rfl

theorem Named.child_mono {k : Nat} {n : List UInt8} (hc : t.child k n = some c) :
    t'.child k n = some c := by
  rw [h.child, if_neg, hc]
  rintro ⟨rfl, rfl⟩
  cases ((child_of_live h.parent n).trans h.vacant).symm.trans hc

theorem Named.parents (k : Nat) :
    t'.parents k = if k = target then Insert.insert (j, name) (t.parents k) else t.parents k := by
  ext ⟨i, n⟩
  rw [mem_parents, h.child]
  split
  · rename_i hk
    obtain ⟨rfl, rfl⟩ := hk
    split
    · rename_i hk
      simp [hk]
    · rename_i hk
      have hvacant : t.child i n = none := (child_of_live h.parent n).trans h.vacant
      rw [mem_parents, hvacant]
      simp [Ne.symm hk]
  · rename_i hk
    split
    · rw [Finset.mem_insert, mem_parents]
      exact ⟨.inr, fun hmem => hmem.resolve_left fun heq => hk (by cases heq; exact ⟨rfl, rfl⟩)⟩
    · exact mem_parents.symm

include ht

theorem Named.kept : Kept t t' where
  old := by
    intro k s hk
    rw [h.live] at hk
    split at hk
    · rename_i hkt
      cases hk
      subst hkt
      have hcheck : slot.node.check = .ok () := ht.check h.shared
      exact ⟨slot, h.shared, rfl, hcheck, fun hdir => by rw [h.notDir] at hdir; cases hdir⟩
    · split at hk
      · rename_i hkj
        cases hk
        subst hkj
        have hcheck : dir.node.check = .ok () := ht.check h.parent
        exact ⟨dir, h.parent, rfl, hcheck, fun _ => rfl⟩
      · exact ⟨s, hk, rfl, ht.check hk, fun _ => rfl⟩
  live := by
    intro k hk
    rw [h.live]
    split
    · rfl
    · split
      · rfl
      · exact hk
  child := by
    intro k n c hc
    rw [h.child] at hc
    split at hc
    · rename_i hk
      obtain ⟨rfl, rfl⟩ := hk
      cases hc
      refine .inr ⟨h.isName, ?_, by rw [h.shared]; rfl, dir, h.parent, h.isDir⟩
      rintro rfl
      obtain ⟨root, hroot, hdir⟩ := ht.root
      cases h.shared.symm.trans hroot
      rw [h.notDir] at hdir
      cases hdir
    · exact .inl hc

theorem Named.consistent : t'.Consistent cut := by
  refine (h.kept ht).consistent ht (fun k hk => ht.cut_live hk) ?_ ?_
  · intro k s hk
    rw [h.live] at hk
    rw [h.parents]
    split at hk
    · rename_i hkt
      cases hk
      subst hkt
      have hnew : (j, name) ∉ t.parents k := fun hmem => by
        have hvacant := (child_of_live h.parent name).trans h.vacant
        cases hvacant.symm.trans (mem_parents.mp hmem)
      have hlinks := ht.links h.shared
      rw [if_pos rfl, Finset.card_insert_of_notMem hnew]
      change slot.links + 1 = _
      omega
    · rename_i hkt
      rw [if_neg hkt]
      split at hk
      · rename_i hkj
        cases hk
        subst hkj
        have hlinks := ht.links h.parent
        exact hlinks
      · exact ht.links hk
  · intro k hk
    exact (ht.reached hk).mono (fun _ hc => .cut hc) fun _ _ _ hc hk =>
      .child hk (h.child_mono hc)

end Named

theorem Consistent.retag (ht : t.Consistent cut) (hi : t.live i = some slot)
    (hslot : slot.node.isDir) (hdir : node.isDir) (hcheck : node.check = .ok ())
    (hlive : ∀ k, t'.live k = if k = i then some { slot with node := node } else t.live k) :
    t'.Consistent cut := by
  have hchild : ∀ k n, t'.child k n = t.child k n := by
    intro k n
    rw [Tree.child, hlive]
    split
    · rename_i hk
      rw [hk, child_of_live hi]
      rfl
    · rfl
  have hparents : ∀ k, t'.parents k = t.parents k := by
    intro k
    ext ⟨i, n⟩
    rw [mem_parents, mem_parents, hchild]
  have hkept : Kept t t' := by
    refine ⟨?_, ?_, fun hc => .inl ((hchild _ _).symm.trans hc)⟩
    · intro k s hk
      rw [hlive] at hk
      split at hk
      · rename_i hki
        cases hk
        exact ⟨slot, hki ▸ hi, hdir.trans hslot.symm, hcheck, fun _ => rfl⟩
      · exact ⟨s, hk, rfl, ht.check hk, fun _ => rfl⟩
    · intro k hk
      rw [hlive]
      split
      · rfl
      · exact hk
  refine hkept.consistent ht (fun k hk => ht.cut_live hk) ?_ ?_
  · intro k s hk
    rw [hparents]
    rw [hlive] at hk
    split at hk
    · rename_i hki
      cases hk
      subst hki
      have hlinks := ht.links hi
      exact hlinks
    · exact ht.links hk
  · intro k hk
    exact (ht.reached hk).mono (fun _ hc => .cut hc) fun _ _ _ hc hk =>
      .child hk ((hchild _ _).trans hc)

end Hadris.Tree
