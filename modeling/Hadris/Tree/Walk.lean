import Hadris.Tree.View
import Mathlib.Algebra.Order.BigOperators.Group.Finset

namespace Hadris.Tree

open List
open Prog

variable {t : Tree} {i j : Nat} {name : List UInt8} {node parent : Node}
  {path : List (List UInt8)}

theorem dir_of_view (h : t.view path = some (j, parent)) (hdir : parent.isDir) :
    ∃ dir, t.live j = some dir ∧ dir.node.isDir ∧ t.follow root path = some j ∧
      ∀ name, t.follow root (path ++ [name]) = dir.children.get name := by
  obtain ⟨hfollow, dir, hlive, rfl⟩ := view_eq_some.mp h
  refine ⟨dir, hlive, hdir, hfollow, fun name => ?_⟩
  rw [follow_concat, hfollow, Option.bind_some, child_of_live hlive]

theorem descend_of_follow (ht : t.WellFormed) (hi : (t.live i).isSome)
    (h : t.follow i path = some j) :
    t.descend i path = .ok (j, []) := by
  induction path generalizing i with
  | nil =>
    cases h
    rfl
  | cons part path ih =>
    obtain ⟨slot, hslot⟩ := Option.isSome_iff_exists.mp hi
    rw [follow, child_of_live hslot] at h
    obtain ⟨c, hc, h⟩ := Option.bind_eq_some_iff.mp h
    rw [descend, slot_of_live hslot]
    change (if slot.node.isDir then _ else _) = _
    rw [if_pos (ht.consistent.dir hslot hc), hc]
    exact ih (ht.consistent.child ((child_of_live hslot part).trans hc)).2.2 h

/-- A place at which a node can be added: a directory with a free name. -/
structure Vacant (t : Tree) (path : List (List UInt8)) (name : List UInt8) : Prop where
  names : ∀ n ∈ path ++ [name], IsName n
  parent : ∃ j parent, t.view path = some (j, parent) ∧ parent.isDir
  free : t.view (path ++ [name]) = none

theorem Vacant.components (h : Vacant t path name) :
    (parts (joined (path ++ [name]))).run t = (.ok (path ++ [name]), t) := by
  rw [parts, components_joined h.names]
  rfl

theorem Vacant.run_parentFor (ht : t.WellFormed) (h : Vacant t path name) :
    ∃ j dir, (parentFor (path ++ [name])).run t = (.ok j, t) ∧
      t.live j = some dir ∧ dir.node.isDir ∧
      dir.children.get name = none ∧ t.follow root path = some j := by
  obtain ⟨j, parent, hview, hdir⟩ := h.parent
  obtain ⟨dir, hlive, hdir, hfollow, hchildren⟩ := dir_of_view hview hdir
  have hvacant : dir.children.get name = none :=
    (hchildren name).symm.trans (ht.view_eq_none.mp h.free)
  refine ⟨j, dir, ?_, hlive, hdir, hvacant, hfollow⟩
  rw [parentFor, getLast?_concat]
  dsimp only
  rw [dropLast_concat, run_bind_ok (run_gets _ _), id, descend_of_follow ht ht.root_live hfollow,
    run_bind_ok (a := (j, [])) (t := t) rfl, slot_of_live hlive,
      run_bind_ok (a := dir) (t := t) rfl, hdir,
    Bool.not_true, if_neg Bool.false_ne_true, if_pos rfl, hvacant]
  rfl

theorem run_checkNode (hnode : node.check = .ok ()) (path : List UInt8) :
    (checkNode node path).run t = (.ok (), t) := by
  rw [checkNode, hnode]
  rfl

theorem run_insert (ht : t.WellFormed) (h : Vacant t path name) (hnode : node.check = .ok ()) :
    ∃ new t', (insert (joined (path ++ [name])) node).run t = (.ok (), t') ∧ t'.WellFormed ∧
      (∀ q, t'.view q = if q = path ++ [name] then some (new, node) else t.view q) ∧
      ∀ q other, t.view q ≠ some (new, other) := by
  obtain ⟨j, dir, hrun, hlive, hdir, hvacant, hfollow⟩ := h.run_parentFor ht
  obtain ⟨new, t₁, t₂, halloc, hput, hattached, hf⟩ :=
    run_attach (ε := PathError) ht.free hlive hdir (h.names name mem_concat_self) hnode
  have hconsistent := hattached.consistent ht.consistent
  rw [hvacant] at hconsistent
  refine ⟨new, t₂, ?_, ⟨hconsistent, hf⟩, hattached.view ht hfollow ?_, ?_⟩
  · rw [insert, run_bind_ok (run_checkNode hnode _), run_bind_ok h.components,
      run_bind_ok (about_ok hrun),
      run_bind_ok halloc, getLast?_concat, Option.getD_some, run_bind_ok hput, run_pure]
  · intro c hc
    rw [hvacant] at hc
    cases hc
  · intro q other hq
    obtain ⟨_, slot, hslot, _⟩ := view_eq_some.mp hq
    cases hattached.fresh.symm.trans hslot

theorem run_link (ht : t.WellFormed) {existing : List (List UInt8)} {target : Nat}
    (hnames : ∀ n ∈ existing, IsName n) (htarget : t.view existing = some (target, node))
    (hleaf : node.isDir = false) (h : Vacant t path name) :
    ∃ t', (link (joined existing) (joined (path ++ [name]))).run t = (.ok (), t') ∧
      t'.WellFormed ∧
      ∀ q, t'.view q = if q = path ++ [name] then some (target, node) else t.view q := by
  obtain ⟨hexisting, slot, hslot, rfl⟩ := view_eq_some.mp htarget
  obtain ⟨j, dir, hrun, hlive, hdir, hvacant, hfollow⟩ := h.run_parentFor ht
  have hname := h.names name mem_concat_self
  have hne : target ≠ j := by
    rintro rfl
    cases hslot.symm.trans hlive
    rw [hdir] at hleaf
    cases hleaf
  have hslot' :=
    (set_live hlive { dir with children := dir.children.insert name target } target).trans
    ((if_neg hne).trans hslot)
  have hnamed :
    Named t ((t.set j { dir with children := dir.children.insert name target }).set target
      { slot with links := slot.links + 1 }) j target name dir slot :=
    ⟨hlive, hdir, hname, hvacant, hslot, hleaf, fun i => by rw [set_live hslot', set_live hlive]⟩
  have hheld : (parts (joined existing)).run t = (.ok existing, t) := by
    rw [parts, components_joined hnames]
    rfl
  have hfind : (about "the link target does not exist" (joined existing)
      (ofExcept (t.find root existing))).run t = (.ok target, t) := by
    refine about_ok ?_
    rw [(find_of_follow ht.consistent ht.root_live hexisting).1]
    rfl
  refine ⟨_, ?_, ⟨hnamed.consistent ht.consistent, (ht.free.set hlive _).set hslot' _⟩,
    hnamed.view ht hfollow⟩
  rw [link, run_bind_ok (run_gets _ _), id, run_bind_ok hheld,
    run_bind_ok hfind, slot_of_live hslot,
    run_bind_ok (a := slot) (t := t) rfl, hleaf, if_neg Bool.false_ne_true,
      run_bind_ok h.components,
    run_bind_ok (about_ok hrun), getLast?_concat, Option.getD_some,
    run_bind_ok (run_putChild hlive _ _),
    run_bind_ok (run_gets _ _), id, slot_of_live hslot', run_bind_ok (a := slot) rfl, run_modify]

theorem WellFormed.leaf (ht : t.WellFormed) (h : t.view path = some (i, node))
    (hleaf : node.isDir = false) :
    ∃ slot, t.live i = some slot ∧ slot.node = node ∧ slot.children.entries = [] ∧
      ∀ n, t.child i n = none := by
  obtain ⟨_, slot, hslot, rfl⟩ := view_eq_some.mp h
  have hnone := ht.child_of_leaf hslot hleaf
  refine ⟨slot, hslot, rfl, ?_, hnone⟩
  have hempty := (SortedMap.isEmpty_iff slot.children).mpr fun n =>
    (child_of_live hslot n).symm.trans (hnone n)
  exact List.isEmpty_iff.mp hempty

theorem run_replace (ht : t.WellFormed) (hnames : ∀ n ∈ path ++ [name], IsName n) {old : Node}
    (h : t.view (path ++ [name]) = some (i, old)) (hold : old.isDir = false)
    (hnode : node.check = .ok ()) :
    ∃ new t', (replace (joined (path ++ [name])) node).run t = (.ok (), t') ∧ t'.WellFormed ∧
      (∀ q, t'.view q = if q = path ++ [name] then some (new, node) else t.view q) ∧
      ∀ q other, t.view q ≠ some (new, other) := by
  obtain ⟨hfollow, _⟩ := view_eq_some.mp h
  obtain ⟨slot, hslot, rfl, hempty, hleaf⟩ := ht.leaf h hold
  have hpath := hfollow
  rw [follow_concat] at hpath
  obtain ⟨j, hpath, hchild⟩ := Option.bind_eq_some_iff.mp hpath
  obtain ⟨dir, hlive, hget⟩ := child_eq_some.mp hchild
  have hdir := ht.consistent.dir hlive hget
  obtain ⟨new, t₁, t₂, halloc, hput, hattached, hf⟩ :=
    run_attach (ε := PathError) ht.free hlive hdir (hnames name mem_concat_self) hnode
  have hconsistent := hattached.consistent ht.consistent
  rw [hget] at hput hconsistent
  have hview := hattached.view ht hpath fun c hc => by
    rw [hget] at hc
    cases hc
    exact hleaf
  have hne : i ≠ new := by
    rintro rfl
    cases hattached.fresh.symm.trans hslot
  have hij : i ≠ j := by
    rintro rfl
    cases hslot.symm.trans hlive
    rw [hdir] at hold
    cases hold
  have hslot' : t₂.live i = some slot :=
    (hattached.live i).trans ((if_neg hne).trans ((if_neg hij).trans hslot))
  obtain ⟨t', hunlink, ht', hsame⟩ :=
    run_unlink_leaf (ε := PathError) hconsistent hf hslot' hempty
  refine ⟨new, t', ?_, ht', fun q => (hsame q).trans (hview q), ?_⟩
  · have hparts : (parts (joined (path ++ [name]))).run t = (.ok (path ++ [name]), t) := by
      rw [parts, components_joined hnames]
      rfl
    have hfind : (about "no such path in the tree" (joined (path ++ [name]))
        (ofExcept (t.find root (path ++ [name])))).run t = (.ok i, t) := by
      refine about_ok ?_
      rw [(find_of_follow ht.consistent ht.root_live hfollow).1]
      rfl
    have hparent : (about "no such path in the tree" (joined (path ++ [name]))
        (ofExcept (t.find root path))).run t = (.ok j, t) := by
      refine about_ok ?_
      rw [(find_of_follow ht.consistent ht.root_live hpath).1]
      rfl
    have hnone : slot.children.isEmpty = true := List.isEmpty_iff.mpr hempty
    rw [replace, run_bind_ok (run_checkNode hnode _), run_bind_ok hparts,
      run_bind_ok (run_gets _ _), id,
      run_bind_ok hfind, slot_of_live hslot, run_bind_ok (a := slot) (t := t) rfl, if_neg, hnone,
      Bool.not_true, if_neg Bool.false_ne_true, getLast?_concat]
    · dsimp only
      rw [dropLast_concat, run_bind_ok hparent, run_bind_ok halloc, run_bind_ok hput]
      exact hunlink
    · rw [hold]
      exact fun h => Bool.false_ne_true h.1
  · intro q other hq
    obtain ⟨_, s, hs, _⟩ := view_eq_some.mp hq
    cases hattached.fresh.symm.trans hs

theorem run_remove (ht : t.WellFormed) (hnames : ∀ n ∈ path ++ [name], IsName n)
    (h : t.view (path ++ [name]) = some (i, node)) (hnode : node.isDir = false) :
    ∃ t', (remove (joined (path ++ [name]))).run t = (.ok (), t') ∧ t'.WellFormed ∧
      ∀ q, t'.view q = if q = path ++ [name] then none else t.view q := by
  obtain ⟨hfollow, _⟩ := view_eq_some.mp h
  obtain ⟨slot, hslot, rfl, hempty, hleaf⟩ := ht.leaf h hnode
  have hpath := hfollow
  rw [follow_concat] at hpath
  obtain ⟨j, hpath, hchild⟩ := Option.bind_eq_some_iff.mp hpath
  obtain ⟨dir, hlive, hget⟩ := child_eq_some.mp hchild
  have hdir := ht.consistent.dir hlive hget
  have hdropped : Dropped t (t.set j { dir with children := dir.children.erase name }) j i
    name dir :=
    ⟨hlive, hget, set_live hlive _⟩
  have hij : i ≠ j := by
    rintro rfl
    cases hslot.symm.trans hlive
    rw [hdir] at hnode
    cases hnode
  have hslot' := (hdropped.live i).trans ((if_neg hij).trans hslot)
  obtain ⟨t', hunlink, ht', hsame⟩ :=
    run_unlink_leaf (ε := PathError) (hdropped.consistent ht.consistent)
      (ht.free.set hlive _) hslot' hempty
  refine ⟨t', ?_, ht', fun q => (hsame q).trans (hdropped.view ht hdir hpath hleaf q)⟩
  have hparts : (parts (joined (path ++ [name]))).run t = (.ok (path ++ [name]), t) := by
    rw [parts, components_joined hnames]
    rfl
  have hparent : (about "no such path in the tree" (joined (path ++ [name]))
      (ofExcept (t.find root path))).run t = (.ok j, t) := by
    refine about_ok ?_
    rw [(find_of_follow ht.consistent ht.root_live hpath).1]
    rfl
  rw [remove, run_bind_ok hparts, getLast?_concat]
  dsimp only
  rw [dropLast_concat, run_bind_ok (run_gets _ _), id, run_bind_ok hparent, slot_of_live hlive,
    run_bind_ok (a := dir) (t := t) rfl, hdir, Bool.not_true, if_neg Bool.false_ne_true, hget]
  exact (run_bind_ok (run_modify _ _) _).trans hunlink

end Hadris.Tree

namespace Hadris.Tree

open List

variable {t : Tree} {i k c d : Nat} {path p q : List (List UInt8)} {slot : Slot}

def children (t : Tree) (i : Nat) : List (List UInt8 × Nat) :=
  (t.live i).elim [] (·.children.entries)

/-- What lies at and below a path, directories before their children, down to a
depth. -/
def walk (t : Tree) : Nat → List (List UInt8) → Nat → List (List (List UInt8) × Nat)
  | 0, _, _ => []
  | d + 1, path, i => (path, i) :: (t.children i).flatMap fun e => t.walk d (path ++ [e.1]) e.2

theorem mem_children {name : List UInt8} :
    (name, c) ∈ t.children i ↔ t.child i name = some c := by
  rw [children, child]
  cases t.live i with
  | none => simp
  | some slot => exact SortedMap.get_eq_some.symm

theorem mem_walk : (p, k) ∈ t.walk d path i ↔ ∃ q, p = path ++ q ∧
    t.follow i q = some k ∧ q.length < d := by
  induction d generalizing path i with
  | zero => simp [walk]
  | succ d ih =>
    rw [walk, mem_cons, mem_flatMap]
    constructor
    · rintro (h | ⟨⟨name, c⟩, hc, h⟩)
      · cases h
        exact ⟨[], (append_nil _).symm, rfl, Nat.succ_pos _⟩
      · obtain ⟨q, rfl, hfollow, hlt⟩ := ih.mp h
        refine ⟨name :: q, by rw [append_assoc]; rfl, ?_, Nat.succ_lt_succ hlt⟩
        rw [follow, mem_children.mp hc, Option.bind_some, hfollow]
    · rintro ⟨q, rfl, hfollow, hlt⟩
      cases q with
      | nil =>
        cases hfollow
        rw [append_nil]
        exact .inl rfl
      | cons name q =>
        rw [follow] at hfollow
        obtain ⟨c, hc, hfollow⟩ := Option.bind_eq_some_iff.mp hfollow
        refine .inr ⟨(name, c), mem_children.mpr hc,
          ih.mpr ⟨q, ?_, hfollow, Nat.lt_of_succ_lt_succ hlt⟩⟩
        rw [append_assoc]
        rfl

theorem walk_pairwise (t : Tree) (d : Nat) (path : List (List UInt8)) (i : Nat) :
    (t.walk d path i).Pairwise fun a b => ¬ b.1 <+: a.1 := by
  induction d generalizing path i with
  | zero => exact .nil
  | succ d ih =>
    rw [walk, pairwise_cons, pairwise_flatMap]
    refine ⟨?_, fun e _ => ih _ _, ?_⟩
    · rintro ⟨p, k⟩ hmem hstart
      obtain ⟨e, _, hmem⟩ := mem_flatMap.mp hmem
      obtain ⟨q, rfl, _⟩ := mem_walk.mp hmem
      have hle := hstart.length_le
      simp only [length_append, length_singleton] at hle
      omega
    · have hkeys : (t.children i).Pairwise fun a b => a.1 ≠ b.1 := by
        rw [children]
        cases t.live i with
        | none => exact .nil
        | some slot => exact pairwise_map.mp slot.children.keys_nodup
      refine hkeys.imp ?_
      rintro ⟨m, a⟩ ⟨n, b⟩ hne ⟨p, k⟩ hp ⟨p', k'⟩ hp' hstart
      obtain ⟨q, rfl, _⟩ := mem_walk.mp hp
      obtain ⟨q', rfl, _⟩ := mem_walk.mp hp'
      rw [append_assoc, append_assoc, prefix_append_right_inj] at hstart
      exact hne (cons_prefix_cons.mp hstart).1.symm

theorem WellFormed.prefix_unique (ht : t.WellFormed) {a b : List (List UInt8)} (hab : a <+: b)
    (ha : t.follow root a = some k) (hb : t.follow root b = some k) : a = b := by
  obtain ⟨rest, rfl⟩ := hab
  cases rest with
  | nil => rw [append_nil]
  | cons name rest =>
    rw [follow_append, ha, Option.bind_some, follow] at hb
    obtain ⟨c, hc, _⟩ := Option.bind_eq_some_iff.mp hb
    obtain ⟨slot, hslot, hget⟩ := child_eq_some.mp hc
    refine ht.path_unique hslot (ht.consistent.dir hslot hget) ha ?_
    rw [follow_append, ha, Option.bind_some, follow]
    exact hb

theorem WellFormed.length_lt (ht : t.WellFormed) (h : t.follow root q = some k) :
    q.length < t.slots.length := by
  have hsome : ∀ n, ∃ i, t.follow root (q.take n) = some i := by
    intro n
    rw [← take_append_drop n q, follow_append] at h
    obtain ⟨i, hi, _⟩ := Option.bind_eq_some_iff.mp h
    exact ⟨i, hi⟩
  choose index hindex using hsome
  have hmaps : ∀ n ∈ Finset.range (q.length + 1), index n ∈ Finset.range t.slots.length :=
    fun n _ =>
    Finset.mem_range.mpr (live_lt (ht.live_of_follow (hindex n)))
  have hinj : ∀ a ∈ Finset.range (q.length + 1), ∀ b ∈ Finset.range (q.length + 1),
      index a = index b → a = b := by
    have hle : ∀ a b, a ≤ b → b ≤ q.length → index a = index b → a = b := by
      intro a b hab hb heq
      have hstart : q.take a <+: q.take b := by
        rw [← Nat.min_eq_left hab, ← take_take]
        exact take_prefix _ _
      have hsame := congrArg List.length (ht.prefix_unique hstart (hindex a) (heq ▸ hindex b))
      rw [length_take, length_take] at hsame
      omega
    intro a ha b hb heq
    rw [Finset.mem_range] at ha hb
    rcases Nat.le_total a b with hab | hab
    · exact hle a b hab (by omega) heq
    · exact (hle b a hab (by omega) heq.symm).symm
  have hcard := Finset.card_le_card_of_injOn index hmaps hinj
  rw [Finset.card_range, Finset.card_range] at hcard
  omega

def places (t : Tree) : List (List (List UInt8) × Nat) := (t.walk t.slots.length [] root).tail

theorem WellFormed.walk_eq (ht : t.WellFormed) :
    t.walk t.slots.length [] root = ([], root) :: t.places := by
  have hpos : 0 < t.slots.length := Nat.zero_lt_of_lt (live_lt ht.root_live)
  rw [places]
  cases hlen : t.slots.length with
  | zero => omega
  | succ n => rfl

theorem WellFormed.mem_places (ht : t.WellFormed) :
    (p, k) ∈ t.places ↔ p ≠ [] ∧ t.follow root p = some k := by
  have hmem : (p, k) ∈ t.walk t.slots.length [] root ↔ t.follow root p = some k := by
    rw [mem_walk]
    constructor
    · rintro ⟨q, rfl, hfollow, _⟩
      exact hfollow
    · intro h
      exact ⟨p, rfl, h, ht.length_lt h⟩
  have hpair := t.walk_pairwise t.slots.length [] root
  rw [ht.walk_eq] at hmem hpair
  rw [mem_cons] at hmem
  constructor
  · intro h
    refine ⟨?_, hmem.mp (.inr h)⟩
    rintro rfl
    exact (pairwise_cons.mp hpair).1 _ h List.nil_prefix
  · rintro ⟨hne, hfollow⟩
    exact (hmem.mpr hfollow).resolve_left fun h => hne (congrArg Prod.fst h)

theorem WellFormed.places_pairwise (ht : t.WellFormed) :
    t.places.Pairwise fun a b => ¬ b.1 <+: a.1 := by
  have hpair := t.walk_pairwise t.slots.length [] root
  rw [ht.walk_eq] at hpair
  exact (pairwise_cons.mp hpair).2

theorem WellFormed.paths_nodup (ht : t.WellFormed) : (t.places.map Prod.fst).Nodup := by
  rw [List.Nodup, pairwise_map]
  refine ht.places_pairwise.imp ?_
  intro a b h heq
  exact h (heq ▸ prefix_refl _)

def lastName (t : Tree) (path : List (List UInt8)) : Nat × List UInt8 :=
  ((t.follow root path.dropLast).getD root, path.getLast?.getD [])

theorem lastName_concat {name : List UInt8} (h : t.follow root path = some i) :
    t.lastName (path ++ [name]) = (i, name) := by
  rw [lastName, dropLast_concat, getLast?_concat, h]
  rfl

theorem WellFormed.place_split (ht : t.WellFormed) (h : (p, k) ∈ t.places) :
    ∃ q name i, p = q ++ [name] ∧ t.follow root q = some i ∧ t.child i name = some k := by
  obtain ⟨hne, hfollow⟩ := ht.mem_places.mp h
  obtain ⟨q, name, rfl⟩ := (eq_nil_or_concat' p).resolve_left hne
  rw [follow_concat] at hfollow
  obtain ⟨i, hi, hchild⟩ := Option.bind_eq_some_iff.mp hfollow
  exact ⟨q, name, i, rfl, hi, hchild⟩

theorem WellFormed.lastName_nodup (ht : t.WellFormed) :
    (t.places.map fun place => t.lastName place.1).Nodup := by
  have hpaths := pairwise_map.mp ht.paths_nodup
  rw [List.Nodup, pairwise_map]
  refine hpaths.imp_of_mem ?_
  rintro ⟨a, ka⟩ ⟨b, kb⟩ ha hb hne heq
  obtain ⟨a, m, i, rfl, hia, hma⟩ := ht.place_split ha
  obtain ⟨b, n, j, rfl, hjb, _⟩ := ht.place_split hb
  change t.lastName (a ++ [m]) = t.lastName (b ++ [n]) at heq
  rw [lastName_concat hia, lastName_concat hjb] at heq
  cases heq
  obtain ⟨slot, hslot, hget⟩ := child_eq_some.mp hma
  have hab := ht.path_unique hslot (ht.consistent.dir hslot hget) hia hjb
  exact hne (congrArg (· ++ [m]) hab)

theorem WellFormed.place_of_child (ht : t.WellFormed) {name : List UInt8}
    (h : t.child i name = some k) :
    ∃ path, (path, k) ∈ t.places ∧ t.lastName path = (i, name) := by
  obtain ⟨slot, hslot, _⟩ := child_eq_some.mp h
  obtain ⟨q, hq⟩ := ht.path_of_live (i := i) (by rw [hslot]; rfl)
  refine ⟨q ++ [name], ht.mem_places.mpr ⟨by simp, ?_⟩, lastName_concat hq⟩
  rw [follow_concat, hq, Option.bind_some, h]

theorem WellFormed.child_lastName (ht : t.WellFormed) (h : (p, k) ∈ t.places) :
    t.child (t.lastName p).1 (t.lastName p).2 = some k := by
  obtain ⟨q, name, i, rfl, hi, hchild⟩ := ht.place_split h
  rw [lastName_concat hi]
  exact hchild

theorem WellFormed.count_places (ht : t.WellFormed) (c : Nat) :
    (t.places.filter fun place => place.2 = c).length = (t.parents c).card := by
  have hnodup := ht.lastName_nodup.sublist
    ((filter_sublist (p := fun place : List (List UInt8) × Nat => decide (place.2 = c))).map
      fun place => t.lastName place.1)
  have himage :
      ((t.places.filter fun place => place.2 = c).map fun place => t.lastName place.1).toFinset =
        t.parents c := by
    ext ⟨i, name⟩
    rw [mem_toFinset, mem_map, mem_parents]
    constructor
    · rintro ⟨⟨p, k⟩, hp, heq⟩
      obtain ⟨hmem, hk⟩ := mem_filter.mp hp
      cases of_decide_eq_true hk
      have hchild := ht.child_lastName hmem
      rwa [heq] at hchild
    · intro h
      obtain ⟨path, hmem, hlast⟩ := ht.place_of_child h
      exact ⟨(path, c), mem_filter.mpr ⟨hmem, decide_eq_true rfl⟩, hlast⟩
  rw [← himage, toFinset_card_of_nodup hnodup, length_map]

theorem WellFormed.links_eq (ht : t.WellFormed) (hc : c ≠ root) (hslot : t.live c = some slot) :
    slot.links = (t.places.filter fun place => place.2 = c).length := by
  rw [ht.count_places, ht.consistent.links hslot, if_neg hc]
  rfl

theorem card_allNames (t : Tree) : t.allNames.card ≤ t.names := by
  have hbound : ∀ i ∈ Finset.range t.slots.length,
      (((t.live i).elim [] fun slot => slot.children.entries.map fun e =>
        (i, e.1)).toFinset).card ≤
        (t.live i).elim 0 (·.children.entries.length) := by
    intro i _
    refine (toFinset_card_le _).trans (Nat.le_of_eq ?_)
    cases t.live i with
    | none => rfl
    | some slot => exact length_map _
  refine (Finset.card_biUnion_le.trans (Finset.sum_le_sum hbound)).trans (Nat.le_of_eq ?_)
  have hsum : ∀ slots : List (Option Slot),
      ∑ i ∈ Finset.range slots.length, (slots[i]?.join).elim 0 (·.children.entries.length) =
        (slots.map fun slot => slot.elim 0 (·.children.entries.length)).sum := by
    intro slots
    induction slots using reverseRecOn with
    | nil => rfl
    | append_singleton slots slot ih =>
      rw [length_append, length_singleton, Finset.sum_range_succ, map_append, sum_append,
        ← ih, getElem?_concat_length]
      congr 1
      · refine Finset.sum_congr rfl fun i hi => ?_
        rw [getElem?_append_left (Finset.mem_range.mp hi)]
  exact hsum t.slots

theorem WellFormed.places_length (ht : t.WellFormed) : t.places.length ≤ t.names := by
  refine Nat.le_trans (Nat.le_of_eq ?_) t.card_allNames
  have himage : (t.places.map fun place => t.lastName place.1).toFinset = t.allNames := by
    ext ⟨i, name⟩
    rw [mem_toFinset, mem_map, mem_allNames]
    constructor
    · rintro ⟨⟨p, k⟩, hp, heq⟩
      have hchild := ht.child_lastName hp
      rw [heq] at hchild
      rw [hchild]
      rfl
    · intro h
      obtain ⟨c, hc⟩ := Option.isSome_iff_exists.mp h
      obtain ⟨path, hmem, hlast⟩ := ht.place_of_child hc
      exact ⟨(path, c), hmem, hlast⟩
  rw [← himage, toFinset_card_of_nodup ht.lastName_nodup, length_map]

end Hadris.Tree
