import Hadris.Tree.PathMap

namespace Hadris.Tree

open List
open Prog

variable {t t' : Tree} {m : PathMap} {slotOf : Nat → Nat} {i j c new : Nat} {name : List UInt8}
  {dir slot : Slot} {node : Node}
variable {path rest q : List (List UInt8)} {cut : List Nat} {ε : Type}

theorem ok_bind {α β : Type} (a : α) (f : α → Except ε β) : (Except.ok a >>= f) = f a := rfl

theorem view_of_same (hchild : ∀ k n, t'.child k n = t.child k n)
    (hnode : ∀ k, (t'.live k).map Slot.node = (t.live k).map Slot.node) (q : List (List UInt8)) :
    t'.view q = t.view q := by
  rw [view, view, follow_congr hchild root q]
  cases t.follow root q with
  | none => rfl
  | some k =>
    have hpair (s : Option Slot) : s.map (fun slot => (k, slot.node)) =
        (s.map Slot.node).map fun node => (k, node) := by
      cases s <;> rfl
    rw [Option.bind_some, Option.bind_some, hpair, hpair, hnode]

theorem Freed.follow_ne (ht : t.Consistent (i :: cut)) (h : Freed t t' i slot) :
    t.follow root q ≠ some i := by
  rcases eq_nil_or_concat' q with rfl | ⟨q, n, rfl⟩
  · intro hq
    cases hq
    exact (ht.cut_live mem_cons_self).1 rfl
  · intro hq
    rw [follow_concat] at hq
    obtain ⟨k, -, hchild⟩ := Option.bind_eq_some_iff.mp hq
    exact h.no_parent ht k n hchild

theorem Freed.view (ht : t.Consistent (i :: cut)) (h : Freed t t' i slot)
    (q : List (List UInt8)) : t'.view q = t.view q := by
  have hfollow : t'.follow root q = t.follow root q := by
    induction q using reverseRecOn with
    | nil => rfl
    | append_singleton q n ih =>
      rw [follow_concat, follow_concat, ih]
      cases hq : t.follow root q with
      | none => rfl
      | some k =>
        rw [Option.bind_some, Option.bind_some, h.child, if_neg]
        rintro rfl
        exact h.follow_ne ht hq
  rw [Tree.view, Tree.view, hfollow]
  cases hq : t.follow root q with
  | none => rfl
  | some k =>
    rw [Option.bind_some, Option.bind_some, h.live, if_neg]
    rintro rfl
    exact h.follow_ne ht hq

theorem unlinkAll_view {fuel : Nat} (ht : t.Consistent cut) (hf : t.FreeList)
    (hrun : (unlinkAll fuel cut : Prog Tree (Fault ε) Unit).run t = (.ok (), t'))
    (q : List (List UInt8)) :
    t'.view q = t.view q := by
  induction fuel generalizing t cut with
  | zero =>
    cases hrun
    rfl
  | succ fuel ih =>
    cases cut with
    | nil =>
      cases hrun
      rfl
    | cons i cut =>
      obtain ⟨slot, hi⟩ := Option.isSome_iff_exists.mp (ht.cut_live mem_cons_self).2
      rw [unlinkAll, run_bind_ok (run_gets _ _), id, slot_of_live hi,
        run_bind_ok (a := slot) (t := t) rfl] at hrun
      by_cases hlinks : 1 < slot.links
      · rw [if_pos hlinks, run_bind_ok (run_modify _ _)] at hrun
        have hlive := set_live hi { slot with links := slot.links - 1 }
        rw [ih (ht.counted hi hlinks hlive) (hf.set hi _) hrun]
        refine view_of_same (fun k n => ?_) (fun k => ?_) q
        · rw [Tree.child, hlive]
          split
          · rename_i hk
            rw [hk, child_of_live hi]
            rfl
          · rfl
        · rw [hlive]
          split
          · rename_i hk
            rw [hk, hi]
            rfl
          · rfl
      · rw [if_neg hlinks, run_bind_ok (run_modify _ _)] at hrun
        have hfreed : Freed t (t.freed i) i slot := ⟨hi, by omega, freed_live hi⟩
        exact (ih (hfreed.consistent ht) (hf.freed hi) hrun).trans (hfreed.view ht q)

theorem run_unlink_view (ht : t.Consistent [i]) (hf : t.FreeList) :
    ∃ t', (unlink i : Prog Tree (Fault ε) Unit).run t = (.ok (), t') ∧ t'.WellFormed ∧
      ∀ q, t'.view q = t.view q := by
  obtain ⟨t', hrun, ht'⟩ := run_unlink (ε := ε) ht hf
  have hall := hrun
  rw [unlink, run_bind_ok (run_gets _ _)] at hall
  exact ⟨t', hrun, ht', unlinkAll_view ht hf hall⟩

/-- A map that has all that another has. -/
structure PathMap.Extends (m m' : PathMap) : Prop where
  place : ∀ q id, m.place q = some id → m'.place q = some id
  node : ∀ id < m.next, m'.node id = m.node id
  next : m.next ≤ m'.next

theorem PathMap.Extends.refl (m : PathMap) : m.Extends m :=
  ⟨fun _ _ h => h, fun _ _ => rfl, Nat.le_refl _⟩

theorem PathMap.Extends.trans {m m' m'' : PathMap} (h : m.Extends m') (h' : m'.Extends m'') :
    m.Extends m'' :=
  ⟨fun q id hq => h'.place q id (h.place q id hq),
    fun id hid => (h'.node id (Nat.lt_of_lt_of_le hid h.next)).trans (h.node id hid),
      h.next.trans h'.next⟩

theorem PathMap.extends_add (h : m.place path = none) (node : Node) :
    m.Extends (m.add path node) := by
  refine ⟨fun q id hq => ?_, fun id hid => if_neg hid.ne, Nat.le_succ _⟩
  refine (if_neg ?_).trans hq
  rintro rfl
  cases h.symm.trans hq

theorem Refines.add (hr : Refines t m slotOf) (hfresh : ∀ q other, t.view q ≠ some (new, other))
    (hview : ∀ q, t'.view q = if q = path then some (new, node) else t.view q) :
    Refines t' (m.add path node) fun id => if id = m.next then new else slotOf id := by
  have hplace (q : List (List UInt8)) (id : Nat) (hq : m.place q = some id) :
      slotOf id ≠ new := by
    rintro rfl
    have hold := hr.view q
    rw [hq] at hold
    exact hfresh _ _ hold
  have hcases (q : List (List UInt8)) (id : Nat) (hq : (m.add path node).place q = some id) :
      (id = m.next ∧ q = path) ∨ id ≠ m.next ∧ m.place q = some id := by
    by_cases hpath : q = path
    · have hid := (if_pos hpath).symm.trans hq
      exact .inl ⟨(Option.some.inj hid).symm, hpath⟩
    · have hid := (if_neg hpath).symm.trans hq
      exact .inr ⟨(hr.bound q id hid).ne, hid⟩
  refine ⟨fun q => ?_, fun p q a b hp hq heq => ?_, fun q id hq => ?_⟩
  · rw [hview, PathMap.add]
    by_cases hpath : q = path
    · simp [hpath]
    · simp only [if_neg hpath, hr.view q]
      cases hq : m.place q with
      | none => rfl
      | some id =>
        have hne := (hr.bound q id hq).ne
        simp [hne]
  · obtain ⟨ha, hpath⟩ | ⟨ha, hp'⟩ :=
      hcases p a hp <;> obtain ⟨hb, hpath'⟩ | ⟨hb, hq'⟩ := hcases q b hq
    · exact ha.trans hb.symm
    · rw [if_pos ha, if_neg hb] at heq
      exact absurd heq.symm (hplace q b hq')
    · rw [if_pos hb, if_neg ha] at heq
      exact absurd heq (hplace p a hp')
    · rw [if_neg ha, if_neg hb] at heq
      exact hr.inj p q a b hp' hq' heq
  · obtain ⟨rfl, -⟩ | ⟨-, hq⟩ := hcases q id hq
    · exact Nat.lt_succ_self _
    · exact (hr.bound q id hq).trans (Nat.lt_succ_self _)

theorem Attached.fresh_view (h : Attached t t' j new name dir node)
    (q : List (List UInt8)) (other : Node) :
    t.view q ≠ some (new, other) := by
  intro hview
  obtain ⟨-, slot, hlive, -⟩ := view_eq_some.mp hview
  cases h.fresh.symm.trans hlive

/-- A tree that has more than another, as its map has. -/
structure Grown (t t' : Tree) (m m' : PathMap) (slotOf slotOf' : Nat → Nat) : Prop where
  wellFormed : t'.WellFormed
  refines : Refines t' m' slotOf'
  extends_ : m.Extends m'
  slotOf : ∀ id < m.next, slotOf' id = slotOf id
  leaves : SameLeaves t t'

theorem Grown.refl (ht : t.WellFormed) (hr : Refines t m slotOf) : Grown t t m m slotOf slotOf :=
  ⟨ht, hr, .refl m, fun _ _ => rfl, fun hi _ => hi⟩

theorem Grown.trans {t'' : Tree} {m' m'' : PathMap} {slotOf' slotOf'' : Nat → Nat}
    (h : Grown t t' m m' slotOf slotOf')
    (h' : Grown t' t'' m' m'' slotOf' slotOf'') : Grown t t'' m m'' slotOf slotOf'' where
  wellFormed := h'.wellFormed
  refines := h'.refines
  extends_ := h.extends_.trans h'.extends_
  slotOf id hid := (h'.slotOf id (Nat.lt_of_lt_of_le hid h.extends_.next)).trans (h.slotOf id hid)
  leaves hi hleaf := h'.leaves (h.leaves hi hleaf) hleaf

theorem Attached.grown (ht : t.WellFormed) (hr : Refines t m slotOf)
    (h : Attached t t' j new name dir node)
    (hf : t'.FreeList) (hpath : t.follow root path = some j)
    (hvacant : dir.children.get name = none) :
    Grown t t' m (m.add (path ++ [name]) node) slotOf
      (fun id => if id = m.next then new else slotOf id) := by
  have hconsistent := h.consistent ht.consistent
  rw [hvacant] at hconsistent
  have hplace : m.place (path ++ [name]) = none := by
    have hchild := hr.child ht hpath h.parent name
    rw [hvacant] at hchild
    exact Option.map_eq_none_iff.mp hchild.symm
  refine ⟨⟨hconsistent, hf⟩, hr.add h.fresh_view (h.view ht hpath fun c hc => ?_),
    PathMap.extends_add hplace node, fun id hid => if_neg hid.ne, h.sameLeaves⟩
  rw [hvacant] at hc
  cases hc

theorem makeDirs_grown (ht : t.WellFormed) (hr : Refines t m slotOf) (hj : t.live j = some dir)
    (hdir : dir.node.isDir)
    (hpath : t.follow root path = some j) {missing : List (List UInt8)}
    (hnames : ∀ name ∈ missing, IsName name)
    (hvacant : ∀ first ∈ missing.head?, dir.children.get first = none) :
    ∃ k t' slotOf' slot, (makeDirs j missing : Prog Tree (Fault ε) Nat).run t = (.ok k, t') ∧
      Grown t t' m ((PathMap.way path missing).foldl (fun m dir => m.add dir .dir) m)
        slotOf slotOf' ∧
      t'.follow root (path ++ missing) = some k ∧ t'.live k = some slot ∧ slot.node.isDir ∧
      (missing ≠ [] → ∀ name, slot.children.get name = none) := by
  induction missing generalizing t j dir m slotOf path with
  | nil =>
    refine ⟨j, t, slotOf, dir, rfl, .refl ht hr, ?_, hj, hdir, fun h => absurd rfl h⟩
    rw [append_nil, hpath]
  | cons part missing ih =>
    obtain ⟨hpart, hnames⟩ := forall_mem_cons.mp hnames
    obtain ⟨new, t₁, t₂, halloc, hput, hattached, hf⟩ :=
      run_attach (ε := ε) ht.free hj hdir hpart (show Node.dir.check = .ok () from rfl)
    have hgrown := hattached.grown ht hr hf hpath (hvacant part rfl)
    have hlive : t₂.live new = some ⟨.dir, .empty, 1⟩ := (hattached.live new).trans (if_pos rfl)
    have hnew : t₂.follow root (path ++ [part]) = some new := by
      rw [hgrown.refines.follow hgrown.wellFormed]
      simp [PathMap.add]
    obtain ⟨k, t', slotOf', slot, hrun, hgrown', hfollow, hslot, hslotDir, hempty⟩ :=
      ih hgrown.wellFormed hgrown.refines hlive rfl hnew hnames (fun _ _ => rfl)
    refine ⟨k, t', slotOf', slot, ?_, hgrown.trans hgrown', ?_, hslot, hslotDir, fun _ => ?_⟩
    · rw [makeDirs, run_bind_ok halloc, run_bind_ok hput, hrun]
    · rw [append_cons, hfollow]
    · cases missing with
      | nil =>
        cases hrun
        cases hlive.symm.trans hslot
        exact fun _ => rfl
      | cons next missing => exact hempty (cons_ne_nil _ _)

theorem descend_refines (ht : t.WellFormed) (hr : Refines t m slotOf)
    (hpath : t.follow root path = some i) (dirs : List (List UInt8)) :
    (∃ j missing slot, t.descend i dirs = .ok (j, missing) ∧ t.live j = some slot ∧
      (missing <:+ dirs) ∧
      (∃ front, path ++ dirs = front ++ missing ∧ t.follow root front = some j ∧
        (slot.node.isDir → m.missing path dirs = .ok (PathMap.way front missing))) ∧
      (slot.node.isDir = false → missing = [] ∧ m.missing path dirs = .error .notADirectory) ∧
      ∀ first ∈ missing.head?, slot.children.get first = none) ∨
    t.descend i dirs = .error (.error .notADirectory) ∧
      m.missing path dirs = .error .notADirectory := by
  induction dirs generalizing i path with
  | nil =>
    obtain ⟨slot, hslot⟩ := Option.isSome_iff_exists.mp (ht.live_of_follow hpath)
    have hdir := hr.isDir hpath hslot
    refine .inl ⟨i, [], slot, rfl, hslot, suffix_refl _, ⟨path, rfl, hpath, fun h => ?_⟩, fun h =>
      ⟨rfl, ?_⟩, fun _ h => nomatch h⟩
    · rw [PathMap.missing, hdir, if_pos h]
      rfl
    · rw [PathMap.missing, hdir, h]
      rfl
  | cons part dirs ih =>
    obtain ⟨slot, hslot⟩ := Option.isSome_iff_exists.mp (ht.live_of_follow hpath)
    have hdir := hr.isDir hpath hslot
    have hchild := hr.child ht hpath hslot part
    rw [descend, slot_of_live hslot, PathMap.missing, hdir]
    change (∃ j missing s, (if slot.node.isDir then _ else _) = _ ∧ _) ∨
      (if slot.node.isDir then _ else _) = _ ∧ _
    by_cases hisDir : slot.node.isDir
    · rw [if_pos hisDir, hisDir, Bool.not_true, if_neg Bool.false_ne_true]
      cases hplace : m.place (path ++ [part]) with
      | none =>
        rw [hplace] at hchild
        rw [hchild]
        refine .inl ⟨i, part :: dirs, slot, rfl, hslot, suffix_refl _,
          ⟨path, rfl, hpath, fun _ => rfl⟩, fun h => ?_, ?_⟩
        · rw [hisDir] at h
          cases h
        · intro first hfirst
          cases hfirst
          exact hchild
      | some id =>
        rw [hplace] at hchild
        rw [hchild]
        have hnext : t.follow root (path ++ [part]) = some (slotOf id) := by
          rw [hr.follow ht, hplace]
          rfl
        rcases ih hnext with ⟨j, missing, s, hrun, hs, hsuffix, ⟨front, hfront, hrest⟩,
          hleaf, hhead⟩ | herror
        · refine .inl ⟨j, missing, s, hrun, hs, hsuffix.trans (suffix_cons _ _),
            ⟨front, ?_, hrest⟩, hleaf, hhead⟩
          rw [append_cons, hfront]
        · exact .inr herror
    · rw [if_neg hisDir, Bool.eq_false_iff.mpr hisDir]
      exact .inr ⟨rfl, rfl⟩

/-- The directory of a path that is free, once those that lead to it are made. -/
structure Parent (t : Tree) (parts : List (List UInt8)) (k : Nat) (dir : Slot)
    (front : List (List UInt8)) (name : List UInt8) :
    Prop where
  parts : parts = front ++ [name]
  isName : IsName name
  follow : t.follow root front = some k
  live : t.live k = some dir
  isDir : dir.node.isDir
  vacant : dir.children.get name = none

theorem parentFor_refines (ht : t.WellFormed) (hr : Refines t m slotOf)
    {parts : List (List UInt8)} (hnames : ∀ name ∈ parts, IsName name) :
    (∃ k t' m' slotOf' dir front name, (parentFor parts).run t = (.ok k, t') ∧
      m.withParents parts = .ok m' ∧
      Grown t t' m m' slotOf slotOf' ∧ Parent t' parts k dir front name) ∨
    ∃ kind, (parentFor parts).run t = (.error (.error kind), t) ∧
      m.withParents parts = .error kind := by
  rcases eq_nil_or_concat' parts with rfl | ⟨front, name, rfl⟩
  · exact .inr ⟨_, rfl, rfl⟩
  have hname : IsName name := hnames name mem_concat_self
  have hparents : m.withParents (front ++ [name]) = (do
      let missing ← m.missing [] front
      if missing = [] ∧ (m.place (front ++ [name])).isSome then .error .alreadyExists
      else .ok (missing.foldl (fun m dir => m.add dir .dir) m)) := by
    rw [PathMap.withParents, if_neg (by simp), dropLast_concat]
  rw [hparents, parentFor, getLast?_concat, dropLast_concat]
  dsimp only
  rw [run_bind_ok (run_gets _ _), id]
  rcases descend_refines ht hr (show t.follow root [] = some root from rfl) front with
    ⟨j, missing, slot, hdescend, hslot, hsuffix, ⟨start, hstart, hfollow, hmissing⟩, hleaf,
      hhead⟩ | ⟨herror, herror'⟩
  · rw [hdescend, run_bind_ok (a := (j, missing)) (t := t) rfl]
    dsimp only
    rw [slot_of_live hslot, run_bind_ok (a := slot) (t := t) rfl]
    cases hdir : slot.node.isDir with
    | false =>
      rw [(hleaf hdir).2]
      exact .inr ⟨_, rfl, rfl⟩
    | true =>
      rw [hmissing hdir, Bool.not_true, if_neg Bool.false_ne_true, ok_bind]
      by_cases hnone : missing = []
      · subst hnone
        obtain rfl : front = start := by simpa using hstart
        have hchild := hr.child ht hfollow hslot name
        rw [if_pos rfl, hchild]
        cases hplace : m.place (front ++ [name]) with
        | none =>
          refine .inl ⟨j, t, m, slotOf, slot, front, name, rfl, rfl, .refl ht hr, rfl, hname,
            hfollow, hslot, hdir, ?_⟩
          rw [hchild, hplace]
          rfl
        | some id => exact .inr ⟨_, rfl, rfl⟩
      · have hway : PathMap.way start missing ≠ [] := by
          cases missing with
          | nil => exact absurd rfl hnone
          | cons part missing => exact cons_ne_nil _ _
        have hin : ∀ name ∈ missing, IsName name := fun other hother =>
          hnames other (mem_append_left _ (hsuffix.subset hother))
        rw [if_neg hnone, if_neg fun hexists => hway hexists.1]
        obtain ⟨k, t', slotOf', slot', hrun, hgrown, hfollow', hslot', hdir', hempty⟩ :=
          makeDirs_grown (ε := ErrorKind) ht hr hslot hdir hfollow hin hhead
        refine .inl ⟨k, t', _, slotOf', slot', front, name, hrun, rfl, hgrown, rfl, hname, ?_,
          hslot', hdir', hempty hnone name⟩
        rw [← hfollow', ← hstart, nil_append]
  · rw [herror, herror']
    exact .inr ⟨_, rfl, rfl⟩

/-- A call does to a tree what it does to the map. -/
def Simulated (x : Prog Tree (Fault PathError) Unit) (y : Except PathError PathMap) (t : Tree) :
    Prop :=
  (∃ t' m' slotOf', x.run t = (.ok (), t') ∧ y = .ok m' ∧ t'.WellFormed ∧ Refines t' m' slotOf') ∨
    ∃ e, x.run t = (.error (.error e), t) ∧ y = .error e

theorem findAt_refines (ht : t.WellFormed) (hr : Refines t m slotOf)
    (message : String) (path : List UInt8) (names : List (List UInt8)) :
    (∃ id slot, (about message path (ofExcept (t.find root names))).run t = (.ok (slotOf id), t) ∧
      PathMap.about message path (m.seek [] names) = .ok id ∧ t.live (slotOf id) = some slot ∧
      m.node id = slot.node ∧
      m.place names = some id ∧ t.follow root names = some (slotOf id)) ∨
    ∃ e, (about message path (ofExcept (t.find root names))).run t = (.error (.error e), t) ∧
      PathMap.about message path (m.seek [] names) = .error e := by
  have hfind := hr.find ht (show t.follow root [] = some root from rfl) names
  cases hseek : m.seek [] names with
  | error kind =>
    rw [hseek] at hfind
    rw [hfind]
    exact .inr ⟨pathError kind message path, rfl, rfl⟩
  | ok id =>
    rw [hseek] at hfind
    rw [hfind]
    have hplace : m.place names = some id := PathMap.place_of_seek hseek
    have hfollow : t.follow root names = some (slotOf id) := by
      rw [hr.follow ht, hplace]
      rfl
    obtain ⟨slot, hslot⟩ := Option.isSome_iff_exists.mp (ht.live_of_follow hfollow)
    obtain ⟨other, hother, -, hnode⟩ := hr.held hfollow hslot
    cases hplace.symm.trans hother
    exact .inl ⟨id, slot, rfl, rfl, hslot, hnode, hplace, hfollow⟩

theorem checkNode_refines (node : Node) (path : List UInt8) (t : Tree) :
    (node.check = .ok () ∧ (checkNode node path).run t = (.ok (), t) ∧
      PathMap.checkNode node path = .ok ()) ∨
      ∃ e, (checkNode node path).run t = (.error (.error e), t) ∧
        PathMap.checkNode node path = .error e := by
  rw [checkNode, PathMap.checkNode]
  cases hcheck : node.check with
  | ok a => exact .inl ⟨rfl, rfl, rfl⟩
  | error kind => exact .inr ⟨_, rfl, rfl⟩

theorem parts_refines (path : List UInt8) (t : Tree) :
    (∃ names, components path = .ok names ∧ (parts path).run t = (.ok names, t) ∧
      ∀ name ∈ names, IsName name) ∨
      ∃ e, (parts path).run t = (.error (.error e), t) ∧ components path = .error e := by
  cases hparts : components path with
  | ok names =>
    refine .inl ⟨names, rfl, ?_, isName_of_components hparts⟩
    rw [parts, hparts]
    rfl
  | error e =>
    refine .inr ⟨e, ?_, rfl⟩
    rw [parts, hparts]
    rfl

theorem insert_refines (ht : t.WellFormed) (hr : Refines t m slotOf)
    (path : List UInt8) (node : Node) :
    Simulated (insert path node) (m.insert path node) t := by
  rw [insert, PathMap.insert]
  rcases checkNode_refines node path t with ⟨hnode, hcheck, hcheck'⟩ | ⟨e, he, he'⟩
  · rw [Simulated, run_bind_ok hcheck, hcheck', ok_bind]
    rcases parts_refines path t with ⟨names, hnames', hparts, hnames⟩ | ⟨e, he, he'⟩
    · rw [run_bind_ok hparts, hnames', ok_bind]
      rcases parentFor_refines ht hr hnames with
        ⟨k, t₁, m₁, slotOf₁, dir, front, name, hrun, hparents, hgrown,
          hparent⟩ | ⟨kind, herror, herror'⟩
      · obtain ⟨rfl, hname, hfollow, hlive, hdir, hvacant⟩ := hparent
        obtain ⟨new, t₂, t₃, halloc, hput, hattached, hf⟩ :=
          run_attach (ε := PathError) hgrown.wellFormed.free hlive hdir hname hnode
        have hadded := hattached.grown hgrown.wellFormed hgrown.refines hf hfollow hvacant
        refine .inl ⟨t₃, m₁.add (front ++ [name]) node, _, ?_, ?_,
          hadded.wellFormed, hadded.refines⟩
        · rw [run_bind_ok (about_ok hrun), run_bind_ok halloc, getLast?_concat,
            Option.getD_some, run_bind_ok hput, run_pure]
        · rw [hparents]
          rfl
      · rw [run_bind_error (about_error herror), herror']
        exact .inr ⟨_, rfl, rfl⟩
    · rw [run_bind_error he, he']
      exact .inr ⟨e, rfl, rfl⟩
  · rw [Simulated, run_bind_error he, he']
    exact .inr ⟨e, rfl, rfl⟩

theorem Refines.share (hr : Refines t m slotOf) {held : List (List UInt8)} {id : Nat}
    (hheld : m.place held = some id)
    (hview : ∀ q, t'.view q = if q = path then some (slotOf id, m.node id) else t.view q) :
    Refines t' (m.share path id) slotOf := by
  have hplace (q : List (List UInt8)) (a : Nat) (hq : (m.share path id).place q = some a) :
      ∃ q', m.place q' = some a := by
    by_cases hpath : q = path
    · have ha := (if_pos hpath).symm.trans hq
      exact ⟨held, hheld.trans ha⟩
    · exact ⟨q, (if_neg hpath).symm.trans hq⟩
  refine ⟨fun q => ?_, fun p q a b hp hq heq => ?_, fun q a hq => ?_⟩
  · rw [hview, PathMap.share]
    by_cases hpath : q = path
    · simp [hpath]
    · simp only [if_neg hpath, hr.view q]
  · obtain ⟨p', hp'⟩ := hplace p a hp
    obtain ⟨q', hq'⟩ := hplace q b hq
    exact hr.inj p' q' a b hp' hq' heq
  · obtain ⟨q', hq'⟩ := hplace q a hq
    exact hr.bound q' a hq'

theorem link_refines (ht : t.WellFormed) (hr : Refines t m slotOf) (existing new : List UInt8) :
    Simulated (link existing new) (m.link existing new) t := by
  rw [link, PathMap.link, Simulated, run_bind_ok (a := t) (t := t) rfl]
  rcases parts_refines existing t with ⟨held, hheld, hparts, -⟩ | ⟨e, he, he'⟩
  · rw [run_bind_ok hparts, hheld, ok_bind]
    rcases findAt_refines ht hr "the link target does not exist" existing held with
      ⟨shared, slot, hfind, hseek, hslot, hnode, hplace, -⟩ | ⟨e, he, he'⟩
    · rw [run_bind_ok hfind, slot_of_live hslot, run_bind_ok (a := slot) (t := t) rfl,
        hseek, ok_bind, hnode]
      cases hleaf : slot.node.isDir with
      | true => exact .inr ⟨_, rfl, rfl⟩
      | false =>
        rw [if_neg Bool.false_ne_true, if_neg Bool.false_ne_true]
        rcases parts_refines new t with ⟨names, hnames', hparts, hnames⟩ | ⟨e, he, he'⟩
        · rw [run_bind_ok hparts, hnames', ok_bind]
          rcases parentFor_refines ht hr hnames with
            ⟨k, t₁, m₁, slotOf₁, dir, front, name, hrun, hparents, hgrown,
              hparent⟩ | ⟨kind, herror, herror'⟩
          · obtain ⟨rfl, hname, hfollow, hk, hdir, hvacant⟩ := hparent
            have hslot₁ := hgrown.leaves hslot hleaf
            have hne : slotOf shared ≠ k := by
              rintro rfl
              cases hslot₁.symm.trans hk
              rw [hdir] at hleaf
              cases hleaf
            have hslot₂ :=
              (set_live hk { dir with children := dir.children.insert name (slotOf shared) }
                (slotOf shared)).trans
              ((if_neg hne).trans hslot₁)
            have hnamed :
              Named t₁
                ((t₁.set k { dir with children := dir.children.insert name (slotOf shared) }).set
                  (slotOf shared)
                { slot with links := slot.links + 1 }) k (slotOf shared) name dir slot :=
              ⟨hk, hdir, hname, hvacant, hslot₁, hleaf,
                fun i => by rw [set_live hslot₂, set_live hk]⟩
            have hid := hr.bound held shared hplace
            have hview :
              ∀ q,
              ((t₁.set k { dir with children := dir.children.insert name (slotOf shared) }).set
                (slotOf shared)
                { slot with links := slot.links + 1 }).view q =
                  if q = front ++ [name] then some (slotOf₁ shared, m₁.node shared)
                    else t₁.view q := fun q => by
              rw [hgrown.slotOf shared hid, hgrown.extends_.node shared hid, hnode]
              exact hnamed.view hgrown.wellFormed hfollow q
            refine .inl ⟨_, m₁.share (front ++ [name]) shared, slotOf₁, ?_, ?_,
              ⟨hnamed.consistent hgrown.wellFormed.consistent,
                (hgrown.wellFormed.free.set hk _).set hslot₂ _⟩, ?_⟩
            · rw [run_bind_ok (about_ok hrun), getLast?_concat, Option.getD_some,
                run_bind_ok (run_putChild hk _ _),
                run_bind_ok (run_gets _ _), id, slot_of_live hslot₂, run_bind_ok (a := slot) rfl,
                  run_modify]
            · rw [hparents]
              rfl
            · exact hgrown.refines.share (hgrown.extends_.place held shared hplace) hview
          · rw [run_bind_error (about_error herror), herror']
            exact .inr ⟨_, rfl, rfl⟩
        · rw [run_bind_error he, he']
          exact .inr ⟨e, rfl, rfl⟩
    · rw [run_bind_error he, he']
      exact .inr ⟨e, rfl, rfl⟩
  · rw [run_bind_error he, he']
    exact .inr ⟨e, rfl, rfl⟩

theorem Dropped.follow (ht : t.WellFormed) (h : Dropped t t' j c name dir) (hdir : dir.node.isDir)
    (hpath : t.follow root path = some j) (q : List (List UInt8)) :
    t'.follow root q = if path ++ [name] <+: q then none else t.follow root q := by
  induction q using reverseRecOn with
  | nil =>
    rw [if_neg fun hprefix => by simpa using hprefix.length_le]
    rfl
  | append_singleton q n ih =>
    rw [follow_concat, follow_concat, ih]
    by_cases hq : path ++ [name] <+: q
    · rw [if_pos hq, if_pos (hq.trans (prefix_append q [n]))]
      rfl
    · rw [if_neg hq]
      by_cases hqn : path ++ [name] = q ++ [n]
      · obtain ⟨rfl, hn⟩ := append_inj' hqn rfl
        cases hn
        rw [if_pos (prefix_refl _), hpath, Option.bind_some, h.child, if_pos ⟨rfl, rfl⟩]
      · rw [if_neg fun hprefix => (prefix_concat_iff.mp hprefix).elim hqn hq]
        cases hfollow : t.follow root q with
        | none => rfl
        | some k =>
          rw [Option.bind_some, Option.bind_some, h.child, if_neg]
          rintro ⟨rfl, rfl⟩
          exact hqn (congrArg (· ++ [n]) (ht.path_unique h.parent hdir hpath hfollow))

theorem Dropped.view_below (ht : t.WellFormed) (h : Dropped t t' j c name dir)
    (hdir : dir.node.isDir) (hpath : t.follow root path = some j) (q : List (List UInt8)) :
    t'.view q = if path ++ [name] <+: q then none else t.view q := by
  rw [Tree.view, h.follow ht hdir hpath]
  split
  · rfl
  · rw [Tree.view]
    cases t.follow root q with
    | none => rfl
    | some k =>
      rw [Option.bind_some, Option.bind_some, h.live]
      split
      · rename_i hk
        rw [hk, h.parent]
        rfl
      · rfl

theorem Refines.erase (hr : Refines t m slotOf)
    (hview : ∀ q, t'.view q = if path <+: q then none else t.view q) :
    Refines t' (m.erase path) slotOf := by
  have hplace (q : List (List UInt8)) (id : Nat) (hq : (m.erase path).place q = some id) :
      m.place q = some id := by
    by_cases hpath : path <+: q
    · cases (if_pos hpath).symm.trans hq
    · exact (if_neg hpath).symm.trans hq
  refine ⟨fun q => ?_, fun p q a b hp hq => hr.inj p q a b (hplace p a hp) (hplace q b hq),
    fun q id hq => hr.bound q id (hplace q id hq)⟩
  rw [hview, PathMap.erase, hr.view q]
  simp only
  split <;> rfl

theorem remove_refines (ht : t.WellFormed) (hr : Refines t m slotOf) (path : List UInt8) :
    Simulated (remove path) (m.remove path) t := by
  rw [remove, PathMap.remove, Simulated]
  rcases parts_refines path t with ⟨names, hnames, hparts, -⟩ | ⟨e, he, he'⟩
  · rw [run_bind_ok hparts, hnames, ok_bind]
    rcases eq_nil_or_concat' names with rfl | ⟨front, name, rfl⟩
    · exact .inr ⟨_, rfl, rfl⟩
    rw [if_neg (append_ne_nil_of_right_ne_nil _ (cons_ne_nil _ _)),
      getLast?_concat, dropLast_concat]
    dsimp only
    rw [run_bind_ok (run_gets _ _), id]
    rcases findAt_refines ht hr "no such path in the tree" path front with
      ⟨parent, slot, hfind, hseek, hslot, hnode, -, hfollow⟩ | ⟨e, he, he'⟩
    · rw [run_bind_ok hfind, slot_of_live hslot, run_bind_ok (a := slot) (t := t) rfl,
        hseek, ok_bind, hnode]
      have hchild := hr.child ht hfollow hslot name
      cases hdir : slot.node.isDir with
      | false => exact .inr ⟨_, rfl, rfl⟩
      | true =>
        rw [Bool.not_true, if_neg Bool.false_ne_true, if_neg Bool.false_ne_true, hchild]
        cases hplace : m.place (front ++ [name]) with
        | none => exact .inr ⟨_, rfl, rfl⟩
        | some id =>
          rw [hplace] at hchild
          have hdropped :
            Dropped t (t.set (slotOf parent) { slot with children := slot.children.erase name })
            (slotOf parent) (slotOf id) name slot := ⟨hslot, hchild, set_live hslot _⟩
          obtain ⟨t', hrun, ht', hview⟩ :=
            run_unlink_view (ε := PathError) (hdropped.consistent ht.consistent)
              (ht.free.set hslot _)
          refine .inl ⟨t', m.erase (front ++ [name]), slotOf,
            (run_bind_ok (run_modify _ _) _).trans hrun, rfl, ht', ?_⟩
          exact hr.erase fun q => (hview q).trans (hdropped.view_below ht hdir hfollow q)
    · rw [run_bind_error he, he']
      exact .inr ⟨e, rfl, rfl⟩
  · rw [run_bind_error he, he']
    exact .inr ⟨e, rfl, rfl⟩

theorem Refines.retag (hr : Refines t m slotOf) {id : Nat} (hpath : m.place path = some id)
    (hlive : t.live (slotOf id) = some slot) :
    Refines (t.set (slotOf id) { slot with node := node }) (m.retag id node) slotOf := by
  refine ⟨fun q => ?_, hr.inj, hr.bound⟩
  have hset := set_live hlive { slot with node := node }
  have hchild (k : Nat) (n : List UInt8) :
      (t.set (slotOf id) { slot with node := node }).child k n = t.child k n := by
    rw [Tree.child, hset]
    split
    · rename_i hk
      rw [hk, child_of_live hlive]
      rfl
    · rfl
  have hold := hr.view q
  rw [Tree.view] at hold
  rw [Tree.view, follow_congr hchild root q, PathMap.retag]
  cases hq : m.place q with
  | none =>
    rw [hq] at hold
    cases hfollow : t.follow root q with
    | none => rfl
    | some k =>
      rw [hfollow, Option.bind_some, Option.map_none, Option.map_eq_none_iff] at hold
      rw [Option.bind_some, hset, if_neg, hold]
      · rfl
      · intro hk
        rw [hk, hlive] at hold
        cases hold
  | some other =>
    rw [hq] at hold
    obtain ⟨hfollow, s, hs, hnode⟩ := view_eq_some.mp hold
    rw [hfollow, Option.bind_some, hset]
    by_cases hid : other = id
    · simp [hid]
    · rw [if_neg fun heq => hid (hr.inj q path other id hq hpath heq), hs]
      simp [hid, hnode]

theorem Refines.isEmpty (ht : t.WellFormed) (hr : Refines t m slotOf)
    (hpath : t.follow root path = some i)
    (hi : t.live i = some slot) : slot.children.isEmpty = true ↔
      ¬ ∃ name, (m.place (path ++ [name])).isSome := by
  rw [SortedMap.isEmpty_iff, not_exists]
  refine forall_congr' fun name => ?_
  rw [hr.child ht hpath hi, Option.map_eq_none_iff, Option.not_isSome_iff_eq_none]

theorem replace_refines (ht : t.WellFormed) (hr : Refines t m slotOf)
    (path : List UInt8) (node : Node) :
    Simulated (replace path node) (m.replace path node) t := by
  rw [replace, PathMap.replace, Simulated]
  rcases checkNode_refines node path t with ⟨hnode, hcheck, hcheck'⟩ | ⟨e, he, he'⟩
  · rw [run_bind_ok hcheck, hcheck', ok_bind]
    rcases parts_refines path t with ⟨names, hnames', hparts, hnames⟩ | ⟨e, he, he'⟩
    · rw [run_bind_ok hparts, hnames', ok_bind, run_bind_ok (run_gets _ _), id]
      rcases findAt_refines ht hr "no such path in the tree" path names with
        ⟨id, slot, hfind, hseek, hslot, hheld, hplace, hfollow⟩ | ⟨e, he, he'⟩
      · rw [run_bind_ok hfind, slot_of_live hslot, run_bind_ok (a := slot) (t := t) rfl,
          hseek, ok_bind, hheld]
        by_cases hdirs : slot.node.isDir ∧ node.isDir
        · rw [if_pos hdirs, if_pos hdirs]
          exact .inl ⟨_, m.retag id node, slotOf, rfl, rfl,
            ⟨ht.consistent.retag hslot hdirs.1 hdirs.2 hnode (set_live hslot _),
              ht.free.set hslot _⟩, hr.retag hplace hslot⟩
        · rw [if_neg hdirs, if_neg hdirs]
          have hbelow := hr.isEmpty ht hfollow hslot
          cases hempty : slot.children.isEmpty with
          | false =>
            rw [hempty] at hbelow
            rw [if_pos (not_not.mp (mt hbelow.mpr Bool.false_ne_true))]
            exact .inr ⟨_, rfl, rfl⟩
          | true =>
            rw [if_neg (hbelow.mp hempty), Bool.not_true, if_neg Bool.false_ne_true]
            rcases eq_nil_or_concat' names with rfl | ⟨front, name, rfl⟩
            · exact .inr ⟨_, rfl, rfl⟩
            rw [if_neg (append_ne_nil_of_right_ne_nil _ (cons_ne_nil _ _)), getLast?_concat,
              dropLast_concat]
            have hparent := hfollow
            rw [follow_concat] at hparent
            obtain ⟨parent, hparent, hchild⟩ := Option.bind_eq_some_iff.mp hparent
            obtain ⟨dir, hdir, hget⟩ := child_eq_some.mp hchild
            have hfindParent :
                (about "no such path in the tree" path (ofExcept (t.find root front))).run t =
                  (.ok parent, t) := by
              refine about_ok ?_
              rw [(find_of_follow ht.consistent ht.root_live hparent).1]
              rfl
            obtain ⟨new, t₁, t₂, halloc, hput, hattached, hf⟩ :=
              run_attach (ε := PathError) ht.free hdir
              (ht.consistent.dir hdir hget) (hnames name mem_concat_self) hnode
            have hview := hattached.view ht hparent fun c hc n => by
              rw [hget] at hc
              cases hc
              rw [child_of_live hslot, (SortedMap.isEmpty_iff _).mp hempty]
            have hconsistent := hattached.consistent ht.consistent
            rw [hget] at hput hconsistent
            obtain ⟨t', hrun, ht', hsame⟩ := run_unlink_view (ε := PathError) hconsistent hf
            refine .inl ⟨t', m.add (front ++ [name]) node, _, ?_, rfl, ht',
              hr.add hattached.fresh_view fun q => (hsame q).trans (hview q)⟩
            dsimp only
            rw [run_bind_ok hfindParent, run_bind_ok halloc, run_bind_ok hput]
            exact hrun
      · rw [run_bind_error he, he']
        exact .inr ⟨e, rfl, rfl⟩
    · rw [run_bind_error he, he']
      exact .inr ⟨e, rfl, rfl⟩
  · rw [run_bind_error he, he']
    exact .inr ⟨e, rfl, rfl⟩

theorem Call.refines (ht : t.WellFormed) (hr : Refines t m slotOf) (call : Call) :
    Simulated call.prog (m.call call) t := by
  cases call with
  | insert path node => exact insert_refines ht hr path node
  | link existing new => exact link_refines ht hr existing new
  | remove path => exact remove_refines ht hr path
  | replace path node => exact replace_refines ht hr path node

end Hadris.Tree

namespace Hadris.Tree

variable {t t' : Tree} {m m' : PathMap} {slotOf : Nat → Nat}

def answers (t : Tree) : List Call → List (Except (Fault PathError) Unit) × Tree
  | [] => ([], t)
  | call :: calls =>
    let (result, t) := call.prog.run t
    let (results, t) := t.answers calls
    (result :: results, t)

noncomputable def PathMap.answers (m : PathMap) :
    List Call → List (Except PathError Unit) × PathMap
  | [] => ([], m)
  | call :: calls =>
    match m.call call with
    | .ok m =>
      let (results, m) := m.answers calls
      (.ok () :: results, m)
    | .error e =>
      let (results, m) := m.answers calls
      (.error e :: results, m)

theorem view_new (q : List (List UInt8)) :
    new.view q = if q = [] then some (root, .dir) else none := by
  cases q with
  | nil => rfl
  | cons name q =>
    rw [view, follow, child_new]
    rfl

theorem refines_new : Refines new PathMap.new fun _ => root := by
  have hplace (q : List (List UInt8)) (id : Nat) (hq : PathMap.new.place q = some id) :
      id = 0 := by
    by_cases hpath : q = []
    · exact (Option.some.inj ((if_pos hpath).symm.trans hq)).symm
    · cases (if_neg hpath).symm.trans hq
  refine ⟨fun q => ?_, fun p q a b hp hq _ => (hplace p a hp).trans (hplace q b hq).symm,
    fun q id hq => ?_⟩
  · rw [view_new, PathMap.new]
    dsimp only
    split <;> rfl
  · rw [hplace q id hq]
    exact Nat.zero_lt_one

theorem answers_refines (ht : t.WellFormed) (hr : Refines t m slotOf) (calls : List Call) :
    (t.answers calls).1 = (m.answers calls).1.map (·.mapError .error) ∧
      (t.answers calls).2.WellFormed ∧
      ∃ slotOf', Refines (t.answers calls).2 (m.answers calls).2 slotOf' := by
  induction calls generalizing t m slotOf with
  | nil => exact ⟨rfl, ht, slotOf, hr⟩
  | cons call calls ih =>
    rw [answers, PathMap.answers]
    rcases call.refines ht hr with ⟨t', m', slotOf', hrun, hcall, ht', hr'⟩ | ⟨e, hrun, hcall⟩
    · obtain ⟨hresults, hrest⟩ := ih ht' hr'
      simp only [hrun, hcall]
      exact ⟨congrArg (_ :: ·) hresults, hrest⟩
    · obtain ⟨hresults, hrest⟩ := ih ht hr
      simp only [hrun, hcall]
      exact ⟨congrArg (_ :: ·) hresults, hrest⟩

end Hadris.Tree
