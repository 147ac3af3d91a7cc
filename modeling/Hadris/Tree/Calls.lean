import Hadris.Numbered
import Hadris.Tree
import Hadris.Tree.Unlink

namespace Hadris

open List

def joined (names : List (List UInt8)) : List UInt8 := [0x2F].intercalate names

theorem componentsOf_names {path : List UInt8} (first : Bool) {names : List (List UInt8)}
    (h : ∀ name ∈ names, IsName name) : componentsOf path first names = .ok names := by
  induction names generalizing first with
  | nil => rfl
  | cons name names ih =>
    obtain ⟨hname, hnames⟩ := forall_mem_cons.mp h
    rw [componentsOf, if_neg hname.ne_nil, if_neg (fun h => hname.ne_dot h.1),
      if_neg (not_or.mpr ⟨hname.ne_dot, hname.ne_dots⟩), if_neg hname.no_nul, ih false hnames]
    rfl

theorem components_joined {names : List (List UInt8)} (h : ∀ name ∈ names, IsName name) :
    components (joined names) = .ok names := by
  cases names with
  | nil => rfl
  | cons name names =>
    rw [components, joined, splitOn_intercalate _ (fun name hmem => (h name hmem).no_separator)
      (cons_ne_nil _ _)]
    exact componentsOf_names true h

theorem joined_inj {names names' : List (List UInt8)} (h : ∀ name ∈ names, IsName name)
    (h' : ∀ name ∈ names', IsName name) (heq : joined names = joined names') :
    names = names' := by
  have hcomponents := components_joined h
  rw [heq, components_joined h'] at hcomponents
  cases hcomponents
  rfl

theorem isName_of_componentsOf {path : List UInt8} {first : Bool}
    {parts names : List (List UInt8)}
    (h : componentsOf path first parts = .ok names) (hparts : ∀ part ∈ parts, 0x2F ∉ part) :
    ∀ name ∈ names, IsName name := by
  induction parts generalizing first names with
  | nil =>
    cases h
    exact fun _ h => nomatch h
  | cons part parts ih =>
    obtain ⟨hpart, hparts⟩ := forall_mem_cons.mp hparts
    rw [componentsOf] at h
    split at h
    · exact ih h hparts
    · rename_i hempty
      split at h
      · exact ih h hparts
      · split at h
        · cases h
        · rename_i hdots
          split at h
          · cases h
          · rename_i hnul
            cases hrest : componentsOf path false parts with
            | error e =>
              rw [hrest] at h
              cases h
            | ok rest =>
              rw [hrest] at h
              cases h
              obtain ⟨hdot, hdots⟩ := not_or.mp hdots
              exact forall_mem_cons.mpr ⟨⟨hempty, hdot, hdots, hpart, hnul⟩, ih hrest hparts⟩

theorem isName_of_components {path : List UInt8} {names : List (List UInt8)}
    (h : components path = .ok names) :
    ∀ name ∈ names, IsName name :=
  isName_of_componentsOf h fun _ => not_mem_splitOn

end Hadris

namespace Hadris.Tree

open List

open Prog

variable {t t' : Tree} {cut : List Nat} {i j : Nat} {name : List UInt8}
  {dir slot : Slot} {node : Node}
variable {ε : Type}

theorem slot_of_live (h : t.live i = some slot) :
    (t.slot i : Except (Fault ε) Slot) = .ok slot := by
  rw [Tree.slot, h]

theorem run_alloc (hf : t.FreeList) (node : Node) :
    ∃ new t', (alloc node : Prog Tree (Fault ε) Nat).run t = (.ok new, t') ∧
      t.live new = none ∧ t'.FreeList ∧
      ∀ k, t'.live k = if k = new then some ⟨node, .empty, 1⟩ else t.live k := by
  rw [alloc, run_bind_ok (a := t) (t := t) rfl]
  cases hfree : t.free with
  | nil =>
    refine ⟨t.slots.length, _, rfl, ?_, ?_, ?_⟩
    · rw [live, getElem?_eq_none (Nat.le_refl _)]
      rfl
    · refine ⟨hf.nodup, fun k => ?_⟩
      have hnone := hf.mem k
      rw [hfree] at hnone
      change k ∈ t.free ↔ k < (t.slots ++ [_]).length ∧ (t.slots ++ [_])[k]?.join = none
      rw [hfree, length_append, length_singleton]
      constructor
      · intro hmem
        cases hmem
      · rintro ⟨hlt, hnone'⟩
        rcases Nat.lt_or_eq_of_le (Nat.le_of_lt_succ hlt) with hlt | rfl
        · rw [getElem?_append_left hlt] at hnone'
          exact hnone.mpr ⟨hlt, hnone'⟩
        · rw [getElem?_concat_length] at hnone'
          cases hnone'
    · intro k
      change (t.slots ++ [_])[k]?.join = _
      split
      · rename_i hk
        rw [hk, getElem?_concat_length]
        rfl
      · rename_i hk
        rcases Nat.lt_or_ge k t.slots.length with hlt | hge
        · rw [getElem?_append_left hlt]
          rfl
        · have hlong : (t.slots ++ [some (⟨node, .empty, 1⟩ : Slot)]).length ≤ k := by
            rw [length_append, length_singleton]
            omega
          rw [live, getElem?_eq_none hlong, getElem?_eq_none hge]
  | cons index free =>
    have hindex := (hf.mem index).mp (by rw [hfree]; exact mem_cons_self)
    have hlive : ∀ k, ({ (t.set index ⟨node, .empty, 1⟩) with free := free } : Tree).live k =
        if k = index then some ⟨node, .empty, 1⟩ else t.live k := by
      intro k
      change (t.slots.set index _)[k]?.join = _
      rw [getElem?_set, if_pos hindex.1]
      split
      · rename_i hk
        rw [if_pos hk.symm]
        rfl
      · rename_i hk
        rw [if_neg (Ne.symm hk)]
        rfl
    have hnodup := hf.nodup
    rw [hfree, nodup_cons] at hnodup
    refine ⟨index, _, rfl, hindex.2, ⟨hnodup.2, fun k => ?_⟩, hlive⟩
    rw [hlive]
    change k ∈ free ↔ k < (t.slots.set index _).length ∧ _
    have hmem := hf.mem k
    rw [hfree, mem_cons] at hmem
    rw [length_set]
    split
    · rename_i hk
      rw [hk]
      simp [hnodup.1]
    · rename_i hk
      rw [← hmem]
      simp [hk]

theorem run_putChild (hj : t.live j = some dir) (name : List UInt8) (child : Nat) :
    (putChild j name child : Prog Tree (Fault ε) (Option Nat)).run t =
      (.ok (dir.children.get name), t.set j
        { dir with children := dir.children.insert name child }) := by
  rw [putChild, run_bind_ok (a := t) (t := t) rfl, slot_of_live hj]
  rfl

theorem run_attach (hf : t.FreeList) (hj : t.live j = some dir) (hdir : dir.node.isDir)
    (hname : IsName name) (hnode : node.check = .ok ()) :
    ∃ new t₁ t₂, (alloc node : Prog Tree (Fault ε) Nat).run t = (.ok new, t₁) ∧
      (putChild j name new : Prog Tree (Fault ε) (Option Nat)).run t₁ =
        (.ok (dir.children.get name), t₂) ∧
      Attached t t₂ j new name dir node ∧ t₂.FreeList := by
  obtain ⟨new, t₁, halloc, hnew, hf₁, hlive⟩ := run_alloc (ε := ε) hf node
  have hne : j ≠ new := by
    rintro rfl
    cases hnew.symm.trans hj
  have hj₁ : t₁.live j = some dir := (hlive j).trans ((if_neg hne).trans hj)
  refine ⟨new, t₁, _, halloc, run_putChild hj₁ name new, ⟨hj, hdir, hname, hnew, hnode, ?_⟩,
    hf₁.set hj₁ _⟩
  intro k
  rw [set_live hj₁, hlive]
  by_cases hk : k = new
  · rw [if_pos hk, if_neg (fun hkj => hne (hkj.symm.trans hk)), if_pos hk]
  · rw [if_neg hk]
    split <;> rfl

theorem find_child (hi : t.live i = some slot) (hdir : slot.node.isDir) {c : Nat}
    (hc : slot.children.get name = some c) (path : List (List UInt8)) :
    t.find i (name :: path) = t.find c path := by
  rw [find, slot_of_live hi]
  change (if slot.node.isDir then _ else _) = _
  rw [if_pos hdir, hc]

theorem find_missing (hi : t.live i = some slot) (hc : slot.children.get name = none)
    (path : List (List UInt8)) : ∃ kind, t.find i (name :: path) = .error (.error kind) := by
  rw [find, slot_of_live hi]
  change ∃ kind, (if slot.node.isDir then _ else _) = _
  rw [hc]
  split
  · exact ⟨_, rfl⟩
  · exact ⟨_, rfl⟩

theorem find_cases (ht : t.Consistent cut) (hi : (t.live i).isSome) (path : List (List UInt8)) :
    (∃ j, t.find i path = .ok j ∧ t.follow i path = some j ∧ (t.live j).isSome) ∨
      ∃ kind, t.find i path = .error (.error kind) ∧ t.follow i path = none := by
  induction path generalizing i with
  | nil => exact .inl ⟨i, rfl, rfl, hi⟩
  | cons part path ih =>
    obtain ⟨slot, hslot⟩ := Option.isSome_iff_exists.mp hi
    rw [follow, child_of_live hslot]
    cases hget : slot.children.get part with
    | none =>
      obtain ⟨kind, hkind⟩ := find_missing hslot hget path
      exact .inr ⟨kind, hkind, rfl⟩
    | some c =>
      rw [find_child hslot (ht.dir hslot hget) hget]
      exact ih (ht.child ((child_of_live hslot part).trans hget)).2.2

theorem find_of_follow (ht : t.Consistent cut) (hi : (t.live i).isSome) {path : List (List UInt8)}
    (h : t.follow i path = some j) : t.find i path = .ok j ∧ (t.live j).isSome := by
  rcases find_cases ht hi path with ⟨k, hfind, hfollow, hk⟩ | ⟨_, _, hnone⟩
  · cases h.symm.trans hfollow
    exact ⟨hfind, hk⟩
  · cases h.symm.trans hnone

theorem descend_cases (ht : t.Consistent cut) (hi : (t.live i).isSome)
    (dirs : List (List UInt8)) :
    (∃ j missing slot, t.descend i dirs = .ok (j, missing) ∧ t.live j = some slot ∧
      (missing <:+ dirs) ∧
      ∀ first ∈ missing.head?, slot.node.isDir ∧ slot.children.get first = none) ∨
      ∃ kind, t.descend i dirs = .error (.error kind) := by
  induction dirs generalizing i with
  | nil =>
    obtain ⟨slot, hslot⟩ := Option.isSome_iff_exists.mp hi
    exact .inl ⟨i, [], slot, rfl, hslot, suffix_refl _, fun _ h => nomatch h⟩
  | cons part dirs ih =>
    obtain ⟨slot, hslot⟩ := Option.isSome_iff_exists.mp hi
    rw [descend, slot_of_live hslot]
    change (∃ j missing s, (if slot.node.isDir then _ else _) = _ ∧ _) ∨
      ∃ kind, (if slot.node.isDir then _ else _) = _
    by_cases hdir : slot.node.isDir
    · rw [if_pos hdir]
      cases hget : slot.children.get part with
      | none =>
        refine .inl ⟨i, part :: dirs, slot, rfl, hslot, suffix_refl _, ?_⟩
        intro first hfirst
        cases hfirst
        exact ⟨hdir, hget⟩
      | some c =>
        rcases ih (ht.child ((child_of_live hslot part).trans hget)).2.2 with
          ⟨j, missing, s, hrun, hs, hsuffix, hhead⟩ | herror
        · exact .inl ⟨j, missing, s, hrun, hs, hsuffix.trans (suffix_cons _ _), hhead⟩
        · exact .inr herror
    · rw [if_neg hdir]
      exact .inr ⟨_, rfl⟩

/-- What is no directory stays as it is. -/
def SameLeaves (t t' : Tree) : Prop :=
  ∀ {i : Nat} {slot : Slot}, t.live i = some slot → slot.node.isDir = false →
    t'.live i = some slot

theorem Attached.sameLeaves {new : Nat} (h : Attached t t' j new name dir node) :
    SameLeaves t t' := by
  intro i slot hi hleaf
  rw [h.live, if_neg, if_neg]
  · exact hi
  · rintro rfl
    cases h.parent.symm.trans hi
    rw [h.isDir] at hleaf
    cases hleaf
  · rintro rfl
    cases h.fresh.symm.trans hi

theorem run_makeDirs (ht : t.WellFormed) (hj : t.live j = some dir) (hdir : dir.node.isDir)
    {missing : List (List UInt8)} (hnames : ∀ name ∈ missing, IsName name)
    (hvacant : ∀ first ∈ missing.head?, dir.children.get first = none) :
    ∃ k t' slot, (makeDirs j missing : Prog Tree (Fault ε) Nat).run t = (.ok k, t') ∧
      t'.WellFormed ∧
      t'.live k = some slot ∧ slot.node.isDir ∧
      (missing ≠ [] → ∀ name, slot.children.get name = none) ∧
      SameLeaves t t' := by
  induction missing generalizing t j dir with
  | nil => exact ⟨j, t, dir, rfl, ht, hj, hdir, (fun h => absurd rfl h), fun hi _ => hi⟩
  | cons part missing ih =>
    obtain ⟨hpart, hnames⟩ := forall_mem_cons.mp hnames
    obtain ⟨new, t₁, t₂, halloc, hput, hattached, hf⟩ :=
      run_attach (ε := ε) ht.free hj hdir hpart (show Node.dir.check = .ok () from rfl)
    have hnone := hvacant part rfl
    have hconsistent := hattached.consistent ht.consistent
    rw [hnone] at hconsistent
    have hlive : t₂.live new = some ⟨.dir, .empty, 1⟩ := (hattached.live new).trans (if_pos rfl)
    obtain ⟨k, t', slot, hrun, hwf, hslot, hslotDir, hempty, hsame⟩ :=
      ih ⟨hconsistent, hf⟩ hlive rfl hnames (fun _ _ => rfl)
    refine ⟨k, t', slot, ?_, hwf, hslot, hslotDir, fun _ => ?_, fun hi hleaf => ?_⟩
    · rw [makeDirs, run_bind_ok halloc, run_bind_ok hput, hrun]
    · cases missing with
      | nil =>
        cases hrun
        cases hlive.symm.trans hslot
        exact fun _ => rfl
      | cons next missing => exact hempty (cons_ne_nil _ _)
    · exact hsame (hattached.sameLeaves hi hleaf) hleaf

/-- `parentFor` finds the directory in which the name is free, or changes
nothing. -/
theorem parentFor_cases (ht : t.WellFormed) {parts : List (List UInt8)}
    (hnames : ∀ name ∈ parts, IsName name) :
    (∃ k t' slot, (parentFor parts).run t = (.ok k, t') ∧ t'.WellFormed ∧ t'.live k = some slot ∧
      slot.node.isDir ∧ slot.children.get (parts.getLast?.getD []) = none ∧
        IsName (parts.getLast?.getD []) ∧ SameLeaves t t') ∨
      ∃ kind, (parentFor parts).run t = (.error (.error kind), t) := by
  rw [parentFor]
  cases hlast : parts.getLast? with
  | none => exact .inr ⟨_, rfl⟩
  | some name =>
    have hname : IsName name := hnames name (mem_of_mem_getLast? hlast)
    obtain ⟨root, hroot, hrootDir⟩ := ht.consistent.root
    have hrootLive : (t.live Tree.root).isSome := by
      rw [hroot]
      rfl
    rcases descend_cases ht.consistent hrootLive parts.dropLast with
      ⟨j, missing, slot, hdescend, hslot, hsuffix, hhead⟩ | ⟨kind, herror⟩
    · rw [run_bind_ok (a := t) (t := t) rfl, hdescend,
        run_bind_ok (a := (j, missing)) (t := t) rfl,
        slot_of_live hslot, run_bind_ok (a := slot) (t := t) rfl]
      by_cases hdir : slot.node.isDir
      · rw [hdir, Bool.not_true, if_neg Bool.false_ne_true]
        by_cases hmissing : missing = []
        · rw [if_pos hmissing]
          cases hget : slot.children.get name with
          | none => exact .inl ⟨j, t, slot, rfl, ht, hslot, hdir, hget, hname, fun hi _ => hi⟩
          | some c => exact .inr ⟨_, rfl⟩
        · rw [if_neg hmissing]
          have hin : ∀ name ∈ missing, IsName name := fun name hmem =>
            hnames name (dropLast_subset _ (hsuffix.subset hmem))
          obtain ⟨k, t', slot', hrun, hwf, hslot', hdir', hempty, hsame⟩ :=
            run_makeDirs (ε := ErrorKind) ht hslot hdir hin fun first hfirst =>
              (hhead first hfirst).2
          exact .inl ⟨k, t', slot', hrun, hwf, hslot', hdir', hempty hmissing _, hname, hsame⟩
      · rw [Bool.eq_false_iff.mpr hdir, Bool.not_false, if_pos rfl]
        exact .inr ⟨_, rfl⟩
    · rw [run_bind_ok (a := t) (t := t) rfl, herror]
      exact .inr ⟨kind, rfl⟩

end Hadris.Tree
