import Hadris.Tree.Calls

namespace Hadris.Tree

open Prog

variable {t t' : Tree} {i j : Nat} {slot : Slot}

/-- A call that keeps a tree well formed and changes nothing when it fails. -/
def Sound (x : Prog Tree (Fault PathError) Unit) : Prop :=
  ∀ t : Tree, t.WellFormed →
    (∃ t', x.run t = (.ok (), t') ∧ t'.WellFormed) ∨ ∃ e, x.run t = (.error (.error e), t)

theorem about_ok {α : Type} {message : String} {path : List UInt8}
    {x : Prog Tree (Fault ErrorKind) α} {a : α}
    (h : x.run t = (.ok a, t')) : (about message path x).run t = (.ok a, t') := by
  rw [about]
  simp only [h]

theorem about_error {α : Type} {message : String} {path : List UInt8}
    {x : Prog Tree (Fault ErrorKind) α}
    {kind : ErrorKind} (h : x.run t = (.error (.error kind), t')) :
    (about message path x).run t = (.error (.error (pathError kind message path)), t') := by
  rw [about]
  simp only [h]

theorem checkNode_cases (node : Node) (path : List UInt8) (t : Tree) :
    (node.check = .ok () ∧ (checkNode node path).run t = (.ok (), t)) ∨
      ∃ e, (checkNode node path).run t = (.error (.error e), t) := by
  cases hcheck : node.check with
  | ok a =>
    refine .inl ⟨rfl, ?_⟩
    rw [checkNode, hcheck]
    rfl
  | error kind =>
    refine .inr ⟨pathError kind "a device needs a number and nothing else has one" path, ?_⟩
    rw [checkNode, hcheck]
    rfl

theorem parts_cases (path : List UInt8) (t : Tree) :
    (∃ names, components path = .ok names ∧ (parts path).run t = (.ok names, t) ∧
      ∀ name ∈ names, IsName name) ∨ ∃ e, (parts path).run t = (.error (.error e), t) := by
  cases hparts : components path with
  | ok names =>
    refine .inl ⟨names, rfl, ?_, isName_of_components hparts⟩
    rw [parts, hparts]
    rfl
  | error e =>
    refine .inr ⟨e, ?_⟩
    rw [parts, hparts]
    rfl

theorem WellFormed.root_live (ht : t.WellFormed) : (t.live Tree.root).isSome := by
  obtain ⟨root, hroot, _⟩ := ht.consistent.root
  rw [hroot]
  rfl

theorem findAt_cases (ht : t.WellFormed) (message : String) (path : List UInt8)
    (names : List (List UInt8)) :
    (∃ j slot, (about message path (ofExcept (t.find root names))).run t = (.ok j, t) ∧
      t.live j = some slot ∧ t.follow root names = some j) ∨
      ∃ e, (about message path (ofExcept (t.find root names))).run t =
        (.error (.error e), t) := by
  rcases find_cases ht.consistent ht.root_live
    names with ⟨j, hfind, hfollow, hj⟩ | ⟨kind, hkind, _⟩
  · obtain ⟨slot, hslot⟩ := Option.isSome_iff_exists.mp hj
    refine .inl ⟨j, slot, about_ok ?_, hslot, hfollow⟩
    rw [hfind]
    rfl
  · refine .inr ⟨pathError kind message path, about_error ?_⟩
    rw [hkind]
    rfl

theorem insert_sound (path : List UInt8) (node : Node) : Sound (insert path node) := by
  intro t ht
  rw [insert]
  rcases checkNode_cases node path t with ⟨hnode, hcheck⟩ | ⟨e, he⟩
  · rw [run_bind_ok hcheck]
    rcases parts_cases path t with ⟨names, _, hparts, hnames⟩ | ⟨e, he⟩
    · rw [run_bind_ok hparts]
      rcases parentFor_cases ht hnames with ⟨k, t₁, dir, hrun, ht₁, hk, hdir, hvacant,
        hname, _⟩ | ⟨kind, hkind⟩
      · obtain ⟨new, t₂, t₃, halloc, hput, hattached, hf⟩ :=
          run_attach (ε := PathError) ht₁.free hk hdir hname hnode
        have hconsistent := hattached.consistent ht₁.consistent
        rw [hvacant] at hconsistent
        refine .inl ⟨t₃, ?_, hconsistent, hf⟩
        rw [run_bind_ok (about_ok hrun), run_bind_ok halloc, run_bind_ok hput, run_pure]
      · rw [run_bind_error (about_error hkind)]
        exact .inr ⟨_, rfl⟩
    · rw [run_bind_error he]
      exact .inr ⟨e, rfl⟩
  · rw [run_bind_error he]
    exact .inr ⟨e, rfl⟩

theorem link_sound (existing new : List UInt8) : Sound (link existing new) := by
  intro t ht
  rw [link, run_bind_ok (a := t) (t := t) rfl]
  rcases parts_cases existing t with ⟨held, _, hparts, _⟩ | ⟨e, he⟩
  · rw [run_bind_ok hparts]
    rcases findAt_cases ht "the link target does not exist" existing held with
      ⟨target, slot, hfind, hslot, _⟩ | ⟨e, he⟩
    · rw [run_bind_ok hfind, slot_of_live hslot, run_bind_ok (a := slot) (t := t) rfl]
      cases hleaf : slot.node.isDir with
      | true =>
        rw [if_pos rfl]
        exact .inr ⟨_, rfl⟩
      | false =>
        rw [if_neg Bool.false_ne_true]
        rcases parts_cases new t with ⟨names, _, hparts, hnames⟩ | ⟨e, he⟩
        · rw [run_bind_ok hparts]
          rcases parentFor_cases ht hnames with
            ⟨k, t₁, dir, hrun, ht₁, hk, hdir, hvacant, hname, hsame⟩ | ⟨kind, hkind⟩
          · have hslot₁ := hsame hslot hleaf
            have hne : target ≠ k := by
              rintro rfl
              cases hslot₁.symm.trans hk
              rw [hdir] at hleaf
              cases hleaf
            have hslot₂ := (set_live hk { dir with
              children := dir.children.insert (names.getLast?.getD []) target } target).trans
                ((if_neg hne).trans hslot₁)
            have hnamed : Named t₁ ((t₁.set k { dir with
                children := dir.children.insert (names.getLast?.getD []) target }).set target
                { slot with links := slot.links + 1 }) k target
                  (names.getLast?.getD []) dir slot :=
              ⟨hk, hdir, hname, hvacant, hslot₁, hleaf,
                fun i => by rw [set_live hslot₂, set_live hk]⟩
            refine .inl ⟨_, ?_, hnamed.consistent ht₁.consistent,
              (ht₁.free.set hk _).set hslot₂ _⟩
            rw [run_bind_ok (about_ok hrun), run_bind_ok (run_putChild hk _ _),
              run_bind_ok (run_gets _ _), id,
              slot_of_live hslot₂, run_bind_ok (a := slot) rfl, run_modify]
          · rw [run_bind_error (about_error hkind)]
            exact .inr ⟨_, rfl⟩
        · rw [run_bind_error he]
          exact .inr ⟨e, rfl⟩
    · rw [run_bind_error he]
      exact .inr ⟨e, rfl⟩
  · rw [run_bind_error he]
    exact .inr ⟨e, rfl⟩

theorem remove_sound (path : List UInt8) : Sound (remove path) := by
  intro t ht
  rw [remove]
  rcases parts_cases path t with ⟨names, _, hparts, _⟩ | ⟨e, he⟩
  · rw [run_bind_ok hparts]
    cases hlast : names.getLast? with
    | none => exact .inr ⟨_, rfl⟩
    | some name =>
      rcases findAt_cases ht "no such path in the tree" path names.dropLast with
        ⟨parent, slot, hfind, hslot, _⟩ | ⟨e, he⟩
      · dsimp only
        rw [run_bind_ok (run_gets _ _), id, run_bind_ok hfind, slot_of_live hslot,
          run_bind_ok (a := slot) (t := t) rfl]
        cases slot.node.isDir with
        | false => exact .inr ⟨_, rfl⟩
        | true =>
          rw [Bool.not_true, if_neg Bool.false_ne_true]
          cases hget : slot.children.get name with
          | none => exact .inr ⟨_, rfl⟩
          | some c =>
            have hdropped :
              Dropped t (t.set parent { slot with children := slot.children.erase name })
              parent c name slot := ⟨hslot, hget, set_live hslot _⟩
            obtain ⟨t', hrun, ht'⟩ :=
              run_unlink (ε := PathError) (hdropped.consistent ht.consistent)
                (ht.free.set hslot _)
            exact .inl ⟨t', (run_bind_ok (run_modify _ _) _).trans hrun, ht'⟩
      · dsimp only
        rw [run_bind_ok (run_gets _ _), id, run_bind_error he]
        exact .inr ⟨e, rfl⟩
  · rw [run_bind_error he]
    exact .inr ⟨e, rfl⟩

theorem follow_getLast {names : List (List UInt8)} {name : List UInt8}
    (hlast : names.getLast? = some name) (h : t.follow root names = some i) :
    ∃ parent, t.follow root names.dropLast = some parent ∧ t.child parent name = some i := by
  rw [← List.dropLast_append_getLast? name hlast, follow_concat] at h
  exact Option.bind_eq_some_iff.mp h

theorem replace_sound (path : List UInt8) (node : Node) : Sound (replace path node) := by
  intro t ht
  rw [replace]
  rcases checkNode_cases node path t with ⟨hnode, hcheck⟩ | ⟨e, he⟩
  · rw [run_bind_ok hcheck]
    rcases parts_cases path t with ⟨names, _, hparts, hnames⟩ | ⟨e, he⟩
    · rw [run_bind_ok hparts, run_bind_ok (run_gets _ _), id]
      rcases findAt_cases ht "no such path in the tree" path
        names with ⟨i, slot, hfind, hslot, hfollow⟩ | ⟨e, he⟩
      · rw [run_bind_ok hfind, slot_of_live hslot, run_bind_ok (a := slot) (t := t) rfl]
        by_cases hdirs : slot.node.isDir ∧ node.isDir
        · rw [if_pos hdirs]
          exact .inl ⟨_, rfl, ht.consistent.retag hslot hdirs.1 hdirs.2 hnode (set_live hslot _),
            ht.free.set hslot _⟩
        · rw [if_neg hdirs]
          cases slot.children.isEmpty with
          | false => exact .inr ⟨_, rfl⟩
          | true =>
            rw [Bool.not_true, if_neg Bool.false_ne_true]
            cases hlast : names.getLast? with
            | none => exact .inr ⟨_, rfl⟩
            | some name =>
              obtain ⟨parent, hparent, hchild⟩ := follow_getLast hlast hfollow
              obtain ⟨dir, hdir, hget⟩ := child_eq_some.mp hchild
              rcases findAt_cases ht "no such path in the tree" path names.dropLast with
                ⟨parent', _, hfind, _, hparent'⟩ | ⟨e, he⟩
              · cases hparent.symm.trans hparent'
                obtain ⟨new, t₁, t₂, halloc, hput, hattached, hf⟩ :=
                  run_attach (ε := PathError) ht.free hdir
                  (ht.consistent.dir hdir hget)
                    (hnames name (List.mem_of_mem_getLast? hlast)) hnode
                have hconsistent := hattached.consistent ht.consistent
                rw [hget] at hput hconsistent
                obtain ⟨t', hrun, ht'⟩ := run_unlink (ε := PathError) hconsistent hf
                refine .inl ⟨t', ?_, ht'⟩
                dsimp only
                rw [run_bind_ok hfind, run_bind_ok halloc, run_bind_ok hput]
                exact hrun
              · dsimp only
                rw [run_bind_error he]
                exact .inr ⟨e, rfl⟩
      · rw [run_bind_error he]
        exact .inr ⟨e, rfl⟩
    · rw [run_bind_error he]
      exact .inr ⟨e, rfl⟩
  · rw [run_bind_error he]
    exact .inr ⟨e, rfl⟩

/-- A call that changes a tree. -/
inductive Call where
  | insert (path : List UInt8) (node : Node)
  | link (existing new : List UInt8)
  | remove (path : List UInt8)
  | replace (path : List UInt8) (node : Node)
deriving DecidableEq, Repr

def Call.prog : Call → Prog Tree (Fault PathError) Unit
  | insert path node => Tree.insert path node
  | link existing new => Tree.link existing new
  | remove path => Tree.remove path
  | replace path node => Tree.replace path node

def after (calls : List Call) : Tree := calls.foldl (fun t call => (call.prog.run t).2) new

theorem Call.sound (call : Call) : Sound call.prog := by
  cases call with
  | insert path node => exact insert_sound path node
  | link existing new => exact link_sound existing new
  | remove path => exact remove_sound path
  | replace path node => exact replace_sound path node

theorem live_new (i : Nat) : new.live i = if i = root then some ⟨.dir, .empty, 1⟩ else none := by
  cases i with
  | zero => rfl
  | succ i => rfl

theorem child_new (i : Nat) (name : List UInt8) : new.child i name = none := by
  rw [child, live_new]
  split <;> rfl

theorem wellFormed_new : new.WellFormed where
  consistent :=
    { root := ⟨_, rfl, rfl⟩
      dir := by
        intro i slot name c hi hc
        cases (child_of_live hi name).trans hc ▸ child_new i name
      child := by
        intro i name c hc
        rw [child_new] at hc
        cases hc
      cut_live := fun h => nomatch h
      links := by
        intro i slot hi
        have hparents : new.parents i = ∅ := by
          ext ⟨k, n⟩
          rw [mem_parents, child_new]
          simp
        rw [live_new] at hi
        split at hi
        · rename_i hroot
          cases hi
          rw [hparents, if_pos hroot]
          rfl
        · cases hi
      single := by
        intro i slot hi _
        rw [live_new] at hi
        split at hi
        · cases hi
          rfl
        · cases hi
      check := by
        intro i slot hi
        rw [live_new] at hi
        split at hi
        · cases hi
          rfl
        · cases hi
      reached := by
        intro i hi
        rw [live_new] at hi
        split at hi
        · rename_i hroot
          rw [hroot]
          exact .root
        · cases hi }
  free := by
    refine ⟨.nil, fun i => ?_⟩
    rw [live_new]
    change i ∈ [] ↔ i < 1 ∧ _
    split
    · simp
    · rename_i hroot
      change ¬ i = 0 at hroot
      simp only [List.not_mem_nil, and_true, false_iff]
      omega

theorem after_wellFormed (calls : List Call) : (after calls).WellFormed := by
  have hrun : ∀ (calls : List Call) (t : Tree), t.WellFormed →
      (calls.foldl (fun t call => (call.prog.run t).2) t).WellFormed := by
    intro calls
    induction calls with
    | nil => exact fun _ ht => ht
    | cons call calls ih =>
      intro t ht
      refine ih _ ?_
      change (call.prog.run t).2.WellFormed
      rcases call.sound t ht with ⟨t', hrun, ht'⟩ | ⟨e, hrun⟩
      · rw [hrun]
        exact ht'
      · rw [hrun]
        exact ht
  exact hrun calls new wellFormed_new

end Hadris.Tree

namespace Hadris.Tree

open Prog

variable {t t' : Tree} {i j new target : Nat} {name : List UInt8} {dir slot : Slot} {node : Node}
variable {path : List (List UInt8)}

def view (t : Tree) (path : List (List UInt8)) : Option (Nat × Node) :=
  (t.follow root path).bind fun i => (t.live i).map fun slot => (i, slot.node)

theorem view_eq_some : t.view path = some (i, node) ↔
    t.follow root path = some i ∧ ∃ slot, t.live i = some slot ∧ slot.node = node := by
  rw [view, Option.bind_eq_some_iff]
  constructor
  · rintro ⟨k, hk, h⟩
    obtain ⟨slot, hslot, heq⟩ := Option.map_eq_some_iff.mp h
    cases heq
    exact ⟨hk, slot, hslot, rfl⟩
  · rintro ⟨hi, slot, hslot, rfl⟩
    exact ⟨i, hi, Option.map_eq_some_iff.mpr ⟨slot, hslot, rfl⟩⟩

theorem WellFormed.live_of_follow (ht : t.WellFormed) (h : t.follow root path = some i) :
    (t.live i).isSome :=
  (find_of_follow ht.consistent ht.root_live h).2

theorem WellFormed.view_eq_none (ht : t.WellFormed) :
    t.view path = none ↔ t.follow root path = none := by
  rw [view]
  cases hfollow : t.follow root path with
  | none => simp
  | some i =>
    obtain ⟨slot, hslot⟩ := Option.isSome_iff_exists.mp (ht.live_of_follow hfollow)
    simp [hslot]

theorem WellFormed.path_of_live (ht : t.WellFormed) (hi : (t.live i).isSome) :
    ∃ path, t.follow root path = some i := by
  have hreached := ht.consistent.reached hi
  clear hi
  induction hreached with
  | root => exact ⟨[], rfl⟩
  | cut hmem => cases hmem
  | @child k name c _ hc ih =>
    obtain ⟨path, hpath⟩ := ih
    refine ⟨path ++ [name], ?_⟩
    rw [follow_concat, hpath, Option.bind_some, hc]

theorem WellFormed.path_unique (ht : t.WellFormed) (hi : t.live i = some slot)
    (hdir : slot.node.isDir)
    {p q : List (List UInt8)} (hp : t.follow root p = some i) (hq : t.follow root q = some i) :
    p = q := by
  induction p using List.reverseRecOn generalizing i slot q with
  | nil =>
    cases hp
    rcases List.eq_nil_or_concat' q with rfl | ⟨q, n, rfl⟩
    · rfl
    · rw [follow_concat] at hq
      obtain ⟨k, _, hk⟩ := Option.bind_eq_some_iff.mp hq
      exact absurd rfl (ht.consistent.child hk).2.1
  | append_singleton p m ih =>
    rw [follow_concat] at hp
    obtain ⟨k, hkp, hk⟩ := Option.bind_eq_some_iff.mp hp
    rcases List.eq_nil_or_concat' q with rfl | ⟨q, n, rfl⟩
    · cases hq
      exact absurd rfl (ht.consistent.child hk).2.1
    · rw [follow_concat] at hq
      obtain ⟨k', hkq, hk'⟩ := Option.bind_eq_some_iff.mp hq
      obtain ⟨rfl, rfl⟩ := ht.consistent.name_unique hi hdir hk hk'
      obtain ⟨s, hs, hget⟩ := child_eq_some.mp hk
      rw [ih hs (ht.consistent.dir hs hget) hkp hkq]

/-- When one name of a directory changes, and neither what it led to nor what it
leads to has children, every other path is as before. -/
theorem follow_changed (ht : t.WellFormed) (hj : t.live j = some dir) (hdir : dir.node.isDir)
    (hpath : t.follow root path = some j) (value : Option Nat)
    (hchild : ∀ k n, t'.child k n = if k = j ∧ n = name then value else t.child k n)
    (hold : ∀ c ∈ t.child j name, ∀ n, t.child c n = none)
    (hnew : ∀ c ∈ value, ∀ n, t'.child c n = none) (q : List (List UInt8)) :
    t'.follow root q = if q = path ++ [name] then value else t.follow root q := by
  induction q using List.reverseRecOn with
  | nil => rw [if_neg (by simp)]; rfl
  | append_singleton q n ih =>
    rw [follow_concat, follow_concat, ih]
    by_cases hq : q = path ++ [name]
    · have hlong : ¬ q ++ [n] = path ++ [name] := by
        intro h
        have hlen := congrArg List.length h
        rw [hq] at hlen
        simp at hlen
      rw [if_pos hq, if_neg hlong, hq, follow_concat, hpath, Option.bind_some]
      have hleft : value.bind (t'.child · n) = none := by
        cases value with
        | none => rfl
        | some c => exact hnew c rfl n
      have hright : (t.child j name).bind (t.child · n) = none := by
        cases hc : t.child j name with
        | none => rfl
        | some c => exact hold c hc n
      rw [hleft, hright]
    · rw [if_neg hq]
      by_cases hqn : q ++ [n] = path ++ [name]
      · obtain ⟨rfl, hn⟩ := List.append_inj' hqn rfl
        cases hn
        rw [if_pos rfl, hpath, Option.bind_some, hchild, if_pos ⟨rfl, rfl⟩]
      · rw [if_neg hqn]
        cases hfollow : t.follow root q with
        | none => rfl
        | some k =>
          rw [Option.bind_some, Option.bind_some, hchild, if_neg]
          rintro ⟨rfl, rfl⟩
          rw [ht.path_unique hj hdir hfollow hpath] at hqn
          exact hqn rfl

theorem follow_congr (h : ∀ k n, t'.child k n = t.child k n) (i : Nat) (q : List (List UInt8)) :
    t'.follow i q = t.follow i q := by
  induction q generalizing i with
  | nil => rfl
  | cons n q ih =>
    rw [follow, follow, h]
    cases t.child i n with
    | none => rfl
    | some c => exact ih c

theorem WellFormed.view_congr (ht' : t'.WellFormed) (h : ∀ k n, t'.child k n = t.child k n)
    (hnode : ∀ {k slot}, t'.live k = some slot → ∃ old, t.live k = some old ∧
      old.node = slot.node)
    (q : List (List UInt8)) : t'.view q = t.view q := by
  have hfollow := follow_congr h root q
  cases hq : t'.follow root q with
  | none =>
    rw [view, view, ← hfollow, hq]
    rfl
  | some k =>
    obtain ⟨slot, hslot⟩ := Option.isSome_iff_exists.mp (ht'.live_of_follow hq)
    obtain ⟨old, hold, hsame⟩ := hnode hslot
    rw [view_eq_some.mpr ⟨hq, slot, hslot, rfl⟩,
      view_eq_some.mpr ⟨hfollow ▸ hq, old, hold, hsame⟩]

theorem WellFormed.child_of_leaf (ht : t.WellFormed) (hi : t.live i = some slot)
    (hleaf : slot.node.isDir = false) (n : List UInt8) : t.child i n = none := by
  rw [child_of_live hi]
  cases hc : slot.children.get n with
  | none => rfl
  | some c =>
    have hdir := ht.consistent.dir hi hc
    rw [hleaf] at hdir
    cases hdir

theorem Attached.view (ht : t.WellFormed)
    (h : Attached t t' j new name dir node) (hpath : t.follow root path = some j)
    (hold : ∀ c ∈ dir.children.get name, ∀ n, t.child c n = none) (q : List (List UInt8)) :
    t'.view q = if q = path ++ [name] then some (new, node) else t.view q := by
  have hchild_new : ∀ n, t'.child new n = none := by
    intro n
    rw [Tree.child, h.live, if_pos rfl]
    rfl
  have hfollow := follow_changed ht h.parent h.isDir hpath (some new) h.child
    (fun c hc => hold c (h.old.symm.trans hc)) (fun c hc => by cases hc; exact hchild_new) q
  rw [Tree.view, hfollow]
  split
  · rw [Option.bind_some, h.live, if_pos rfl]
    rfl
  · rw [Tree.view]
    cases hq : t.follow root q with
    | none => rfl
    | some k =>
      rw [Option.bind_some, Option.bind_some, h.live]
      obtain ⟨slot, hslot⟩ := Option.isSome_iff_exists.mp (ht.live_of_follow hq)
      have hne : k ≠ new := by
        rintro rfl
        cases h.fresh.symm.trans hslot
      rw [if_neg hne]
      split
      · rename_i hkj
        rw [hkj, h.parent]
        rfl
      · rfl

theorem Named.view (ht : t.WellFormed) (h : Named t t' j target name dir slot)
    (hpath : t.follow root path = some j) (q : List (List UInt8)) :
    t'.view q = if q = path ++ [name] then some (target, slot.node) else t.view q := by
  have hvacant : t.child j name = none := (child_of_live h.parent name).trans h.vacant
  have hleaf : ∀ n, t'.child target n = none := by
    intro n
    rw [h.child, if_neg (fun hkn => h.ne hkn.1.symm)]
    exact ht.child_of_leaf h.shared h.notDir n
  have hfollow := follow_changed ht h.parent h.isDir hpath _ h.child
    (fun c hc => by rw [hvacant] at hc; cases hc) (fun c hc => by cases hc; exact hleaf) q
  have hnode : ∀ k, (t'.live k).map (fun slot => (k, slot.node)) = (t.live k).map fun slot =>
    (k, slot.node) := by
    intro k
    rw [h.live]
    split
    · rename_i hk
      rw [hk, h.shared]
      rfl
    · split
      · rename_i hk
        rw [hk, h.parent]
        rfl
      · rfl
  rw [Tree.view, hfollow]
  split
  · rw [Option.bind_some, hnode, h.shared]
    rfl
  · rw [Tree.view]
    cases t.follow root q with
    | none => rfl
    | some k => exact hnode k

theorem Dropped.view {c : Nat} (ht : t.WellFormed) (h : Dropped t t' j c name dir)
    (hdir : dir.node.isDir)
    (hpath : t.follow root path = some j) (hold : ∀ n, t.child c n = none)
    (q : List (List UInt8)) :
    t'.view q = if q = path ++ [name] then none else t.view q := by
  have hchild : t.child j name = some c := (child_of_live h.parent name).trans h.old
  have hfollow := follow_changed ht h.parent hdir hpath _ h.child
    (fun x hx => by rw [hchild] at hx; cases hx; exact hold) (fun _ hx => nomatch hx) q
  rw [Tree.view, hfollow]
  split
  · rfl
  · rw [Tree.view]
    cases t.follow root q with
    | none => rfl
    | some k =>
      rw [Option.bind_some, Option.bind_some, h.live]
      split
      · rename_i hk
        rw [hk, h.parent]
        rfl
      · rfl

/-- A node without children that lost a name is freed or keeps the others. No
path changes. -/
theorem run_unlink_leaf {ε : Type} (ht : t.Consistent [i]) (hf : t.FreeList)
    (hi : t.live i = some slot) (hempty : slot.children.entries = []) :
    ∃ t', (unlink i : Prog Tree (Fault ε) Unit).run t = (.ok (), t') ∧ t'.WellFormed ∧
      ∀ q, t'.view q = t.view q := by
  obtain ⟨t', hrun, ht'⟩ := run_unlink (ε := ε) ht hf
  refine ⟨t', hrun, ht', ?_⟩
  have hget : ∀ n, slot.children.get n = none := by
    intro n
    rw [SortedMap.get, hempty]
    rfl
  rw [unlink, run_bind_ok (run_gets _ _), id, unlinkAll, run_bind_ok (run_gets _ _),
    id, slot_of_live hi, run_bind_ok (a := slot) (t := t) rfl] at hrun
  have hdone : ∀ fuel (u : Tree), (unlinkAll fuel [] : Prog Tree (Fault ε) Unit).run u =
      (.ok (), u) := by
    intro fuel u
    cases fuel <;> rfl
  by_cases hlinks : 1 < slot.links
  · rw [if_pos hlinks, run_bind_ok (run_modify _ _), hdone] at hrun
    cases hrun
    refine ht'.view_congr ?_ ?_
    · intro k n
      rw [child, set_live hi]
      split
      · rename_i hk
        rw [hk, child_of_live hi]
        rfl
      · rfl
    · intro k s hk
      rw [set_live hi] at hk
      split at hk
      · rename_i hki
        cases hk
        exact ⟨slot, hki ▸ hi, rfl⟩
      · exact ⟨s, hk, rfl⟩
  · have hvalues : slot.children.values.reverse ++ [] = [] := by
      rw [SortedMap.values, hempty]
      rfl
    rw [if_neg hlinks, run_bind_ok (run_modify _ _), hvalues, hdone] at hrun
    cases hrun
    change ∀ q, (t.freed i).view q = _
    refine ht'.view_congr ?_ ?_
    · intro k n
      rw [child]
      change ((t.freed i).live k).bind _ = _
      rw [freed_live hi]
      split
      · rename_i hk
        rw [hk, child_of_live hi, hget]
        rfl
      · rfl
    · intro k s hk
      change (t.freed i).live k = _ at hk
      rw [freed_live hi] at hk
      split at hk
      · cases hk
      · exact ⟨s, hk, rfl⟩

end Hadris.Tree
