import Hadris.Cpio.PutLink
import Hadris.Cpio.Written

namespace Hadris.Cpio

open List
open Prog

def storedAttrs (options : CpioOptions) (node : Node) : SetAttr :=
  { SetAttr.new with
    modified := some ⟨(Planner.new options).mtime node.attrs, 0⟩
    permissions := some (.new (permissionsOf node))
    owner := some ⟨(node.attrs.owner.map Owner.uid).getD 0,
      (node.attrs.owner.map Owner.gid).getD 0⟩ }

def stored (options : CpioOptions) (node : Node) (data : List UInt8) : Node :=
  { kind := match node.kind with
      | .file _ => .file (.bytes data)
      | .dir => .dir
      | .symlink _ => .symlink data
      | .special type device => .special type device
    attrs := storedAttrs options node }

def held (options : CpioOptions) (slot : Slot) (n : Nat) : List UInt8 :=
  if carries options slot n then nodeData slot.node else []

section

variable {options : CpioOptions} {node : Node} {slot : Slot} {data : List UInt8}

theorem stored_isDir : (stored options node data).isDir = node.isDir := by
  obtain ⟨kind, attrs⟩ := node
  cases kind <;> rfl

theorem stored_check (h : node.check = .ok ()) : (stored options node data).check = .ok () := by
  obtain ⟨kind, attrs⟩ := node
  cases kind with
  | special type device => exact h
  | _ => rfl

theorem held_single (h : ¬ IsGroup slot) (n : Nat) :
    held options slot n = nodeData slot.node := by
  rw [held, carries_single h, if_pos rfl]

theorem IsGroup.leaf (h : IsGroup slot) : slot.node.isDir = false := by
  obtain ⟨hfile, _⟩ := h
  obtain ⟨⟨kind, attrs⟩, children, links⟩ := slot
  cases kind with
  | dir => cases hfile
  | _ => rfl

end

variable {t R R' : Tree} {options : CpioOptions} {key : Nat → Nat}
  {done : List Place} {g g' : Groups}
variable {path : List (List UInt8)} {id : Nat} {slot : Slot}

def pathsOf (done : List Place) (id : Nat) : List (List (List UInt8)) :=
  (done.filter fun place => place.2 = id).map Prod.fst

theorem mem_pathsOf {q : List (List UInt8)} : q ∈ pathsOf done id ↔ (q, id) ∈ done := by
  rw [pathsOf, mem_map]
  constructor
  · rintro ⟨place, hmem, rfl⟩
    obtain ⟨hmem, hid⟩ := mem_filter.mp hmem
    exact of_decide_eq_true hid ▸ hmem
  · intro hmem
    exact ⟨(q, id), mem_filter.mpr ⟨hmem, decide_eq_true rfl⟩, rfl⟩

/-- The places `done` of a tree were read into `R`. `key` tells the groups apart. -/
structure Rebuilt (t : Tree) (options : CpioOptions) (key : Nat → Nat)
    (done : List Place) (R : Tree) (g : Groups) : Prop where
  wellFormed : R.WellFormed
  root : R.view [] = some (Tree.root, Node.dir)
  missing : ∀ {q : List (List UInt8)}, q ≠ [] → (∀ id, (q, id) ∉ done) → R.view q = none
  view : ∀ {q : List (List UInt8)} {id : Nat} {slot : Slot}, (q, id) ∈ done →
    t.live id = some slot →
    ∃ i, R.view q = some (i, stored options slot.node (held options slot (times done id)))
  share : ∀ {p q : List (List UInt8)} {a b i j : Nat} {m n : Node} {slot : Slot}, (p, a) ∈ done →
    (q, b) ∈ done → t.live a = some slot → R.view p = some (i, m) → R.view q = some (j, n) →
      (i = j ↔ p = q ∨ a = b ∧ IsGroup slot)
  owners : ∀ {text : List UInt8}, (g.owners.get text).isSome →
    ∃ place ∈ done, text = joined place.1
  groups : ∀ {id : Nat} {slot : Slot}, t.live id = some slot → IsGroup slot →
    id ∈ t.places.map Prod.snd →
    g.groups.get [0, 0, key id] = if times done id = 0 then none else
      some ⟨(pathsOf done id).map joined, stored options slot.node
        (held options slot (times done id))⟩

theorem rebuilt_new (t : Tree) (options : CpioOptions) (key : Nat → Nat) :
    Rebuilt t options key [] .new .new where
  wellFormed := Tree.wellFormed_new
  root := rfl
  missing := by
    intro q hq _
    cases q with
    | nil => exact absurd rfl hq
    | cons name q => rfl
  view := fun h => nomatch h
  share := fun h => nomatch h
  owners := fun h => nomatch h
  groups := fun _ _ _ => rfl

theorem Rebuilt.push (h : Rebuilt t options key done R g) (ht : t.WellFormed)
    (hstart : done ++ [(path, id)] <+: t.places) (hslot : t.live id = some slot)
    (hR : R'.WellFormed) (changed : List (List (List UInt8))) (target : Nat)
    (hview : ∀ q, R'.view q = if q ∈ changed
      then some (target, stored options slot.node
        (held options slot (times (done ++ [(path, id)]) id)))
      else R.view q)
    (hfresh : ∀ q, q ∉ changed → ∀ other, R.view q ≠ some (target, other))
    (hchanged : ∀ q, q ∈ changed ↔ q = path ∨ IsGroup slot ∧ (q, id) ∈ done)
    (howners : ∀ {text}, (g'.owners.get text).isSome → ∃ place ∈ done ++ [(path, id)],
      text = joined place.1)
    (hgroups : ∀ {id' slot'}, t.live id' = some slot' → IsGroup slot' →
      id' ∈ t.places.map Prod.snd →
      g'.groups.get [0, 0, key id'] = if times (done ++ [(path, id)]) id' = 0 then none else
        some ⟨(pathsOf (done ++ [(path, id)]) id').map joined,
          stored options slot'.node (held options slot' (times (done ++ [(path, id)]) id'))⟩) :
    Rebuilt t options key (done ++ [(path, id)]) R' g' := by
  have hunique : ∀ {q a b}, (q, a) ∈ done ++ [(path, id)] → (q, b) ∈ done ++ [(path, id)] →
      a = b := by
    intro q a b ha hb
    have hfollow := (ht.mem_places.mp (hstart.subset ha)).2
    rw [(ht.mem_places.mp (hstart.subset hb)).2] at hfollow
    exact (Option.some_inj.mp hfollow).symm
  have hlast : (path, id) ∈ done ++ [(path, id)] := mem_concat_self
  have hin : ∀ {q}, q ∈ changed → (q, id) ∈ done ++ [(path, id)] := by
    intro q hq
    rcases (hchanged q).mp hq with rfl | ⟨_, hmem⟩
    · exact hlast
    · exact mem_append_left _ hmem
  have hold : ∀ {q a}, q ∉ changed → (q, a) ∈ done ++ [(path, id)] → (q, a) ∈ done := by
    intro q a hq hmem
    rcases mem_append.mp hmem with hmem | hmem
    · exact hmem
    · cases mem_singleton.mp hmem
      exact absurd ((hchanged path).mpr (.inl rfl)) hq
  refine ⟨hR, ?_, ?_, ?_, ?_, howners, hgroups⟩
  · rw [hview, if_neg, h.root]
    intro hmem
    exact (ht.mem_places.mp (hstart.subset (hin hmem))).1 rfl
  · intro q hq hnot
    rw [hview, if_neg (fun hmem => hnot id (hin hmem))]
    exact h.missing hq fun a ha => hnot a (mem_append_left _ ha)
  · intro q a slot' hmem hlive
    rw [hview]
    by_cases hq : q ∈ changed
    · cases hunique (hin hq) hmem
      cases hslot.symm.trans hlive
      exact ⟨target, by rw [if_pos hq]⟩
    · obtain ⟨i, hi⟩ := h.view (hold hq hmem) hlive
      refine ⟨i, ?_⟩
      rw [if_neg hq, hi, times_concat]
      by_cases ha : id = a
      · subst ha
        cases hslot.symm.trans hlive
        have hsingle : ¬ IsGroup slot := fun hg => hq ((hchanged q).mpr (.inr ⟨hg, hold hq hmem⟩))
        rw [held_single hsingle, held_single hsingle]
      · rw [if_neg ha, Nat.add_zero]
  · intro p q a b i j m n slot' hp hq hlive hi hj
    rw [hview] at hi hj
    by_cases hpc : p ∈ changed
    · cases hunique (hin hpc) hp
      cases hslot.symm.trans hlive
      rw [if_pos hpc] at hi
      cases hi
      by_cases hqc : q ∈ changed
      · cases hunique (hin hqc) hq
        rw [if_pos hqc] at hj
        cases hj
        refine iff_of_true rfl ?_
        rcases (hchanged p).mp hpc with rfl | ⟨hg, _⟩
        · rcases (hchanged q).mp hqc with rfl | ⟨hg, _⟩
          · exact .inl rfl
          · exact .inr ⟨rfl, hg⟩
        · exact .inr ⟨rfl, hg⟩
      · rw [if_neg hqc] at hj
        refine iff_of_false ?_ ?_
        · rintro rfl
          exact hfresh q hqc n hj
        · rintro (rfl | ⟨rfl, hg⟩)
          · exact hqc hpc
          · exact hqc ((hchanged q).mpr (.inr ⟨hg, hold hqc hq⟩))
    · rw [if_neg hpc] at hi
      by_cases hqc : q ∈ changed
      · cases hunique (hin hqc) hq
        rw [if_pos hqc] at hj
        cases hj
        refine iff_of_false ?_ ?_
        · rintro rfl
          exact hfresh p hpc m hi
        · rintro (rfl | ⟨rfl, hg⟩)
          · exact hpc hqc
          · cases hslot.symm.trans hlive
            exact hpc ((hchanged p).mpr (.inr ⟨hg, hold hpc hp⟩))
      · rw [if_neg hqc] at hj
        exact h.share (hold hpc hp) (hold hqc hq) hlive hi hj

theorem place_new (ht : t.WellFormed) (hstart : done ++ [(path, id)] <+: t.places) (a : Nat) :
    (path, a) ∉ done := by
  intro hmem
  obtain ⟨rest, hrest⟩ := hstart
  have hnodup := ht.paths_nodup
  rw [← hrest, map_append, map_append, nodup_append] at hnodup
  exact (nodup_append.mp hnodup.1).2.2 path (mem_map_of_mem hmem) path mem_cons_self rfl

theorem Rebuilt.parent (h : Rebuilt t options key done R g) (ht : t.WellFormed)
    {before : List Place} (hstart : before ++ [(path, id)] <+: t.places) (hsub : before ⊆ done) :
    ∃ q name, path = q ++ [name] ∧ (∀ n ∈ q ++ [name], IsName n) ∧
      ∃ j parent, R.view q = some (j, parent) ∧ parent.isDir := by
  have hin : (path, id) ∈ t.places := hstart.subset mem_concat_self
  obtain ⟨q, name, j, rfl, hfollow, hchild⟩ := ht.place_split hin
  have hnames := ht.names_of_follow (ht.mem_places.mp hin).2
  obtain ⟨dir, hdir, hget⟩ := Tree.child_eq_some.mp hchild
  have hisDir := ht.consistent.dir hdir hget
  obtain ⟨rest, hrest⟩ := hstart
  refine ⟨q, name, rfl, hnames, ?_⟩
  by_cases hq : q = []
  · subst hq
    exact ⟨Tree.root, Node.dir, h.root, rfl⟩
  · have hmem : (q, j) ∈ t.places := ht.mem_places.mpr ⟨hq, hfollow⟩
    have hbefore : (q, j) ∈ before := by
      have hpair := ht.places_pairwise
      rw [← hrest, append_assoc, pairwise_append] at hpair
      rw [← hrest, append_assoc] at hmem
      rcases mem_append.mp hmem with hmem | hmem
      · exact hmem
      · rcases mem_cons.mp hmem with heq | hmem
        · exact absurd (congrArg Prod.fst heq) (path_ne_concat q name)
        · exact absurd (prefix_append q [name]) ((pairwise_cons.mp hpair.2.1).1 _ hmem)
    obtain ⟨i, hview⟩ := h.view (hsub hbefore) hdir
    exact ⟨i, _, hview, stored_isDir.trans hisDir⟩

theorem Rebuilt.vacant (h : Rebuilt t options key done R g) (ht : t.WellFormed)
    (hstart : done ++ [(path, id)] <+: t.places) :
    ∃ q name, path = q ++ [name] ∧ Tree.Vacant R q name := by
  obtain ⟨q, name, rfl, hnames, hparent⟩ := h.parent ht hstart (List.Subset.refl done)
  exact ⟨q, name, rfl, hnames, hparent, h.missing (by simp) (place_new ht hstart)⟩

theorem Rebuilt.placeable (h : Rebuilt t options key done R g) (ht : t.WellFormed)
    (hstart : done <+: t.places)
    (hmem : (path, id) ∈ done) (hslot : t.live id = some slot) (hleaf : slot.node.isDir = false) :
    ∃ q name, path = q ++ [name] ∧ Placeable R q name := by
  obtain ⟨before, after, rfl⟩ := append_of_mem hmem
  have hfirst : before ++ [(path, id)] <+: t.places :=
    List.IsPrefix.trans ⟨after, by rw [append_assoc, singleton_append]⟩ hstart
  obtain ⟨q, name, rfl, hnames, hparent⟩ := h.parent ht hfirst (subset_append_left _ _)
  refine ⟨q, name, rfl, hnames, hparent, ?_⟩
  intro i node hview
  obtain ⟨j, hj⟩ := h.view hmem hslot
  cases hview.symm.trans hj
  exact stored_isDir.trans hleaf

/-- The entry of a place, as a reader finds it. -/
structure Comes (options : CpioOptions) (key : Nat → Nat) (slot : Slot) (path : List (List UInt8))
    (id n : Nat) (name : List UInt8) (header : Header) (node : Node) : Prop where
  name : name = joined path
  type : header.type = slot.node.fileType
  single : header.type ≠ .file ∨ header.nlink < 2 ↔ ¬ IsGroup slot
  key : IsGroup slot → [header.dev.major.toNat, header.dev.minor.toNat, header.ino] =
    [0, 0, key id]
  len : header.len = (held options slot n).length
  node : node = stored options slot.node (held options slot n)

theorem pathsOf_concat (done : List Place) (path : List (List UInt8)) (a id : Nat) :
    pathsOf (done ++ [(path, a)]) id = pathsOf done id ++ if a = id then [path] else [] := by
  rw [pathsOf, filter_append, map_append]
  congr 1
  split
  · rename_i h
    simp [h]
  · rename_i h
    simp [h]

theorem pathsOf_length (done : List Place) (id : Nat) :
    (pathsOf done id).length = times done id :=
  length_map ..

theorem Rebuilt.release (h : Rebuilt t options key done R g) (ht : t.WellFormed)
    (hstart : done ++ [(path, id)] <+: t.places) : g.release (joined path) = g := by
  have hnone : g.owners.get (joined path) = none := by
    by_contra hsome
    obtain ⟨⟨q, a⟩, hmem, heq⟩ := h.owners (Option.isSome_iff_ne_none.mpr hsome)
    have hlast : (path, id) ∈ t.places := hstart.subset mem_concat_self
    have hq : (q, a) ∈ t.places := hstart.subset (mem_append_left _ hmem)
    have hpath := joined_inj (ht.names_of_follow (ht.mem_places.mp hlast).2)
      (ht.names_of_follow (ht.mem_places.mp hq).2) heq
    exact place_new ht hstart a (hpath ▸ hmem)
  rw [Groups.release, hnone]

theorem owners_kept (h : Rebuilt t options key done R g) {text : List UInt8}
    (hsome : (g.owners.get text).isSome) :
    ∃ place ∈ done ++ [(path, id)], text = joined place.1 := by
  obtain ⟨place, hmem, htext⟩ := h.owners hsome
  exact ⟨place, mem_append_left _ hmem, htext⟩

theorem Rebuilt.groups_other (h : Rebuilt t options key done R g) {other : Nat} {slot' : Slot}
    (hlive : t.live other = some slot') (hg : IsGroup slot') (hin : other ∈ t.places.map Prod.snd)
    (hne : id ≠ other) :
    g.groups.get [0, 0, key other] = if times (done ++ [(path, id)]) other = 0 then none else
      some ⟨(pathsOf (done ++ [(path, id)]) other).map joined,
        stored options slot'.node (held options slot' (times (done ++ [(path, id)]) other))⟩ := by
  rw [times_concat, pathsOf_concat, if_neg hne, if_neg hne, append_nil, Nat.add_zero]
  exact h.groups hlive hg hin

variable {name : List UInt8} {header : Header} {node : Node}

theorem Rebuilt.single (h : Rebuilt t options key done R g) (ht : t.WellFormed)
    (hstart : done ++ [(path, id)] <+: t.places) (hslot : t.live id = some slot)
    (hsingle : ¬ IsGroup slot)
    (hnode : node = stored options slot.node
      (held options slot (times (done ++ [(path, id)]) id))) :
    ∃ R', (put (joined path) node).run R = (.ok (), R') ∧
      Rebuilt t options key (done ++ [(path, id)]) R' g := by
  obtain ⟨q, last, rfl, hvacant⟩ := h.vacant ht hstart
  obtain ⟨new, R', hrun, hR, hview, hfresh⟩ :=
    run_put h.wellFormed hvacant
      (show node.check = .ok () from hnode ▸ stored_check (ht.consistent.check hslot))
  refine ⟨R', hrun, h.push ht hstart hslot hR [q ++ [last]] new ?_ ?_ ?_ ?_ ?_⟩
  · intro p
    rw [hview, hnode]
    simp only [mem_singleton]
  · exact fun p _ => hfresh p
  · intro p
    rw [mem_singleton]
    constructor
    · exact .inl
    · exact fun hp => hp.resolve_right fun hg => hsingle hg.1
  · exact owners_kept h
  · intro other slot' hlive hg hin
    refine h.groups_other hlive hg hin ?_
    rintro rfl
    cases hslot.symm.trans hlive
    exact hsingle hg

/-- The groups of a tree have different keys. -/
def KeyApart (t : Tree) (key : Nat → Nat) : Prop :=
  ∀ {a b : Nat} {slot slot' : Slot}, t.live a = some slot → IsGroup slot →
    a ∈ t.places.map Prod.snd →
    t.live b = some slot' → IsGroup slot' → b ∈ t.places.map Prod.snd → key a = key b → a = b

theorem Rebuilt.join (h : Rebuilt t options key done R g) (ht : t.WellFormed)
    (hkey : KeyApart t key)
    (hstart : done ++ [(path, id)] <+: t.places) (hslot : t.live id = some slot)
    (hg : IsGroup slot) (hR : R'.WellFormed) {target : Nat}
    (hview : ∀ q, R'.view q = if q ∈ path :: pathsOf done id
      then some (target, stored options slot.node
        (held options slot (times (done ++ [(path, id)]) id)))
      else R.view q)
    (hfresh : ∀ q, q ∉ path :: pathsOf done id → ∀ other, R.view q ≠ some (target, other)) :
    Rebuilt t options key (done ++ [(path, id)]) R'
      ⟨g.groups.insert [0, 0, key id] ⟨(pathsOf done id).map joined ++ [joined path],
          stored options slot.node (held options slot (times (done ++ [(path, id)]) id))⟩,
        g.owners.insert (joined path) [0, 0, key id]⟩ := by
  have hin : id ∈ t.places.map Prod.snd := mem_map.mpr ⟨_, hstart.subset mem_concat_self, rfl⟩
  refine h.push ht hstart hslot hR (path :: pathsOf done id) target hview hfresh ?_ ?_ ?_
  · intro q
    rw [mem_cons, mem_pathsOf]
    constructor
    · rintro (hq | hq)
      · exact .inl hq
      · exact .inr ⟨hg, hq⟩
    · rintro (hq | ⟨_, hq⟩)
      · exact .inl hq
      · exact .inr hq
  · intro text hsome
    change ((g.owners.insert (joined path) [0, 0, key id]).get text).isSome at hsome
    rw [SortedMap.get_insert] at hsome
    split at hsome
    · rename_i htext
      exact ⟨(path, id), mem_concat_self, htext⟩
    · exact owners_kept h hsome
  · intro other slot' hlive hg' hother
    change (g.groups.insert [0, 0, key id] _).get [0, 0, key other] = _
    rw [SortedMap.get_insert]
    split
    · rename_i heq
      have hids : other = id := hkey hlive hg' hother hslot hg hin (by
        rw [List.cons.injEq, List.cons.injEq, List.cons.injEq] at heq
        exact heq.2.2.1)
      subst hids
      cases hslot.symm.trans hlive
      rw [if_neg, pathsOf_concat, if_pos rfl, map_append, map_singleton]
      rw [times_concat, if_pos rfl]
      exact Nat.succ_ne_zero _
    · rename_i hne
      refine h.groups_other hlive hg' hother ?_
      rintro rfl
      exact hne rfl

theorem Rebuilt.give (h : Rebuilt t options key done R g) (ht : t.WellFormed)
    (hstart : done ++ [(path, id)] <+: t.places) (hslot : t.live id = some slot)
    (hg : IsGroup slot) (data : List UInt8) :
    ∃ target R',
      (Group.give (joined path) ⟨(pathsOf done id).map joined, stored options slot.node data⟩).run
      R =
        (.ok (), R') ∧ R'.WellFormed ∧
      (∀ q, R'.view q = if q ∈ path :: pathsOf done id
        then some (target, stored options slot.node data)
        else R.view q) ∧
      ∀ q other, R.view q ≠ some (target, other) := by
  have hleaf : (stored options slot.node data).isDir = false := stored_isDir.trans hg.leaf
  obtain ⟨q, last, rfl, hvacant⟩ := h.vacant ht hstart
  obtain ⟨target, R₁, hput, hR₁, hview₁, hfresh⟩ :=
    run_put h.wellFormed hvacant
      (show (stored options slot.node data).check = .ok () from stored_check
        (ht.consistent.check hslot))
  have hnew : q ++ [last] ∉ pathsOf done id := fun hmem => place_new ht hstart id
    (mem_pathsOf.mp hmem)
  obtain ⟨R₂, hlinks, hR₂, hview₂⟩ := run_putLinks hR₁ hvacant.names
    (by rw [hview₁, if_pos rfl]) hleaf (pathsOf done id) (fun full hfull => by
      obtain ⟨p, n, rfl, hplace⟩ := h.placeable ht ((prefix_append _ _).trans hstart)
        (mem_pathsOf.mp hfull) hslot hg.leaf
      refine ⟨p, n, rfl, hplace.linked hview₁ hleaf fun i old hold => ?_⟩
      rw [hvacant.free] at hold
      cases hold) hnew
  refine ⟨target, R₂, ?_, hR₂, ?_, hfresh⟩
  · rw [Group.give, run_bind_ok hput]
    exact hlinks
  · intro p
    rw [hview₂, hview₁]
    simp only [mem_cons]
    by_cases hp : p = q ++ [last] <;> by_cases hmem : p ∈ pathsOf done id <;> simp [hp, hmem]

theorem view_node {t : Tree} {p q : List (List UInt8)} {i : Nat} {m n : Node}
    (hp : t.view p = some (i, m)) (hq : t.view q = some (i, n)) : m = n := by
  obtain ⟨_, slot, hslot, rfl⟩ := Tree.view_eq_some.mp hp
  obtain ⟨_, slot', hslot', rfl⟩ := Tree.view_eq_some.mp hq
  rw [Option.some_inj.mp (hslot.symm.trans hslot')]

theorem Rebuilt.relink (h : Rebuilt t options key done R g) (ht : t.WellFormed)
    (hstart : done ++ [(path, id)] <+: t.places) (hslot : t.live id = some slot)
    (hg : IsGroup slot) {first : List (List UInt8)} (hfirst : (first, id) ∈ done)
    (hsame : held options slot (times (done ++ [(path, id)]) id) =
      held options slot (times done id)) :
    ∃ target R', (putLink (joined first) (joined path)).run R = (.ok (), R') ∧ R'.WellFormed ∧
      (∀ q, R'.view q = if q ∈ path :: pathsOf done id
        then some (target, stored options slot.node
          (held options slot (times (done ++ [(path, id)]) id)))
        else R.view q) ∧
      ∀ q, q ∉ path :: pathsOf done id → ∀ other, R.view q ≠ some (target, other) := by
  obtain ⟨q, last, rfl, hvacant⟩ := h.vacant ht hstart
  obtain ⟨target, htarget⟩ := h.view hfirst hslot
  have hleaf : (stored options slot.node (held options slot (times done id))).isDir = false :=
    stored_isDir.trans hg.leaf
  have hin := ht.mem_places.mp (hstart.subset (mem_append_left _ hfirst))
  have hplace : Placeable R q last := ⟨hvacant.names, hvacant.parent, fun i old hold => by
    rw [hvacant.free] at hold
    cases hold⟩
  have hne : first ≠ q ++ [last] := by
    rintro rfl
    exact place_new ht hstart id hfirst
  obtain ⟨R', hrun, hR', hview⟩ :=
    run_putLink h.wellFormed (ht.names_of_follow hin.2) htarget hleaf hplace hne
  refine ⟨target, R', hrun, hR', ?_, ?_⟩
  · intro p
    rw [hview, hsame]
    by_cases hp : p = q ++ [last]
    · rw [if_pos hp, if_pos (hp ▸ mem_cons_self)]
    · rw [if_neg hp]
      by_cases hmem : p ∈ pathsOf done id
      · obtain ⟨i, hi⟩ := h.view (mem_pathsOf.mp hmem) hslot
        have heq := (h.share (mem_pathsOf.mp hmem) hfirst hslot hi htarget).mpr (.inr ⟨rfl, hg⟩)
        rw [if_pos (mem_cons_of_mem _ hmem), hi, heq]
      · rw [if_neg]
        intro hcons
        exact (mem_cons.mp hcons).elim hp hmem
  · intro p hp other hother
    by_cases hroot : p = []
    · rw [hroot, h.root] at hother
      cases hother
      rw [← view_node h.root htarget] at hleaf
      cases hleaf
    · by_cases hread : ∃ a, (p, a) ∈ done
      · obtain ⟨a, ha⟩ := hread
        rcases (h.share hfirst ha hslot htarget hother).mp rfl with rfl | ⟨rfl, _⟩
        · exact hp (mem_cons_of_mem _ (mem_pathsOf.mpr hfirst))
        · exact hp (mem_cons_of_mem _ (mem_pathsOf.mpr ha))
      · rw [h.missing hroot (fun a ha => hread ⟨a, ha⟩)] at hother
        cases hother

theorem held_same (hg : IsGroup slot) (hless : times done id < slot.links)
    (hempty : held options slot (times (done ++ [(path, id)]) id) = []) :
    held options slot (times (done ++ [(path, id)]) id) = held options slot (times done id) := by
  rw [hempty]
  rw [held] at hempty
  rw [held]
  by_cases hnow : carries options slot (times (done ++ [(path, id)]) id) = true
  · rw [if_pos hnow] at hempty
    rw [hempty, ite_self]
  · rw [if_neg]
    intro hbefore
    rcases of_decide_eq_true hbefore with hnot | hodc | heq
    · exact hnot hg
    · exact hnow (decide_eq_true (.inr (.inl hodc)))
    · exact Nat.ne_of_lt hless heq

theorem Rebuilt.add (h : Rebuilt t options key done R g) (ht : t.WellFormed)
    (hkey : KeyApart t key)
    (hstart : done ++ [(path, id)] <+: t.places) (hslot : t.live id = some slot)
    (hg : IsGroup slot)
    (hnode : node = stored options slot.node
      (held options slot (times (done ++ [(path, id)]) id))) :
    ∃ R' g', (g.add [0, 0, key id] (joined path) node
        (0 < (held options slot (times (done ++ [(path, id)]) id)).length)).run R = (.ok g', R') ∧
      Rebuilt t options key (done ++ [(path, id)]) R' g' := by
  have hin : id ∈ t.places.map Prod.snd := mem_map.mpr ⟨_, hstart.subset mem_concat_self, rfl⟩
  have hgroup := h.groups hslot hg hin
  have hless := times_lt ht hstart hslot
  rw [Groups.add, h.release ht hstart, Groups.group, hgroup]
  by_cases hzero : times done id = 0
  · have hnone : pathsOf done id = [] :=
      length_eq_zero_iff.mp ((pathsOf_length done id).trans hzero)
    obtain ⟨target, R', hrun, hR', hview, hfresh⟩ := h.give ht hstart hslot hg
      (held options slot (times (done ++ [(path, id)]) id))
    have hjoin := h.join ht hkey hstart hslot hg hR' hview fun q _ => hfresh q
    rw [hnone] at hrun hjoin
    rw [if_pos hzero, hnode]
    exact ⟨R', _, run_bind_ok hrun _, hjoin⟩
  · rw [if_neg hzero]
    cases hnames : pathsOf done id with
    | nil => exact absurd ((pathsOf_length done id).symm.trans
        (congrArg List.length hnames)) hzero
    | cons first names =>
      have hfirst : (first, id) ∈ done := mem_pathsOf.mp (hnames ▸ mem_cons_self)
      by_cases hdata : 0 < (held options slot (times (done ++ [(path, id)]) id)).length
      · obtain ⟨target, R', hrun, hR', hview, hfresh⟩ := h.give ht hstart hslot hg
          (held options slot (times (done ++ [(path, id)]) id))
        have hjoin := h.join ht hkey hstart hslot hg hR' hview fun q _ => hfresh q
        rw [hnames] at hrun hjoin
        rw [decide_eq_true hdata, hnode]
        exact ⟨R', _, run_bind_ok hrun _, hjoin⟩
      · have hempty := length_eq_zero_iff.mp (Nat.eq_zero_of_not_pos hdata)
        have hsame := held_same hg hless hempty
        obtain ⟨target, R', hrun, hR', hview, hfresh⟩ := h.relink ht hstart hslot hg hfirst hsame
        have hjoin := h.join ht hkey hstart hslot hg hR' hview hfresh
        rw [hnames, hsame] at hjoin
        rw [decide_eq_false hdata]
        exact ⟨R', _, run_bind_ok hrun _, hjoin⟩

theorem Rebuilt.enter (h : Rebuilt t options key done R g) (ht : t.WellFormed)
    (hkey : KeyApart t key)
    (hstart : done ++ [(path, id)] <+: t.places) (hslot : t.live id = some slot)
    (hcomes : Comes options key slot path id (times (done ++ [(path, id)]) id) name header node) :
    ∃ R' g', (g.enter name header node).run R = (.ok g', R') ∧
      Rebuilt t options key (done ++ [(path, id)]) R' g' := by
  have hin := ht.mem_places.mp (hstart.subset mem_concat_self)
  have hname : normalizePath name = some (joined path) := by
    rw [hcomes.name]
    exact normalizePath_joined (ht.names_of_follow hin.2) hin.1
  rw [Groups.enter, hname]
  by_cases hg : IsGroup slot
  · obtain ⟨R', g', hrun, hrebuilt⟩ := h.add ht hkey hstart hslot hg hcomes.node
    refine ⟨R', g', named_ok ?_ name, hrebuilt⟩
    dsimp only
    rw [if_neg (fun hsingle => hcomes.single.mp hsingle hg), hcomes.key hg, hcomes.len]
    exact hrun
  · obtain ⟨R', hrun, hrebuilt⟩ := h.single ht hstart hslot hg hcomes.node
    refine ⟨R', g, named_ok ?_ name, hrebuilt⟩
    dsimp only
    rw [if_pos (hcomes.single.mpr hg), run_bind_ok hrun, h.release ht hstart]
    rfl

end Hadris.Cpio
