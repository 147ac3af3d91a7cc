import Hadris.Bytes
import Hadris.Tree.Refine
import Mathlib.Data.List.Sort

namespace Hadris

open List

/-- 64-bit FNV-1a. -/
structure Fnv where
  hash : UInt64
deriving DecidableEq, Repr

namespace Fnv

def new : Fnv := ⟨0xCBF29CE484222325⟩

def bytes (fnv : Fnv) (bytes : List UInt8) : Fnv :=
  bytes.foldl (fun fnv byte => ⟨(fnv.hash ^^^ byte.toUInt64) * 0x00000100000001B3⟩) fnv

def u64 (fnv : Fnv) (value : UInt64) : Fnv := fnv.bytes (leBytes 8 value.toNat)

end Fnv

def FileType.number : FileType → UInt64
  | file => 0
  | dir => 1
  | symlink => 2
  | charDevice => 3
  | blockDevice => 4
  | fifo => 5
  | socket => 6

namespace Tree

def hashTime (fnv : Fnv) : Option DateTime → Fnv
  | some time =>
    ((fnv.u64 1).u64 (.ofNat (time.unixSeconds % 2 ^ 64).toNat)).u64 (.ofNat time.nanoseconds)
  | none => fnv.u64 0

def hashTarget (fnv : Fnv) : Option (List UInt8) → Fnv
  | some target => (fnv.bytes target).u64 (.ofNat target.length)
  | none => fnv

def hashDevice (fnv : Fnv) : Option DeviceNumber → Fnv
  | some device => fnv.u64 (device.major.toUInt64 <<< 32 ||| device.minor.toUInt64)
  | none => fnv

def hashEntry (fnv : Fnv) (path : List UInt8) (node : Node) : Fnv :=
  let fnv := (fnv.bytes path).u64 (.ofNat path.length)
  let fnv := fnv.u64 node.fileType.number
  let fnv := fnv.u64 (.ofNat ((node.content.map Content.len).getD 0))
  let fnv := hashDevice (hashTarget fnv node.target) node.device
  [node.attrs.created, node.attrs.modified, node.attrs.accessed].foldl hashTime fnv

/-- The entries of `pending` are hashed, the first of which was pushed last, with all that is
below them. There is no hash when they are more than `fuel`, or when one has no node. -/
def hashAll (t : Tree) : Nat → Fnv → List (Nat × List UInt8) → Option Fnv
  | _, fnv, [] => some fnv
  | 0, _, _ => none
  | fuel + 1, fnv, (index, path) :: pending => do
    let slot ← t.live index
    t.hashAll fuel (hashEntry fnv path slot.node)
      ((slot.children.entries.map fun e => (e.2, path ++ 0x2F :: e.1)).reverse ++ pending)

def fingerprint (t : Tree) : Option UInt64 :=
  (t.hashAll (t.names + 1) .new [(root, [])]).map Fnv.hash

variable {t t' : Tree} {i : Nat} {slot : Slot} {path : List (List UInt8)}

def pendingAt (t : Tree) (path : List (List UInt8)) : Nat × List UInt8 :=
  ((t.follow root path).getD root, path.flatMap (0x2F :: ·))

def sizeAt (t : Tree) (path : List (List UInt8)) : Nat :=
  (t.walk (t.slots.length - path.length) path ((t.follow root path).getD root)).length

theorem WellFormed.sizeAt (ht : t.WellFormed) (h : t.follow root path = some i) :
    t.sizeAt path = (((t.children i).map fun e => path ++ [e.1]).map t.sizeAt).sum + 1 := by
  obtain ⟨d, hd⟩ : ∃ d, t.slots.length - path.length = d + 1 :=
    ⟨t.slots.length - path.length - 1, by have := ht.length_lt h; omega⟩
  rw [Tree.sizeAt, h, hd, Option.getD_some, walk, length_cons, length_flatMap, map_map]
  congr 2
  refine map_congr_left fun e he => ?_
  have hchild : t.follow root (path ++ [e.1]) = some e.2 := by
    rw [follow_concat, h, Option.bind_some, mem_children.mp he]
  have hdepth : t.slots.length - (path ++ [e.1]).length = d := by
    rw [length_append, length_singleton]
    omega
  rw [Function.comp_apply, Tree.sizeAt, hchild, hdepth, Option.getD_some]

theorem WellFormed.sizeAt_root (ht : t.WellFormed) : t.sizeAt [] ≤ t.names + 1 := by
  have hwalk : t.sizeAt [] = (t.walk t.slots.length [] root).length := rfl
  rw [hwalk, ht.walk_eq, length_cons]
  exact Nat.succ_le_succ ht.places_length

/-- Two trees have the same paths, with the same nodes. -/
def Same (t t' : Tree) : Prop := ∀ path, (t.view path).map Prod.snd = (t'.view path).map Prod.snd

theorem Same.symm (h : Same t t') : Same t' t := fun path => (h path).symm

theorem Same.held (h : Same t t') (hpath : t.follow root path = some i)
    (hi : t.live i = some slot) :
    ∃ i' slot', t'.follow root path = some i' ∧ t'.live i' = some slot' ∧
      slot'.node = slot.node := by
  have hview := h path
  rw [view_eq_some.mpr ⟨hpath, slot, hi, rfl⟩, Option.map_some] at hview
  obtain ⟨⟨i', node⟩, hview', hnode⟩ := Option.map_eq_some_iff.mp hview.symm
  obtain ⟨hpath', slot', hi', hslot'⟩ := view_eq_some.mp hview'
  exact ⟨i', slot', hpath', hi', hslot'.trans hnode⟩

theorem Same.name_mem (ht : t.WellFormed) (h : Same t t') {i' : Nat} {slot' : Slot}
    (hpath : t.follow root path = some i) (hi : t.live i = some slot)
    (hpath' : t'.follow root path = some i')
    (hi' : t'.live i' = some slot') {name : List UInt8}
    (hname : name ∈ slot.children.entries.map Prod.fst) :
    name ∈ slot'.children.entries.map Prod.fst := by
  obtain ⟨⟨name, c⟩, hmem, rfl⟩ := mem_map.mp hname
  have hfollow : t.follow root (path ++ [name]) = some c := by
    rw [follow_concat, hpath, Option.bind_some, child_of_live hi, SortedMap.get_eq_some.mpr hmem]
  obtain ⟨s, hs⟩ := Option.isSome_iff_exists.mp (ht.live_of_follow hfollow)
  obtain ⟨c', s', hfollow', -, -⟩ := h.held hfollow hs
  rw [follow_concat, hpath', Option.bind_some, child_of_live hi'] at hfollow'
  exact mem_map.mpr ⟨(name, c'), SortedMap.get_eq_some.mp hfollow', rfl⟩

theorem Same.names (ht : t.WellFormed) (ht' : t'.WellFormed) (h : Same t t')
    {i' : Nat} {slot' : Slot}
    (hpath : t.follow root path = some i) (hi : t.live i = some slot)
    (hpath' : t'.follow root path = some i')
    (hi' : t'.live i' = some slot') :
    slot.children.entries.map Prod.fst = slot'.children.entries.map Prod.fst :=
  slot.children.sorted.eq_of_mem_iff slot'.children.sorted fun _ =>
    ⟨h.name_mem ht hpath hi hpath' hi', h.symm.name_mem ht' hpath' hi' hpath hi⟩

def pathsBelow (path : List (List UInt8)) (slot : Slot) : List (List (List UInt8)) :=
  slot.children.entries.map fun e => path ++ [e.1]

theorem pushed_eq (hpath : t.follow root path = some i) (hi : t.live i = some slot) :
    (slot.children.entries.map fun e => (e.2, path.flatMap (0x2F :: ·) ++ 0x2F :: e.1)) =
      (pathsBelow path slot).map t.pendingAt := by
  rw [pathsBelow, map_map]
  refine map_congr_left fun e he => ?_
  rw [Function.comp_apply, pendingAt, follow_concat, hpath, Option.bind_some, child_of_live hi,
    SortedMap.get_eq_some.mpr he]
  simp

theorem follow_pathsBelow (hpath : t.follow root path = some i) (hi : t.live i = some slot) :
    ∀ below ∈ pathsBelow path slot, (t.follow root below).isSome := by
  intro below hbelow
  obtain ⟨e, he, rfl⟩ := mem_map.mp hbelow
  rw [follow_concat, hpath, Option.bind_some, child_of_live hi, SortedMap.get_eq_some.mpr he]
  rfl

theorem pathsBelow_congr {slot' : Slot}
    (h : slot.children.entries.map Prod.fst = slot'.children.entries.map Prod.fst) :
    pathsBelow path slot = pathsBelow path slot' := by
  have hmap := congrArg (List.map fun name => path ++ [name]) h
  rwa [map_map, map_map] at hmap

theorem sum_pushed (size : List (List UInt8) → Nat) (paths : List (List (List UInt8))) :
    (((pathsBelow path slot).reverse ++ paths).map size).sum =
      ((pathsBelow path slot).map size).sum + (paths.map size).sum := by
  rw [map_append, sum_append, map_reverse, sum_reverse]

theorem Same.hashAll (ht : t.WellFormed) (ht' : t'.WellFormed) (h : Same t t')
    {fuel fuel' : Nat} {fnv : Fnv}
    {paths : List (List (List UInt8))} (hpaths : ∀ path ∈ paths, (t.follow root path).isSome)
    (hfuel : (paths.map t.sizeAt).sum ≤ fuel) (hfuel' : (paths.map t'.sizeAt).sum ≤ fuel') :
    ∃ hash, t.hashAll fuel fnv (paths.map t.pendingAt) = some hash ∧
      t'.hashAll fuel' fnv (paths.map t'.pendingAt) = some hash := by
  induction fuel generalizing fuel' fnv paths with
  | zero =>
    cases paths with
    | nil => exact ⟨fnv, by simp [Tree.hashAll], by simp [Tree.hashAll]⟩
    | cons path paths =>
      obtain ⟨i, hi⟩ := Option.isSome_iff_exists.mp (hpaths path mem_cons_self)
      rw [map_cons, sum_cons, ht.sizeAt hi] at hfuel
      omega
  | succ fuel ih =>
    cases paths with
    | nil => exact ⟨fnv, by simp [Tree.hashAll], by simp [Tree.hashAll]⟩
    | cons path paths =>
      obtain ⟨hpath, hpaths⟩ := forall_mem_cons.mp hpaths
      obtain ⟨i, hpath⟩ := Option.isSome_iff_exists.mp hpath
      obtain ⟨slot, hi⟩ := Option.isSome_iff_exists.mp (ht.live_of_follow hpath)
      obtain ⟨i', slot', hpath', hi', hnode⟩ := h.held hpath hi
      have hnames := h.names ht ht' hpath hi hpath' hi'
      rw [map_cons, sum_cons, ht.sizeAt hpath] at hfuel
      rw [map_cons, sum_cons, ht'.sizeAt hpath'] at hfuel'
      rw [show t.children i = slot.children.entries by rw [children, hi]; rfl] at hfuel
      rw [show t'.children i' = slot'.children.entries by rw [children, hi']; rfl] at hfuel'
      change ((pathsBelow path slot).map t.sizeAt).sum + 1 + _ ≤ _ at hfuel
      change ((pathsBelow path slot').map t'.sizeAt).sum + 1 + _ ≤ _ at hfuel'
      rw [← pathsBelow_congr hnames] at hfuel'
      obtain ⟨fuel', rfl⟩ : ∃ n, fuel' = n + 1 := ⟨fuel' - 1, by omega⟩
      have hall : ∀ p ∈ (pathsBelow path slot).reverse ++ paths, (t.follow root p).isSome := by
        intro p hp
        rcases mem_append.mp hp with hp | hp
        · exact follow_pathsBelow hpath hi p (mem_reverse.mp hp)
        · exact hpaths p hp
      obtain ⟨hash, hrun, hrun'⟩ := @ih fuel'
        (hashEntry fnv (path.flatMap (0x2F :: ·)) slot.node) _ hall
        (by rw [sum_pushed]; omega) (by rw [sum_pushed]; omega)
      refine ⟨hash, ?_, ?_⟩
      · rw [map_cons, pendingAt, hpath, Option.getD_some, Tree.hashAll, hi]
        change t.hashAll fuel _ _ = _
        rw [pushed_eq hpath hi, ← map_reverse, ← map_append, hrun]
      · rw [map_cons, pendingAt, hpath', Option.getD_some, Tree.hashAll, hi']
        change t'.hashAll fuel' _ _ = _
        rw [pushed_eq hpath' hi', ← map_reverse, ← map_append,
          hnode, ← pathsBelow_congr hnames, hrun']

theorem Same.fingerprint (ht : t.WellFormed) (ht' : t'.WellFormed) (h : Same t t') :
    ∃ hash, t.fingerprint = some hash ∧ t'.fingerprint = some hash := by
  have hroot : ∀ path ∈ [([] : List (List UInt8))], (t.follow root path).isSome := by
    intro path hpath
    rw [mem_singleton.mp hpath]
    rfl
  have hsize := ht.sizeAt_root
  have hsize' := ht'.sizeAt_root
  obtain ⟨fnv, hrun, hrun'⟩ := @Same.hashAll t t' ht ht' h (t.names + 1)
    (t'.names + 1) Fnv.new _ hroot
    (by simpa using hsize) (by simpa using hsize')
  refine ⟨fnv.hash, ?_, ?_⟩
  · rw [Tree.fingerprint]
    exact congrArg (Option.map Fnv.hash) hrun
  · rw [Tree.fingerprint]
    exact congrArg (Option.map Fnv.hash) hrun'

/-- What calls keep: the slots and the free list are as the names tell, and a call that fails
changes nothing and ends in no arm held unreachable. -/
structure Invariants (t : Tree) : Prop where
  reached : ∀ i, (t.live i).isSome → ∃ path, t.follow root path = some i
  links : ∀ i slot, t.live i = some slot → slot.links = (t.parents i).card + if i = root
    then 1 else 0
  single : ∀ i slot, t.live i = some slot → slot.node.isDir → slot.links = 1
  free : t.FreeList
  call : ∀ call : Call, (∃ t', call.prog.run t = (.ok (), t')) ∨
    ∃ e, call.prog.run t = (.error (.error e), t)

theorem WellFormed.invariants (ht : t.WellFormed) : Invariants t where
  reached _ hi := ht.path_of_live hi
  links _ _ hi := ht.consistent.links hi
  single _ _ hi hdir := ht.consistent.single hi hdir
  free := ht.free
  call call := by
    rcases call.sound t ht with ⟨t', hrun, -⟩ | herror
    · exact .inl ⟨t', hrun⟩
    · exact .inr herror

theorem answers_snd (t : Tree) (calls : List Call) :
    (t.answers calls).2 = calls.foldl (fun t call => (call.prog.run t).2) t := by
  induction calls generalizing t with
  | nil => rfl
  | cons call calls ih => exact ih _

/-- A tree behaves as a map from paths to nodes that they may share, in what each call answers and
in what the calls leave. Where calls in any order leave the same paths and nodes, the
fingerprint is the same. -/
theorem behaves_as_pathMap (calls : List Call) :
    Invariants (after calls) ∧
      (new.answers calls).1 = (PathMap.new.answers calls).1.map (·.mapError .error) ∧
      (∃ slotOf, Refines (after calls) (PathMap.new.answers calls).2 slotOf) ∧
      ∀ others : List Call, Same (after calls) (after others) →
        ∃ hash, (after calls).fingerprint = some hash ∧
          (after others).fingerprint = some hash := by
  obtain ⟨hresults, -, hrefines⟩ := answers_refines wellFormed_new refines_new calls
  rw [answers_snd] at hrefines
  exact ⟨(after_wellFormed calls).invariants, hresults, hrefines, fun others hsame =>
    hsame.fingerprint (after_wellFormed calls) (after_wellFormed others)⟩

end Tree

end Hadris
