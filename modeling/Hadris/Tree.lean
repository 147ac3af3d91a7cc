import Hadris.Meta
import Hadris.Program
import Hadris.SortedMap
import Mathlib.Data.Finset.Card
import Mathlib.Data.Finset.Prod
import Mathlib.Data.Finset.Union

namespace Hadris

/-- How an operation of a tree ends early: with an error, or in an arm that the
source holds to be unreachable. -/
inductive Fault (ε : Type) where
  | error (e : ε)
  | unreachable
deriving DecidableEq, Repr

/-- A node with its children and the number of names it has. -/
structure Slot where
  node : Node
  children : SortedMap (List UInt8) Nat
  links : Nat

/-- Files, directories, symlinks, special files and hard links for a writer. The
slot freed last is the first of `free`. -/
structure Tree where
  slots : List (Option Slot)
  free : List Nat

def pathError (kind : ErrorKind) (message : String) (path : List UInt8) : PathError :=
  (PathError.new kind message).withPath path

/-- The components among the parts of a path, of which `first` tells whether the
next one is the first. -/
def componentsOf (path : List UInt8) :
    Bool → List (List UInt8) → Except PathError (List (List UInt8))
  | _, [] => .ok []
  | first, part :: rest =>
    if part = [] then componentsOf path false rest
    else if part = [0x2E] ∧ first then componentsOf path false rest
    else if part = [0x2E] ∨ part = [0x2E, 0x2E] then
      .error (pathError .invalidInput "tree paths have no . or .. components" path)
    else if 0 ∈ part then .error (pathError .invalidInput "tree paths hold no NUL bytes" path)
    else (componentsOf path false rest).map (part :: ·)

def components (path : List UInt8) : Except PathError (List (List UInt8)) :=
  componentsOf path true (path.splitOn 0x2F)

namespace Tree

variable {ε : Type}

def root : Nat := 0

def new : Tree := ⟨[some ⟨.dir, .empty, 1⟩], []⟩

def live (t : Tree) (index : Nat) : Option Slot := t.slots[index]?.join

def slot (t : Tree) (index : Nat) : Except (Fault ε) Slot :=
  match t.live index with
  | some slot => .ok slot
  | none => .error .unreachable

def find (t : Tree) : Nat → List (List UInt8) → Except (Fault ErrorKind) Nat
  | index, [] => .ok index
  | index, part :: rest => do
    let slot ← t.slot index
    if slot.node.isDir then
      match slot.children.get part with
      | some child => t.find child rest
      | none => .error (.error .notFound)
    else .error (.error .notADirectory)

def names (t : Tree) : Nat :=
  (t.slots.map fun slot => slot.elim 0 (·.children.entries.length)).sum

def set (index : Nat) (slot : Slot) (t : Tree) : Tree :=
  { t with slots := t.slots.set index (some slot) }

def alloc (node : Node) : Prog Tree (Fault ε) Nat := do
  let t ← Prog.gets id
  match t.free with
  | index :: free => do
    Prog.modify fun t => { (t.set index ⟨node, .empty, 1⟩) with free := free }
    pure index
  | [] => do
    Prog.modify fun t => { t with slots := t.slots ++ [some ⟨node, .empty, 1⟩] }
    pure t.slots.length

/-- Gives the directory at `index` the child `child`, and returns the one it had
under that name. -/
def putChild (index : Nat) (name : List UInt8) (child : Nat) :
    Prog Tree (Fault ε) (Option Nat) := do
  let t ← Prog.gets id
  let slot ← Prog.ofExcept (t.slot index)
  Prog.modify (set index { slot with children := slot.children.insert name child })
  pure (slot.children.get name)

/-- Where the directories `dirs` lead, as far as they exist, and those that are
missing. -/
def descend (t : Tree) : Nat → List (List UInt8) →
    Except (Fault ErrorKind) (Nat × List (List UInt8))
  | index, [] => .ok (index, [])
  | index, part :: rest => do
    let slot ← t.slot index
    if slot.node.isDir then
      match slot.children.get part with
      | some child => t.descend child rest
      | none => .ok (index, part :: rest)
    else .error (.error .notADirectory)

def makeDirs : Nat → List (List UInt8) → Prog Tree (Fault ε) Nat
  | index, [] => pure index
  | index, part :: rest => do
    let child ← alloc .dir
    let _ ← putChild index part child
    makeDirs child rest

/-- The directory that holds the last component of `parts`, with missing
directories created on the way, once the name is known to be free. -/
def parentFor (parts : List (List UInt8)) : Prog Tree (Fault ErrorKind) Nat :=
  match parts.getLast? with
  | none => Prog.fail (.error .invalidInput)
  | some name => do
    let t ← Prog.gets id
    let found ← Prog.ofExcept (t.descend root parts.dropLast)
    let slot ← Prog.ofExcept (t.slot found.1)
    if !slot.node.isDir then Prog.fail (.error .notADirectory)
    else if found.2 = [] then
      if (slot.children.get name).isSome then Prog.fail (.error .alreadyExists)
      else pure found.1
    else makeDirs found.1 found.2

def about {α : Type} (message : String) (path : List UInt8) (x : Prog Tree (Fault ErrorKind) α) :
    Prog Tree (Fault PathError) α := ⟨fun t =>
  match x.run t with
  | (.ok a, t) => (.ok a, t)
  | (.error (.error kind), t) => (.error (.error (pathError kind message path)), t)
  | (.error .unreachable, t) => (.error .unreachable, t)⟩

def checkNode (node : Node) (path : List UInt8) : Prog Tree (Fault PathError) Unit :=
  about "a device needs a number and nothing else has one" path
    (Prog.ofExcept (node.check.mapError Fault.error))

def parts (path : List UInt8) : Prog Tree (Fault PathError) (List (List UInt8)) :=
  Prog.ofExcept ((components path).mapError Fault.error)

def insert (path : List UInt8) (node : Node) : Prog Tree (Fault PathError) Unit := do
  checkNode node path
  let parts ← parts path
  let parent ← about "cannot insert into the tree" path (parentFor parts)
  let child ← alloc node
  let _ ← putChild parent (parts.getLast?.getD []) child

def link (existing new : List UInt8) : Prog Tree (Fault PathError) Unit := do
  let t ← Prog.gets id
  let held ← parts existing
  let target ← about "the link target does not exist" existing (Prog.ofExcept (t.find root held))
  let slot ← Prog.ofExcept (t.slot target)
  if slot.node.isDir then
    Prog.fail (.error (pathError .isADirectory "directories cannot be hard linked" existing))
  else do
    let parts ← parts new
    let parent ← about "cannot insert into the tree" new (parentFor parts)
    let _ ← putChild parent (parts.getLast?.getD []) target
    let t ← Prog.gets id
    let slot ← Prog.ofExcept (t.slot target)
    Prog.modify (set target { slot with links := slot.links + 1 })

/-- Takes a name from each slot of `pending`, and frees those left without one,
whose children are next. -/
def unlinkAll : Nat → List Nat → Prog Tree (Fault ε) Unit
  | 0, _ => pure ()
  | _, [] => pure ()
  | fuel + 1, index :: pending => do
    let t ← Prog.gets id
    let slot ← Prog.ofExcept (t.slot index)
    if 1 < slot.links then do
      Prog.modify (set index { slot with links := slot.links - 1 })
      unlinkAll fuel pending
    else do
      Prog.modify fun t => { t with slots := t.slots.set index none, free := index :: t.free }
      unlinkAll fuel (slot.children.values.reverse ++ pending)

def unlink (index : Nat) : Prog Tree (Fault ε) Unit := do
  let t ← Prog.gets id
  unlinkAll (t.names + 1) [index]

def remove (path : List UInt8) : Prog Tree (Fault PathError) Unit := do
  let parts ← parts path
  match parts.getLast? with
  | none => Prog.fail (.error (pathError .invalidInput "the root cannot be removed" path))
  | some name => do
    let t ← Prog.gets id
    let parent ← about "no such path in the tree" path
      (Prog.ofExcept (t.find root parts.dropLast))
    let slot ← Prog.ofExcept (t.slot parent)
    if !slot.node.isDir then
      Prog.fail (.error (pathError .notADirectory "no such path in the tree" path))
    else match slot.children.get name with
      | none => Prog.fail (.error (pathError .notFound "no such path in the tree" path))
      | some child => do
        Prog.modify (set parent { slot with children := slot.children.erase name })
        unlink child

/-- Replaces the node at `path`. A directory replaced by a directory keeps its
children. -/
def replace (path : List UInt8) (node : Node) : Prog Tree (Fault PathError) Unit := do
  checkNode node path
  let parts ← parts path
  let t ← Prog.gets id
  let index ← about "no such path in the tree" path (Prog.ofExcept (t.find root parts))
  let slot ← Prog.ofExcept (t.slot index)
  if slot.node.isDir ∧ node.isDir then Prog.modify (set index { slot with node := node })
  else if !slot.children.isEmpty then
    Prog.fail (.error (pathError .directoryNotEmpty
      "a directory with children can only become a directory" path))
  else match parts.getLast? with
    | none => Prog.fail (.error (pathError .invalidInput "the root is always a directory" path))
    | some name => do
      let parent ← about "no such path in the tree" path
        (Prog.ofExcept (t.find root parts.dropLast))
      let child ← alloc node
      let old ← putChild parent name child
      match old with
      | some old => unlink old
      | none => pure ()

def entry (t : Tree) (path : List UInt8) : Option Nat :=
  match components path with
  | .ok parts => (t.find root parts).toOption
  | .error _ => none

def get (t : Tree) (path : List UInt8) : Option Node := do
  let index ← t.entry path
  let slot ← t.live index
  pure slot.node

end Tree

end Hadris

namespace Hadris

/-- What a component of a tree path can be. -/
structure IsName (name : List UInt8) : Prop where
  ne_nil : name ≠ []
  ne_dot : name ≠ [0x2E]
  ne_dots : name ≠ [0x2E, 0x2E]
  no_separator : 0x2F ∉ name
  no_nul : 0 ∉ name

namespace Tree

def child (t : Tree) (i : Nat) (name : List UInt8) : Option Nat :=
  (t.live i).bind (·.children.get name)

def follow (t : Tree) : Nat → List (List UInt8) → Option Nat
  | i, [] => some i
  | i, name :: path => (t.child i name).bind (t.follow · path)

def allNames (t : Tree) : Finset (Nat × List UInt8) :=
  (Finset.range t.slots.length).biUnion fun i =>
    ((t.live i).elim [] fun slot => slot.children.entries.map fun e => (i, e.1)).toFinset

def parents (t : Tree) (c : Nat) : Finset (Nat × List UInt8) :=
  t.allNames.filter fun name => t.child name.1 name.2 = some c

/-- What leads from the root or a slot in `cut`. -/
inductive Reached (t : Tree) (cut : List Nat) : Nat → Prop where
  | root : Reached t cut root
  | cut {i : Nat} : i ∈ cut → Reached t cut i
  | child {i : Nat} {name : List UInt8} {c : Nat} : Reached t cut i → t.child i name = some c →
      Reached t cut c

/-- Every live slot is reached and has as many links as names, where `cut` has a
slot once for each name that was taken from it and not counted yet. -/
structure Consistent (t : Tree) (cut : List Nat) : Prop where
  root : ∃ slot, t.live Tree.root = some slot ∧ slot.node.isDir
  dir : ∀ {i : Nat} {slot : Slot} {name : List UInt8} {c : Nat}, t.live i = some slot →
    slot.children.get name = some c → slot.node.isDir
  child : ∀ {i : Nat} {name : List UInt8} {c : Nat}, t.child i name = some c →
    IsName name ∧ c ≠ Tree.root ∧ (t.live c).isSome
  cut_live : ∀ {i : Nat}, i ∈ cut → i ≠ Tree.root ∧ (t.live i).isSome
  links : ∀ {i : Nat} {slot : Slot}, t.live i = some slot →
    slot.links = (t.parents i).card + cut.count i + if i = Tree.root then 1 else 0
  single : ∀ {i : Nat} {slot : Slot}, t.live i = some slot → slot.node.isDir → slot.links = 1
  check : ∀ {i : Nat} {slot : Slot}, t.live i = some slot → slot.node.check = .ok ()
  reached : ∀ {i : Nat}, (t.live i).isSome → t.Reached cut i

/-- The free list holds each free slot once. -/
structure FreeList (t : Tree) : Prop where
  nodup : t.free.Nodup
  mem : ∀ i : Nat, i ∈ t.free ↔ i < t.slots.length ∧ t.live i = none

/-- What holds of a tree after any calls. -/
structure WellFormed (t : Tree) : Prop where
  consistent : t.Consistent []
  free : t.FreeList

variable {t t' : Tree} {i j c : Nat} {name : List UInt8} {slot : Slot}

theorem live_lt (h : (t.live i).isSome) : i < t.slots.length := by
  by_contra hge
  rw [live, List.getElem?_eq_none (Nat.le_of_not_lt hge)] at h
  cases h

theorem child_eq_some : t.child i name = some c ↔ ∃ slot, t.live i = some slot ∧
    slot.children.get name = some c :=
  Option.bind_eq_some_iff

theorem child_of_live (h : t.live i = some slot) (name : List UInt8) :
    t.child i name = slot.children.get name := by
  rw [child, h, Option.bind_some]

theorem mem_allNames : (i, name) ∈ t.allNames ↔ (t.child i name).isSome := by
  rw [allNames, Finset.mem_biUnion]
  constructor
  · rintro ⟨k, _, h⟩
    cases hlive : t.live k with
    | none =>
      rw [hlive] at h
      cases List.mem_toFinset.mp h
    | some slot =>
      rw [hlive, List.mem_toFinset] at h
      obtain ⟨e, he, heq⟩ := List.mem_map.mp h
      cases heq
      rw [child_of_live hlive, SortedMap.get_eq_some.mpr he]
      rfl
  · intro h
    obtain ⟨c, hc⟩ := Option.isSome_iff_exists.mp h
    obtain ⟨slot, hlive, hget⟩ := child_eq_some.mp hc
    refine ⟨i, Finset.mem_range.mpr (live_lt (by rw [hlive]; rfl)), ?_⟩
    rw [hlive, List.mem_toFinset]
    exact List.mem_map.mpr ⟨(name, c), SortedMap.get_eq_some.mp hget, rfl⟩

theorem mem_parents : (i, name) ∈ t.parents c ↔ t.child i name = some c := by
  rw [parents, Finset.mem_filter, mem_allNames]
  constructor
  · exact And.right
  · intro h
    exact ⟨by rw [h]; rfl, h⟩

theorem Consistent.name_unique {cut : List Nat} (ht : t.Consistent cut)
    (hc : t.live c = some slot)
    (hdir : slot.node.isDir) {i j : Nat} {m n : List UInt8} (hi : t.child i m = some c)
    (hj : t.child j n = some c) : i = j ∧ m = n := by
  have hlinks := ht.links hc
  rw [ht.single hc hdir] at hlinks
  have hcard : (t.parents c).card ≤ 1 := by omega
  have heq := Finset.card_le_one.mp hcard _ (mem_parents.mpr hi) _ (mem_parents.mpr hj)
  exact ⟨congrArg Prod.fst heq, congrArg Prod.snd heq⟩

theorem follow_append (t : Tree) (i : Nat) (p q : List (List UInt8)) :
    t.follow i (p ++ q) = (t.follow i p).bind (t.follow · q) := by
  induction p generalizing i with
  | nil => rfl
  | cons name p ih =>
    rw [List.cons_append, follow, follow]
    cases t.child i name with
    | none => rfl
    | some c => exact ih c

theorem follow_concat (t : Tree) (i : Nat) (p : List (List UInt8)) (name : List UInt8) :
    t.follow i (p ++ [name]) = (t.follow i p).bind (t.child · name) := by
  rw [follow_append]
  congr 1
  funext j
  rw [follow]
  cases t.child j name <;> rfl

theorem set_live (h : t.live i = some slot) (slot' : Slot) (k : Nat) :
    (t.set i slot').live k = if k = i then some slot' else t.live k := by
  have hlt := live_lt (t := t) (i := i) (by rw [h]; rfl)
  rw [live, set, List.getElem?_set]
  split
  · rename_i hk
    rw [if_pos hk.symm]
    rfl
  · rename_i hk
    rw [if_neg (Ne.symm hk)]
    rfl

end Tree

end Hadris
