import Hadris.Tree.Walk

namespace Hadris.Tree

/-- Nodes at the paths of a tree, where paths may share one. The numbers from `next` on are no
node's. -/
structure PathMap where
  place : List (List UInt8) → Option Nat
  node : Nat → Node
  next : Nat

namespace PathMap

def new : PathMap := ⟨fun q => if q = [] then some 0 else none, fun _ => .dir, 1⟩

def isDir (m : PathMap) (q : List (List UInt8)) : Bool :=
  (m.place q).any fun id => (m.node id).isDir

def seek (m : PathMap) (path : List (List UInt8)) : List (List UInt8) → Except ErrorKind Nat
  | [] => match m.place path with
    | some id => .ok id
    | none => .error .notFound
  | name :: rest =>
    if !m.isDir path then .error .notADirectory
    else if (m.place (path ++ [name])).isNone then .error .notFound
    else m.seek (path ++ [name]) rest

def way (path : List (List UInt8)) : List (List UInt8) → List (List (List UInt8))
  | [] => []
  | name :: rest => (path ++ [name]) :: way (path ++ [name]) rest

def missing (m : PathMap) (path : List (List UInt8)) :
    List (List UInt8) → Except ErrorKind (List (List (List UInt8)))
  | [] => if m.isDir path then .ok [] else .error .notADirectory
  | name :: rest =>
    if !m.isDir path then .error .notADirectory
    else if (m.place (path ++ [name])).isSome then m.missing (path ++ [name]) rest
    else .ok (way path (name :: rest))

def add (m : PathMap) (path : List (List UInt8)) (node : Node) : PathMap where
  place q := if q = path then some m.next else m.place q
  node id := if id = m.next then node else m.node id
  next := m.next + 1

def share (m : PathMap) (path : List (List UInt8)) (id : Nat) : PathMap :=
  { m with place := fun q => if q = path then some id else m.place q }

def erase (m : PathMap) (path : List (List UInt8)) : PathMap :=
  { m with place := fun q => if path <+: q then none else m.place q }

def retag (m : PathMap) (id : Nat) (node : Node) : PathMap :=
  { m with node := fun other => if other = id then node else m.node other }

def withParents (m : PathMap) (path : List (List UInt8)) : Except ErrorKind PathMap :=
  if path = [] then .error .invalidInput
  else do
    let missing ← m.missing [] path.dropLast
    if missing = [] ∧ (m.place path).isSome then .error .alreadyExists
    else .ok (missing.foldl (fun m dir => m.add dir .dir) m)

def about {α : Type} (message : String) (path : List UInt8) (x : Except ErrorKind α) :
    Except PathError α :=
  x.mapError fun kind => pathError kind message path

def checkNode (node : Node) (path : List UInt8) : Except PathError Unit :=
  about "a device needs a number and nothing else has one" path node.check

def insert (m : PathMap) (path : List UInt8) (node : Node) : Except PathError PathMap := do
  checkNode node path
  let parts ← components path
  let m ← about "cannot insert into the tree" path (m.withParents parts)
  pure (m.add parts node)

def link (m : PathMap) (existing new : List UInt8) : Except PathError PathMap := do
  let held ← components existing
  let id ← about "the link target does not exist" existing (m.seek [] held)
  if (m.node id).isDir
    then .error (pathError .isADirectory "directories cannot be hard linked" existing)
  else do
    let parts ← components new
    let m ← about "cannot insert into the tree" new (m.withParents parts)
    pure (m.share parts id)

def remove (m : PathMap) (path : List UInt8) : Except PathError PathMap := do
  let parts ← components path
  if parts = [] then .error (pathError .invalidInput "the root cannot be removed" path)
  else do
    let parent ← about "no such path in the tree" path (m.seek [] parts.dropLast)
    if !(m.node parent).isDir
      then .error (pathError .notADirectory "no such path in the tree" path)
    else if (m.place parts).isNone
      then .error (pathError .notFound "no such path in the tree" path)
    else pure (m.erase parts)

open Classical in
noncomputable def replace (m : PathMap) (path : List UInt8) (node : Node) :
    Except PathError PathMap := do
  checkNode node path
  let parts ← components path
  let id ← about "no such path in the tree" path (m.seek [] parts)
  if (m.node id).isDir ∧ node.isDir then pure (m.retag id node)
  else if ∃ name, (m.place (parts ++ [name])).isSome then
    .error (pathError .directoryNotEmpty
      "a directory with children can only become a directory" path)
  else if parts = [] then .error (pathError .invalidInput "the root is always a directory" path)
  else pure (m.add parts node)

noncomputable def call (m : PathMap) : Call → Except PathError PathMap
  | .insert path node => m.insert path node
  | .link existing new => m.link existing new
  | .remove path => m.remove path
  | .replace path node => m.replace path node

end PathMap

/-- A tree has at each path the node that the map has there. `slotOf` tells its slot. -/
structure Refines (t : Tree) (m : PathMap) (slotOf : Nat → Nat) : Prop where
  view : ∀ q, t.view q = (m.place q).map fun id => (slotOf id, m.node id)
  inj : ∀ p q a b, m.place p = some a → m.place q = some b → slotOf a = slotOf b → a = b
  bound : ∀ q id, m.place q = some id → id < m.next

variable {t t' : Tree} {m : PathMap} {slotOf : Nat → Nat} {i j new : Nat} {name : List UInt8}
  {dir slot : Slot} {node : Node}
variable {path rest : List (List UInt8)}

section

variable (ht : t.WellFormed) (hr : Refines t m slotOf)

include ht hr

theorem Refines.follow (q : List (List UInt8)) : t.follow root q = (m.place q).map slotOf := by
  have hview := hr.view q
  cases hplace : m.place q with
  | none =>
    rw [hplace] at hview
    exact ht.view_eq_none.mp hview
  | some id =>
    rw [hplace] at hview
    exact (view_eq_some.mp hview).1

omit ht in
theorem Refines.held (hpath : t.follow root path = some i) (hi : t.live i = some slot) :
    ∃ id, m.place path = some id ∧ slotOf id = i ∧ m.node id = slot.node := by
  have hview := hr.view path
  rw [view_eq_some.mpr ⟨hpath, slot, hi, rfl⟩] at hview
  obtain ⟨id, hplace, hid⟩ := Option.map_eq_some_iff.mp hview.symm
  exact ⟨id, hplace, congrArg Prod.fst hid, congrArg Prod.snd hid⟩

omit ht in
theorem Refines.isDir (hpath : t.follow root path = some i) (hi : t.live i = some slot) :
    m.isDir path = slot.node.isDir := by
  obtain ⟨id, hplace, -, hnode⟩ := hr.held hpath hi
  rw [PathMap.isDir, hplace, Option.any_some, hnode]

theorem Refines.child (hpath : t.follow root path = some i) (hi : t.live i = some slot)
    (name : List UInt8) :
    slot.children.get name = (m.place (path ++ [name])).map slotOf := by
  rw [← hr.follow ht, follow_concat, hpath, Option.bind_some, child_of_live hi]

theorem Refines.find (hpath : t.follow root path = some i) (rest : List (List UInt8)) :
    t.find i rest = match m.seek path rest with
      | .ok id => .ok (slotOf id)
      | .error kind => .error (.error kind) := by
  induction rest generalizing path i with
  | nil =>
    obtain ⟨slot, hi⟩ := Option.isSome_iff_exists.mp (ht.live_of_follow hpath)
    obtain ⟨id, hplace, rfl, -⟩ := hr.held hpath hi
    rw [PathMap.seek, hplace]
    rfl
  | cons name rest ih =>
    obtain ⟨slot, hi⟩ := Option.isSome_iff_exists.mp (ht.live_of_follow hpath)
    have hchild := hr.child ht hpath hi name
    rw [PathMap.seek, hr.isDir hpath hi]
    cases hdir : slot.node.isDir with
    | false =>
      rw [Tree.find, slot_of_live hi]
      change (if slot.node.isDir then _ else _) = _
      rw [hdir]
      rfl
    | true =>
      cases hplace : m.place (path ++ [name]) with
      | none =>
        rw [hplace] at hchild
        rw [Tree.find, slot_of_live hi]
        change (if slot.node.isDir then _ else _) = _
        rw [hdir, if_pos rfl, hchild]
        rfl
      | some id =>
        rw [hplace] at hchild
        rw [find_child hi hdir hchild]
        exact ih (by rw [hr.follow ht, hplace]; rfl)

end

theorem PathMap.place_of_seek {id : Nat} (h : m.seek path rest = .ok id) :
    m.place (path ++ rest) = some id := by
  induction rest generalizing path with
  | nil =>
    rw [seek] at h
    cases hplace : m.place path <;> rw [hplace] at h <;> cases h
    rw [List.append_nil, hplace]
  | cons name rest ih =>
    rw [seek] at h
    split at h
    · cases h
    · split at h
      · cases h
      · rw [List.append_cons]
        exact ih h

end Hadris.Tree
