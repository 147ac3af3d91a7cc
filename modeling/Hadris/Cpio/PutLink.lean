import Hadris.Cpio.Reader
import Hadris.Tree
import Hadris.Cpio.Visit
import Hadris.Tree.Walk

namespace Hadris

def Prog.mapError {σ ε ε' α : Type} (f : ε → ε') (x : Prog σ ε α) : Prog σ ε' α := ⟨fun s =>
  ((x.run s).1.mapError f, (x.run s).2)⟩

theorem Prog.run_mapError {σ ε ε' α : Type} {f : ε → ε'} {x : Prog σ ε α} {s s' : σ} {a : α}
    (h : x.run s = (.ok a, s')) : (Prog.mapError f x).run s = (.ok a, s') := by
  change ((x.run s).1.mapError f, (x.run s).2) = _
  rw [h]
  rfl

namespace Cpio

def stripLead : List UInt8 → List UInt8
  | [] => []
  | [byte] => if byte = 0x2F then [] else [byte]
  | first :: second :: rest =>
    if first = 0x2F then stripLead (second :: rest)
    else if first = 0x2E ∧ second = 0x2F then stripLead rest
    else first :: second :: rest

def hasEmptyPart : List UInt8 → Bool
  | first :: second :: rest => (first = 0x2F ∧ second = 0x2F) ∨ hasEmptyPart (second :: rest)
  | _ => false

def normalizePath (name : List UInt8) : Option (List UInt8) :=
  let path := stripLead name
  if path = [] ∨ path = [0x2E] then none
  else if path.getLast? ≠ some 0x2F ∧ ¬ hasEmptyPart path then some path
  else some ([0x2F].intercalate ((path.splitOn 0x2F).filter (· ≠ [])))

namespace Header

def type (header : Header) : FileType := (fileType header.mode).getD .file

def modified (header : Header) : Option DateTime :=
  if header.mtime < 2 ^ 63 then DateTime.fromUnixSeconds header.mtime else none

def attrs (header : Header) : SetAttr :=
  { SetAttr.new with
    permissions := some (.new header.mode)
    owner := some ⟨header.uid, header.gid⟩
    modified := header.modified }

end Header

def put (path : List UInt8) (node : Node) : Prog Tree (Fault PathError) Unit := do
  let t ← Prog.gets id
  match t.get path with
  | some _ => Tree.replace path node
  | none => Tree.insert path node

/-- Makes `path` another name of the node at `existing`, in place of what an
earlier entry put there. -/
def putLink (existing path : List UInt8) : Prog Tree (Fault PathError) Unit := do
  let t ← Prog.gets id
  if (t.get path).isSome then do
    Tree.replace path (.file .empty)
    Tree.remove path
    Tree.link existing path
  else Tree.link existing path

/-- Device major and minor, and inode. -/
abbrev GroupKey : Type := List Nat

def named {σ α : Type} (name : List UInt8) (x : Prog σ (Fault PathError) α) :
    Prog σ (Fault PathError) α :=
  Prog.mapError (fun fault => match fault with
    | .error e => .error (e.withPath name)
    | .unreachable => .unreachable) x

/-- A hard link group: the names that still hold its node, and the node of the last
entry that had data. -/
structure Group where
  names : List (List UInt8)
  node : Node

namespace Group

def give (path : List UInt8) (group : Group) : Prog Tree (Fault PathError) Unit := do
  put path group.node
  Prog.each (fun name => named name (putLink path name)) group.names

/-- Adds `path` to the names of a group. An entry with data, or the first one, gives
every name its node. -/
def join (path : List UInt8) (hasData : Bool) (group : Group) :
    Prog Tree (Fault PathError) Unit :=
  match group.names with
  | [] => group.give path
  | first :: _ => if hasData then group.give path else putLink first path

end Group

/-- The hard link groups, with the group that each name belongs to. -/
structure Groups where
  groups : SortedMap GroupKey Group
  owners : SortedMap (List UInt8) GroupKey

namespace Groups

def new : Groups := ⟨.empty, .empty⟩

def release (path : List UInt8) (g : Groups) : Groups :=
  match g.owners.get path with
  | none => g
  | some key =>
    { groups := match g.groups.get key with
        | some group => g.groups.insert key { group with names := group.names.filter (· ≠ path) }
        | none => g.groups
      owners := g.owners.erase path }

def group (key : GroupKey) (node : Node) (hasData : Bool) (g : Groups) : Group :=
  match g.groups.get key with
  | some group => if hasData then { group with node := node } else group
  | none => ⟨[], node⟩

def add (key : GroupKey) (path : List UInt8) (node : Node) (hasData : Bool) (g : Groups) :
    Prog Tree (Fault PathError) Groups := do
  let g := g.release path
  let group := g.group key node hasData
  group.join path hasData
  pure ⟨g.groups.insert key { group with names := group.names ++ [path] },
    g.owners.insert path key⟩

def enter (name : List UInt8) (header : Header) (node : Node) (g : Groups) :
    Prog Tree (Fault PathError) Groups :=
  named name (match normalizePath name with
    | none =>
      if header.type ≠ .dir then Prog.fail
        (.error (.new .invalidInput "the archive root is not a directory"))
      else do
        Tree.replace [] node
        pure g
    | some path =>
      if header.type ≠ .file ∨ header.nlink < 2 then do
        put path node
        pure (g.release path)
      else g.add [header.dev.major.toNat, header.dev.minor.toNat, header.ino] path node
        (0 < header.len))

end Groups

namespace CpioReader

def readNode : Prog CpioReader Error Node := do
  let r ← Prog.gets id
  match r.header.type with
  | .file => do
    let data ← load
    pure ((Node.file (.bytes data)).withAttrs r.header.attrs)
  | .dir => pure (Node.dir.withAttrs r.header.attrs)
  | .symlink => do
    let data ← load
    pure ((Node.symlink data).withAttrs r.header.attrs)
  | .charDevice => pure ((Node.special .charDevice (some r.header.rdev)).withAttrs r.header.attrs)
  | .blockDevice =>
    pure ((Node.special .blockDevice (some r.header.rdev)).withAttrs r.header.attrs)
  | .fifo => pure ((Node.special .fifo none).withAttrs r.header.attrs)
  | .socket => pure ((Node.special .socket none).withAttrs r.header.attrs)

/-- Adds the entries that are left to a tree. Each one takes at least a byte of the
stream. -/
def readEntries : Nat → Tree × Groups → Prog CpioReader (Fault PathError) Tree
  | 0, s => pure s.1
  | fuel + 1, s => do
    let found ← Prog.mapError (fun e => .error ⟨e, none⟩) nextEntry
    if found then do
      let r ← Prog.gets id
      let node ← Prog.mapError (fun e => .error ⟨e, some r.path⟩) readNode
      let entered := (s.2.enter r.path r.header node).run s.1
      let groups ← Prog.ofExcept entered.1
      readEntries fuel (entered.2, groups)
    else pure s.1

def readTree : Prog CpioReader (Fault PathError) Tree := do
  let r ← Prog.gets id
  readEntries (r.input.length + 1) (.new, .new)

end CpioReader

end Cpio

end Hadris

namespace Hadris.Cpio

open Prog

theorem joined_cons (name : List UInt8) (names : List (List UInt8)) :
    ∃ more, joined (name :: names) = name ++ more := by
  cases names with
  | nil => exact ⟨[], by simp [joined, List.intercalate]⟩
  | cons second names =>
    refine ⟨0x2F :: joined (second :: names), ?_⟩
    rw [joined, List.intercalate_cons_cons]
    simp [joined]

theorem stripLead_joined {names : List (List UInt8)} (h : ∀ name ∈ names, IsName name) :
    stripLead (joined names) = joined names := by
  cases names with
  | nil => rfl
  | cons name names =>
    obtain ⟨more, hmore⟩ := joined_cons name names
    have hname := h name List.mem_cons_self
    rw [hmore]
    cases name with
    | nil => exact absurd rfl hname.ne_nil
    | cons first name =>
      have hfirst : first ≠ 0x2F := fun heq => hname.no_separator (heq ▸ List.mem_cons_self)
      cases name with
      | nil =>
        have hdot : first ≠ 0x2E := fun heq => hname.ne_dot (by rw [heq])
        cases more with
        | nil => exact if_neg hfirst
        | cons second more => exact (if_neg hfirst).trans (if_neg fun h => hdot h.1)
      | cons second name =>
        have hsecond : second ≠ 0x2F := fun heq =>
          hname.no_separator (heq ▸ List.mem_cons_of_mem _ List.mem_cons_self)
        exact (if_neg hfirst).trans (if_neg fun h => hsecond h.2)

theorem normalizePath_joined {names : List (List UInt8)} (h : ∀ name ∈ names, IsName name)
    (hne : names ≠ []) :
    normalizePath (joined names) = some (joined names) := by
  have hroot : ¬ (joined names = [] ∨ joined names = [0x2E]) := by
    rintro (hnil | hdot)
    · exact hne ((joined_eq_nil h).mp hnil)
    · have hcomponents := components_joined h
      rw [hdot] at hcomponents
      cases hcomponents
      exact hne rfl
  have hparts : ((joined names).splitOn 0x2F).filter (· ≠ []) = names := by
    rw [joined, List.splitOn_intercalate _ (fun name hmem => (h name hmem).no_separator) hne]
    exact List.filter_eq_self.mpr fun name hmem => decide_eq_true (h name hmem).ne_nil
  rw [normalizePath, stripLead_joined h, if_neg hroot, hparts]
  split <;> rfl

variable {t : Tree} {path existing : List (List UInt8)} {name : List UInt8}
  {node : Node} {target : Nat}

theorem get_joined (ht : t.WellFormed) (hnames : ∀ n ∈ path, IsName n) :
    t.get (joined path) = (t.view path).map Prod.snd := by
  rw [Tree.get, Tree.entry, components_joined hnames, Tree.view]
  rcases Tree.find_cases ht.consistent ht.root_live
    path with ⟨j, hfind, hfollow, hj⟩ | ⟨kind, hfind, hfollow⟩
  · obtain ⟨slot, hslot⟩ := Option.isSome_iff_exists.mp hj
    rw [hfollow, Option.bind_some, hslot]
    simp only [hfind]
    change (t.live j >>= fun slot => pure slot.node) = _
    rw [hslot]
    rfl
  · rw [hfollow]
    simp only [hfind]
    rfl

theorem run_put (ht : t.WellFormed) (h : Tree.Vacant t path name) (hnode : node.check = .ok ()) :
    ∃ new t', (put (joined (path ++ [name])) node).run t = (.ok (), t') ∧ t'.WellFormed ∧
      (∀ q, t'.view q = if q = path ++ [name] then some (new, node) else t.view q) ∧
      ∀ q other, t.view q ≠ some (new, other) := by
  obtain ⟨new, t', hrun, hresult⟩ := Tree.run_insert ht h hnode
  refine ⟨new, t', ?_, hresult⟩
  rw [put, run_bind_ok (run_gets _ _), id, get_joined ht h.names, h.free]
  exact hrun

/-- A place that has a parent, and no directory. -/
structure Placeable (t : Tree) (path : List (List UInt8)) (name : List UInt8) : Prop where
  names : ∀ n ∈ path ++ [name], IsName n
  parent : ∃ j parent, t.view path = some (j, parent) ∧ parent.isDir
  leaf : ∀ i node, t.view (path ++ [name]) = some (i, node) → node.isDir = false

theorem path_ne_concat (path : List (List UInt8)) (name : List UInt8) :
    path ≠ path ++ [name] := by
  intro h
  have hlength := congrArg List.length h
  rw [List.length_append] at hlength
  exact absurd hlength (Nat.ne_of_lt (Nat.lt_succ_self _))

theorem run_putLink (ht : t.WellFormed) (hnames : ∀ n ∈ existing, IsName n)
    (htarget : t.view existing = some (target, node)) (hleaf : node.isDir = false)
    (h : Placeable t path name) (hne : existing ≠ path ++ [name]) :
    ∃ t', (putLink (joined existing) (joined (path ++ [name]))).run t = (.ok (), t') ∧
      t'.WellFormed ∧
      ∀ q, t'.view q = if q = path ++ [name] then some (target, node) else t.view q := by
  rw [putLink, run_bind_ok (run_gets _ _), id, get_joined ht h.names]
  cases hview : t.view (path ++ [name]) with
  | none => exact Tree.run_link ht hnames htarget hleaf ⟨h.names, h.parent, hview⟩
  | some held =>
    obtain ⟨i, old⟩ := held
    obtain ⟨new, t₁, hreplace, ht₁, hview₁, _⟩ :=
      Tree.run_replace ht h.names hview (h.leaf i old hview)
        (show (Node.file .empty).check = .ok () from rfl)
    have hplaced : t₁.view (path ++ [name]) =
      some (new, .file .empty) := by rw [hview₁, if_pos rfl]
    obtain ⟨t₂, hremove, ht₂, hview₂⟩ := Tree.run_remove ht₁ h.names hplaced rfl
    have hsame : ∀ q, q ≠ path ++ [name] → t₂.view q = t.view q := by
      intro q hq
      rw [hview₂, if_neg hq, hview₁, if_neg hq]
    obtain ⟨j, parent, hparent, hdir⟩ := h.parent
    have hvacant : Tree.Vacant t₂ path name :=
      ⟨h.names, ⟨j, parent, (hsame path (path_ne_concat path name)).trans hparent, hdir⟩, by
        rw [hview₂, if_pos rfl]⟩
    obtain ⟨t₃, hlink, ht₃, hview₃⟩ :=
      Tree.run_link ht₂ hnames ((hsame existing hne).trans htarget) hleaf hvacant
    refine ⟨t₃, ?_, ht₃, ?_⟩
    · rw [Option.map_some, Option.isSome_some, if_pos rfl, run_bind_ok hreplace,
        run_bind_ok hremove]
      exact hlink
    · intro q
      rw [hview₃]
      split
      · rfl
      · rename_i hq
        exact hsame q hq

theorem named_ok {σ α : Type} {x : Prog σ (Fault PathError) α} {s s' : σ} {a : α}
    (h : x.run s = (.ok a, s'))
    (text : List UInt8) : (named text x).run s = (.ok a, s') := Prog.run_mapError h

theorem Placeable.linked (h : Placeable t path name) {t' : Tree} {full : List (List UInt8)}
    (hview : ∀ q, t'.view q = if q = full then some (target, node) else t.view q)
    (hleaf : node.isDir = false)
    (hfull : ∀ i old, t.view full = some (i, old) → old.isDir = false) :
    Placeable t' path name := by
  refine ⟨h.names, ?_, ?_⟩
  · obtain ⟨j, parent, hparent, hdir⟩ := h.parent
    refine ⟨j, parent, ?_, hdir⟩
    rw [hview, if_neg, hparent]
    rintro rfl
    rw [hfull j parent hparent] at hdir
    cases hdir
  · intro i old hold
    rw [hview] at hold
    split at hold
    · cases hold
      exact hleaf
    · exact h.leaf i old hold

theorem run_putLinks (ht : t.WellFormed) (hnames : ∀ n ∈ existing, IsName n)
    (htarget : t.view existing = some (target, node)) (hleaf : node.isDir = false)
    (names : List (List (List UInt8)))
    (h : ∀ full ∈ names, ∃ path name, full = path ++ [name] ∧ Placeable t path name)
    (hne : existing ∉ names) :
    ∃ t', (each (fun name => named name (putLink (joined existing) name)) (names.map joined)).run
      t =
        (.ok (), t') ∧ t'.WellFormed ∧
      ∀ q, t'.view q = if q ∈ names then some (target, node) else t.view q := by
  induction names generalizing t with
  | nil => exact ⟨t, rfl, ht, fun q => by rw [if_neg (fun h => nomatch h)]⟩
  | cons full names ih =>
    obtain ⟨⟨path, name, rfl, hplace⟩, hall⟩ := List.forall_mem_cons.mp h
    rw [List.mem_cons, not_or] at hne
    obtain ⟨t₁, hrun, ht₁, hview₁⟩ := run_putLink ht hnames htarget hleaf hplace hne.1
    obtain ⟨t₂, hrest, ht₂, hview₂⟩ := ih ht₁ (by rw [hview₁, if_neg hne.1]; exact htarget)
      (fun full hfull => by
        obtain ⟨path', name', rfl, hplace'⟩ := hall full hfull
        exact ⟨path', name', rfl, hplace'.linked hview₁ hleaf hplace.leaf⟩) hne.2
    refine ⟨t₂, ?_, ht₂, ?_⟩
    · rw [List.map_cons, each, run_bind_ok (named_ok hrun _)]
      exact hrest
    · intro q
      rw [hview₂, hview₁]
      by_cases hq : q = path ++ [name] <;> by_cases hmem : q ∈ names <;> simp [hq, hmem]

end Hadris.Cpio
