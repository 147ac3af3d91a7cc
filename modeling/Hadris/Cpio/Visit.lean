import Hadris.Cpio.Writer
import Hadris.Tree
import Hadris.Tree.Walk

namespace Hadris.Cpio

/-- What planning has found so far. `links` has the inode number of each hard link
group, with the entries that wait for its data. -/
structure Planning where
  planner : Planner
  out : List Planned
  links : SortedMap Nat (Nat × List Nat)

def childPath (path name : List UInt8) : List UInt8 :=
  if path = [] then name else path ++ 0x2F :: name

namespace Planning

def new (options : CpioOptions) : Planning := ⟨.new options, [], .empty⟩

def group (s : Planning) (id : Nat) : (Nat × List Nat) × Planner :=
  match s.links.get id with
  | some group => (group, s.planner)
  | none => ((s.planner.takeIno.1, []), s.planner.takeIno.2)

def single (path : List UInt8) (node : Node) (fields : Fields) (data : Data) (s : Planning) :
    Except PathError Planning := do
  let fields := { fields with ino := s.planner.takeIno.1 }
  let entry ← s.planner.takeIno.2.entry path fields node.attrs
  pure { s with
    planner := if node.fileType = .file then entry.2.extent path entry.1 fields.len else entry.2
    out := s.out ++ [⟨path, fields, data⟩] }

/-- Plans the entry of one of the names of a file. Only the last one has the data,
unless the format repeats it. -/
def grouped (path : List UInt8) (node : Node) (id links : Nat) (fields : Fields)
    (data : Data) (s : Planning) :
    Except PathError Planning := do
  let group := (s.group id).1
  let planner := (s.group id).2
  let repeated := planner.format = .odc
  let waiting := if repeated then group.2 else group.2 ++ [s.out.length]
  let last := waiting.length = links
  let names := if last then waiting else []
  let fields := { fields with ino := group.1, nlink := links }
  let fields := if repeated ∨ last then fields else { fields with len := 0 }
  let data := if repeated ∨ last then data else .none
  let entry ← planner.entry path fields node.attrs
  let out := s.out ++ [⟨path, fields, data⟩]
  let planner := if repeated then entry.2.extent path entry.1 fields.len else entry.2
  pure
    { planner := names.foldl
        (fun planner index => planner.extent ((out[index]?.map Planned.path).getD [])
          entry.1 fields.len) planner
      out := out
      links := s.links.insert id (group.1, if last then [] else waiting) }

def place (path : List UInt8) (slot : Slot) (id : Nat) (s : Planning) :
    Except PathError Planning := do
  let found ← s.planner.node slot.node path
  if slot.node.fileType = .file ∧ 1 < slot.links then
    s.grouped path slot.node id slot.links found.1 found.2
  else s.single path slot.node found.1 found.2

def step (path : List UInt8) (slot : Slot) (id : Nat) (s : Planning) :
    Except (Fault PathError) Planning :=
  if path = [] then .ok s else (place path slot id s).mapError Fault.error

def loop (t : Tree) : Nat → List (List UInt8 × Nat) → Planning → Except (Fault PathError) Planning
  | 0, _, s => .ok s
  | _, [], s => .ok s
  | fuel + 1, (path, id) :: pending, s => do
    let slot ← t.slot id
    let s ← step path slot id s
    loop t fuel (slot.children.entries.map (fun e => (childPath path e.1, e.2)) ++ pending) s

end Planning

def planTree (t : Tree) (options : CpioOptions) :
    Except (Fault PathError) (List Planned × Report) := do
  let s ← Planning.loop t (t.names + 1) [([], Tree.root)] (.new options)
  let planner ← s.planner.trailer.mapError Fault.error
  pure (s.out, planner.finish)

def plan (t : Tree) (options : CpioOptions) : Except (Fault PathError) Report :=
  (planTree t options).map Prod.snd

def checkAllData : List Planned → Except PathError Unit
  | [] => .ok ()
  | entry :: rest => do
    checkData entry.data entry.path
    checkAllData rest

/-- Writes `tree` as a complete archive: what the writer puts out, with the
report. -/
def write (t : Tree) (options : CpioOptions) :
    Except (Fault PathError) (List UInt8 × Report) := do
  let planned ← planTree t options
  (checkAllData planned.1).mapError Fault.error
  let written := (do
    Prog.each (fun entry : Planned => Writer.emit entry.path entry.fields entry.data) planned.1
    Writer.writeTrailer : Prog Writer PathError Unit).run (.new options)
  match written.1 with
  | .ok _ => .ok (written.2.out, planned.2)
  | .error e => .error (.error e)

end Hadris.Cpio

namespace Hadris

open List

theorem joined_eq_nil {names : List (List UInt8)} (h : ∀ name ∈ names, IsName name) :
    joined names = [] ↔ names = [] := by
  constructor
  · intro heq
    exact @joined_inj names [] h (fun _ hmem => nomatch hmem) heq
  · rintro rfl
    rfl

theorem joined_concat {names : List (List UInt8)} (h : names ≠ []) (name : List UInt8) :
    joined (names ++ [name]) = joined names ++ 0x2F :: name := by
  induction names with
  | nil => exact absurd rfl h
  | cons first names ih =>
    cases names with
    | nil => simp [joined, intercalate]
    | cons second names =>
      have hrest := ih (cons_ne_nil _ _)
      simp only [joined, cons_append] at hrest ⊢
      rw [intercalate_cons_cons, hrest, intercalate_cons_cons, append_assoc, append_assoc,
        append_assoc]

namespace Tree

variable {t : Tree} {i : Nat} {path : List (List UInt8)}

theorem WellFormed.names_of_follow (ht : t.WellFormed) (h : t.follow root path = some i) :
    ∀ name ∈ path, IsName name := by
  induction path using reverseRecOn generalizing i with
  | nil => exact fun _ hmem => nomatch hmem
  | append_singleton path name ih =>
    rw [follow_concat] at h
    obtain ⟨j, hj, hchild⟩ := Option.bind_eq_some_iff.mp h
    intro n hn
    rcases mem_append.mp hn with hn | hn
    · exact ih hj n hn
    · rw [mem_singleton.mp hn]
      exact (ht.consistent.child hchild).1

end Tree

namespace Cpio

theorem childPath_joined {path : List (List UInt8)} (h : ∀ name ∈ path, IsName name)
    (name : List UInt8) :
    childPath (joined path) name = joined (path ++ [name]) := by
  rw [childPath]
  by_cases hpath : path = []
  · rw [if_pos ((joined_eq_nil h).mpr hpath), hpath]
    simp [joined]
  · rw [if_neg (fun heq => hpath ((joined_eq_nil h).mp heq)), joined_concat hpath]

namespace Planning

variable {t : Tree} {s : Planning}

def visit (t : Tree) : List (List (List UInt8) × Nat) → Planning →
    Except (Fault PathError) Planning
  | [], s => .ok s
  | (path, id) :: rest, s => do
    let slot ← t.slot id
    let s ← step (joined path) slot id s
    visit t rest s

/-- The stack holds what is still to visit: for each of its places the walk from
it. -/
theorem loop_eq_visit (ht : t.WellFormed) {fuel : Nat} {pending : List (List (List UInt8) × Nat)}
    (hpending : ∀ e ∈ pending, t.follow Tree.root e.1 = some e.2)
    (hfuel : (pending.flatMap fun e => t.walk (t.slots.length - e.1.length) e.1 e.2).length ≤
      fuel) :
    loop t fuel (pending.map fun e => (joined e.1, e.2)) s =
      visit t (pending.flatMap fun e => t.walk (t.slots.length - e.1.length) e.1 e.2) s := by
  induction fuel generalizing pending s with
  | zero =>
    rw [length_eq_zero_iff.mp (Nat.le_zero.mp hfuel)]
    rfl
  | succ fuel ih =>
    cases pending with
    | nil => rfl
    | cons e pending =>
      obtain ⟨path, id⟩ := e
      obtain ⟨hfollow, hpending⟩ := forall_mem_cons.mp hpending
      have hlength : path.length < t.slots.length := ht.length_lt hfollow
      have hnames := ht.names_of_follow hfollow
      obtain ⟨slot, hslot⟩ := Option.isSome_iff_exists.mp (ht.live_of_follow hfollow)
      obtain ⟨d, hd⟩ := Nat.exists_eq_add_of_lt hlength
      have hdepth : t.slots.length - path.length = d + 1 := by omega
      have hwalk : (((path, id) :: pending).flatMap fun e =>
          t.walk (t.slots.length - e.1.length) e.1 e.2) =
          (path, id) :: ((t.children id).map fun e => (path ++ [e.1], e.2)).flatMap
            (fun e => t.walk (t.slots.length - e.1.length) e.1 e.2) ++
          pending.flatMap fun e => t.walk (t.slots.length - e.1.length) e.1 e.2 := by
        rw [flatMap_cons, hdepth, Tree.walk, flatMap_map]
        have hless : ∀ e : List UInt8 × Nat, t.slots.length - (path ++ [e.1]).length = d := by
          intro e
          rw [length_append, length_singleton]
          omega
        simp only [hless]
      rw [hwalk, cons_append, length_cons, ← flatMap_append] at hfuel
      rw [hwalk, map_cons, loop, cons_append, visit, ← flatMap_append, Tree.slot_of_live hslot]
      change step (joined path) slot id s >>= _ = step (joined path) slot id s >>= _
      congr 1
      funext s'
      have hnext : slot.children.entries.map (fun e => (childPath (joined path) e.1, e.2)) ++
          pending.map (fun e => (joined e.1, e.2)) =
          (((t.children id).map fun e => (path ++ [e.1], e.2)) ++ pending).map fun e =>
            (joined e.1, e.2) := by
        rw [map_append, map_map, Tree.children, hslot]
        simp only [Option.elim_some, Function.comp_def, childPath_joined hnames]
      rw [hnext]
      refine ih ?_ (Nat.le_of_succ_le_succ hfuel)
      intro e he
      rcases mem_append.mp he with he | he
      · obtain ⟨⟨name, c⟩, hc, rfl⟩ := mem_map.mp he
        rw [Tree.follow_concat, hfollow, Option.bind_some]
        exact Tree.mem_children.mp hc
      · exact hpending e he

theorem loop_places (ht : t.WellFormed) (s : Planning) :
    loop t (t.names + 1) [([], Tree.root)] s = visit t t.places s := by
  obtain ⟨slot, hslot⟩ := Option.isSome_iff_exists.mp ht.root_live
  have hpos : 0 < t.slots.length := Nat.zero_lt_of_lt (Tree.live_lt ht.root_live)
  have hplaces : t.places = ((t.children Tree.root).map fun e => ([e.1], e.2)).flatMap
      fun e => t.walk (t.slots.length - e.1.length) e.1 e.2 := by
    obtain ⟨d, hd⟩ := Nat.exists_eq_succ_of_ne_zero (Nat.pos_iff_ne_zero.mp hpos)
    rw [Tree.places, hd, Tree.walk, tail_cons, flatMap_map]
    rfl
  have hnext : slot.children.entries.map (fun e => (childPath [] e.1, e.2)) ++ [] =
      ((t.children Tree.root).map fun e => ([e.1], e.2)).map fun e => (joined e.1, e.2) := by
    rw [append_nil, map_map, Tree.children, hslot]
    simp [Function.comp_def, childPath, joined]
  rw [loop, Tree.slot_of_live hslot]
  change loop t t.names (slot.children.entries.map (fun e => (childPath [] e.1, e.2)) ++ []) s = _
  have hlength := ht.places_length
  rw [hplaces] at hlength
  rw [hnext, hplaces]
  refine loop_eq_visit ht ?_ hlength
  intro e he
  obtain ⟨⟨name, c⟩, hc, rfl⟩ := mem_map.mp he
  change (t.child Tree.root name).bind _ = _
  rw [Tree.mem_children.mp hc]
  rfl

end Planning

end Cpio

end Hadris
