import Hadris.Paths.Resolve

namespace Hadris.Paths

open List

open Prog

/-- A directory tree: where the names of its directories lead, and what is there. -/
structure DirTree (ν : Type) where
  child : ν → List UInt8 → Option ν
  type : ν → FileType

/-- A file system that makes directories. -/
structure MakingFileSystem (σ ν : Type) extends FileSystem σ ν where
  mkdir : ν → List UInt8 → SetAttr → Prog σ Halt ν

section

variable {σ ν α : Type} (fs : MakingFileSystem σ ν)

/-- A call made while a pin is held. A call that fails lets go of it, and a future that is dropped
leaves it in the queue of the volume. -/
def held (node : ν) (call : Prog σ Halt α) : Prog (σ × List ν) Halt α := ⟨fun s =>
  match call.run s.1 with
  | (.ok a, t) => (.ok a, t, s.2)
  | (.error .dropped, t) => (.error .dropped, t, s.2 ++ [node])
  | (.error e, t) => (.error e, fs.forget node 1 t, s.2)⟩

def letGo (node : ν) : Prog (σ × List ν) Halt Unit := Prog.modify fun s =>
    (fs.forget node 1 s.1, s.2)

def lookupOrMake (dir : ν) (name : List UInt8) : Prog σ Halt ν := do
  let found ← Prog.attempt (fs.lookup dir name)
  match found with
  | .ok node => pure node
  | .error (.error e) => if e.kind = .notFound
      then fs.mkdir dir name .new else Prog.fail (.error e)
  | .error halt => Prog.fail halt

def enter (current : ν) (next : Prog σ Halt ν) : Prog (σ × List ν) Halt ν := do
  let node ← held fs current next
  letGo fs current
  let type ← held fs node (fs.stat node)
  if type = .dir then pure node
  else do
    letGo fs node
    Prog.fail (.ofKind .notADirectory)

def createLoop (how : Resolve) : List (List UInt8) → ν → Prog (σ × List ν) Halt Unit
  | [], current => letGo fs current
  | component :: rest, current =>
    if component = dot then createLoop how rest current
    else if component = dotDot then
      if how = .lexical then createLoop how rest current
      else do
        let node ← enter fs current (fs.parent current)
        createLoop how rest node
    else if how = .lexical ∧ cancelled rest = true then createLoop how rest current
    else do
      let node ← enter fs current (lookupOrMake fs current component)
      createLoop how rest node

def createDirAll (path : List UInt8) (how : Resolve) : Prog (σ × List ν) Halt Unit :=
  createLoop fs how (names path) fs.root

end

/-! The names a path leaves, once each `..` removed the one before it. -/

def push (stack : List (List UInt8)) (component : List UInt8) : List (List UInt8) :=
  if component = dot then stack else if component = dotDot then stack.dropLast
    else stack ++ [component]

def normalised (path : List UInt8) : List (List UInt8) := (names path).foldl push []

section

variable {σ ν : Type}

def descend (fs : FileSystem σ ν) : List (List UInt8) → Prog (σ × Pins ν) Halt Unit
  | [] => pure ()
  | name :: rest => do
    let current ← Pins.get
    let found ← onFs (fs.lookup current name)
    Pins.step fs found
    descend fs rest

def makeAlong (fs : MakingFileSystem σ ν) : List (List UInt8) → ν → Prog (σ × List ν) Halt Unit
  | [], current => letGo fs current
  | name :: rest, current => do
    let node ← enter fs current (lookupOrMake fs current name)
    makeAlong fs rest node

end

def climbs : List (List UInt8) → Nat
  | [] => 0
  | component :: rest =>
    if component = dot then climbs rest
    else if component = dotDot then climbs rest + 1
    else climbs rest - 1

def remaining : List (List UInt8) → List (List UInt8)
  | [] => []
  | component :: rest =>
    if (component = dot ∨ component = dotDot) ∨ cancelled rest = true then remaining rest
    else component :: remaining rest

theorem cancelledFrom_iff (depth : Nat) (rest : List (List UInt8)) :
    cancelledFrom depth rest = true ↔ depth < climbs rest := by
  induction rest generalizing depth with
  | nil => simp [cancelledFrom, climbs]
  | cons component rest ih =>
    rw [cancelledFrom, climbs]
    by_cases hdot : component = dot
    · simp only [hdot, if_true]
      exact ih depth
    by_cases hdots : component = dotDot
    · rw [if_neg hdot, if_pos hdots, if_neg hdot, if_pos hdots]
      by_cases hzero : depth = 0
      · simp [hzero]
      · rw [if_neg hzero, ih]
        omega
    · rw [if_neg hdot, if_neg hdots, if_neg hdot, if_neg hdots, ih]
      omega

theorem foldl_push (components stack : List (List UInt8)) :
    components.foldl push stack = stack.take (stack.length - climbs components) ++
      remaining components := by
  induction components generalizing stack with
  | nil => simp [climbs, remaining]
  | cons component rest ih =>
    rw [foldl_cons, ih, push, climbs, remaining]
    simp only [cancelled, cancelledFrom_iff]
    by_cases hdot : component = dot
    · simp [hdot]
    by_cases hdots : component = dotDot
    · simp only [hdots, if_true, or_true, true_or, if_neg (show dotDot ≠ dot by decide)]
      rw [length_dropLast, dropLast_eq_take, take_take]
      congr 2
      omega
    · simp only [hdot, hdots, if_false, false_or]
      by_cases hclimbs : 0 < climbs rest
      · rw [if_pos hclimbs, length_append, length_singleton, take_append_of_le_length (by omega)]
        congr 2
        omega
      · have hzero : climbs rest = 0 := by omega
        rw [if_neg hclimbs, hzero, Nat.sub_zero, take_of_length_le (Nat.le_refl _), append_assoc]
        simp

theorem normalised_eq (path : List UInt8) : normalised path = remaining (names path) := by
  rw [normalised, foldl_push, take_nil, nil_append]

section

variable {σ ν : Type}

theorem lexicalLoop_eq (fs : FileSystem σ ν) (components : List (List UInt8)) :
    lexicalLoop fs components = descend fs (remaining components) := by
  induction components with
  | nil => rfl
  | cons component rest ih =>
    rw [lexicalLoop, remaining]
    split
    · exact ih
    · rw [descend, ih]

theorem createLoop_eq (fs : MakingFileSystem σ ν) (components : List (List UInt8)) (current : ν) :
    createLoop fs .lexical components current = makeAlong fs (remaining components) current := by
  induction components generalizing current with
  | nil => rfl
  | cons component rest ih =>
    rw [createLoop, remaining]
    by_cases hdot : component = dot
    · simp only [hdot, if_true, true_or]
      exact ih current
    by_cases hdots : component = dotDot
    · rw [if_neg hdot, if_pos hdots, if_pos rfl, if_pos (.inl (.inr hdots))]
      exact ih current
    · simp only [hdot, hdots, if_false, false_or, true_and]
      split
      · exact ih current
      · simp only [makeAlong, ih]

end

namespace DirTree

variable {ν : Type}

def reach (tree : DirTree ν) (node : ν) : List (List UInt8) → Option ν
  | [] => some node
  | name :: rest => (tree.child node name).bind fun next => tree.reach next rest

/-- Each of a list of names leads to a directory. -/
def Leads (tree : DirTree ν) (node : ν) : List (List UInt8) → Prop
  | [] => True
  | name :: rest => ∃ next, tree.child node name = some next ∧ tree.type next = .dir ∧
    tree.Leads next rest

/-- Nothing that `tree` has is gone from `tree'`, or is something else there. -/
structure Kept (tree tree' : DirTree ν) : Prop where
  child : ∀ d n c, tree.child d n = some c → tree'.child d n = some c
  type : ∀ d n c, tree.child d n = some c → tree'.type c = tree.type c

/-- What `tree'` has besides, it has on the way along the names. It was missing there. -/
structure Grows (tree tree' : DirTree ν) (node : ν) (names : List (List UInt8)) :
    Prop extends Kept tree tree' where
  only : ∀ d n c, tree'.child d n = some c → tree.child d n = some c ∨
    ∃ k < names.length, tree.reach node (names.take (k + 1)) = none ∧
      tree'.reach node (names.take k) = some d ∧ tree'.reach node (names.take (k + 1)) = some c

/-- A new directory was made, with whatever names lead to it. -/
structure Made (tree tree' : DirTree ν) (dir : ν) (name : List UInt8) (node : ν) : Prop where
  leads : tree'.child dir name = some node
  isDir : tree'.type node = .dir
  fresh : ∀ d n, tree.child d n ≠ some node
  child : ∀ d n c, tree.child d n = some c → tree'.child d n = some c
  type : ∀ d, d ≠ node → tree'.type d = tree.type d
  only : ∀ d n c, tree'.child d n = some c → tree.child d n = some c ∨ d = dir ∧ c = node

variable {tree tree' middle : DirTree ν} {node next : ν} {name : List UInt8}
  {names : List (List UInt8)}

theorem Kept.reach (h : Kept tree tree') {node node' : ν}
    (hreach : tree.reach node names = some node') :
    tree'.reach node names = some node' := by
  induction names generalizing node with
  | nil => exact hreach
  | cons name rest ih =>
    obtain ⟨next, hnext, hrest⟩ := Option.bind_eq_some_iff.mp hreach
    exact Option.bind_eq_some_iff.mpr ⟨next, h.child _ _ _ hnext, ih hrest⟩

theorem Made.kept (h : Made tree tree' node name next) : Kept tree tree' :=
  ⟨h.child, fun d n c hc => h.type c fun heq => h.fresh d n (heq ▸ hc)⟩

theorem Kept.trans {tree'' : DirTree ν} (h : Kept tree tree') (h' : Kept tree' tree'') :
    Kept tree tree'' :=
  ⟨fun d n c hc => h'.child d n c (h.child d n c hc), fun d n c hc =>
    (h'.type d n c (h.child d n c hc)).trans (h.type d n c hc)⟩

theorem Grows.refl (tree : DirTree ν) (node : ν) (names : List (List UInt8)) :
    Grows tree tree node names :=
  ⟨⟨fun _ _ _ hc => hc, fun _ _ _ _ => rfl⟩, fun _ _ _ hc => .inl hc⟩

theorem Made.grows (h : Made tree tree' node name next) (hnone : tree.child node name = none)
    (rest : List (List UInt8)) : Grows tree tree' node (name :: rest) := by
  refine ⟨h.kept, fun d n c hc => (h.only d n c hc).imp id ?_⟩
  rintro ⟨rfl, rfl⟩
  exact ⟨0, Nat.succ_pos _, by simp [reach, hnone], rfl, by simp [reach, h.leads]⟩

theorem Grows.append (h : Grows tree tree' node names) (more : List (List UInt8)) :
    Grows tree tree' node (names ++ more) := by
  refine ⟨h.toKept, fun d n c hc => (h.only d n c hc).imp id ?_⟩
  rintro ⟨k, hk, hmissing, hdir, hc⟩
  refine ⟨k, by rw [length_append]; omega, ?_⟩
  rw [take_append_of_le_length hk, take_append_of_le_length hk.le]
  exact ⟨hmissing, hdir, hc⟩

theorem Grows.cons (h : Grows tree tree' node (name :: names))
    (hnext : tree'.child node name = some next)
    {tree'' : DirTree ν} (h' : Grows tree' tree'' next names) :
    Grows tree tree'' node (name :: names) := by
  refine ⟨h.toKept.trans h'.toKept, fun d n c hc => ?_⟩
  have hnext' := h'.child node name next hnext
  obtain hold | ⟨k, hk, hmissing, hdir, hc⟩ := h'.only d n c hc
  · obtain hold | ⟨k, hk, hmissing, hdir, hc⟩ := h.only d n c hold
    · exact .inl hold
    · exact .inr ⟨k, hk, hmissing, h'.toKept.reach hdir, h'.toKept.reach hc⟩
  · refine .inr ⟨k + 1, Nat.succ_lt_succ hk, ?_, ?_, ?_⟩
    · refine Option.eq_none_iff_forall_ne_some.mpr fun other hother => ?_
      have hreach := h.toKept.reach hother
      rw [take_succ_cons, reach, hnext, Option.bind_some, hmissing] at hreach
      cases hreach
    · rw [take_succ_cons, reach, hnext', Option.bind_some, hdir]
    · rw [take_succ_cons, reach, hnext', Option.bind_some, hc]

theorem Leads.cons (h : Leads tree' next names) (hkept : Kept tree tree')
    (hnext : tree.child node name = some next)
    (htype : tree.type next = .dir) : Leads tree' node (name :: names) :=
  ⟨next, hkept.child _ _ _ hnext, (hkept.type _ _ _ hnext).trans htype, h⟩

end DirTree

section

variable {σ ν : Type} [DecidableEq ν] (fs : MakingFileSystem σ ν) (tree : σ → DirTree ν)
  (pins : σ → ν → Nat)

/-- What a file system promises of the calls that make directories along a path. A call that does
not succeed may have made its directory nevertheless. -/
structure MakesDirs : Prop where
  lookup : ∀ s dir name, Pinned fs.root (pins s) dir → match (fs.lookup dir name).run s with
    | (.ok node, t) => (tree s).child dir name = some node ∧ tree t = tree s ∧
        Adds fs.root [node] (pins s) (pins t)
    | (.error e, t) => (∀ error, e = .error error → error.kind = .notFound →
        (tree s).child dir name = none) ∧
        tree t = tree s ∧ Adds fs.root [] (pins s) (pins t)
  mkdir : ∀ s dir name, Pinned fs.root (pins s) dir → (tree s).child dir name = none →
    match (fs.mkdir dir name .new).run s with
    | (.ok node, t) => DirTree.Made (tree s) (tree t) dir name node ∧
        Adds fs.root [node] (pins s) (pins t)
    | (.error _, t) => (tree t = tree s ∨ ∃ node, DirTree.Made (tree s) (tree t) dir name node) ∧
        Adds fs.root [] (pins s) (pins t)
  stat : ∀ s node, Pinned fs.root (pins s) node → match (fs.stat node).run s with
    | (.ok type, t) => type = (tree s).type node ∧ tree t = tree s ∧
        Adds fs.root [] (pins s) (pins t)
    | (.error _, t) => tree t = tree s ∧ Adds fs.root [] (pins s) (pins t)
  forget_tree : ∀ s node count, tree (fs.forget node count s) = tree s
  forget_pins : ∀ s node count other, other ≠ fs.root →
    pins (fs.forget node count s) other = pins s other - if other = node then count else 0

end

section

variable {σ ν α : Type} [DecidableEq ν] {fs : MakingFileSystem σ ν} {tree : σ → DirTree ν}
  {pins : σ → ν → Nat}
variable {T T' : DirTree ν} {current node : ν} {name : List UInt8}

/-- A name leads to a node, or is one of a directory that was just made. -/
def Entered (T : DirTree ν) (current : ν) (name : List UInt8) (node : ν) (T' : DirTree ν) :
    Prop :=
  T.child current name = some node ∧ T' = T ∨ T.child current name = none ∧
    DirTree.Made T T' current name node

omit [DecidableEq ν] in
theorem Entered.leads (h : Entered T current name node T') :
    T'.child current name = some node := by
  obtain ⟨hchild, rfl⟩ | ⟨-, hmade⟩ := h
  · exact hchild
  · exact hmade.leads

omit [DecidableEq ν] in
theorem Entered.grows (h : Entered T current name node T') (rest : List (List UInt8)) :
    DirTree.Grows T T' current (name :: rest) := by
  obtain ⟨-, rfl⟩ | ⟨hnone, hmade⟩ := h
  · exact DirTree.Grows.refl _ _ _
  · exact hmade.grows hnone rest

/-- The tree is `T`, and a node is pinned. -/
def Stands (fs : MakingFileSystem σ ν) (tree : σ → DirTree ν) (pins : σ → ν → Nat) (T : DirTree ν)
    (node : ν) (s : σ) : Prop :=
  tree s = T ∧ Pinned fs.root (pins s) node

/-- A node was just pinned, besides the one that was pinned before. -/
def Reached (fs : MakingFileSystem σ ν) (pins : σ → ν → Nat) (current node : ν) (s : σ) : Prop :=
  ∃ before, Pinned fs.root before current ∧ Adds fs.root [node] before (pins s)

theorem Reached.pinned_forget (h : MakesDirs fs tree pins) {s : σ}
    (hs : Reached fs pins current node s) :
    Pinned fs.root (pins (fs.forget current 1 s)) node := by
  obtain ⟨before, hcurrent, hadds⟩ := hs
  by_cases hroot : node = fs.root
  · exact .inl hroot
  · refine .inr ?_
    rw [h.forget_pins _ _ _ _ hroot, hadds node hroot, count_singleton_self]
    rcases eq_or_ne node current with rfl | hne
    · have hpos := hcurrent.resolve_left hroot
      rw [if_pos rfl]
      omega
    · rw [if_neg hne]
      omega

theorem Stands.of_adds {s t : σ} (hs : Stands fs tree pins T node s) (htree : tree t = tree s)
    (hadds : Adds fs.root [] (pins s) (pins t)) : Stands fs tree pins T node t := by
  refine ⟨htree.trans hs.1, ?_⟩
  by_cases hroot : node = fs.root
  · exact .inl hroot
  · refine .inr ?_
    rw [hadds node hroot, count_nil]
    exact hs.2.resolve_left hroot

variable (h : MakesDirs fs tree pins)

include h

theorem triple_held {P : σ → Prop} {Q : α → σ → Prop} {R : DirTree ν → Prop}
    {call : Prog σ Halt α} (hcall : Triple P call Q fun _ s => R (tree s)) :
    Triple (fun s => P s.1) (held fs node call)
      (fun a s => Q a s.1) (fun _ s => R (tree s.1)) := by
  rintro ⟨s, queue⟩ hs
  have hrun := hcall s hs
  rw [held]
  rcases hresult : call.run s with ⟨e | a, t⟩ <;> rw [hresult] at hrun
  · cases e <;> simp only [hresult, h.forget_tree] <;> exact hrun
  · simp only [hresult]
    exact hrun

theorem triple_lookupOrMake (T : DirTree ν) (current : ν) (name : List UInt8) :
    Triple (Stands fs tree pins T current) (lookupOrMake fs current name)
      (fun node s => Entered T current name node (tree s) ∧ Reached fs pins current node s)
      (fun _ s => DirTree.Grows T (tree s) current [name]) := by
  rintro s ⟨rfl, hpinned⟩
  have hlookup := h.lookup s current name hpinned
  rw [lookupOrMake]
  rcases hrun : (fs.lookup current name).run s with ⟨e | node, t⟩ <;> rw [hrun] at hlookup
  · have hattempt : (Prog.attempt (fs.lookup current name)).run s = (.ok (.error e), t) := by
      simp only [Prog.attempt, hrun]
    rw [run_bind_ok hattempt]
    obtain ⟨hnone, htree, hadds⟩ := hlookup
    have hgrows := DirTree.Grows.refl (tree s) current [name]
    rw [← htree] at hgrows ⊢
    cases e with
    | dropped => exact hgrows
    | diverged => exact hgrows
    | error e =>
      refine Triple.ite (P := fun u => u = t) (fun hkind => ?_) (fun _ => ?_) t rfl
      · rintro _ rfl
        have hmissing := hnone e rfl hkind
        rw [← htree] at hmissing
        have hstands :=
          (Stands.of_adds ⟨rfl, hpinned⟩ htree hadds : Stands fs tree pins (tree s) current _)
        have hmkdir := h.mkdir _ current name hstands.2 hmissing
        rcases hmade : (fs.mkdir current name .new).run _ with ⟨e | node, u⟩
          <;> rw [hmade] at hmkdir
        · obtain hsame | ⟨node, hmade⟩ := hmkdir.1
          · exact hsame ▸ hgrows
          · exact hmade.grows hmissing []
        · exact ⟨.inr ⟨hmissing, hmkdir.1⟩, _, hstands.2, hmkdir.2⟩
      · rintro _ rfl
        exact hgrows
  · have hattempt : (Prog.attempt (fs.lookup current name)).run s = (.ok (.ok node), t) := by
      simp only [Prog.attempt, hrun]
    rw [run_bind_ok hattempt]
    exact ⟨.inl ⟨hlookup.1, hlookup.2.1⟩, pins s, hpinned, hlookup.2.2⟩

theorem triple_enter (T : DirTree ν) (current : ν) (name : List UInt8) :
    Triple (fun s => Stands fs tree pins T current s.1)
      (enter fs current (lookupOrMake fs current name))
      (fun node s => Entered T current name node (tree s.1) ∧ (tree s.1).type node = .dir ∧
        Pinned fs.root (pins s.1) node)
      (fun _ s => DirTree.Grows T (tree s.1) current [name]) := by
  refine Triple.bind (triple_held h (R := fun T' => DirTree.Grows T T' current [name])
    (triple_lookupOrMake h T current name))
    fun node => ?_
  refine Triple.bind (Q := fun _ s => Entered T current name node (tree s.1) ∧
    Pinned fs.root (pins s.1) node) ?_ fun _ => ?_
  · refine Triple.modify fun s hs => ⟨?_, hs.2.pinned_forget h⟩
    exact (h.forget_tree _ _ _).symm ▸ hs.1
  refine Triple.of_forall fun s hs => ?_
  refine Triple.bind (triple_held h (P := fun t => t = s.1)
    (Q := fun type t => type = (tree s.1).type node ∧ Stands fs tree pins (tree s.1) node t)
    (R := fun T' => DirTree.Grows T T' current [name]) ?_ |>.pre fun t ht =>
      ht ▸ rfl) fun type => ?_
  · rintro _ rfl
    have hstat := h.stat s.1 node hs.2
    rcases hrun : (fs.stat node).run s.1 with ⟨e | type, t⟩ <;> rw [hrun] at hstat
    · exact hstat.1 ▸ hs.1.grows []
    · exact ⟨hstat.1, Stands.of_adds ⟨rfl, hs.2⟩ hstat.2.1 hstat.2.2⟩
  · refine Triple.ite (fun hdir => Triple.pure ?_) fun _ => ?_
    · rintro t ⟨htype, htree, hpinned⟩
      rw [htree]
      exact ⟨hs.1, htype ▸ hdir, hpinned⟩
    · refine Triple.bind (Q := fun _ t => tree t.1 = tree s.1) ?_ fun _ =>
        Triple.fail fun t ht => ht ▸ hs.1.grows []
      exact Triple.modify fun t ht => (h.forget_tree _ _ _).trans ht.2.1

theorem triple_makeAlong (T : DirTree ν) (current : ν) (names : List (List UInt8)) :
    Triple (fun s => Stands fs tree pins T current s.1) (makeAlong fs names current)
      (fun _ s => DirTree.Grows T (tree s.1) current names ∧ (tree s.1).Leads current names)
      (fun _ s => DirTree.Grows T (tree s.1) current names) := by
  induction names generalizing T current with
  | nil =>
    refine Triple.modify fun s hs => ⟨?_, trivial⟩
    rw [h.forget_tree, hs.1]
    exact DirTree.Grows.refl _ _ _
  | cons name rest ih =>
    refine Triple.bind ((triple_enter h T current name).weaken (fun _ _ hq => hq) fun _ s hs =>
      ?_) fun node => ?_
    · exact hs.append rest
    · refine Triple.of_forall fun s hs => ?_
      obtain ⟨hentered, htype, hpinned⟩ := hs
      have hleads := hentered.leads
      have hstart : ∀ t, t = s → Stands fs tree pins (tree s.1) node t.1 := by
        rintro t rfl
        exact ⟨rfl, hpinned⟩
      refine ((ih (tree s.1) node).pre hstart).weaken (fun _ t ht => ⟨?_, ?_⟩) fun _ t ht => ?_
      · exact (hentered.grows rest).cons hleads ht.1
      · exact ht.2.cons ht.1.toKept hleads htype
      · exact (hentered.grows rest).cons hleads ht

end

/-- A lexical resolution is the lookups of the names that a path leaves, and making a directory
with all its parents makes the ones that are missing along these names. -/
theorem lexical_normalised :
    (∀ {σ ν : Type} (fs : FileSystem σ ν) (path : List UInt8),
      resolve fs path .lexical = Pins.keep fs (descend fs (normalised path))) ∧
    ∀ {σ ν : Type} [DecidableEq ν] (fs : MakingFileSystem σ ν) (path : List UInt8),
      createDirAll fs path .lexical = makeAlong fs (normalised path) fs.root ∧
      ∀ (tree : σ → DirTree ν) (pins : σ → ν → Nat), MakesDirs fs tree pins →
        ∀ (s : σ) (queue : List ν),
        match (createDirAll fs path .lexical).run (s, queue) with
        | (.ok (), t, _) => DirTree.Grows (tree s) (tree t) fs.root (normalised path) ∧
            (tree t).Leads fs.root (normalised path)
        | (.error _, t, _) => DirTree.Grows (tree s) (tree t) fs.root (normalised path) := by
  constructor
  · intro σ ν fs path
    rw [resolve, lexical, lexicalLoop_eq, ← normalised_eq]
  · intro σ ν _ fs path
    have heq : createDirAll fs path .lexical = makeAlong fs (normalised path) fs.root := by
      rw [createDirAll, createLoop_eq, ← normalised_eq]
    refine ⟨heq, fun tree pins h s queue => ?_⟩
    have hrun := triple_makeAlong h (tree s) fs.root (normalised path) (s, queue) ⟨rfl, .inl rfl⟩
    rw [heq]
    rcases hresult : (makeAlong fs (normalised path) fs.root).run (s, queue) with ⟨_ | _, t, rest⟩
      <;> rw [hresult] at hrun <;>
      exact hrun

/-- Directories in memory. The numbers from `next` on are not used yet. -/
structure Memory where
  child : Nat → List UInt8 → Option Nat
  next : Nat
  used : ∀ d n c, child d n = some c → c < next
  pins : Nat → Nat

namespace Memory

def empty : Memory := ⟨fun _ _ => none, 1, (fun _ _ _ h => nomatch h), fun _ => 0⟩

def tree (memory : Memory) : DirTree Nat := ⟨memory.child, fun _ => .dir⟩

def pin (memory : Memory) (node : Nat) : Memory :=
  { memory with pins := fun other => memory.pins other + [node].count other }

def add (memory : Memory) (dir : Nat) (name : List UInt8) : Memory where
  child d n := if d = dir ∧ n = name then some memory.next else memory.child d n
  next := memory.next + 1
  used d n c h := by
    split at h
    · cases h
      exact Nat.lt_succ_self _
    · exact (memory.used d n c h).trans (Nat.lt_succ_self _)
  pins := memory.pins

def fileSystem : MakingFileSystem Memory Nat where
  root := 0
  lookup dir name := ⟨fun memory =>
    match memory.child dir name with
    | some node => (.ok node, memory.pin node)
    | none => (.error (.ofKind .notFound), memory)⟩
  parent _ := Prog.fail (.ofKind .unsupported)
  stat _ := pure .dir
  readlink _ _ := Prog.fail (.ofKind .invalidInput)
  forget node count memory :=
    { memory with pins := fun other => memory.pins other - if other = node then count else 0 }
  mkdir dir name _ := ⟨fun memory => (.ok memory.next, (memory.add dir name).pin memory.next)⟩

theorem made_add (memory : Memory) {dir : Nat} {name : List UInt8}
    (h : memory.child dir name = none) :
    DirTree.Made memory.tree (memory.add dir name).tree dir name memory.next where
  leads := if_pos ⟨rfl, rfl⟩
  isDir := rfl
  fresh d n hc := Nat.lt_irrefl _ (memory.used d n _ hc)
  child d n c hc := by
    refine (if_neg ?_).trans hc
    rintro ⟨rfl, rfl⟩
    cases h.symm.trans hc
  type _ _ := rfl
  only d n c hc := by
    by_cases hnew : d = dir ∧ n = name
    · exact .inr ⟨hnew.1, Option.some.inj (hc.symm.trans (if_pos hnew))⟩
    · exact .inl ((if_neg hnew).symm.trans hc)

theorem makesDirs : MakesDirs fileSystem tree pins where
  lookup memory dir name _ := by
    rw [fileSystem]
    dsimp only
    cases hchild : memory.child dir name with
    | none => exact ⟨fun _ _ _ => hchild, rfl, fun _ _ => rfl⟩
    | some node => exact ⟨hchild, rfl, fun _ _ => rfl⟩
  mkdir memory dir name _ h := ⟨memory.made_add h, fun _ _ => rfl⟩
  stat _ _ _ := ⟨rfl, rfl, fun _ _ => rfl⟩
  forget_tree _ _ _ := rfl
  forget_pins _ _ _ _ _ := rfl

end Memory

/-- `a/../b` is made as `b` alone. -/
theorem lexical_normalised_memory :
    normalised [0x61, slash, 0x2E, 0x2E, slash, 0x62] = [[0x62]] ∧
      ((createDirAll Memory.fileSystem [0x61, slash, 0x2E, 0x2E, slash, 0x62] .lexical).run
        (Memory.empty, [])).1 = .ok () ∧
      DirTree.Grows Memory.empty.tree
        ((createDirAll Memory.fileSystem [0x61, slash, 0x2E, 0x2E, slash, 0x62] .lexical).run
          (Memory.empty, [])).2.1.tree 0
        (normalised [0x61, slash, 0x2E, 0x2E, slash, 0x62]) := by
  have hrun := (lexical_normalised.2 Memory.fileSystem [0x61, slash, 0x2E, 0x2E, slash, 0x62]).2
    Memory.tree Memory.pins
    Memory.makesDirs Memory.empty []
  have hok : ((createDirAll Memory.fileSystem [0x61, slash, 0x2E, 0x2E, slash, 0x62]
      .lexical).run (Memory.empty, [])).1 = .ok () := by decide
  refine ⟨by decide, hok, ?_⟩
  rcases hresult :
    (createDirAll Memory.fileSystem [0x61, slash, 0x2E, 0x2E, slash, 0x62] .lexical).run
      (Memory.empty, []) with
    ⟨_ | _, t, queue⟩ <;> rw [hresult] at hrun
  · exact hrun
  · exact hrun.1

end Hadris.Paths
