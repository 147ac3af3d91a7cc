import Hadris.Paths.Posix
import Hadris.Paths.Refinement

namespace Hadris.Paths

namespace Answers

variable {ω ν α : Type} [DecidableEq ν]

def pinning (x : Prog ω Halt ν) : Prog (ω × (ν → Nat)) Halt ν := ⟨fun s =>
  match x.run s.1 with
  | (.ok node, w) => (.ok node, w, fun other => s.2 other + if other = node then 1 else 0)
  | (.error e, w) => (.error e, w, s.2)⟩

def accepting (accept : α → Bool) (x : Prog ω Halt α) : Prog (ω × (ν → Nat)) Halt α := ⟨fun s =>
  match x.run s.1 with
  | (.ok a, w) => if accept a then (.ok a, w, s.2) else (.error (.ofKind .limitExceeded), w, s.2)
  | (.error e, w) => (.error e, w, s.2)⟩

def fileSystem (answers : Answers ω ν) : FileSystem (ω × (ν → Nat)) ν where
  root := answers.root
  lookup dir name := pinning (answers.lookup dir name)
  parent dir := pinning (answers.parent dir)
  stat node := accepting (fun _ => true) (answers.stat node)
  readlink node room := accepting (fun target => target.length ≤ room) (answers.readlink node)
  forget node count s := (s.1, fun other => s.2 other - if other = node then count else 0)

theorem agrees_pinning (root : ν) (x : Prog ω Halt ν) (s : ω × (ν → Nat)) :
    Agrees root Prod.fst Prod.snd (fun node => [node]) (pinning x) x s := by
  rcases hx : x.run s.1 with ⟨e | node, w⟩
  · refine ⟨?_, ?_, ?_, ?_⟩ <;> simp only [pinning, hx]
    · intro _ h
      cases h
    · exact fun _ _ _ _ => rfl
  · refine ⟨?_, ?_, ?_, ?_⟩ <;> simp only [pinning, hx]
    · intro _ h
      cases h
      intro other _
      rcases eq_or_ne other node with rfl | hne
      · simp
      · simp [hne, hne.symm]
    · intro _ h
      cases h

theorem agrees_accepting {accept : α → Bool} {x : Prog ω Halt α} {s : ω × (ν → Nat)} (root : ν)
    (h : ∀ a, (x.run s.1).1 = .ok a → accept a = true) :
    Agrees root Prod.fst Prod.snd (fun _ => []) (accepting accept x) x s := by
  rcases hx : x.run s.1 with ⟨e | a, w⟩
  · refine ⟨?_, ?_, ?_, ?_⟩ <;> simp only [accepting, hx]
    · exact fun _ _ _ _ => rfl
    · exact fun _ _ _ _ => rfl
  · have haccept := h a (by rw [hx])
    refine ⟨?_, ?_, ?_, ?_⟩ <;> simp only [accepting, hx, haccept, if_true]
    · exact fun _ _ _ _ => rfl
    · exact fun _ _ _ _ => rfl

omit [DecidableEq ν] in
theorem accepting_pins (accept : α → Bool) (x : Prog ω Halt α) (s : ω × (ν → Nat)) :
    ((accepting accept x).run s).2.2 = s.2 := by
  rcases hx : x.run s.1 with ⟨e | a, w⟩ <;> simp only [accepting, hx]
  split <;> rfl

theorem contract_fileSystem (answers : Answers ω ν) :
    Contract answers.fileSystem answers Prod.fst Prod.snd where
  root := rfl
  lookup _ _ _ _ := agrees_pinning _ _ _
  parent _ _ _ := agrees_pinning _ _ _
  stat _ _ _ := agrees_accepting _ fun _ _ => rfl
  readlink _ _ _ _ h := agrees_accepting _ fun target htarget => decide_eq_true (h target htarget)
  readlink_le s node room target h := by
    rcases hx : (answers.readlink node).run s.1 with ⟨e | text, w⟩ <;>
      simp only [fileSystem, accepting, hx] at h
    · cases h
    · split at h <;> cases h
      rename_i haccept
      exact of_decide_eq_true haccept
  readlink_pins s node room other _ := congrFun (accepting_pins _ _ s) other
  forget_world _ _ _ := rfl
  forget_pins _ _ _ _ _ := rfl

end Answers

end Hadris.Paths

namespace Hadris.Paths

open Prog

def names (path : List UInt8) : List (List UInt8) := (path.splitOnP (· == slash)).filter (· ≠ [])

/-- Whether a later `..` in `rest` removes the component just before it, which
has `depth` components after it so far. -/
def cancelledFrom : Nat → List (List UInt8) → Bool
  | _, [] => false
  | depth, component :: rest =>
    if component = dot then cancelledFrom depth rest
    else if component = dotDot then
      if depth = 0 then true else cancelledFrom (depth - 1) rest
    else cancelledFrom (depth + 1) rest

def cancelled (rest : List (List UInt8)) : Bool := cancelledFrom 0 rest

section

variable {σ ν : Type} (fs : FileSystem σ ν)

def lexicalLoop : List (List UInt8) → Prog (σ × Pins ν) Halt Unit
  | [] => pure ()
  | component :: rest =>
    if (component = dot ∨ component = dotDot) ∨ cancelled rest = true then lexicalLoop rest
    else do
      let current ← Pins.get
      let found ← onFs (fs.lookup current component)
      Pins.step fs found
      lexicalLoop rest

def lexical (path : List UInt8) : Prog σ Halt ν := Pins.keep fs (lexicalLoop fs (names path))

def resolve (path : List UInt8) : Resolve → Prog σ Halt ν
  | .lexical => lexical fs path
  | .follow => posix fs path true
  | .noFollow => posix fs path false

end

section

variable {σ ω ν : Type} [DecidableEq ν] {fs : FileSystem σ ν} {answers : Answers ω ν}
variable {world : σ → ω} {pins : σ → ν → Nat} {base : ν → Nat}

theorem standing_lexicalLoop (h : Contract fs answers world pins)
    (components : List (List UInt8)) :
    Triple (Standing fs pins base) (lexicalLoop fs components) (fun _ => Standing fs pins base)
      (fun _ => Guarded fs pins base) := by
  induction components with
  | nil => exact Triple.pure fun s hs => hs
  | cons component rest ih =>
    rw [lexicalLoop]
    refine Triple.ite (fun _ => ih) fun _ => ?_
    rintro s ⟨current, hs⟩
    refine Triple.bind holding_get (fun node => Triple.assume ?_) s hs
    rintro rfl
    refine Triple.bind (holding_lookup h component List.mem_cons_self) fun found => ?_
    exact Triple.bind (standing_step h (.inl rfl)) fun _ => ih

/-- A resolution leaves one pin, on its result, when it succeeds, and none when
it fails or is dropped. -/
theorem resolve_pins (h : Contract fs answers world pins) (path : List UInt8)
    (how : Resolve) (s : σ) :
    (∀ node, ((resolve fs path how).run s).1 = .ok node →
      Adds fs.root [node] (pins s) (pins ((resolve fs path how).run s).2)) ∧
    ∀ e, ((resolve fs path how).run s).1 = .error e →
      Adds fs.root [] (pins s) (pins ((resolve fs path how).run s).2) := by
  cases how with
  | lexical => exact keep_pins h s (standing_lexicalLoop h (names path))
  | follow => exact posix_pins h path true s
  | noFollow => exact posix_pins h path false s

end

end Hadris.Paths

namespace Hadris.Paths

open Prog

section

variable {σ ω ν : Type} [DecidableEq ν] {fs : FileSystem σ ν} {answers : Answers ω ν}
variable {world : σ → ω} {pins : σ → ν → Nat} {base : ν → Nat}
variable (h : Contract fs answers world pins)

include h

theorem simulates_requireLast (reached : ν × Bool) :
    Simulates (Astray answers.root) (Abreast fs world pins base [] ⟨reached.1, none⟩)
      (requireLast fs reached.2) (expectLast answers reached)
      (fun _ node => Abreast fs world pins base [] ⟨node, none⟩) (SameWorld world) := by
  apply Simulates.ite Iff.rfl
  · intro _
    apply Simulates.left (P := fun node s w => node = reached.1 ∧
      Abreast fs world pins base [] ⟨reached.1, none⟩ s w)
    · intro s w hsw
      exact ⟨_, rfl, congrArg Pins.current hsw.1.same, hsw⟩
    intro node
    apply Simulates.assume
    rintro rfl
    rw [← bind_pure (requireDir fs reached.1)]
    exact Simulates.bind (simulates_requireDir h List.mem_cons_self) (fun _ => Keeps.pure _)
      fun _ _ => Simulates.pure fun _ _ hsw => hsw
  · exact fun _ => Simulates.pure fun _ _ hsw => hsw

omit h [DecidableEq ν] in
theorem reads_start (path : List UInt8) :
    Reads path (path.length + maxLinks * (linkBuffer + 1) + 1) .start maxLinks
      (components path) := by
  refine ⟨List.length_replicate, Nat.zero_le _, rfl, Nat.zero_add _, ?_⟩
  exact Nat.lt_succ_self _

theorem world_drop (kept : Bool) (held : Pins ν) (s : σ) :
    world (Pins.drop fs kept held s) = world s := by
  rw [Pins.drop]
  rcases held with ⟨current, _ | child⟩ <;> cases kept <;> simp [h.forget_world]

theorem keep_eq {body : Prog (σ × Pins ν) Halt Unit} {y : Prog (ω × List (Met ν)) Halt ν} {s : σ}
    (hbody : Simulates (Astray answers.root)
      (Abreast fs world pins (pins s) [] ⟨fs.root, none⟩) body y
      (fun _ node => Abreast fs world pins (pins s) [] ⟨node, none⟩) (SameWorld world))
    (hmet : ¬ Astray answers.root (y.run (world s, [])).2) :
    ((Pins.keep fs body).run s).1 = (y.run (world s, [])).1 ∧
      world ((Pins.keep fs body).run s).2 = (y.run (world s, [])).2.1 := by
  have hstart : Abreast fs world pins (pins s) [] ⟨fs.root, none⟩ (s, ⟨fs.root, none⟩)
      (world s, ([] : List (Met ν))) := by
    refine ⟨⟨rfl, ?_⟩, rfl⟩
    intro node hroot
    simp [hroot.symm]
  have hends := hbody _ _ hstart hmet
  rw [Pins.keep]
  rcases hrun : body.run (s, ⟨fs.root, none⟩) with ⟨e | ⟨⟩, t, held⟩ <;> rw [hrun] at hends
  · obtain ⟨_, _, hok, _⟩ | ⟨_, herror, herror', hworld⟩ := hends
    · cases hok
    · cases herror
      simp only [hrun]
      exact ⟨herror'.symm, (world_drop h false held t).trans hworld⟩
  · obtain ⟨_, node, _, hok, hs, hworld⟩ | ⟨_, herror, _⟩ := hends
    · obtain rfl : held = ⟨node, none⟩ := hs.same
      simp only [hrun]
      exact ⟨hok.symm, (world_drop h true _ t).trans hworld⟩
    · cases herror

theorem posix_eq {path : List UInt8} {followLast : Bool} {s : σ}
    (hmet : ¬ Astray answers.root ((resolveRef answers path followLast).run (world s, [])).2) :
    ((posix fs path followLast).run s).1 =
      ((resolveRef answers path followLast).run (world s, [])).1 ∧
      world ((posix fs path followLast).run s).2 =
        ((resolveRef answers path followLast).run (world s, [])).2.1 := by
  apply keep_eq h _ hmet
  have hloop : Simulates (Astray answers.root) (Abreast fs world pins (pins s) [] ⟨fs.root, none⟩)
    _ _ _ _ :=
    simulates_loop h path followLast _ .start maxLinks _ fs.root (reads_start path)
  rw [h.root] at hloop ⊢
  refine Simulates.bind hloop (keeps_expectLast answers) fun wantDir reached => ?_
  apply Simulates.assume
  rintro rfl
  exact simulates_requireLast h reached

/-- Wherever no text outgrows the buffer and no empty target vanishes before more
of the path, a path leads where the reference says, and fails as it does. The
pins are balanced in any case. -/
theorem resolve_reference {path : List UInt8} {how : Resolve} (hhow : how ≠ .lexical) (s : σ)
    (hfits : ∀ met ∈ ((resolveRef answers path (how = .follow)).run (world s, [])).2.2, met.Fits)
    (hstays : ∀ met ∈ ((resolveRef answers path (how = .follow)).run (world s, [])).2.2,
      ¬ met.Vanishes answers.root) :
    ((resolve fs path how).run s).1 =
      ((resolveRef answers path (how = .follow)).run (world s, [])).1 ∧
      (∀ node, ((resolve fs path how).run s).1 = .ok node →
        Adds fs.root [node] (pins s) (pins ((resolve fs path how).run s).2)) ∧
      ∀ e, ((resolve fs path how).run s).1 = .error e →
        Adds fs.root [] (pins s) (pins ((resolve fs path how).run s).2) := by
  refine ⟨?_, resolve_pins h path how s⟩
  have hmet : ¬ Astray answers.root
      ((resolveRef answers path (how = .follow)).run (world s, [])).2 := by
    rintro ⟨met, hmem, hfit | hvanish⟩
    · exact hfit (hfits met hmem)
    · exact hstays met hmem hvanish
  cases how with
  | lexical => exact absurd rfl hhow
  | follow =>
    rw [show decide (Resolve.follow = .follow) = true from rfl] at hmet ⊢
    exact (posix_eq h hmet).1
  | noFollow =>
    rw [show decide (Resolve.noFollow = .follow) = false from rfl] at hmet ⊢
    exact (posix_eq h hmet).1

end

/-- A root with the directory `a`, which has a link `l` with an empty target and a
file `f`. -/
def emptyLink : Answers Unit Nat where
  root := 0
  lookup dir name :=
    if dir = 0 ∧ name = [0x61] then pure 1
    else if dir = 1 ∧ name = [0x6C] then pure 2
    else if dir = 1 ∧ name = [0x66] then pure 3
    else Prog.fail (.ofKind .notFound)
  parent _ := pure 0
  stat node := pure (if node < 2 then .dir else if node = 2 then .symlink else .file)
  readlink node := if node = 2 then pure [] else Prog.fail (.ofKind .invalidInput)

/-- `a/l/f` is looked for in the root: the separator after the empty target is
taken for the start of an absolute one. -/
theorem resolve_empty_link :
    Contract emptyLink.fileSystem emptyLink Prod.fst Prod.snd ∧
      ((resolveRef emptyLink [0x61, slash, 0x6C, slash, 0x66] true).run ((), [])).2.2 =
        [.link 2, .target 1 [] 2] ∧
      ((resolveRef emptyLink [0x61, slash, 0x6C, slash, 0x66] true).run ((), [])).1 = .ok 3 ∧
      ((resolve emptyLink.fileSystem [0x61, slash, 0x6C, slash, 0x66] .follow).run
        ((), fun _ => 0)).1 =
        .error (.ofKind .notFound) :=
  ⟨Answers.contract_fileSystem _, by decide, by decide, by decide +kernel⟩

/-- `a/f` leads to the file. -/
theorem resolve_reference_file :
    ((resolve emptyLink.fileSystem [0x61, slash, 0x66] .follow).run ((), fun _ => 0)).1 = .ok 3 ∧
      Adds 0 [3] (fun _ => 0)
        ((resolve emptyLink.fileSystem [0x61, slash, 0x66] .follow).run
          ((), fun _ => 0)).2.2 := by
  have hhow : Resolve.follow ≠ .lexical := fun h => nomatch h
  have hfits : ∀ met ∈
    ((resolveRef emptyLink [0x61, slash, 0x66] (Resolve.follow = .follow)).run ((), [])).2.2,
      met.Fits := by decide
  have hrun := resolve_reference (Answers.contract_fileSystem emptyLink) hhow
    ((), fun _ => 0) hfits (by decide)
  exact ⟨hrun.1, hrun.2.1 3 hrun.1⟩

end Hadris.Paths
