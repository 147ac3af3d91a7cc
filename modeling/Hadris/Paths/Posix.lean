import Hadris.Meta
import Hadris.Program

namespace Hadris

namespace Paths

/-- How a path is read. -/
inductive Resolve where
  | lexical
  | follow
  | noFollow
deriving DecidableEq, Repr

/-- How a call ends without a result: it fails, its future is dropped, or the
loop that makes it used up the steps it was given. -/
inductive Halt where
  | error (e : Error)
  | dropped
  | diverged
deriving DecidableEq

def Halt.ofKind (kind : ErrorKind) : Halt := .error (Error.ofKind kind)

/-- The calls that resolving a path makes. A call may change the driver's state
`σ`, whatever it answers; `forget` does no I/O and cannot fail. -/
structure FileSystem (σ ν : Type) where
  root : ν
  lookup : ν → List UInt8 → Prog σ Halt ν
  parent : ν → Prog σ Halt ν
  stat : ν → Prog σ Halt FileType
  /-- The target, for a buffer of the given size. -/
  readlink : ν → Nat → Prog σ Halt (List UInt8)
  forget : ν → Nat → σ → σ

/-- What a file system answers, with no pins and no buffers. The answers depend
on `ω`: the contents, the device, and what it did so far. -/
structure Answers (ω ν : Type) where
  root : ν
  lookup : ν → List UInt8 → Prog ω Halt ν
  parent : ν → Prog ω Halt ν
  stat : ν → Prog ω Halt FileType
  readlink : ν → Prog ω Halt (List UInt8)

section

variable {σ ω ν α : Type} [DecidableEq ν]

/-- `node` is among the nodes whose calls the contract covers. -/
def Pinned (root : ν) (pins : ν → Nat) (node : ν) : Prop := node = root ∨ 0 < pins node

/-- The pins after those of `added` are taken. The root is always pinned, so its
pins are not counted. -/
def Adds (root : ν) (added : List ν) (pins pins' : ν → Nat) : Prop :=
  ∀ node, node ≠ root → pins' node = pins node + added.count node

/-- A call answers as `y` does and takes the pins `added` says. -/
structure Agrees (root : ν) (world : σ → ω) (pins : σ → ν → Nat) (added : α → List ν)
    (x : Prog σ Halt α) (y : Prog ω Halt α) (s : σ) : Prop where
  result : (x.run s).1 = (y.run (world s)).1
  world : world (x.run s).2 = (y.run (world s)).2
  ok : ∀ a, (x.run s).1 = .ok a → Adds root (added a) (pins s) (pins (x.run s).2)
  error : ∀ e, (x.run s).1 = .error e → Adds root [] (pins s) (pins (x.run s).2)

/-- The contract of a file system, for the calls that resolving makes: its
answers do not depend on the pins, a call that finds a node pins it, and a call
that fails or is dropped leaves no pin. -/
structure Contract (fs : FileSystem σ ν) (answers : Answers ω ν) (world : σ → ω)
    (pins : σ → ν → Nat) : Prop where
  root : fs.root = answers.root
  lookup : ∀ s dir name, Pinned fs.root (pins s) dir →
    Agrees fs.root world pins (fun node => [node]) (fs.lookup dir name)
      (answers.lookup dir name) s
  parent : ∀ s dir, Pinned fs.root (pins s) dir →
    Agrees fs.root world pins (fun node => [node]) (fs.parent dir) (answers.parent dir) s
  stat : ∀ s node, Pinned fs.root (pins s) node →
    Agrees fs.root world pins (fun _ => []) (fs.stat node) (answers.stat node) s
  readlink : ∀ s node room, Pinned fs.root (pins s) node →
    (∀ target, ((answers.readlink node).run (world s)).1 = .ok target → target.length ≤ room) →
    Agrees fs.root world pins (fun _ => []) (fs.readlink node room) (answers.readlink node) s
  readlink_le : ∀ s node room target, ((fs.readlink node room).run s).1 = .ok target →
    target.length ≤ room
  readlink_pins : ∀ s node room, Adds fs.root [] (pins s) (pins ((fs.readlink node room).run s).2)
  forget_world : ∀ s node count, world (fs.forget node count s) = world s
  forget_pins : ∀ s node count other, other ≠ fs.root →
    pins (fs.forget node count s) other = pins s other - if other = node then count else 0

end

end Paths

end Hadris

namespace Hadris.Paths

def maxLinks : Nat := 40

def linkBuffer : Nat := 1024

def slash : UInt8 := 0x2F

def dot : List UInt8 := [0x2E]

def dotDot : List UInt8 := [0x2E, 0x2E]

/-- The pins a resolution holds: the directory it has reached and the child it
is looking at. -/
structure Pins (ν : Type) where
  current : ν
  child : Option ν

/-- The text that is left and how the loop got there. `spliced` is where the
text starts in the buffer, once a link is followed. -/
structure Cursor where
  buf : List UInt8
  spliced : Option Nat
  pos : Nat
  links : Nat
  wantDir : Bool
deriving DecidableEq

namespace Cursor

def start : Cursor := ⟨.replicate linkBuffer 0, none, 0, 0, false⟩

def pending (cursor : Cursor) (path : List UInt8) : List UInt8 :=
  match cursor.spliced with
  | some start => cursor.buf.drop start
  | none => path

def skipped (cursor : Cursor) (pending : List UInt8) : Nat :=
  cursor.pos + ((pending.drop cursor.pos).takeWhile (· == slash)).length

def componentEnd (pending : List UInt8) (from_ : Nat) : Nat :=
  from_ + ((pending.drop from_).takeWhile (· != slash)).length

end Cursor

def copyTo (buf : List UInt8) (at_ : Nat) (bytes : List UInt8) : List UInt8 :=
  buf.take at_ ++ bytes ++ buf.drop (at_ + bytes.length)

namespace Cursor

def withRest (cursor : Cursor) (rest : List UInt8) : List UInt8 :=
  match cursor.spliced with
  | some _ => cursor.buf
  | none => copyTo cursor.buf (linkBuffer - rest.length) rest

/-- The buffer once `target` stands before the rest, with the separator in
between when there is a rest. -/
def withTarget (buf target : List UInt8) (room : Nat) (sep : Bool) : List UInt8 :=
  let buf := copyTo buf 0 target
  let buf := copyTo buf (room - target.length) (buf.take target.length)
  if sep then copyTo buf room [slash] else buf

end Cursor

section

variable {σ ν α : Type} (fs : FileSystem σ ν)

def onFs (x : Prog σ Halt α) : Prog (σ × Pins ν) Halt α := ⟨fun s =>
  ((x.run s.1).1, (x.run s.1).2, s.2)⟩

def forgetNode (node : ν) : Prog (σ × Pins ν) Halt Unit :=
  Prog.modify fun s => (fs.forget node 1 s.1, s.2)

namespace Pins

def get : Prog (σ × Pins ν) Halt ν := Prog.gets fun s => s.2.current

def setChild (child : Option ν) : Prog (σ × Pins ν) Halt Unit :=
  Prog.modify fun s => (s.1, { s.2 with child := child })

def step (node : ν) : Prog (σ × Pins ν) Halt Unit :=
  Prog.modify fun s => (fs.forget s.2.current 1 s.1, { s.2 with current := node })

def drop (kept : Bool) (pins : Pins ν) (s : σ) : σ :=
  let s := match pins.child with
    | some child => fs.forget child 1 s
    | none => s
  if kept then s else fs.forget pins.current 1 s

/-- Runs `body` with the pins of a new resolution and hands the pin of the node
it reached to the caller. The pins are dropped however `body` ends. -/
def keep (body : Prog (σ × Pins ν) Halt Unit) : Prog σ Halt ν := ⟨fun s =>
  match body.run (s, ⟨fs.root, none⟩) with
  | (.ok (), s, pins) => (.ok pins.current, drop fs true pins s)
  | (.error e, s, pins) => (.error e, drop fs false pins s)⟩

end Pins

def requireDir (node : ν) : Prog (σ × Pins ν) Halt Unit := do
  let type ← onFs (fs.stat node)
  if type = .dir then pure () else Prog.fail (.ofKind .notADirectory)

def follow (cursor : Cursor) (child : ν) (rest : List UInt8) :
    Prog (σ × Pins ν) Halt Cursor := do
  let sep := 0 < rest.length
  let taken := rest.length + if sep then 1 else 0
  if linkBuffer < taken then Prog.fail (.ofKind .limitExceeded)
  else do
    let room := linkBuffer - taken
    let buf := cursor.withRest rest
    let target ← onFs (fs.readlink child room)
    Pins.setChild none
    forgetNode fs child
    let start := room - target.length
    let buf := Cursor.withTarget buf target room sep
    if buf[start]? = some slash then Pins.step fs fs.root else pure ()
    pure { cursor with buf := buf, spliced := some start, pos := 0 }

/-- The loop of a resolution. It ends with whether the node it reached must be a
directory. -/
def posixLoop (path : List UInt8) (followLast : Bool) :
    Nat → Cursor → Prog (σ × Pins ν) Halt Bool
  | 0, _ => Prog.fail .diverged
  | steps + 1, cursor =>
    let pending := cursor.pending path
    let from_ := cursor.skipped pending
    if from_ = pending.length then pure cursor.wantDir
    else do
      let stop := Cursor.componentEnd pending from_
      let rest := pending.drop stop
      let component := (pending.drop from_).take (stop - from_)
      let cursor := { cursor with wantDir := 0 < rest.length, pos := stop }
      let current ← Pins.get
      if component = dot then do
        requireDir fs current
        posixLoop path followLast steps cursor
      else if component = dotDot then do
        let up ← onFs (fs.parent current)
        Pins.step fs up
        posixLoop path followLast steps cursor
      else do
        let child ← onFs (fs.lookup current component)
        Pins.setChild (some child)
        let type ← onFs (fs.stat child)
        if type ≠ .symlink ∨ rest.length = 0 ∧ followLast = false then do
          Pins.setChild none
          Pins.step fs child
          posixLoop path followLast steps cursor
        else if maxLinks < cursor.links + 1 then Prog.fail (.ofKind .symlink)
        else do
          let cursor ← follow fs { cursor with links := cursor.links + 1 } child rest
          posixLoop path followLast steps cursor

def requireLast (wantDir : Bool) : Prog (σ × Pins ν) Halt Unit :=
  if wantDir then do
    let current ← Pins.get
    requireDir fs current
  else pure ()

/-- Resolution as POSIX has it. `followLast` says whether a link in the last
component is followed. Each turn of the loop takes a component off the text or
follows a link. -/
def posix (path : List UInt8) (followLast : Bool) : Prog σ Halt ν :=
  Pins.keep fs do
    let wantDir ← posixLoop fs path followLast
      (path.length + maxLinks * (linkBuffer + 1) + 1) .start
    requireLast fs wantDir

end

end Hadris.Paths

namespace Hadris.Paths

open List

open Prog

section

variable {σ ω ν α : Type} [DecidableEq ν] {fs : FileSystem σ ν} {answers : Answers ω ν}
variable {world : σ → ω} {pins : σ → ν → Nat} {base : ν → Nat} {extra : List ν} {held : Pins ν}
variable {s : σ × Pins ν} {E : Halt → σ × Pins ν → Prop}

/-- Besides the pins of `base`, the driver holds those of a resolution and of the
nodes in `extra`. -/
structure Holding (fs : FileSystem σ ν) (pins : σ → ν → Nat) (base : ν → Nat) (extra : List ν)
    (held : Pins ν) (s : σ × Pins ν) : Prop where
  same : s.2 = held
  pins : ∀ node, node ≠ fs.root →
    pins s.1 node = base node + (extra ++ held.current :: held.child.toList).count node

/-- A resolution holds what its guard knows of. -/
def Guarded (fs : FileSystem σ ν) (pins : σ → ν → Nat) (base : ν → Nat) (s : σ × Pins ν) : Prop :=
  ∃ held, Holding fs pins base [] held s

/-- A resolution stands at a directory. -/
def Standing (fs : FileSystem σ ν) (pins : σ → ν → Nat) (base : ν → Nat) (s : σ × Pins ν) :
    Prop :=
  ∃ current, Holding fs pins base [] ⟨current, none⟩ s

theorem Holding.pinned (h : Holding fs pins base extra held s) {node : ν}
    (hnode : node ∈ held.current :: held.child.toList) : Pinned fs.root (pins s.1) node := by
  by_cases hroot : node = fs.root
  · exact .inl hroot
  · refine .inr ?_
    rw [h.pins node hroot]
    have hcount := count_pos_iff.mpr (mem_append_right extra hnode)
    omega

theorem Holding.adds (h : Holding fs pins base [] held s) {t : σ} {added : List ν}
    (hadds : Adds fs.root added (pins s.1) (pins t)) :
    Holding fs pins base added held (t, s.2) := by
  refine ⟨h.same, ?_⟩
  intro node hroot
  rw [hadds node hroot, h.pins node hroot, nil_append, count_append]
  omega

theorem Holding.call {added : α → List ν} {x : Prog σ Halt α} {y : Prog ω Halt α}
    (hcall : ∀ s, Holding fs pins base [] held s →
      Agrees fs.root world pins added x y s.1) :
    Triple (Holding fs pins base [] held) (onFs x)
      (fun a => Holding fs pins base (added a) held) (fun _ => Guarded fs pins base) := by
  intro s hs
  have hagrees := hcall s hs
  rcases hx : x.run s.1 with ⟨e | a, t⟩
  · have herror := hagrees.error e (by rw [hx])
    rw [hx] at herror
    simp only [onFs, hx]
    exact ⟨held, hs.adds herror⟩
  · have hok := hagrees.ok a (by rw [hx])
    rw [hx] at hok
    simp only [onFs, hx]
    exact hs.adds hok

theorem holding_get :
    Triple (Holding fs pins base extra held) Pins.get
      (fun node s => node = held.current ∧ Holding fs pins base extra held s) E :=
  Triple.gets fun _ hs => ⟨congrArg Pins.current hs.same, hs⟩

theorem holding_setChild {current child : ν} :
    Triple (Holding fs pins base [child] ⟨current, none⟩) (Pins.setChild (some child))
      (fun _ => Holding fs pins base [] ⟨current, some child⟩) E := by
  apply Triple.modify
  intro s hs
  refine ⟨by rw [hs.same], ?_⟩
  intro node hroot
  rw [hs.pins node hroot]
  simp [count_cons, Nat.add_comm]

theorem holding_clearChild {current child : ν} :
    Triple (Holding fs pins base [] ⟨current, some child⟩) (Pins.setChild none)
      (fun _ => Holding fs pins base [child] ⟨current, none⟩) E := by
  apply Triple.modify
  intro s hs
  refine ⟨by rw [hs.same], ?_⟩
  intro node hroot
  rw [hs.pins node hroot]
  simp [count_cons, Nat.add_comm]

variable (h : Contract fs answers world pins)

include h

theorem holding_lookup {node : ν} (name : List UInt8)
    (hnode : node ∈ held.current :: held.child.toList) :
    Triple (Holding fs pins base [] held) (onFs (fs.lookup node name))
      (fun child => Holding fs pins base [child] held) (fun _ => Guarded fs pins base) :=
  Holding.call fun s hs => h.lookup s.1 node name (hs.pinned hnode)

theorem holding_parent {node : ν} (hnode : node ∈ held.current :: held.child.toList) :
    Triple (Holding fs pins base [] held) (onFs (fs.parent node))
      (fun up => Holding fs pins base [up] held) (fun _ => Guarded fs pins base) :=
  Holding.call fun s hs => h.parent s.1 node (hs.pinned hnode)

theorem holding_stat {node : ν} (hnode : node ∈ held.current :: held.child.toList) :
    Triple (Holding fs pins base [] held) (onFs (fs.stat node))
      (fun _ => Holding fs pins base [] held) (fun _ => Guarded fs pins base) :=
  Holding.call fun s hs => h.stat s.1 node (hs.pinned hnode)

theorem holding_readlink (node : ν) (room : Nat) :
    Triple (Holding fs pins base [] held) (onFs (fs.readlink node room))
      (fun _ => Holding fs pins base [] held) (fun _ => Guarded fs pins base) := by
  have hkept : Triple (Holding fs pins base [] held) (onFs (fs.readlink node room))
      (fun _ => Holding fs pins base [] held) (fun _ => Holding fs pins base [] held) :=
    Triple.of_state fun s hs => hs.adds (h.readlink_pins s.1 node room)
  exact hkept.weaken (fun _ _ hs => hs) fun _ _ hs => ⟨held, hs⟩

theorem holding_requireDir {node : ν} (hnode : node ∈ held.current :: held.child.toList) :
    Triple (Holding fs pins base [] held) (requireDir fs node)
      (fun _ => Holding fs pins base [] held) (fun _ => Guarded fs pins base) := by
  refine Triple.bind (holding_stat h hnode) fun type => ?_
  exact Triple.ite (fun _ => Triple.pure fun _ hs => hs) fun _ =>
    Triple.fail fun _ hs => ⟨held, hs⟩

theorem holding_forget {current child : ν} :
    Triple (Holding fs pins base [child] ⟨current, none⟩) (forgetNode fs child)
      (fun _ => Holding fs pins base [] ⟨current, none⟩) E := by
  apply Triple.modify
  intro s hs
  refine ⟨hs.same, ?_⟩
  intro node hroot
  rw [h.forget_pins _ _ _ _ hroot, hs.pins node hroot]
  rcases eq_or_ne child node with rfl | hne
  · simp [count_cons]
  · simp [count_cons, hne, hne.symm]

theorem holding_step {current node : ν} (hextra : extra = [node] ∨ extra = [] ∧ node = fs.root) :
    Triple (Holding fs pins base extra ⟨current, none⟩) (Pins.step fs node)
      (fun _ => Holding fs pins base [] ⟨node, none⟩) E := by
  apply Triple.modify
  intro s hs
  refine ⟨by rw [hs.same], ?_⟩
  intro other hroot
  have hpins := hs.pins other hroot
  rw [h.forget_pins _ _ _ _ hroot, hs.same, hpins]
  have hsingle : [node].count other = extra.count other := by
    rcases hextra with rfl | ⟨rfl, rfl⟩
    · rfl
    · exact count_eq_zero.mpr fun hmem => hroot (mem_singleton.mp hmem)
  have hcurrent : [current].count other = if other = current then 1 else 0 := by
    rcases eq_or_ne current other with rfl | hne
    · simp
    · simp [hne, hne.symm]
  simp only [Option.toList_none, nil_append, count_append, hsingle, hcurrent]
  omega

end

end Hadris.Paths

namespace Hadris.Paths

open List

open Prog

section

variable {σ ω ν : Type} [DecidableEq ν] {fs : FileSystem σ ν} {answers : Answers ω ν}
variable {world : σ → ω} {pins : σ → ν → Nat} {base : ν → Nat}

theorem Standing.guarded {s : σ × Pins ν} (hs : Standing fs pins base s) :
    Guarded fs pins base s := by
  obtain ⟨current, hs⟩ := hs
  exact ⟨_, hs⟩

variable (h : Contract fs answers world pins)

include h

theorem standing_step {current node : ν} {extra : List ν}
    (hextra : extra = [node] ∨ extra = [] ∧ node = fs.root) :
    Triple (Holding fs pins base extra ⟨current, none⟩) (Pins.step fs node)
      (fun _ => Standing fs pins base) (fun _ => Guarded fs pins base) :=
  (holding_step h hextra).post fun _ _ hs => ⟨node, hs⟩

theorem holding_follow {current child : ν} (cursor : Cursor) (rest : List UInt8) :
    Triple (Holding fs pins base [] ⟨current, some child⟩) (follow fs cursor child rest)
      (fun _ => Standing fs pins base) (fun _ => Guarded fs pins base) := by
  rw [follow]
  refine Triple.ite (fun _ => Triple.fail fun s hs => ⟨_, hs⟩) fun _ => ?_
  refine Triple.bind (holding_readlink h child _) fun target => ?_
  refine Triple.bind holding_clearChild fun _ => ?_
  refine Triple.bind (holding_forget h) fun _ => ?_
  dsimp only
  apply Triple.ite
  · intro _
    exact Triple.bind (standing_step h (.inr ⟨rfl, rfl⟩)) fun _ => Triple.pure fun s hs => hs
  · intro _
    exact Triple.bind (Triple.pure fun s hs => ⟨current, hs⟩) fun _ => Triple.pure fun s hs => hs

theorem standing_loop (path : List UInt8) (followLast : Bool) (steps : Nat) (cursor : Cursor) :
    Triple (Standing fs pins base) (posixLoop fs path followLast steps cursor)
      (fun _ => Standing fs pins base) (fun _ => Guarded fs pins base) := by
  induction steps generalizing cursor with
  | zero => exact Triple.fail fun s hs => hs.guarded
  | succ steps ih =>
    rw [posixLoop]
    refine Triple.ite (fun _ => Triple.pure fun s hs => hs) fun _ => ?_
    rintro s ⟨current, hs⟩
    refine Triple.bind holding_get (fun node => Triple.assume ?_) s hs
    rintro rfl
    refine Triple.ite (fun _ => ?_) fun _ => Triple.ite (fun _ => ?_) fun _ => ?_
    · refine Triple.bind (holding_requireDir h mem_cons_self) fun _ => ?_
      exact (ih _).pre fun s hs => ⟨_, hs⟩
    · refine Triple.bind (holding_parent h mem_cons_self) fun up => ?_
      exact Triple.bind (standing_step h (.inl rfl)) fun _ => ih _
    · refine Triple.bind (holding_lookup h _ mem_cons_self) fun child => ?_
      refine Triple.bind holding_setChild fun _ => ?_
      refine Triple.bind (holding_stat h (mem_cons_of_mem _ (mem_singleton.mpr rfl)))
        fun type => ?_
      refine Triple.ite (fun _ => ?_) fun _ => Triple.ite (fun _ => ?_) fun _ => ?_
      · refine Triple.bind holding_clearChild fun _ => ?_
        exact Triple.bind (standing_step h (.inl rfl)) fun _ => ih _
      · exact Triple.fail fun s hs => ⟨_, hs⟩
      · exact Triple.bind (holding_follow h _ _) fun _ => ih _

theorem standing_requireLast (wantDir : Bool) :
    Triple (Standing fs pins base) (requireLast fs wantDir) (fun _ => Standing fs pins base)
      (fun _ => Guarded fs pins base) := by
  refine Triple.ite (fun _ => ?_) fun _ => Triple.pure fun s hs => hs
  rintro s ⟨current, hs⟩
  refine Triple.bind holding_get (fun node => Triple.assume ?_) s hs
  rintro rfl
  exact (holding_requireDir h mem_cons_self).post fun _ s hs => ⟨_, hs⟩

theorem drop_pins {held : Pins ν} {s : σ} (hs : Holding fs pins base [] held (s, held))
    (kept : Bool) :
    Adds fs.root (if kept then [held.current] else []) base
      (pins (Pins.drop fs kept held s)) := by
  intro node hroot
  have hpins := hs.pins node hroot
  have hsingle : ∀ other, [other].count node = if node = other then 1 else 0 := by
    intro other
    rcases eq_or_ne other node with rfl | hne
    · simp
    · simp [hne, hne.symm]
  rcases held with ⟨current, _ | child⟩ <;> cases kept <;>
    simp [Pins.drop, h.forget_pins _ _ _ _ hroot, hpins, hsingle, count_cons] <;> grind

/-- A body that keeps its pins balanced leaves one pin, on its result, when it
succeeds, and none when it ends otherwise. -/
theorem keep_pins {body : Prog (σ × Pins ν) Halt Unit} (s : σ)
    (hbody : Triple (Standing fs pins (pins s)) body (fun _ => Standing fs pins (pins s))
      (fun _ => Guarded fs pins (pins s))) :
    (∀ node, ((Pins.keep fs body).run s).1 = .ok node →
      Adds fs.root [node] (pins s) (pins ((Pins.keep fs body).run s).2)) ∧
    ∀ e, ((Pins.keep fs body).run s).1 = .error e →
      Adds fs.root [] (pins s) (pins ((Pins.keep fs body).run s).2) := by
  have hstart : Standing fs pins (pins s) (s, ⟨fs.root, none⟩) := by
    refine ⟨fs.root, rfl, ?_⟩
    intro node hroot
    simp [hroot.symm]
  have hend := hbody _ hstart
  rw [Pins.keep]
  rcases hrun : body.run (s, ⟨fs.root, none⟩) with ⟨e | ⟨⟩, t, held⟩
  · rw [hrun] at hend
    obtain ⟨guarded, hs⟩ := hend
    obtain rfl : held = guarded := hs.same
    constructor
    · intro node hok
      simp [hrun] at hok
    · intro e _
      simpa [hrun] using drop_pins h hs false
  · rw [hrun] at hend
    obtain ⟨current, hs⟩ := hend
    obtain rfl : held = ⟨current, none⟩ := hs.same
    constructor
    · intro node hok
      obtain rfl : current = node := by simpa [hrun] using hok
      simpa [hrun] using drop_pins h hs true
    · intro e herror
      simp [hrun] at herror

/-- A resolution leaves one pin, on its result, when it succeeds, and none when
it fails or is dropped. -/
theorem posix_pins (path : List UInt8) (followLast : Bool) (s : σ) :
    (∀ node, ((posix fs path followLast).run s).1 = .ok node →
      Adds fs.root [node] (pins s) (pins ((posix fs path followLast).run s).2)) ∧
    ∀ e, ((posix fs path followLast).run s).1 = .error e →
      Adds fs.root [] (pins s) (pins ((posix fs path followLast).run s).2) :=
  keep_pins h s (Triple.bind (standing_loop h path followLast _ .start) (standing_requireLast h))

end

end Hadris.Paths
