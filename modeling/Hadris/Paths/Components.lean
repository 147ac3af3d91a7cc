import Hadris.Paths.Posix
import Mathlib.Data.List.TakeWhile

namespace Hadris.Paths

/-- A component of a path and how many slashes come after it. -/
structure Component where
  name : List UInt8
  slashes : Nat
deriving DecidableEq

/-- `byte` put before a text, which is given as the slashes it starts with and the
components after them. -/
def addByte (byte : UInt8) : Nat × List Component → Nat × List Component
  | (0, comp :: rest) =>
    if byte = slash then (1, comp :: rest)
      else (0, { comp with name := byte :: comp.name } :: rest)
  | (lead, comps) => if byte = slash then (lead + 1, comps) else (0, ⟨[byte], lead⟩ :: comps)

def parse : List UInt8 → Nat × List Component
  | [] => (0, [])
  | byte :: text => addByte byte (parse text)

def components (text : List UInt8) : List Component := (parse text).2

def textLength (comps : List Component) : Nat :=
  (comps.map fun comp => comp.name.length + comp.slashes).sum

def lengthen (extra : Nat) : List Component → List Component
  | [] => []
  | [comp] => [{ comp with slashes := comp.slashes + extra }]
  | comp :: rest => comp :: lengthen extra rest

def splice (target : List UInt8) (link : Component) (rest : List Component) : List Component :=
  if link.slashes = 0 then components target ++ rest
  else lengthen (link.slashes + 1) (components target) ++ rest

/-- What a resolution met: a link with `rest` bytes of path after it, and later
its target, with the directory the link is in. -/
inductive Met (ν : Type) where
  | link (rest : Nat)
  | target (dir : ν) (text : List UInt8) (rest : Nat)
deriving DecidableEq

namespace Met

variable {ν : Type}

def taken (rest : Nat) : Nat := rest + if 0 < rest then 1 else 0

/-- The texts fit the buffer. -/
def Fits : Met ν → Prop
  | link rest => taken rest ≤ linkBuffer
  | target _ text rest => text.length + taken rest ≤ linkBuffer

/-- An empty target comes before more of the path, in a directory other than the
root. -/
def Vanishes (root : ν) : Met ν → Prop
  | link _ => False
  | target dir text rest => text = [] ∧ 0 < rest ∧ dir ≠ root

instance (met : Met ν) : Decidable met.Fits := by
  cases met <;> exact inferInstanceAs (Decidable (_ ≤ _))

instance [DecidableEq ν] (root : ν) (met : Met ν) : Decidable (met.Vanishes root) := by
  cases met
  · exact inferInstanceAs (Decidable False)
  · exact inferInstanceAs (Decidable (_ ∧ _))

end Met

section

variable {ω ν α : Type} (answers : Answers ω ν)

def ask (x : Prog ω Halt α) : Prog (ω × List (Met ν)) Halt α := ⟨fun w =>
  ((x.run w.1).1, (x.run w.1).2, w.2)⟩

def note (met : Met ν) : Prog (ω × List (Met ν)) Halt Unit :=
  Prog.modify fun w => (w.1, w.2 ++ [met])

def expectDir (node : ν) : Prog (ω × List (Met ν)) Halt Unit := do
  let type ← ask (answers.stat node)
  if type = .dir then pure () else Prog.fail (.ofKind .notADirectory)

def readTarget (dir link : ν) (rest : Nat) : Prog (ω × List (Met ν)) Halt (List UInt8) := do
  note (.link rest)
  let target ← ask (answers.readlink link)
  note (.target dir target rest)
  pure target

def isAbsolute (text : List UInt8) : Bool := text.head? == some slash

/-- The components left, taken from `node`. `followed` goes on from a link's
directory, when a link may still be followed; `wantDir` tells whether slashes
come after the last component. It ends with the node reached and whether it must
be a directory. -/
def walkFrom (followLast : Bool)
    (followed : Option (List Component → Bool → ν → Prog (ω × List (Met ν)) Halt (ν × Bool))) :
    List Component → Bool → ν → Prog (ω × List (Met ν)) Halt (ν × Bool)
  | [], wantDir, node => pure (node, wantDir)
  | comp :: rest, _, node => do
    let wantDir : Bool := 0 < comp.slashes
    if comp.name = dot then do
      expectDir answers node
      walkFrom followLast followed rest wantDir node
    else if comp.name = dotDot then do
      let up ← ask (answers.parent node)
      walkFrom followLast followed rest wantDir up
    else do
      let child ← ask (answers.lookup node comp.name)
      let type ← ask (answers.stat child)
      if type ≠ .symlink ∨ wantDir = false ∧ followLast = false then
        walkFrom followLast followed rest wantDir child
      else match followed with
        | none => Prog.fail (.ofKind .symlink)
        | some followed => do
          let target ← readTarget answers node child (comp.slashes + textLength rest)
          followed (splice target comp rest) wantDir
            (if isAbsolute target then answers.root else node)

/-- The resolver over lists of components, following at most `links` links: a
link's target takes the place of its component, and an absolute target starts at
the root. -/
def walk (followLast : Bool) :
    Nat → List Component → Bool → ν → Prog (ω × List (Met ν)) Halt (ν × Bool)
  | 0 => walkFrom answers followLast none
  | links + 1 => walkFrom answers followLast (some (walk followLast links))

def expectLast (reached : ν × Bool) : Prog (ω × List (Met ν)) Halt ν :=
  if reached.2 then do
    expectDir answers reached.1
    pure reached.1
  else pure reached.1

def resolveRef (path : List UInt8) (followLast : Bool) : Prog (ω × List (Met ν)) Halt ν := do
  let reached ← walk answers followLast maxLinks (components path) false answers.root
  expectLast answers reached

end

end Hadris.Paths

namespace Hadris.Paths

open List

theorem take_takeWhile {α : Type} (p : α → Bool) (l : List α) :
    l.take (l.takeWhile p).length = l.takeWhile p :=
  (prefix_iff_eq_take.mp (List.takeWhile_prefix p)).symm

theorem drop_takeWhile {α : Type} (p : α → Bool) (l : List α) :
    l.drop (l.takeWhile p).length = l.dropWhile p := by
  induction l with
  | nil => rfl
  | cons a l ih =>
    by_cases ha : p a = true
    · rw [takeWhile_cons_of_pos ha, dropWhile_cons_of_pos ha]
      exact ih
    · rw [takeWhile_cons_of_neg ha, dropWhile_cons_of_neg ha]
      rfl

/-! A text and its components. -/

theorem addByte_slash (lead : Nat) (comps : List Component) :
    addByte slash (lead, comps) = (lead + 1, comps) := by
  cases lead <;> cases comps <;> rfl

theorem parse_slash (text : List UInt8) :
    parse (slash :: text) = ((parse text).1 + 1, components text) :=
  addByte_slash _ _

theorem addByte_fst {byte : UInt8} (h : byte ≠ slash) (parsed : Nat × List Component) :
    (addByte byte parsed).1 = 0 := by
  rcases parsed with ⟨_ | lead, _ | ⟨comp, rest⟩⟩ <;> simp [addByte, h]

theorem parse_lead (text : List UInt8) :
    parse text =
      ((text.takeWhile (· == slash)).length, components (text.dropWhile (· == slash))) := by
  induction text with
  | nil => rfl
  | cons byte text ih =>
    by_cases hbyte : byte = slash
    · rw [hbyte, parse_slash, components, ih]
      rfl
    · simp only [takeWhile_cons, dropWhile_cons, beq_iff_eq, hbyte, if_false]
      exact Prod.ext (addByte_fst hbyte _) rfl

theorem components_dropWhile (text : List UInt8) :
    components (text.dropWhile (· == slash)) = components text := by
  conv => rhs; rw [components, parse_lead]

theorem parse_name (byte : UInt8) (text : List UInt8) (hbyte : byte ≠ slash) :
    parse (byte :: text) =
      (0, ⟨(byte :: text).takeWhile (· != slash),
        (parse ((byte :: text).dropWhile (· != slash))).1⟩ ::
        components ((byte :: text).dropWhile (· != slash))) := by
  induction text generalizing byte with
  | nil => simp [parse, addByte, hbyte, components]
  | cons next text ih =>
    have hne : (byte != slash) = true := by simpa using hbyte
    rw [takeWhile_cons, dropWhile_cons, hne, if_pos rfl, if_pos rfl, parse]
    by_cases hnext : next = slash
    · simp [hnext, parse_slash, addByte, hbyte, components]
    · rw [ih next hnext]
      simp [addByte, hbyte]

theorem parse_length (text : List UInt8) :
    text.length = (parse text).1 + textLength (components text) := by
  induction text with
  | nil => rfl
  | cons byte text ih =>
    rw [length_cons, ih]
    by_cases hbyte : byte = slash
    · rw [hbyte, components, components, parse_slash]
      simp only [components]
      omega
    · rw [components, components, parse]
      rcases parse text with ⟨_ | lead, _ | ⟨comp, rest⟩⟩ <;>
        simp [addByte, hbyte, textLength] <;> omega

theorem components_cons {text more : List UInt8} {byte : UInt8}
    (h : text.dropWhile (· == slash) = byte :: more) :
    components text = ⟨(byte :: more).takeWhile (· != slash),
        (parse ((byte :: more).dropWhile (· != slash))).1⟩ ::
      components ((byte :: more).dropWhile (· != slash)) := by
  have hbyte : byte ≠ slash := by
    intro heq
    have hhead := head?_dropWhile_not (· == slash) text
    rw [h, head?_cons, heq] at hhead
    simp at hhead
  rw [← components_dropWhile, h, components, parse_name byte more hbyte]

def joinSlash (tail : Nat × List Component) : Nat × List Component → Nat × List Component
  | (lead, []) => (lead + (tail.1 + 1), tail.2)
  | (lead, comps) => (lead, lengthen (tail.1 + 1) comps ++ tail.2)

theorem parse_append (text tail : List UInt8) :
    parse (text ++ slash :: tail) = joinSlash (parse tail) (parse text) := by
  induction text with
  | nil =>
    rw [nil_append, parse_slash]
    exact Prod.ext (Nat.zero_add _).symm rfl
  | cons byte text ih =>
    rw [cons_append, parse, ih, parse]
    rcases parse text with ⟨_ | lead, _ | ⟨comp, _ | ⟨next, rest⟩⟩⟩ <;>
      by_cases hbyte : byte = slash <;> simp [addByte, joinSlash, lengthen, hbyte] <;> omega

theorem components_append (text tail : List UInt8) :
    components (text ++ slash :: tail) =
      lengthen ((parse tail).1 + 1) (components text) ++ components tail := by
  rw [components, parse_append, components]
  rcases parse text with ⟨lead, _ | ⟨comp, rest⟩⟩ <;> rfl

end Hadris.Paths

namespace Hadris.Paths

open List

section

variable {buf bytes : List UInt8} {at_ : Nat}

theorem copyTo_length (h : at_ + bytes.length ≤ buf.length) :
    (copyTo buf at_ bytes).length = buf.length := by
  simp only [copyTo, length_append, length_take, length_drop]
  omega

theorem drop_copyTo {k : Nat} (h : at_ ≤ buf.length) (hk : k ≤ at_) :
    (copyTo buf at_ bytes).drop k =
      (buf.drop k).take (at_ - k) ++ bytes ++ buf.drop (at_ + bytes.length) := by
  have hlen : (buf.take at_).length = at_ := length_take_of_le h
  rw [copyTo, append_assoc, drop_append_of_le_length (by omega), drop_take, append_assoc]

theorem drop_copyTo_after {k : Nat} (h : at_ ≤ buf.length) (hk : at_ + bytes.length ≤ k) :
    (copyTo buf at_ bytes).drop k = buf.drop k := by
  have hlen : (buf.take at_ ++ bytes).length = at_ + bytes.length := by
    rw [length_append, length_take_of_le h]
  rw [copyTo, drop_append, drop_eq_nil_of_le (by omega), hlen, drop_drop, nil_append]
  congr 1
  omega

theorem take_copyTo_zero : (copyTo buf 0 bytes).take bytes.length = bytes := by
  rw [copyTo, take_zero, nil_append, take_left]

end

namespace Cursor

variable {buf target rest : List UInt8} {room : Nat} {sep : Bool}

theorem withTarget_length (target : List UInt8) (room : Nat) (sep : Bool)
    (hbuf : buf.length = linkBuffer)
    (htarget : target.length ≤ room) (hroom : room + (if sep = true then 1 else 0) ≤ linkBuffer) :
    (withTarget buf target room sep).length = linkBuffer := by
  have hfirst : (copyTo buf 0 target).length = linkBuffer := by
    rw [copyTo_length (by omega), hbuf]
  have hmoved : (copyTo (copyTo buf 0 target) (room - target.length) target).length =
      linkBuffer := by
    rw [copyTo_length (by omega), hfirst]
  rw [withTarget]
  rw [take_copyTo_zero]
  split
  · rename_i hsep
    rw [if_pos hsep] at hroom
    rw [copyTo_length (by rw [hmoved, length_singleton]; exact hroom), hmoved]
  · exact hmoved

theorem drop_withTarget (target rest : List UInt8) (room : Nat) (sep : Bool)
    (hbuf : buf.length = linkBuffer)
    (htarget : target.length ≤ room)
    (hroom : room + (if sep = true then 1 else 0) + rest.length = linkBuffer)
    (hrest : buf.drop (linkBuffer - rest.length) = rest) :
    (withTarget buf target room sep).drop (room - target.length) =
      target ++ ((if sep = true then [slash] else []) ++ rest) := by
  have hfirst : (copyTo buf 0 target).length = linkBuffer := by
    rw [copyTo_length (by omega), hbuf]
  have hkept : ∀ k, room ≤ k →
      (copyTo (copyTo buf 0 target) (room - target.length) target).drop k = buf.drop k := by
    intro k hk
    rw [drop_copyTo_after (by omega) (by omega), drop_copyTo_after (by omega) (by omega)]
  have hmoved : (copyTo (copyTo buf 0 target) (room - target.length) target).drop
      (room - target.length) = target ++ buf.drop room := by
    rw [drop_copyTo (by omega) le_rfl, Nat.sub_self, take_zero, nil_append,
      Nat.sub_add_cancel htarget, drop_copyTo_after (by omega) (by omega)]
  have hlength : (copyTo (copyTo buf 0 target) (room - target.length) target).length =
      linkBuffer := by
    rw [copyTo_length (by omega), hfirst]
  rw [withTarget]
  rw [take_copyTo_zero]
  split
  · rename_i hsep
    rw [if_pos hsep] at hroom
    rw [drop_copyTo (by omega) (Nat.sub_le _ _), hmoved, Nat.sub_sub_self htarget, take_left,
      length_singleton, hkept _ (Nat.le_succ _), append_assoc,
      show room.succ = linkBuffer - rest.length by omega, hrest]
  · rename_i hsep
    rw [if_neg hsep] at hroom
    rw [hmoved, show room = linkBuffer - rest.length by omega, hrest, nil_append]

theorem withRest_length {cursor : Cursor} (hbuf : cursor.buf.length = linkBuffer)
    (hrest : rest.length ≤ linkBuffer) : (cursor.withRest rest).length = linkBuffer := by
  rw [withRest]
  split
  · exact hbuf
  · rw [copyTo_length (by omega), hbuf]

theorem drop_withRest {cursor : Cursor} {path : List UInt8} {stop : Nat}
    (hbuf : cursor.buf.length = linkBuffer) (hrest : (cursor.pending path).drop stop = rest)
    (hle : rest.length ≤ linkBuffer) :
    (cursor.withRest rest).drop (linkBuffer - rest.length) = rest := by
  rw [withRest]
  split
  · rename_i start hstart
    rw [pending, hstart, drop_drop] at hrest
    by_cases hnil : rest = []
    · rw [hnil, length_nil, Nat.sub_zero, ← hbuf, drop_length]
    · have hlength := congrArg List.length hrest
      have hpos := length_pos_iff.mpr hnil
      rw [length_drop, hbuf] at hlength
      rw [← hlength, Nat.sub_sub_self (by omega), hrest]
  · rw [drop_copyTo (by omega) le_rfl, Nat.sub_self, take_zero, nil_append,
      Nat.sub_add_cancel hle, ← hbuf, drop_length, append_nil]

end Cursor

end Hadris.Paths

namespace Hadris.Paths

open List

/-- What a turn of the loop takes off a text: its first component, with the rest
of the text after it. -/
structure TakesOff (text : List UInt8) (comp : Component) (rest : List UInt8) : Prop where
  components : components text = comp :: components rest
  slashes : comp.slashes = (parse rest).1
  shorter : rest.length < text.length
  more : 0 < rest.length ↔ 0 < comp.slashes

theorem dropWhile_slash_pos {text rest : List UInt8}
    (h : text.dropWhile (· != slash) = rest) : 0 < rest.length ↔ 0 < (parse rest).1 := by
  constructor
  · intro hpos
    obtain ⟨byte, more, rfl⟩ := exists_cons_of_length_pos hpos
    have hhead := head?_dropWhile_not (· != slash) text
    rw [h, head?_cons] at hhead
    obtain rfl : byte = slash := by simpa using hhead
    rw [parse_slash]
    exact Nat.succ_pos _
  · intro hpos
    apply length_pos_iff.mpr
    rintro rfl
    exact absurd hpos (lt_irrefl 0)

theorem takesOff_of_cons {text more : List UInt8} {byte : UInt8}
    (h : text.dropWhile (· == slash) = byte :: more) :
    TakesOff text ⟨(byte :: more).takeWhile (· != slash),
      (parse ((byte :: more).dropWhile (· != slash))).1⟩ ((byte :: more).dropWhile
        (· != slash)) := by
  have hbyte : (byte != slash) = true := by
    have hhead := head?_dropWhile_not (· == slash) text
    rw [h, head?_cons] at hhead
    simpa using hhead
  refine ⟨components_cons h, rfl, ?_, dropWhile_slash_pos rfl⟩
  have hle := length_dropWhile_le (· == slash) text
  have hrest := length_dropWhile_le (· != slash) more
  rw [h, length_cons] at hle
  rw [dropWhile_cons, if_pos hbyte]
  omega

namespace Cursor

variable (cursor : Cursor) (pending : List UInt8)

theorem drop_skipped :
    pending.drop (cursor.skipped pending) = (pending.drop cursor.pos).dropWhile (· == slash) := by
  rw [skipped, ← drop_drop, drop_takeWhile]

theorem take_componentEnd (from_ : Nat) :
    (pending.drop from_).take (componentEnd pending from_ - from_) =
      (pending.drop from_).takeWhile (· != slash) := by
  rw [componentEnd, Nat.add_sub_cancel_left, take_takeWhile]

theorem drop_componentEnd (from_ : Nat) :
    pending.drop (componentEnd pending from_) = (pending.drop from_).dropWhile (· != slash) := by
  rw [componentEnd, ← drop_drop, drop_takeWhile]

theorem skipped_le (hpos : cursor.pos ≤ pending.length) :
    cursor.skipped pending ≤ pending.length := by
  have hle := (List.takeWhile_prefix (· == slash) (l := pending.drop cursor.pos)).length_le
  rw [length_drop] at hle
  rw [skipped]
  omega

theorem componentEnd_le {from_ : Nat} (hfrom : from_ ≤ pending.length) :
    componentEnd pending from_ ≤ pending.length := by
  have hle := (List.takeWhile_prefix (· != slash) (l := pending.drop from_)).length_le
  rw [length_drop] at hle
  rw [componentEnd]
  omega

theorem skipped_eq_length (hpos : cursor.pos ≤ pending.length) :
    cursor.skipped pending = pending.length ↔
      (pending.drop cursor.pos).dropWhile (· == slash) = [] := by
  have hle := cursor.skipped_le pending hpos
  rw [← drop_skipped, drop_eq_nil_iff]
  omega

theorem turn (hpos : cursor.pos ≤ pending.length) :
    (cursor.skipped pending = pending.length ∧ components (pending.drop cursor.pos) = []) ∨
    cursor.skipped pending ≠ pending.length ∧
      ∃ slashes, TakesOff (pending.drop cursor.pos)
        ⟨(pending.drop (cursor.skipped pending)).take
            (componentEnd pending (cursor.skipped pending) - cursor.skipped pending), slashes⟩
        (pending.drop (componentEnd pending (cursor.skipped pending))) := by
  rw [take_componentEnd, drop_componentEnd, drop_skipped, Ne, skipped_eq_length _ _ hpos]
  rcases htext : (pending.drop cursor.pos).dropWhile (· == slash) with _ | ⟨byte, more⟩
  · refine .inl ⟨rfl, ?_⟩
    rw [← components_dropWhile, htext]
    rfl
  · exact .inr ⟨cons_ne_nil _ _, _, takesOff_of_cons htext⟩

end Cursor

theorem components_spliced {target rest : List UInt8} {link : Component}
    (hslashes : link.slashes = (parse rest).1) (hmore : 0 < rest.length ↔ 0 < link.slashes) :
    components (target ++ ((if 0 < rest.length then [slash] else []) ++ rest)) =
      splice target link (components rest) := by
  rw [splice]
  by_cases hpos : 0 < rest.length
  · rw [if_pos hpos, if_neg (hmore.mp hpos).ne', singleton_append, components_append, hslashes]
  · obtain rfl : rest = [] := eq_nil_of_length_eq_zero (Nat.eq_zero_of_not_pos hpos)
    rw [if_neg hpos, if_pos (Nat.eq_zero_of_not_pos (mt hmore.mpr hpos)), append_nil, append_nil]
    exact (append_nil _).symm

end Hadris.Paths
