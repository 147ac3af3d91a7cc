import Hadris.Meta
import Mathlib.Data.List.GetD
import Mathlib.Tactic.Common
import Mathlib.Data.Finset.Basic

namespace Hadris.Storage

variable {β : Type} [Inhabited β]

def putBlocks (contents : Nat → β) (first : Nat) (data : List β) : Nat → β := fun i =>
  if first ≤ i ∧ i < first + data.length then data.getD (i - first) default else contents i

def landBlocks (landed : Nat → Bool) (contents : Nat → β) (first : Nat) (data : List β) :
    Nat → β := fun i =>
  if landed i then putBlocks contents first data i else contents i

/-- Every block holds its old or its new contents. -/
def Lands (old new after : Nat → β) : Prop := ∀ i, after i = old i ∨ after i = new i

/-- What a device answers when a call is polled: whether the call is over, which
blocks of a write have landed, and how many blocks the device has from then on. -/
inductive Reply where
  | done (size : UInt64)
  | failed (error : Error) (landed : Nat → Bool) (size : UInt64)
  | pending (landed : Nat → Bool) (size : UInt64)

inductive Answer where
  | done
  | failed (error : Error)
  | pending

/-- A device of whole blocks: the contents of its `count` blocks and, beyond,
what a growth makes visible, with the replies to the calls to come. It succeeds
at once when the script is used up. -/
structure Device (β : Type) where
  contents : Nat → β
  count : UInt64
  maxCount : UInt64
  script : List Reply

/-- Whether `len` blocks from `first` are within the first `count`, in a buffer
that is a whole number of blocks. -/
def checkBlocks (count first len : Nat) (whole : Bool) : Except Error Unit :=
  if !whole then .error (.new .invalidInput "buffer is not a whole number of blocks")
  else if first + len ≤ count then .ok ()
  else .error (.new .invalidInput "block request past the end of the device")

namespace Device

variable (d : Device β) (first : Nat) (data : List β)

def settle : Reply → Device β
  | .done size => { d with contents := putBlocks d.contents first data, count := size }
  | .failed _ landed size =>
    { d with contents := landBlocks landed d.contents first data, count := size }
  | .pending landed size =>
    { d with contents := landBlocks landed d.contents first data, count := size }

def poll : Answer × Device β :=
  match d.script with
  | [] => (.done, d.settle first data (.done d.count))
  | .done size :: rest => (.done, { d.settle first data (.done size) with script := rest })
  | .failed error landed size :: rest =>
    (.failed error, { d.settle first data (.failed error landed size) with script := rest })
  | .pending landed size :: rest =>
    (.pending, { d.settle first data (.pending landed size) with script := rest })

def wait (first : Nat) (data : List β) : List Reply → Device β → Except Error Unit × Device β
  | [], d => (.ok (), { d.settle first data (.done d.count) with script := [] })
  | .done size :: rest, d => (.ok (), { d.settle first data (.done size) with script := rest })
  | .failed error landed size :: rest, d =>
    (.error error, { d.settle first data (.failed error landed size) with script := rest })
  | .pending landed size :: rest, d => wait first data rest
    (d.settle first data (.pending landed size))

def read (len : Nat) : List β := (List.range' first len).map d.contents

def readBlocks (len : Nat) (whole : Bool) : Except Error (List β) × Device β :=
  match checkBlocks d.count.toNat first len whole with
  | .error error => (.error error, d)
  | .ok () =>
    match wait first [] d.script d with
    | (.error error, d) => (.error error, d)
    | (.ok (), d) => (.ok (d.read first len), d)

def writeBlocks (whole : Bool) : Except Error Unit × Device β :=
  match checkBlocks d.maxCount.toNat first data.length whole with
  | .error error => (.error error, d)
  | .ok () => wait first data d.script d

def flush : Except Error Unit × Device β := wait 0 [] d.script d

end Device

section

variable {v v' v'' new : Nat → β} {first : Nat} {data : List β} {d : Device β}

omit [Inhabited β] in
theorem Lands.refl (v new : Nat → β) : Lands v new v := fun _ => .inl rfl

theorem landBlocks_lands (landed : Nat → Bool) (v : Nat → β) (first : Nat) (data : List β) :
    Lands v (putBlocks v first data) (landBlocks landed v first data) := by
  intro i
  simp only [landBlocks]
  split
  · exact .inr rfl
  · exact .inl rfl

@[simp] theorem putBlocks_nil (v : Nat → β) (first : Nat) : putBlocks v first [] = v := by
  funext i
  simp only [putBlocks, List.length_nil]
  rw [if_neg (by omega)]

theorem putBlocks_outside {i : Nat} (h : ¬ (first ≤ i ∧ i < first + data.length)) :
    putBlocks v first data i = v i := if_neg h

theorem Lands.put (h : Lands v (putBlocks v first data) v') :
    putBlocks v' first data = putBlocks v first data := by
  funext i
  by_cases hi : first ≤ i ∧ i < first + data.length
  · simp only [putBlocks, if_pos hi]
  · rw [putBlocks_outside hi, putBlocks_outside hi]
    rcases h i with h | h
    · exact h
    · rw [h, putBlocks_outside hi]

theorem Lands.trans (h : Lands v (putBlocks v first data) v')
    (h' : Lands v' (putBlocks v' first data) v'') : Lands v (putBlocks v first data) v'' := by
  intro i
  rcases h' i with hi | hi
  · rw [hi]
    exact h i
  · rw [hi, h.put]
    exact .inr rfl

theorem Lands.eq_of_nil (h : Lands v (putBlocks v first []) v') : v' = v := by
  funext i
  rcases h i with hi | hi
  · exact hi
  · rw [hi, putBlocks_nil]

/-- What a poll leaves: a write is done once it succeeds, and may have been done
in part before. -/
theorem Device.poll_spec (d : Device β) (first : Nat) (data : List β) :
    match d.poll first data with
    | (.done, d') => d'.contents = putBlocks d.contents first data
    | (_, d') => Lands d.contents (putBlocks d.contents first data) d'.contents := by
  rw [poll]
  rcases d.script with _ | ⟨_ | _ | _, rest⟩
  · rfl
  · rfl
  · exact landBlocks_lands _ _ _ _
  · exact landBlocks_lands _ _ _ _

theorem Device.wait_spec (script : List Reply) (d : Device β) (first : Nat) (data : List β) :
    match wait first data script d with
    | (.ok (), d') => d'.contents = putBlocks d.contents first data
    | (.error _, d') => Lands d.contents (putBlocks d.contents first data) d'.contents := by
  induction script generalizing d with
  | nil => rfl
  | cons reply rest ih =>
    cases reply with
    | done size => rfl
    | failed error landed size => exact landBlocks_lands _ _ _ _
    | pending landed size =>
      have hland := landBlocks_lands landed d.contents first data
      have hrest := ih (d.settle first data (.pending landed size))
      rw [wait]
      rcases hrun : wait first data rest (d.settle first data (.pending landed size)) with
        ⟨_ | _, d'⟩ <;> rw [hrun] at hrest
      · exact hland.trans hrest
      · exact hrest.trans hland.put

theorem Device.readBlocks_spec (d : Device β) (first len : Nat) (whole : Bool) :
    match d.readBlocks first len whole with
    | (.ok buf, d') => d'.contents = d.contents ∧ buf = d.read first len ∧
        checkBlocks d.count.toNat first len whole = .ok ()
    | (.error _, d') => d'.contents = d.contents := by
  rw [readBlocks]
  cases hcheck : checkBlocks d.count.toNat first len whole with
  | error error => rfl
  | ok _ =>
    have hwait := wait_spec d.script d first []
    simp only
    rcases hrun : wait first [] d.script d with ⟨_ | _, d'⟩ <;> rw [hrun] at hwait
    · exact hwait.eq_of_nil
    · have heq : d'.contents = d.contents := hwait.trans (putBlocks_nil _ _)
      exact ⟨heq, by rw [read, read, heq], trivial⟩

theorem Device.writeBlocks_spec (d : Device β) (first : Nat) (data : List β) (whole : Bool) :
    match d.writeBlocks first data whole with
    | (.ok (), d') => d'.contents = putBlocks d.contents first data
    | (.error _, d') => Lands d.contents (putBlocks d.contents first data) d'.contents := by
  rw [writeBlocks]
  cases checkBlocks d.maxCount.toNat first data.length whole with
  | error error => exact Lands.refl _ _
  | ok _ => exact wait_spec d.script d first data

end

end Hadris.Storage

namespace Hadris.Storage

/-- What a client of a store of blocks sees of a call that ended. `torn` is a
write that failed, `handed` a device that was handed out while the store kept
the blocks of `unflushed` to itself. -/
inductive Event (β : Type) where
  | read (first count : Nat) (buf : List β)
  | written (first : Nat) (data : List β)
  | torn (first : Nat) (data : List β)
  | flushed (device : Nat → β)
  | failed
  | handed (unflushed : Finset Nat) (before after : Nat → β)

namespace Store

variable {β : Type} [Inhabited β]

/-- The calls of a store that holds the blocks `v`, and what it holds then. -/
inductive Step : (Nat → β) → Event β → (Nat → β) → Prop
  | read (v : Nat → β) (first count : Nat) :
      Step v (.read first count ((List.range' first count).map v)) v
  | written (v : Nat → β) (first : Nat) (data : List β) :
      Step v (.written first data) (putBlocks v first data)
  | torn {v v' : Nat → β} {first : Nat} {data : List β}
      (h : Lands v (putBlocks v first data) v') :
      Step v (.torn first data) v'
  | flushed (v : Nat → β) : Step v (.flushed v) v
  | failed (v : Nat → β) : Step v .failed v
  | handed {v before : Nat → β} {unflushed : Finset Nat} (after : Nat → β)
      (h : ∀ i, i ∉ unflushed → before i = v i) :
      Step v (.handed unflushed before after) fun i => if i ∈ unflushed then v i else after i

inductive Run : (Nat → β) → List (Event β) → (Nat → β) → Prop
  | nil (v : Nat → β) : Run v [] v
  | cons {v v' v'' : Nat → β} {event : Event β} {events : List (Event β)} (h : Step v event v')
      (hrest : Run v' events v'') : Run v (event :: events) v''

variable {v v' v'' : Nat → β}

theorem Run.single {event : Event β} (h : Step v event v') : Run v [event] v' := .cons h (.nil _)

theorem Run.append {events events' : List (Event β)} (h : Run v events v')
    (h' : Run v' events' v'') : Run v (events ++ events') v'' := by
  induction h with
  | nil => exact h'
  | cons hstep _ ih => exact .cons hstep (ih h')

section Known

variable [DecidableEq β]

def known (index : Nat) (block : Option β) : Event β → Option β
  | .written first data =>
    if first ≤ index ∧ index < first + data.length then some (data.getD (index - first) default)
    else block
  | .torn first data => if first ≤ index ∧ index < first + data.length then none else block
  | .handed unflushed before _ => block.filter fun b => index ∈ unflushed ∨ before index ≠ b
  | _ => block

def shown (index : Nat) : Option β → List (Event β) → Bool
  | _, [] => true
  | block, .read first count buf :: rest =>
    (block.isNone || !decide (first ≤ index ∧ index < first + count) ||
      decide (buf[index - first]? = block)) && shown index block rest
  | block, event :: rest => shown index (known index block event) rest

variable {index : Nat}

theorem Step.known {event : Event β} (h : Step v event v') {block : Option β}
    (hblock : ∀ b, block = some b → v index = b) :
    ∀ b, known index block event = some b → v' index = b := by
  intro b hb
  cases h with
  | read => exact hblock b hb
  | flushed => exact hblock b hb
  | failed => exact hblock b hb
  | written first data =>
    rw [Store.known] at hb
    split at hb
    · rename_i hin
      rw [putBlocks, if_pos hin]
      exact Option.some.inj hb
    · rename_i hout
      rw [putBlocks_outside hout]
      exact hblock b hb
  | torn hlands =>
    rw [Store.known] at hb
    split at hb
    · cases hb
    · rename_i hout
      rcases hlands index with h | h
      · rw [h]
        exact hblock b hb
      · rw [h, putBlocks_outside hout]
        exact hblock b hb
  | handed after hbefore =>
    rename_i before unflushed
    rw [Store.known, Option.filter_eq_some_iff] at hb
    have hold := hblock b hb.1
    rcases of_decide_eq_true hb.2 with hmem | hne
    · exact (if_pos hmem).trans hold
    · by_cases hmem : index ∈ unflushed
      · exact (if_pos hmem).trans hold
      · exact (hne ((hbefore index hmem).trans hold)).elim

theorem Run.shown (index : Nat) {events : List (Event β)} (h : Run v events v') (block : Option β)
    (hblock : ∀ b, block = some b → v index = b) : shown index block events = true := by
  induction h generalizing block with
  | nil => rfl
  | @cons v v' v'' event events hstep _ ih =>
    have hrest := ih _ (hstep.known hblock)
    cases hstep with
    | written => exact hrest
    | torn => exact hrest
    | flushed => exact hrest
    | failed => exact hrest
    | handed => exact hrest
    | read first count =>
      refine Bool.and_eq_true_iff.mpr ⟨?_, hrest⟩
      cases block with
      | none => rfl
      | some b =>
        by_cases hin : first ≤ index ∧ index < first + count
        · have hget : ((List.range' first count).map v)[index - first]? = some b := by
            rw [List.getElem?_map, List.getElem?_range' (by omega), Option.map_some,
              show first + 1 * (index - first) = index by omega, hblock b rfl]
          exact Bool.or_eq_true_iff.mpr (.inr (decide_eq_true hget))
        · exact Bool.or_eq_true_iff.mpr (.inl (by simp only [hin]; rfl))

end Known

end Store

end Hadris.Storage
