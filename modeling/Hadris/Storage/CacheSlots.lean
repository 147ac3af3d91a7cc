import Hadris.DoublyLinked
import Mathlib.Data.Finset.Max
import Mathlib.Data.List.GetD

namespace Hadris.Storage

open List

def nilSlot : Nat := 2 ^ 64 - 1

def maxRun : Nat := 256

structure Entry (β : Type) where
  index : Option Nat
  data : β
  prev : Nat
  next : Nat

def Entry.vacant {β : Type} [Inhabited β] : Entry β := ⟨none, default, nilSlot, nilSlot⟩

/-- Slots on an intrusive LRU list (the head is the most recent), a map from
blocks to slots and the set of dirty block indices. -/
structure CacheState (β : Type) where
  capacity : Nat
  entries : List (Entry β)
  slots : Nat → Option Nat
  dirty : Finset Nat
  head : Nat
  tail : Nat
  run : List β

def rangeEnd (first count : Nat) : Nat := min (first + count) (2 ^ 64 - 1)

def blocks (first count : Nat) : List Nat := range' first (rangeEnd first count - first)

namespace CacheState

variable {β : Type} [Inhabited β]

def new (capacity : Nat) : CacheState β where
  capacity := max capacity 1
  entries := []
  slots := fun _ => none
  dirty := ∅
  head := nilSlot
  tail := nilSlot
  run := []

variable (s : CacheState β)

def entry (slot : Nat) : Entry β := s.entries.getD slot .vacant

def modifyEntry (slot : Nat) (f : Entry β → Entry β) : CacheState β :=
  { s with entries := s.entries.modify slot f }

def setNext (prev next : Nat) : CacheState β :=
  if prev = nilSlot then { s with head := next }
  else s.modifyEntry prev fun e => { e with next := next }

def setPrev (next prev : Nat) : CacheState β :=
  if next = nilSlot then { s with tail := prev }
  else s.modifyEntry next fun e => { e with prev := prev }

def unlink (slot : Nat) : CacheState β :=
  let prev := (s.entry slot).prev
  let next := (s.entry slot).next
  ((s.setNext prev next).setPrev next prev).modifyEntry slot fun e =>
    { e with prev := nilSlot, next := nilSlot }

def pushFront (slot : Nat) : CacheState β :=
  let s₁ := s.modifyEntry slot fun e => { e with next := s.head }
  { s₁.setPrev s₁.head slot with head := slot }

def pushBack (slot : Nat) : CacheState β :=
  let s₁ := s.modifyEntry slot fun e => { e with prev := s.tail }
  { s₁.setNext s₁.tail slot with tail := slot }

def touch (slot : Nat) : CacheState β :=
  if s.head ≠ slot then (s.unlink slot).pushFront slot else s

def lookup (index : Nat) : Option Nat × CacheState β :=
  match s.slots index with
  | none => (none, s)
  | some slot => (some slot, s.touch slot)

def peek (index : Nat) : Option Nat := s.slots index

def victim : Option Nat := if s.entries.length < s.capacity then none else some s.tail

def grow : Nat × CacheState β :=
  let slot := s.entries.length
  let s₁ := { s with entries := s.entries ++ [Entry.vacant] }
  (slot, s₁.pushFront slot)

def dirtyIndex (slot : Nat) : Option Nat := (s.entry slot).index.filter (· ∈ s.dirty)

def forget (slot : Nat) : CacheState β :=
  let s₁ := match (s.entry slot).index with
    | none => s
    | some index =>
      { s.modifyEntry slot (fun e => { e with index := none }) with
        slots := Function.update s.slots index none
        dirty := s.dirty.erase index }
  (s₁.unlink slot).pushBack slot

def assign (slot index : Nat) : CacheState β :=
  let s₁ := s.modifyEntry slot fun e => { e with index := some index }
  { s₁ with slots := Function.update s₁.slots index (some slot) }.touch slot

def data (slot : Nat) : β := (s.entry slot).data

def setData (slot : Nat) (block : β) : CacheState β :=
  s.modifyEntry slot fun e => { e with data := block }

def markDirty (slot : Nat) : CacheState β :=
  match (s.entry slot).index with
  | none => s
  | some index => { s with dirty := insert index s.dirty }

def firstDirty : Option Nat := if h : s.dirty.Nonempty then some (s.dirty.min' h) else none

def dirtyRun (start : Nat) : Nat := go (maxRun - 1) 1
where
  go : Nat → Nat → Nat
    | 0, len => len
    | fuel + 1, len => if start + len ∈ s.dirty then go fuel (len + 1) else len

def blockData (index : Nat) : β := s.data ((s.slots index).getD 0)

def gather (start len : Nat) : CacheState β :=
  { s with run := (range' start len).map s.blockData }

def cleanRange (start len : Nat) : CacheState β :=
  { s with dirty := s.dirty.filter fun index => ¬ (start ≤ index ∧ index < start + len) }

def dirtyIn (first count : Nat) : List Nat := (blocks first count).filter (· ∈ s.dirty)

/-- Copies the dirty blocks over the device's copies, after a read that
bypassed the cache. -/
def overlayDirty (first : Nat) (buf : List β) : List β :=
  (s.dirtyIn first buf.length).foldl
    (fun buf index => buf.set (index - first) (s.blockData index)) buf

/-- The end of the run of uncached blocks of a request that starts at its
uncached block `start`. -/
def uncachedEnd (first start count : Nat) : Nat := go (count - start) (start + 1)
where
  go : Nat → Nat → Nat
    | 0, stop => stop
    | fuel + 1, stop =>
      if stop < count ∧ s.peek (first + stop) = none then go fuel (stop + 1) else stop

def dropClean : CacheState β :=
  (List.range s.entries.length).foldl (fun s slot =>
    match (s.entry slot).index with
    | none => s
    | some index => if index ∈ s.dirty then s else s.forget slot) s

def invalidate (first count : Nat) : CacheState β :=
  (blocks first count).foldl (fun s index =>
    match s.slots index with
    | none => s
    | some slot => s.forget slot) s

section Capacity

variable {s} {slot index first len : Nat}

omit [Inhabited β] in
@[simp] theorem setNext_capacity {prev next : Nat} :
    (s.setNext prev next).capacity = s.capacity := by
  simp only [setNext]
  split <;> rfl

omit [Inhabited β] in
@[simp] theorem setPrev_capacity {prev next : Nat} :
    (s.setPrev next prev).capacity = s.capacity := by
  simp only [setPrev]
  split <;> rfl

@[simp] theorem unlink_capacity : (s.unlink slot).capacity = s.capacity := by
  simp [unlink, modifyEntry]

omit [Inhabited β] in
@[simp] theorem pushFront_capacity : (s.pushFront slot).capacity = s.capacity := by
  simp [pushFront, modifyEntry]

omit [Inhabited β] in
@[simp] theorem pushBack_capacity : (s.pushBack slot).capacity = s.capacity := by
  simp [pushBack, modifyEntry]

@[simp] theorem touch_capacity : (s.touch slot).capacity = s.capacity := by
  rw [touch]
  split <;> simp

@[simp] theorem lookup_capacity : (s.lookup index).2.capacity = s.capacity := by
  rw [lookup]
  split <;> simp

@[simp] theorem grow_capacity : s.grow.2.capacity = s.capacity := by simp [grow]

@[simp] theorem forget_capacity : (s.forget slot).capacity = s.capacity := by
  simp only [forget, pushBack_capacity, unlink_capacity]
  split <;> rfl

@[simp] theorem assign_capacity : (s.assign slot index).capacity = s.capacity := by
  simp [assign, modifyEntry]

omit [Inhabited β] in
@[simp] theorem setData_capacity {block : β} : (s.setData slot block).capacity = s.capacity := rfl

@[simp] theorem markDirty_capacity : (s.markDirty slot).capacity = s.capacity := by
  rw [markDirty]
  split <;> rfl

omit [Inhabited β] in
@[simp] theorem cleanRange_capacity : (s.cleanRange first len).capacity = s.capacity := rfl

@[simp] theorem gather_capacity : (s.gather first len).capacity = s.capacity := rfl

@[simp] theorem invalidate_capacity : (s.invalidate first len).capacity = s.capacity := by
  rw [invalidate]
  generalize blocks first len = l
  induction l generalizing s with
  | nil => rfl
  | cons index rest ih =>
    rw [foldl_cons, ih]
    split <;> simp

end Capacity

end CacheState

end Hadris.Storage

namespace Hadris.Storage

open List

def link (slot : Nat) : Option Nat := if slot = nilSlot then none else some slot

theorem link_of_ne {slot : Nat} (h : slot ≠ nilSlot) : link slot = some slot := if_neg h

@[simp] theorem link_nilSlot : link nilSlot = none := if_pos rfl

namespace CacheState

variable {β : Type} [Inhabited β] (s : CacheState β)

def nextLink : Option Nat → Option Nat
  | none => link s.head
  | some slot => link (s.entry slot).next

def prevLink : Option Nat → Option Nat
  | none => link s.tail
  | some slot => link (s.entry slot).prev

/-- What a change of the list leaves alone. -/
structure Relinks (s t : CacheState β) : Prop where
  length : t.entries.length = s.entries.length
  index : ∀ slot, (t.entry slot).index = (s.entry slot).index
  data : ∀ slot, (t.entry slot).data = (s.entry slot).data
  slots : t.slots = s.slots
  dirty : t.dirty = s.dirty
  capacity : t.capacity = s.capacity
  run : t.run = s.run

variable {s} {t u : CacheState β} {slot other : Nat}

theorem Relinks.refl (s : CacheState β) : Relinks s s :=
  ⟨rfl, fun _ => rfl, fun _ => rfl, rfl, rfl, rfl, rfl⟩

theorem Relinks.trans (h : Relinks s t) (h' : Relinks t u) : Relinks s u :=
  ⟨h'.length.trans h.length, fun slot => (h'.index slot).trans (h.index slot),
    fun slot => (h'.data slot).trans (h.data slot), h'.slots.trans h.slots,
      h'.dirty.trans h.dirty,
    h'.capacity.trans h.capacity, h'.run.trans h.run⟩

omit [Inhabited β] in
@[simp] theorem modifyEntry_length (f : Entry β → Entry β) :
    (s.modifyEntry slot f).entries.length = s.entries.length := by
  simp [modifyEntry]

theorem entry_modifyEntry (f : Entry β → Entry β) (hslot : slot < s.entries.length) :
    (s.modifyEntry slot f).entry other = if other = slot then f (s.entry slot)
      else s.entry other := by
  simp only [entry, modifyEntry, getD_eq_getElem?_getD, getElem?_modify]
  split
  · rename_i heq
    obtain rfl := heq
    simp [hslot]
  · rename_i hne
    rw [if_neg fun h => hne h.symm]
    simp

theorem modifyEntry_relinks (f : Entry β → Entry β) (hindex : ∀ e, (f e).index = e.index)
    (hdata : ∀ e, (f e).data = e.data) (hslot : slot < s.entries.length) :
    Relinks s (s.modifyEntry slot f) where
  length := modifyEntry_length f
  index := by
    intro other
    rw [entry_modifyEntry f hslot]
    split
    · rename_i heq
      rw [heq, hindex]
    · rfl
  data := by
    intro other
    rw [entry_modifyEntry f hslot]
    split
    · rename_i heq
      rw [heq, hdata]
    · rfl
  slots := rfl
  dirty := rfl
  capacity := rfl
  run := rfl

section Links

variable {prev next : Nat}

variable (next) in
theorem setNext_relinks (h : prev = nilSlot ∨ prev < s.entries.length) :
    Relinks s (s.setNext prev next) := by
  simp only [setNext]
  split
  · exact ⟨rfl, fun _ => rfl, fun _ => rfl, rfl, rfl, rfl, rfl⟩
  · exact modifyEntry_relinks _ (fun _ => rfl) (fun _ => rfl) (h.resolve_left ‹_›)

variable (prev) in
theorem setPrev_relinks (h : next = nilSlot ∨ next < s.entries.length) :
    Relinks s (s.setPrev next prev) := by
  simp only [setPrev]
  split
  · exact ⟨rfl, fun _ => rfl, fun _ => rfl, rfl, rfl, rfl, rfl⟩
  · exact modifyEntry_relinks _ (fun _ => rfl) (fun _ => rfl) (h.resolve_left ‹_›)

theorem nextLink_setNext (h : prev = nilSlot ∨ prev < s.entries.length) :
    (s.setNext prev next).nextLink = Function.update s.nextLink (link prev) (link next) := by
  funext o
  by_cases hp : prev = nilSlot
  · rw [setNext, if_pos hp, hp, link_nilSlot]
    cases o with
    | none =>
      rw [Function.update_self]
      rfl
    | some slot =>
      rw [Function.update_of_ne (Option.some_ne_none slot)]
      rfl
  · rw [setNext, if_neg hp, link_of_ne hp]
    cases o with
    | none =>
      rw [Function.update_of_ne (Option.some_ne_none prev).symm]
      rfl
    | some slot =>
      simp only [nextLink, entry_modifyEntry _ (h.resolve_left hp), Function.update_apply,
        Option.some.injEq]
      split <;> rfl

theorem prevLink_setNext (h : prev = nilSlot ∨ prev < s.entries.length) :
    (s.setNext prev next).prevLink = s.prevLink := by
  funext o
  by_cases hp : prev = nilSlot
  · rw [setNext, if_pos hp]
    rfl
  · rw [setNext, if_neg hp]
    cases o with
    | none => rfl
    | some slot =>
      simp only [prevLink, entry_modifyEntry _ (h.resolve_left hp)]
      split
      · rename_i heq
        rw [heq]
      · rfl

theorem prevLink_setPrev (h : next = nilSlot ∨ next < s.entries.length) :
    (s.setPrev next prev).prevLink = Function.update s.prevLink (link next) (link prev) := by
  funext o
  by_cases hn : next = nilSlot
  · rw [setPrev, if_pos hn, hn, link_nilSlot]
    cases o with
    | none =>
      rw [Function.update_self]
      rfl
    | some slot =>
      rw [Function.update_of_ne (Option.some_ne_none slot)]
      rfl
  · rw [setPrev, if_neg hn, link_of_ne hn]
    cases o with
    | none =>
      rw [Function.update_of_ne (Option.some_ne_none next).symm]
      rfl
    | some slot =>
      simp only [prevLink, entry_modifyEntry _ (h.resolve_left hn), Function.update_apply,
        Option.some.injEq]
      split <;> rfl

theorem nextLink_setPrev (h : next = nilSlot ∨ next < s.entries.length) :
    (s.setPrev next prev).nextLink = s.nextLink := by
  funext o
  by_cases hn : next = nilSlot
  · rw [setPrev, if_pos hn]
    rfl
  · rw [setPrev, if_neg hn]
    cases o with
    | none => rfl
    | some slot =>
      simp only [nextLink, entry_modifyEntry _ (h.resolve_left hn)]
      split
      · rename_i heq
        rw [heq]
      · rfl

theorem unlink_eq (h : slot ≠ nilSlot) :
    s.unlink slot = (((s.setNext (s.entry slot).prev (s.entry slot).next).setPrev
      (s.entry slot).next (s.entry slot).prev).setPrev slot nilSlot).setNext slot nilSlot := by
  rw [setNext, setPrev, if_neg h, if_neg h, unlink]
  simp only [modifyEntry, modify_modify_eq]
  rfl

omit [Inhabited β] in
theorem pushFront_eq (h : slot ≠ nilSlot) :
    s.pushFront slot = ((s.setNext slot s.head).setPrev s.head slot).setNext nilSlot slot := by
  rw [setNext, if_pos rfl, setNext, if_neg h]
  rfl

omit [Inhabited β] in
theorem pushBack_eq (h : slot ≠ nilSlot) :
    s.pushBack slot = ((s.setPrev slot s.tail).setNext s.tail slot).setPrev nilSlot slot := by
  rw [setPrev, if_pos rfl, setPrev, if_neg h]
  rfl

end Links

/-- The list of recency, the most recent slot first. -/
structure Recency (s : CacheState β) (order : List Nat) : Prop where
  doubly : Doubly s.nextLink s.prevLink order
  mem : ∀ slot ∈ order, slot < s.entries.length
  length : s.entries.length ≤ nilSlot

namespace Recency

variable {order xs ys : List Nat}

theorem ne_nilSlot (h : Recency s order) (hslot : slot < s.entries.length) : slot ≠ nilSlot := by
  have hlength := h.length
  omega

theorem of_relinks (h : Recency s order) (hrel : Relinks s t)
    (hdoubly : Doubly t.nextLink t.prevLink xs) (hmem : ∀ slot ∈ xs, slot < s.entries.length) :
    Recency t xs :=
  ⟨hdoubly, fun slot hslot => hrel.length ▸ hmem slot hslot, hrel.length ▸ h.length⟩

theorem link_lt (h : Recency s order) {n : Nat}
    (hmem : ∀ slot, link n = some slot → slot ∈ order) :
    n = nilSlot ∨ n < s.entries.length := by
  by_cases hn : n = nilSlot
  · exact .inl hn
  · exact .inr (h.mem n (hmem n (link_of_ne hn)))

theorem next_lt (h : Recency s (xs ++ slot :: ys)) :
    (s.entry slot).next = nilSlot ∨ (s.entry slot).next < s.entries.length := by
  refine h.link_lt fun other heq => ?_
  have hnext := h.doubly.next_eq.symm.trans heq
  exact mem_append_right _ (mem_cons_of_mem _ (mem_of_mem_head? hnext))

theorem prev_lt (h : Recency s (xs ++ slot :: ys)) :
    (s.entry slot).prev = nilSlot ∨ (s.entry slot).prev < s.entries.length := by
  refine h.link_lt fun other heq => ?_
  have hprev := h.doubly.prev_eq.symm.trans heq
  exact mem_append_left _ (mem_of_getLast? hprev)

theorem head_lt (h : Recency s order) : s.head = nilSlot ∨ s.head < s.entries.length := by
  refine h.link_lt fun other heq => ?_
  have hhead := h.doubly.head.symm.trans heq
  exact mem_of_mem_head? hhead

theorem tail_lt (h : Recency s order) : s.tail = nilSlot ∨ s.tail < s.entries.length := by
  refine h.link_lt fun other heq => ?_
  have htail := h.doubly.tail.symm.trans heq
  exact mem_of_getLast? htail

theorem unlink (h : Recency s (xs ++ slot :: ys)) :
    Recency (s.unlink slot) (xs ++ ys) ∧ Relinks s (s.unlink slot) ∧
      (s.unlink slot).nextLink (some slot) = none ∧
      (s.unlink slot).prevLink (some slot) = none := by
  have hslot : slot < s.entries.length := h.mem slot (mem_append_right _ mem_cons_self)
  have hlink : link slot = some slot := link_of_ne (h.ne_nilSlot hslot)
  have heq := unlink_eq (s := s) (h.ne_nilSlot hslot)
  obtain ⟨prev, hprev⟩ : ∃ prev, (s.entry slot).prev = prev := ⟨_, rfl⟩
  obtain ⟨next, hnext⟩ : ∃ next, (s.entry slot).next = next := ⟨_, rfl⟩
  have hprevLink : s.prevLink (some slot) = link prev := by rw [← hprev]; rfl
  have hnextLink : s.nextLink (some slot) = link next := by rw [← hnext]; rfl
  have h₁ : prev = nilSlot ∨ prev < s.entries.length := hprev ▸ h.prev_lt
  have hrel₁ := setNext_relinks next h₁
  have h₂ : next = nilSlot ∨ next < (s.setNext prev next).entries.length := by
    rw [hrel₁.length]
    exact hnext ▸ h.next_lt
  have hrel₂ := hrel₁.trans (setPrev_relinks prev h₂)
  have h₃ : slot = nilSlot ∨ slot < ((s.setNext prev next).setPrev next prev).entries.length := by
    rw [hrel₂.length]
    exact .inr hslot
  have hrel₃ := hrel₂.trans (setPrev_relinks nilSlot h₃)
  have h₄ : slot = nilSlot ∨
      slot < (((s.setNext prev next).setPrev next prev).setPrev slot nilSlot).entries.length := by
    rw [hrel₃.length]
    exact .inr hslot
  have hrel := hrel₃.trans (setNext_relinks nilSlot h₄)
  rw [hprev, hnext] at heq
  rw [← heq] at hrel
  have hforward : (s.unlink slot).nextLink = Function.update (Function.update s.nextLink
      (s.prevLink (some slot)) (s.nextLink (some slot))) (some slot) none := by
    rw [heq, nextLink_setNext h₄, nextLink_setPrev h₃, nextLink_setPrev h₂, nextLink_setNext h₁,
      hlink, hprevLink, hnextLink, link_nilSlot]
  have hbackward : (s.unlink slot).prevLink = Function.update (Function.update s.prevLink
      (s.nextLink (some slot)) (s.prevLink (some slot))) (some slot) none := by
    rw [heq, prevLink_setNext h₄, prevLink_setPrev h₃, prevLink_setPrev h₂, prevLink_setNext h₁,
      hlink, hprevLink, hnextLink, link_nilSlot]
  refine ⟨h.of_relinks hrel ?_ fun other hother => ?_, hrel, ?_, ?_⟩
  · rw [hforward, hbackward]
    exact h.doubly.unlink
  · refine h.mem other ?_
    rcases mem_append.mp hother with hmem | hmem
    · exact mem_append_left _ hmem
    · exact mem_append_right _ (mem_cons_of_mem _ hmem)
  · rw [hforward]
    exact Function.update_self ..
  · rw [hbackward]
    exact Function.update_self ..

theorem pushFront (h : Recency s order) (hslot : slot < s.entries.length) (hmem : slot ∉ order)
    (hprev : s.prevLink (some slot) = none) :
    Recency (s.pushFront slot) (slot :: order) ∧ Relinks s (s.pushFront slot) := by
  have hlink : link slot = some slot := link_of_ne (h.ne_nilSlot hslot)
  have hlt : slot = nilSlot ∨ slot < s.entries.length := .inr hslot
  have hrel₁ := setNext_relinks s.head hlt
  have h₂ : s.head = nilSlot ∨ s.head < (s.setNext slot s.head).entries.length := by
    rw [hrel₁.length]
    exact h.head_lt
  have hrel := (hrel₁.trans (setPrev_relinks slot h₂)).trans
    (setNext_relinks slot (.inl rfl))
  rw [← pushFront_eq (h.ne_nilSlot hslot)] at hrel
  refine ⟨h.of_relinks hrel ?_ fun other hother => ?_, hrel⟩
  · rw [pushFront_eq (h.ne_nilSlot hslot), nextLink_setNext (.inl rfl),
      prevLink_setNext (.inl rfl),
      nextLink_setPrev h₂, prevLink_setPrev h₂, nextLink_setNext (.inr hslot),
      prevLink_setNext (.inr hslot), link_nilSlot, hlink]
    exact h.doubly.pushFront hmem hprev
  · rcases mem_cons.mp hother with rfl | hother
    · exact hslot
    · exact h.mem other hother

theorem pushBack (h : Recency s order) (hslot : slot < s.entries.length) (hmem : slot ∉ order)
    (hnext : s.nextLink (some slot) = none) :
    Recency (s.pushBack slot) (order ++ [slot]) ∧ Relinks s (s.pushBack slot) := by
  have hlink : link slot = some slot := link_of_ne (h.ne_nilSlot hslot)
  have hlt : slot = nilSlot ∨ slot < s.entries.length := .inr hslot
  have hrel₁ := setPrev_relinks s.tail hlt
  have h₂ : s.tail = nilSlot ∨ s.tail < (s.setPrev slot s.tail).entries.length := by
    rw [hrel₁.length]
    exact h.tail_lt
  have hrel := (hrel₁.trans (setNext_relinks slot h₂)).trans
    (setPrev_relinks slot (.inl rfl))
  rw [← pushBack_eq (h.ne_nilSlot hslot)] at hrel
  refine ⟨h.of_relinks hrel ?_ fun other hother => ?_, hrel⟩
  · rw [pushBack_eq (h.ne_nilSlot hslot), nextLink_setPrev (.inl rfl),
      prevLink_setPrev (.inl rfl),
      nextLink_setNext h₂, prevLink_setNext h₂, nextLink_setPrev (.inr hslot),
      prevLink_setPrev (.inr hslot), link_nilSlot, hlink]
    exact h.doubly.pushBack hmem hnext
  · rcases mem_append.mp hother with hother | hother
    · exact h.mem other hother
    · obtain rfl := mem_singleton.mp hother
      exact hslot

end Recency

end CacheState

end Hadris.Storage
