import Mathlib.Data.List.Pairwise
import Mathlib.Order.Basic

namespace Hadris

open List

/-- A map whose entries stand in the order of their keys. -/
@[ext] structure SortedMap (κ α : Type) [LT κ] where
  entries : List (κ × α)
  sorted : (entries.map Prod.fst).Pairwise (· < ·)

namespace SortedMap

/-- Keys are told apart by their order. -/
class Ordered (κ : Type) [LT κ] : Prop where
  irrefl : ∀ k : κ, ¬ k < k
  trans : ∀ {a b c : κ}, a < b → b < c → a < c
  total : ∀ {a b : κ}, a ≠ b → ¬ a < b → b < a

instance {κ : Type} [LE κ] [LT κ] [Std.IsLinearOrder κ] [Std.LawfulOrderLT κ] : Ordered κ where
  irrefl _ := Std.lt_irrefl
  trans := Std.lt_trans
  total h hlt := Std.not_le.mp fun hle => h (Std.le_antisymm hle (Std.not_lt.mp hlt))

instance orderedBytes : Ordered (List UInt8) := inferInstance

instance orderedNumbers : Ordered (List Nat) := inferInstance

section

variable {κ α : Type} [DecidableEq κ]

def lookup (k : κ) : List (κ × α) → Option α
  | [] => none
  | e :: rest => if k = e.1 then some e.2 else lookup k rest

variable [LT κ]

theorem lookup_eq_some [Ordered κ] {l : List (κ × α)} (h : (l.map Prod.fst).Pairwise (· < ·))
    {k : κ} {a : α} :
    lookup k l = some a ↔ (k, a) ∈ l := by
  induction l with
  | nil => simp [lookup]
  | cons e rest ih =>
    obtain ⟨key, value⟩ := e
    rw [map_cons, pairwise_cons] at h
    rw [lookup, mem_cons]
    split
    · rename_i hk
      subst hk
      have hnot : (k, a) ∉ rest := fun hmem => Ordered.irrefl _ (h.1 k (mem_map_of_mem hmem))
      constructor
      · intro ha
        cases ha
        exact .inl rfl
      · rintro (ha | ha)
        · cases ha
          rfl
        · exact absurd ha hnot
    · rename_i hk
      rw [ih h.2]
      constructor
      · exact .inr
      · rintro (ha | ha)
        · cases ha
          exact absurd rfl hk
        · exact ha

variable [DecidableLT κ]

def put (k : κ) (a : α) : List (κ × α) → List (κ × α)
  | [] => [(k, a)]
  | e :: rest =>
    if k = e.1 then (k, a) :: rest
    else if k < e.1 then (k, a) :: e :: rest
    else e :: put k a rest

theorem lookup_put (k k' : κ) (a : α) (l : List (κ × α)) :
    lookup k' (put k a l) = if k' = k then some a else lookup k' l := by
  induction l with
  | nil => rfl
  | cons e rest ih =>
    rw [put]
    split
    · rename_i h
      subst h
      rw [lookup, lookup]
      split <;> rfl
    · rename_i hne
      split
      · rfl
      · rw [lookup, ih, lookup]
        split
        · rename_i hk
          rw [if_neg (hk ▸ Ne.symm hne)]
        · rfl

theorem mem_put {k : κ} {a : α} {l : List (κ × α)} {e : κ × α} (h : e ∈ put k a l) :
    e = (k, a) ∨ e ∈ l := by
  induction l with
  | nil => exact .inl (mem_singleton.mp h)
  | cons first rest ih =>
    rw [put] at h
    split at h
    · exact (mem_cons.mp h).imp_right (mem_cons_of_mem _)
    · split at h
      · exact mem_cons.mp h
      · rcases mem_cons.mp h with rfl | h
        · exact .inr mem_cons_self
        · exact (ih h).imp_right (mem_cons_of_mem _)

theorem sorted_put [Ordered κ] (k : κ) (a : α) {l : List (κ × α)}
    (h : (l.map Prod.fst).Pairwise (· < ·)) :
    ((put k a l).map Prod.fst).Pairwise (· < ·) := by
  induction l with
  | nil => exact pairwise_singleton _ _
  | cons e rest ih =>
    rw [map_cons, pairwise_cons] at h
    rw [put]
    split
    · rename_i hk
      rw [map_cons, pairwise_cons]
      exact ⟨hk ▸ h.1, h.2⟩
    · rename_i hne
      split
      · rename_i hlt
        rw [map_cons, pairwise_cons, map_cons, pairwise_cons]
        refine ⟨?_, h⟩
        intro key hkey
        rcases mem_cons.mp hkey with rfl | hkey
        · exact hlt
        · exact Ordered.trans hlt (h.1 key hkey)
      · rename_i hnlt
        rw [map_cons, pairwise_cons]
        refine ⟨?_, ih h.2⟩
        intro key hkey
        obtain ⟨entry, hentry, rfl⟩ := mem_map.mp hkey
        rcases mem_put hentry with rfl | hentry
        · exact Ordered.total hne hnlt
        · exact h.1 _ (mem_map_of_mem hentry)

end

variable {κ α : Type} [LT κ]

def empty : SortedMap κ α := ⟨[], .nil⟩

def values (m : SortedMap κ α) : List α := m.entries.map Prod.snd

def isEmpty (m : SortedMap κ α) : Bool := m.entries.isEmpty

theorem keys_nodup [Ordered κ] (m : SortedMap κ α) : (m.entries.map Prod.fst).Nodup := by
  refine m.sorted.imp ?_
  rintro a b h rfl
  exact Ordered.irrefl a h

variable [DecidableEq κ]

def get (m : SortedMap κ α) (k : κ) : Option α := lookup k m.entries

def erase (m : SortedMap κ α) (k : κ) : SortedMap κ α :=
  ⟨m.entries.filter fun e => e.1 ≠ k, m.sorted.sublist (filter_sublist.map _)⟩

def insert [DecidableLT κ] [Ordered κ] (m : SortedMap κ α) (k : κ) (a : α) : SortedMap κ α :=
  ⟨put k a m.entries, sorted_put k a m.sorted⟩

theorem get_insert [DecidableLT κ] [Ordered κ] (m : SortedMap κ α) (k k' : κ) (a : α) :
    (m.insert k a).get k' = if k' = k then some a else m.get k' := lookup_put k k' a m.entries

variable [Ordered κ] {m : SortedMap κ α} {k : κ} {a : α}

theorem get_eq_some : m.get k = some a ↔ (k, a) ∈ m.entries := lookup_eq_some m.sorted

theorem get_erase (m : SortedMap κ α) (k k' : κ) :
    (m.erase k).get k' = if k' = k then none else m.get k' := by
  apply Option.ext
  intro a
  rw [get_eq_some, erase, mem_filter, ← get_eq_some]
  split
  · rename_i h
    simp [h]
  · rename_i h
    simp [h]

theorem isEmpty_iff (m : SortedMap κ α) : m.isEmpty = true ↔ ∀ k, m.get k = none := by
  rw [isEmpty, List.isEmpty_iff]
  constructor
  · intro h k
    rw [get, h]
    rfl
  · intro h
    apply eq_nil_iff_forall_not_mem.mpr
    intro e he
    have hsome := get_eq_some.mpr he
    rw [h] at hsome
    cases hsome

theorem mem_values : a ∈ m.values ↔ ∃ k, m.get k = some a := by
  rw [values, mem_map]
  constructor
  · rintro ⟨e, he, rfl⟩
    exact ⟨e.1, get_eq_some.mpr he⟩
  · rintro ⟨k, h⟩
    exact ⟨(k, a), get_eq_some.mp h, rfl⟩

end SortedMap

end Hadris
