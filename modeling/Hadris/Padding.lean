import Mathlib.Data.List.DropRight
import Mathlib.Data.List.TakeDrop
import Mathlib.Tactic.Common

namespace Hadris.Padding

open List

variable {α β : Type}

theorem takeD_of_le {l : List α} {n : Nat} (a : α) (h : l.length ≤ n) :
    l.takeD n a = l ++ replicate (n - l.length) a := by
  induction l generalizing n with
  | nil => rw [takeD_nil, nil_append, length_nil, Nat.sub_zero]
  | cons x rest ih =>
    rcases n with _ | n
    · exact absurd h (Nat.not_succ_le_zero _)
    · rw [length_cons] at h
      change x :: rest.takeD n a = _
      rw [ih (Nat.le_of_succ_le_succ h), length_cons, Nat.add_sub_add_right, cons_append]

theorem map_takeD (f : α → β) (l : List α) (n : Nat) (a : α) :
    (l.takeD n a).map f = (l.map f).takeD n (f a) := by
  induction n generalizing l with
  | zero => rfl
  | succ n ih =>
    rcases l with _ | ⟨x, rest⟩
    · rw [takeD_nil, map_nil, takeD_nil, map_replicate]
    · change f x :: (rest.takeD n a).map f = f x :: (rest.map f).takeD n (f a)
      rw [ih]

def dotted (sep : α) (l : List α) : List α := if l = [] then [] else sep :: l

theorem map_dotted (f : α → β) (sep : α) (l : List α) :
    (dotted sep l).map f = dotted (f sep) (l.map f) := by
  rcases l with _ | ⟨x, rest⟩ <;> rfl

theorem dotted_inj {sep : α} {l m : List α} : dotted sep l = dotted sep m ↔ l = m := by
  constructor
  · intro h
    rcases l with _ | ⟨x, l⟩ <;> rcases m with _ | ⟨y, m⟩ <;> simp_all [dotted]
  · rintro rfl
    rfl

variable [DecidableEq α]

theorem rdropWhile_append_replicate {a : α} {l : List α} (ha : a ∉ l) (n : Nat) :
    (l ++ replicate n a).rdropWhile (· == a) = l := by
  induction n with
  | zero =>
    rw [replicate_zero, append_nil, rdropWhile_eq_self_iff]
    intro hl hlast
    exact ha (eq_of_beq hlast ▸ getLast_mem hl)
  | succ n ih =>
    rw [replicate_succ', ← append_assoc, rdropWhile_concat_pos (· == a) _ _
      (beq_self_eq_true a), ih]

theorem rdropWhile_takeD {a : α} {l : List α} {n : Nat} (ha : a ∉ l) (h : l.length ≤ n) :
    (l.takeD n a).rdropWhile (· == a) = l := by
  rw [takeD_of_le a h, rdropWhile_append_replicate ha]

theorem takeD_inj {a : α} {l m : List α} {n : Nat} (hl : a ∉ l) (hm : a ∉ m) (hln : l.length ≤ n)
    (hmn : m.length ≤ n) : l.takeD n a = m.takeD n a ↔ l = m := by
  constructor
  · intro h
    rw [← rdropWhile_takeD hl hln, h, rdropWhile_takeD hm hmn]
  · rintro rfl
    rfl

theorem takeWhile_append_dotted {sep : α} {l : List α} (hl : sep ∉ l) (m : List α) :
    (l ++ dotted sep m).takeWhile (· != sep) = l := by
  have hall : ∀ x ∈ l, (x != sep) = true := fun x hx =>
    bne_iff_ne.mpr fun heq => hl (heq ▸ hx)
  rw [takeWhile_append_of_pos hall, dotted]
  split
  · rw [takeWhile_nil, append_nil]
  · rw [takeWhile_cons_of_neg (by simp), append_nil]

theorem append_dotted_inj {sep : α} {l l' m m' : List α} (hl : sep ∉ l) (hl' : sep ∉ l') :
    l ++ dotted sep m = l' ++ dotted sep m' ↔ l = l' ∧ m = m' := by
  constructor
  · intro h
    have heq : l = l' := by
      rw [← takeWhile_append_dotted hl m, h, takeWhile_append_dotted hl']
    rw [heq, append_cancel_left_eq, dotted_inj] at h
    exact ⟨heq, h⟩
  · rintro ⟨rfl, rfl⟩
    rfl

end Hadris.Padding
