import Mathlib.Data.List.Perm.Subperm
import Mathlib.Data.List.Nodup

namespace Hadris

open List

section Numbered

variable {α : Type} [DecidableEq α] {name : Nat → α} {taken : List α} {a : α} {fuel n : Nat}

def firstFree (name : Nat → α) (taken : List α) : Nat → Nat → Option α
  | 0, _ => none
  | fuel + 1, n => if name n ∈ taken then firstFree name taken fuel (n + 1) else some (name n)

theorem firstFree_some (h : firstFree name taken fuel n = some a) :
    ∃ m, n ≤ m ∧ a = name m ∧ a ∉ taken ∧ ∀ k, n ≤ k → k < m → name k ∈ taken := by
  induction fuel generalizing n with
  | zero => cases h
  | succ fuel ih =>
    rw [firstFree] at h
    split at h
    · rename_i hmem
      obtain ⟨m, hm, rfl, hfree, hbefore⟩ := ih h
      refine ⟨m, Nat.le_of_succ_le hm, rfl, hfree, fun k hk hlt => ?_⟩
      rcases Nat.eq_or_lt_of_le hk with rfl | hk
      · exact hmem
      · exact hbefore k hk hlt
    · rename_i hmem
      cases h
      exact ⟨n, Nat.le_refl n, rfl, hmem, fun k hk hlt => absurd hlt (Nat.not_lt.mpr hk)⟩

theorem firstFree_none (h : firstFree name taken fuel n = none) :
    ∀ i < fuel, name (n + i) ∈ taken := by
  induction fuel generalizing n with
  | zero =>
    intro i hi
    exact absurd hi (Nat.not_lt_zero i)
  | succ fuel ih =>
    rw [firstFree] at h
    split at h
    · rename_i hmem
      intro i hi
      cases i with
      | zero => exact hmem
      | succ i =>
        rw [← Nat.add_assoc, Nat.add_right_comm]
        exact ih h i (Nat.lt_of_succ_lt_succ hi)
    · cases h

theorem firstFree_exists (hname : Function.Injective name) (hfuel : taken.length < fuel) :
    ∃ a, firstFree name taken fuel n = some a := by
  cases h : firstFree name taken fuel n with
  | some a => exact ⟨a, rfl⟩
  | none =>
    have hall := firstFree_none h
    have hnodup : ((List.range fuel).map fun i => name (n + i)).Nodup :=
      nodup_range.map fun i j hij => Nat.add_left_cancel (hname hij)
    have hsubset : (List.range fuel).map (fun i => name (n + i)) ⊆ taken := by
      intro a ha
      obtain ⟨i, hi, rfl⟩ := mem_map.mp ha
      exact hall i (mem_range.mp hi)
    have hle := (hnodup.subperm hsubset).length_le
    rw [length_map, length_range] at hle
    exact absurd hfuel (Nat.not_lt.mpr hle)

/-- The first free value is one of those with the least numbers: what only gets
worse with the number holds of it when it holds of any free value. -/
theorem firstFree_best {good : Nat → Prop} (hgood : ∀ i j, i ≤ j → good j → good i)
    (h : firstFree name taken fuel n = some a) :
    (∃ m, n ≤ m ∧ good m ∧ name m ∉ taken) ↔ ∃ m, n ≤ m ∧ good m ∧ a = name m ∧ a ∉ taken := by
  obtain ⟨first, hfirst, ha, hfree, hbefore⟩ := firstFree_some h
  constructor
  · rintro ⟨m, hm, hgood', hnot⟩
    have hle : first ≤ m := by
      by_contra hlt
      exact hnot (hbefore m hm (Nat.lt_of_not_le hlt))
    exact ⟨first, hfirst, hgood first m hle hgood', ha, hfree⟩
  · rintro ⟨m, hm, hgood', rfl, hnot⟩
    exact ⟨m, hm, hgood', hnot⟩

end Numbered

section Split

variable {α : Type} [DecidableEq α] {sep : α} {l before after : List α}

def rsplitOnce (sep : α) : List α → Option (List α × List α)
  | [] => none
  | a :: rest =>
    match rsplitOnce sep rest with
    | some (before, after) => some (a :: before, after)
    | none => if a = sep then some ([], rest) else none

theorem rsplitOnce_none (h : rsplitOnce sep l = none) : sep ∉ l := by
  induction l with
  | nil => exact not_mem_nil
  | cons a rest ih =>
    rw [rsplitOnce] at h
    split at h
    · cases h
    · rename_i hrest
      split at h
      · cases h
      · rename_i hne
        rw [mem_cons, not_or]
        exact ⟨fun heq => hne heq.symm, ih hrest⟩

theorem rsplitOnce_some (h : rsplitOnce sep l = some (before, after)) :
    l = before ++ sep :: after ∧ sep ∉ after := by
  induction l generalizing before after with
  | nil => cases h
  | cons a rest ih =>
    rw [rsplitOnce] at h
    split at h
    · rename_i before' after' hrest
      cases h
      obtain ⟨rfl, hafter⟩ := ih hrest
      exact ⟨rfl, hafter⟩
    · rename_i hrest
      split at h
      · rename_i heq
        cases h
        exact ⟨by rw [heq, nil_append], rsplitOnce_none hrest⟩
      · cases h

theorem rsplitOnce_of_notMem (h : sep ∉ l) : rsplitOnce sep l = none := by
  cases hsplit : rsplitOnce sep l with
  | none => rfl
  | some pair =>
    obtain ⟨before, after⟩ := pair
    obtain ⟨rfl, -⟩ := rsplitOnce_some hsplit
    exact absurd (mem_append_right _ mem_cons_self) h

theorem rsplitOnce_append (h : sep ∉ after) :
    rsplitOnce sep (before ++ sep :: after) = some (before, after) := by
  induction before with
  | nil => rw [nil_append, rsplitOnce, rsplitOnce_of_notMem h, if_pos rfl]
  | cons a rest ih => rw [cons_append, rsplitOnce, ih]

theorem not_mem_splitOn {part : List α} (h : part ∈ l.splitOn sep) : sep ∉ part := by
  induction l generalizing part with
  | nil =>
    rw [splitOn_nil, mem_singleton] at h
    rw [h]
    exact not_mem_nil
  | cons a l ih =>
    rw [splitOn_cons_eq_if_modifyHead] at h
    split at h
    · rcases mem_cons.mp h with rfl | h
      · exact not_mem_nil
      · exact ih h
    · rename_i ha
      cases hparts : l.splitOn sep with
      | nil => exact absurd hparts (splitOn_ne_nil _ _)
      | cons first rest =>
        rw [hparts] at h ih
        rcases mem_cons.mp h with rfl | h
        · rw [mem_cons, not_or]
          exact ⟨fun heq => ha (beq_iff_eq.mpr heq.symm), ih mem_cons_self⟩
        · exact ih (mem_cons_of_mem _ h)

end Split

end Hadris
