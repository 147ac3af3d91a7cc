import Mathlib.Data.List.Basic
import Mathlib.Tactic.Common

namespace Hadris

/-- A run of bytes or of blocks. -/
structure Region where
  start : Nat
  length : Nat
deriving DecidableEq, Repr

namespace Region

def stop (region : Region) : Nat := region.start + region.length

def Has (region : Region) (at_ : Nat) : Prop := region.start ≤ at_ ∧ at_ < region.stop

/-- The first region ends where the second starts, or earlier. -/
def Before (a b : Region) : Prop := a.stop ≤ b.start

def Within (a b : Region) : Prop := b.start ≤ a.start ∧ a.stop ≤ b.stop

/-- Regions that follow each other and share no byte. -/
def InOrder (regions : List Region) : Prop :=
  regions.Pairwise fun a b => a.Before b ∧ ∀ at_, ¬ (a.Has at_ ∧ b.Has at_)

theorem Before.not_has {a b : Region} (h : a.Before b) (at_ : Nat) :
    ¬ (a.Has at_ ∧ b.Has at_) := by
  simp only [Before, Has] at *
  omega

/-- Neither region reaches into the other. -/
def Apart (a b : Region) : Prop := a.Before b ∨ b.Before a

instance (a b : Region) : Decidable (a.Before b) := inferInstanceAs (Decidable (_ ≤ _))

instance (a b : Region) : Decidable (a.Apart b) := inferInstanceAs (Decidable (_ ∨ _))

theorem Apart.symm {a b : Region} (h : a.Apart b) : b.Apart a := Or.symm h

theorem Within.apart {a a' b : Region} (h : a.Within a') (hapart : a'.Apart b) : a.Apart b := by
  simp only [Within, Apart, Before] at *
  omega

theorem inOrder_of_before {regions : List Region} (h : regions.Pairwise Before) :
    InOrder regions := h.imp fun hab => ⟨hab, hab.not_has⟩

def copies (start length count : Nat) : List Region :=
  (List.range count).map fun copy => ⟨start + copy * length, length⟩

theorem copies_before (start length count : Nat) :
    (copies start length count).Pairwise Before := by
  refine List.pairwise_map.mpr (List.pairwise_lt_range.imp fun {a b} hab => ?_)
  have hmul := Nat.mul_le_mul_right length (Nat.succ_le_of_lt hab)
  rw [Nat.succ_mul] at hmul
  simp only [Before, stop]
  omega

theorem copies_bounds {start length count : Nat} {region : Region}
    (h : region ∈ copies start length count) :
    start ≤ region.start ∧ region.stop ≤ start + count * length := by
  simp only [copies, List.mem_map, List.mem_range] at h
  rcases h with ⟨copy, hcopy, rfl⟩
  have hmul := Nat.mul_le_mul_right length (Nat.succ_le_of_lt hcopy)
  rw [Nat.succ_mul] at hmul
  simp only [stop]
  omega

end Region

end Hadris
