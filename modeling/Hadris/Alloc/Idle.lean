import Hadris.Alloc.Link
import Hadris.Alloc.Store

namespace Hadris

namespace View

variable {m : Medium} {v : View}

/-- Nothing is left to be completed. -/
structure Idle (v : View) : Prop where
  split : v.fat.split = none
  unmirrored : v.fat.unmirrored = none

theorem Idle.tracked (h : v.Idle) : v.fat.Tracked m where
  split := fun _ _ _ hs => absurd hs (by rw [h.split]; exact (Option.some_ne_none _).symm)
  range := fun _ _ hr => absurd hr (by rw [h.unmirrored]; exact (Option.some_ne_none _).symm)

theorem Idle.holding (h : v.Idle) (f : Held → Held) : (v.holding f).Idle :=
  ⟨h.split, h.unmirrored⟩

theorem Idle.not_due (h : v.Idle) (c : Nat) : ¬ v.due c = true := by
  rw [due, h.split, h.unmirrored]
  exact Bool.false_ne_true

theorem recorded_held (m : Medium) (range : Nat × Nat) (v : View) :
    (v.recorded m range).held = v.held := by
  rw [View.recorded]
  split <;> rfl

theorem Idle.readyFor_held (h : v.Idle) (c : Nat) : (v.readyFor m c).held = v.held := by
  rw [readyFor, upToDate, if_neg (h.not_due c), recorded_held]

theorem Idle.readyFor_tbl (h : v.Idle) (c : Nat) : (v.readyFor m c).tbl = v.tbl := by
  rw [readyFor, upToDate, if_neg (h.not_due c), recorded_tbl]

theorem Idle.readyFor_split (h : v.Idle) (c : Nat) : (v.readyFor m c).fat.split = none := by
  rw [readyFor, upToDate, if_neg (h.not_due c), recorded_split, h.split]

theorem puts_held (m : Medium) (c value i : Nat) (v : View) :
    (v.puts m c value i).held = v.held := by
  rw [puts]
  split <;> rfl

theorem puts_split (m : Medium) (c value i : Nat) (h : v.fat.split = none) :
    (v.puts m c value i).fat.split = none := by
  rw [puts]
  split
  · exact h
  · rw [written_split, h, ite_self]

theorem Idle.readyForRange_eq (h : v.Idle) (range : Nat × Nat) :
    v.readyForRange m range = v.recorded m range := by
  rw [readyForRange, upToDate, h.unmirrored]
  by_cases hmany : 1 < m.geo.copies
  · rw [if_pos hmany]
    rfl
  · rw [if_neg hmany, recorded, if_neg hmany]

theorem patches_held (m : Medium) (group : ClusterGroup) (chain tail : Option Nat)
    (taken freed i : Nat) (v : View) :
    (v.patches m group chain tail taken freed i).held = v.held := by
  rw [patches]
  split <;> rfl

end View

namespace Vol

open Device (Faulty)
open Medium (Is)
open Prog (Triple)
open View (overlaid Idle)

variable {m : Medium} {A : Outcome Stop → Prop} {rest : Nat → UInt8} {v : View}

/-- What is left of a volume whose entries of `clusters` were given the values `values`. -/
def Stored (m : Medium) (A : Outcome Stop → Prop) (rest : Nat → UInt8) (clusters : List Nat)
    (values : Nat → Nat) (v : View) (vol : Vol) : Prop :=
  m.Is A rest (fun v' => v'.Idle ∧ v'.held = v.held ∧
    v'.tbl = overlaid m.geo.copies clusters values v.tbl) vol

theorem idle_set (hno : ¬ Faulty A) (hv : v.Idle) (c value : Nat) :
    Triple (m.At A rest v) (set c value)
    (fun _ vol => m.geo.IsCluster c ∧
      Stored m A rest [c] (fun _ => value &&& m.geo.kind.mask) v vol)
    fun _ vol => ¬ m.geo.IsCluster c ∧ m.At A rest v vol := by
  refine (at_set hv.tracked c value).weaken (fun _ _ h => ⟨h.1, _, ⟨⟨?_, rfl⟩, ?_, ?_⟩, h.2⟩)
    fun _ _ h =>
    h.resolve_right fun h => hno h.2.1
  · exact View.puts_split m c value _ (hv.readyFor_split c)
  · exact (View.puts_held m c value _ _).trans (hv.readyFor_held c)
  · rw [View.forgotten_tbl, View.puts_tbl, hv.readyFor_tbl]

/-- A group is stored where no device call fails and it fits in one block of every copy,
and refused where it does not. -/
theorem idle_patch_or (hno : ¬ Faulty A) (hv : v.Idle) {group : ClusterGroup}
    (chain : Option Nat) {tail : Option Nat}
    (hne : group.members ≠ []) (hmembers : ∀ c ∈ Fat.groupEntries group tail, m.geo.IsCluster c) :
    Triple (m.At A rest v) (patch group chain tail)
      (fun _ vol => (∀ j < m.geo.copies, Fat.Fits m group tail j) ∧
        Stored m A rest (Fat.groupEntries group tail) (View.groupValue m group chain tail) v vol)
      fun e _ => e = .ofKind .corrupt ∧ ∃ j < m.geo.copies, ¬ Fat.Fits m group tail j := by
  have hready := hv.readyForRange_eq (m := m) (View.rangeOf group tail)
  refine (at_patch hv.tracked chain hne hmembers).weaken (fun _ _ h => ?_) fun e _ h => ?_
  · obtain ⟨taken, freed, -, hfits, hat⟩ := h
    rw [hready] at hat
    refine ⟨hfits, _, ⟨⟨?_, rfl⟩, ?_, ?_⟩, hat⟩
    · rw [View.forgotten_split, View.patches_split, View.recorded_split, hv.split]
    · exact (View.patches_held m group chain tail taken freed _ _).trans
        (View.recorded_held m _ v)
    · rw [View.forgotten_tbl, View.patches_tbl, View.recorded_tbl]
  · rcases h with ⟨hfaulty, -⟩ | ⟨i, hi, taken, freed, -, -, ⟨hwhy, -⟩ | ⟨⟨-, hlands⟩, -⟩⟩
    · exact absurd hfaulty hno
    · obtain ⟨hfits, he⟩ := hwhy.resolve_right hno
      exact ⟨he, i, hi, hfits⟩
    · exact absurd hlands.faulty hno

theorem idle_patch (hno : ¬ Faulty A) (hv : v.Idle) {group : ClusterGroup}
    (chain : Option Nat) {tail : Option Nat}
    (hne : group.members ≠ []) (hmembers : ∀ c ∈ Fat.groupEntries group tail, m.geo.IsCluster c)
    (hfits : ∀ j < m.geo.copies, Fat.Fits m group tail j) :
    Triple (m.At A rest v) (patch group chain tail)
      (fun _ => Stored m A rest (Fat.groupEntries group tail)
        (View.groupValue m group chain tail) v)
      fun _ _ => False := by
  refine (idle_patch_or hno hv chain hne hmembers).weaken (fun _ _ h => h.2) fun _ _ h => ?_
  obtain ⟨-, j, hj, hnot⟩ := h
  exact hnot (hfits j hj)

end Vol

end Hadris
