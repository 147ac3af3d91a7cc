import Mathlib.Data.List.GetD
import Mathlib.Data.List.Nodup
import Mathlib.Tactic.Common
import Mathlib.Logic.Relation

namespace Hadris

/-- The nodes of `l` in order, each linked by `next` to the one after it, the
last to `last`. `next` gives `none` for a node that links nothing. -/
def Leads {α : Type} (next : α → Option (Option α)) : List α → Option α → Prop
  | [], _ => True
  | a :: rest, last => next a = some (rest.head?.or last) ∧ Leads next rest last

/-- A chain: the last node is linked to nothing more. -/
abbrev Links {α : Type} (next : α → Option (Option α)) (l : List α) : Prop := Leads next l none

namespace Leads

variable {α : Type} {next next' : α → Option (Option α)} {l xs ys : List α} {a : α}
variable {last : Option α}

theorem congr (h : Leads next l last) (heq : ∀ a ∈ l, next' a = next a) : Leads next' l last := by
  induction l with
  | nil => trivial
  | cons a rest ih =>
    refine ⟨?_, ih h.2 fun b hb => heq b (List.mem_cons_of_mem a hb)⟩
    rw [heq a List.mem_cons_self]
    exact h.1

theorem append_iff : Leads next (xs ++ ys) last ↔
    Leads next xs (ys.head?.or last) ∧ Leads next ys last := by
  induction xs with
  | nil => simp [Leads]
  | cons a rest ih =>
    have hhead : (rest ++ ys).head?.or last = rest.head?.or (ys.head?.or last) := by
      rw [List.head?_append, Option.or_assoc]
    simp only [List.cons_append, Leads, ih, hhead, and_assoc]

theorem append (hx : Leads next xs (ys.head?.or last)) (hy : Leads next ys last) :
    Leads next (xs ++ ys) last :=
  append_iff.mpr ⟨hx, hy⟩

theorem right (h : Leads next (xs ++ ys) last) : Leads next ys last := (append_iff.mp h).2

theorem getElem (h : Leads next l last) {i : Nat} (hi : i < l.length) :
    next l[i] = some (l[i + 1]?.or last) := by
  induction l generalizing i with
  | nil => cases hi
  | cons a rest ih =>
    cases i with
    | zero =>
      rw [List.getElem_cons_zero, List.getElem?_cons_succ, h.1]
      cases rest <;> rfl
    | succ i => exact ih h.2 (Nat.lt_of_succ_lt_succ hi)

theorem mem_linked (h : Leads next l last) (ha : a ∈ l) : next a ≠ none := by
  obtain ⟨i, hi, rfl⟩ := List.getElem_of_mem ha
  rw [h.getElem hi]
  exact Option.some_ne_none _

theorem unique (hx : Links next xs) (hy : Links next ys) (hhead : xs.head? = ys.head?) :
    xs = ys := by
  induction xs generalizing ys with
  | nil =>
    cases ys with
    | nil => rfl
    | cons b ys => cases hhead
  | cons a xs ih =>
    cases ys with
    | nil => cases hhead
    | cons b ys =>
      obtain rfl := Option.some.inj hhead
      have hnext := hx.1.symm.trans hy.1
      simp only [Option.or_none, Option.some.injEq] at hnext
      rw [ih hx.2 hy.2 hnext]

theorem exists_append {b : α} (h : Leads next xs (some b)) (hy : Links next ys)
    (hhead : ys.head? = xs.head?.or (some b)) :
    ∃ zs, ys = xs ++ zs ∧ zs.head? = some b := by
  induction xs generalizing ys with
  | nil => exact ⟨ys, rfl, hhead⟩
  | cons a rest ih =>
    obtain ⟨zs, rfl⟩ := List.head?_eq_some_iff.mp hhead
    have heq := hy.1.symm.trans h.1
    rw [Option.or_none, Option.some.injEq] at heq
    obtain ⟨ts, rfl, hts⟩ := ih h.2 hy.2 heq
    exact ⟨ts, rfl, hts⟩

theorem nodup (h : Links next l) : l.Nodup := by
  induction l with
  | nil => exact List.nodup_nil
  | cons a rest ih =>
    refine List.nodup_cons.mpr ⟨fun ha => ?_, ih h.2⟩
    obtain ⟨xs, ys, rfl⟩ := List.append_of_mem ha
    have htail : Links next (a :: ys) := h.2.right
    have heq := unique h htail rfl
    have hlen := congrArg List.length heq
    simp only [List.length_cons, List.length_append] at hlen
    omega

end Leads

end Hadris

namespace Hadris

open Relation (ReflTransGen TransGen)

section

variable {α : Type} {next : α → α → Prop} {marks refused : α → Prop} {marked marked' : α → Prop}
  {a b c z : α} {n : Nat}

/-- A walk along `next` that marks the nodes it passes where `marks` says so ends after `n`
nodes or less: at a node marked before, at one that leads nowhere, or at a refused one it
would mark. -/
inductive Ends (next : α → α → Prop) (marks refused : α → Prop) : Nat → (α → Prop) → α → Prop
  | marked {n : Nat} {marked : α → Prop} {a : α} (h : marked a) :
      Ends next marks refused n marked a
  | last {n : Nat} {marked : α → Prop} {a : α} (h : ∀ b, ¬ next a b) :
      Ends next marks refused n marked a
  | refused {n : Nat} {marked : α → Prop} {a : α} (h : marks a) (h' : refused a) :
      Ends next marks refused n marked a
  | step {n : Nat} {marked : α → Prop} {a b : α} (h : next a b)
      (hrest : Ends next marks refused n (fun x => marked x ∨ x = a ∧ marks a) b) : Ends next
      marks refused (n + 1) marked a

/-- The walk does not end. -/
def Endless (next : α → α → Prop) (marks refused marked : α → Prop) (a : α) : Prop :=
  ∀ n, ¬ Ends next marks refused n marked a

namespace Ends

theorem of_reaches (h : ReflTransGen next a c)
    (hc : ∀ marked, ∃ n, Ends next marks refused n marked c) :
    ∀ marked, ∃ n, Ends next marks refused n marked a := by
  induction h using ReflTransGen.head_induction_on with
  | refl => exact hc
  | head hstep _ ih =>
    intro marked
    obtain ⟨n, hn⟩ := ih fun x => marked x ∨ x = _ ∧ marks _
    exact ⟨n + 1, .step hstep hn⟩

theorem of_marked (refused : α → Prop) (h : ReflTransGen next a c)
    (marked : α → Prop) (hc : marked c) :
    ∃ n, Ends next marks refused n marked a := by
  induction h using ReflTransGen.head_induction_on generalizing marked with
  | refl => exact ⟨0, .marked hc⟩
  | head hstep _ ih =>
    obtain ⟨n, hn⟩ := ih (fun x => marked x ∨ x = _ ∧ marks _) (.inl hc)
    exact ⟨n + 1, .step hstep hn⟩

end Ends

/-- A walk ends when it comes to a node that leads nowhere, or to one it marks that is
refused or that leads back to itself, and else goes on for ever. -/
theorem exists_ends_iff : (∃ n, Ends next marks refused n (fun _ => False) a) ↔
    (∃ z, ReflTransGen next a z ∧ ∀ b, ¬ next z b) ∨
      ∃ c, ReflTransGen next a c ∧ marks c ∧ (refused c ∨ TransGen next c c) := by
  constructor
  · rintro ⟨n, h⟩
    have hgen : ∀ {n : Nat} {marked : α → Prop} {a : α}, Ends next marks refused n marked a →
        (∀ x, marked x → marks x ∧ TransGen next x a) →
          (∃ z, ReflTransGen next a z ∧ ∀ b, ¬ next z b) ∨
          ∃ c, ReflTransGen next a c ∧ marks c ∧ (refused c ∨ TransGen next c c) := by
      intro n marked a h
      induction h with
      | marked h => exact fun hmarked => .inr ⟨_, .refl, (hmarked _ h).1, .inr (hmarked _ h).2⟩
      | last h => exact fun _ => .inl ⟨_, .refl, h⟩
      | refused h h' => exact fun _ => .inr ⟨_, .refl, h, .inl h'⟩
      | step h _ ih =>
        intro hmarked
        rcases ih fun x hx =>
          hx.elim (fun hx => ⟨(hmarked x hx).1, (hmarked x hx).2.tail h⟩) fun hx =>
            ⟨hx.1 ▸ hx.2, hx.1 ▸ .single h⟩ with ⟨z, hz, hlast⟩ | ⟨c, hc, hwhy⟩
        · exact .inl ⟨z, .head h hz, hlast⟩
        · exact .inr ⟨c, .head h hc, hwhy⟩
    exact hgen h fun _ => False.elim
  · rintro (⟨z, hz, hlast⟩ | ⟨c, hc, hmarks, hrefused | hcycle⟩)
    · exact Ends.of_reaches hz (fun _ => ⟨0, .last hlast⟩) _
    · exact Ends.of_reaches hc (fun _ => ⟨0, .refused hmarks hrefused⟩) _
    · refine Ends.of_reaches hc (fun marked => ?_) _
      obtain ⟨b, hstep, hback⟩ := TransGen.head'_iff.mp hcycle
      obtain ⟨n, hn⟩ : ∃ n, Ends next marks refused n (fun x => marked x ∨ x = c ∧ marks c) b :=
        Ends.of_marked refused hback _ (.inr ⟨rfl, hmarks⟩)
      exact ⟨n + 1, .step hstep hn⟩

namespace Endless

variable (h : Endless next marks refused marked a)

include h

theorem unmarked : ¬ marked a := fun hmarked => h 0 (.marked hmarked)

theorem accepted (hmarks : marks a) : ¬ refused a :=
  fun hrefused => h 0 (.refused hmarks hrefused)

theorem exists_next : ∃ b, next a b := by
  refine Classical.byContradiction fun hnone => h 0 (.last fun b hb => hnone ⟨b, hb⟩)

theorem step (hstep : next a b) :
    Endless next marks refused (fun x => marked x ∨ x = a ∧ marks a) b :=
  fun n hn => h (n + 1) (.step hstep hn)

end Endless

end

end Hadris
