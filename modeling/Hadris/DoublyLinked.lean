import Mathlib.Data.List.Nodup
import Mathlib.Logic.Function.Basic
import Mathlib.Tactic.Common

namespace Hadris

open List

/-- The links of `next` lead from `start` through the nodes of a list to
`stop`. The ends of a whole list are linked to `none`. -/
def Visits {α : Type} (next : Option α → Option α) : Option α → List α → Option α → Prop
  | start, [], stop => next start = stop
  | start, a :: rest, stop => next start = some a ∧ Visits next (some a) rest stop

namespace Visits

variable {α : Type} [DecidableEq α] {next next' : Option α → Option α}
  {start stop stop' : Option α}
variable {xs ys : List α} {a b : α}

omit [DecidableEq α] in
theorem congr (h : Visits next start xs stop) (hstart : next' start = next start)
    (heq : ∀ a ∈ xs, next' (some a) = next (some a)) : Visits next' start xs stop := by
  induction xs generalizing start with
  | nil => exact hstart.trans h
  | cons a rest ih =>
    refine ⟨hstart.trans h.1, ih h.2 (heq a mem_cons_self) fun b hb => ?_⟩
    exact heq b (mem_cons_of_mem a hb)

omit [DecidableEq α] in
theorem append_cons_iff : Visits next start (xs ++ a :: ys) stop ↔
    Visits next start xs (some a) ∧ Visits next (some a) ys stop := by
  induction xs generalizing start with
  | nil => rfl
  | cons b rest ih => simp only [cons_append, Visits, ih, and_assoc]

omit [DecidableEq α] in
theorem head (h : Visits next start xs stop) : next start = xs.head?.or stop := by
  cases xs with
  | nil => exact h
  | cons a rest => exact h.1

theorem redirect (stop' : Option α) (h : Visits next start xs stop) (hxs : xs.Nodup)
    (hstart : ∀ a ∈ xs, start ≠ some a) :
    Visits (Function.update next (xs.getLast?.or start) stop') start xs stop' := by
  induction xs generalizing start with
  | nil => exact Function.update_self _ _ _
  | cons a rest ih =>
    have hrest := nodup_cons.mp hxs
    have hlast : (a :: rest).getLast?.or start = rest.getLast?.or (some a) := by
      rw [getLast?_cons]
      cases rest.getLast? <;> rfl
    rw [hlast]
    refine ⟨?_, ih h.2 hrest.2 fun b hb heq => hrest.1 (Option.some.inj heq ▸ hb)⟩
    rw [Function.update_of_ne, h.1]
    intro heq
    cases hrest' : rest.getLast? with
    | none =>
      rw [hrest', Option.none_or] at heq
      exact hstart a mem_cons_self heq
    | some b =>
      rw [hrest', Option.some_or] at heq
      exact hstart b (mem_cons_of_mem a (mem_of_getLast? hrest')) heq

theorem skip (h : Visits next none (xs ++ a :: ys) none) (hnodup : (xs ++ a :: ys).Nodup)
    (stop : Option α) :
    Visits (Function.update (Function.update next xs.getLast? (next (some a))) (some a) stop)
      none (xs ++ ys) none := by
  obtain ⟨hxs, hys⟩ := append_cons_iff.mp h
  obtain ⟨hnx, hny, hdisj⟩ := nodup_append.mp hnodup
  have hay := nodup_cons.mp hny
  have hleft := hxs.redirect (next (some a)) hnx fun a _ => (Option.some_ne_none a).symm
  rw [Option.or_none] at hleft
  have hleft' : Visits (Function.update (Function.update next xs.getLast? (next (some a)))
      (some a) stop) none xs (next (some a)) := by
    refine hleft.congr (Function.update_of_ne (Option.some_ne_none a).symm _ _) fun b hb => ?_
    refine Function.update_of_ne (fun heq => ?_) _ _
    exact hdisj b hb a mem_cons_self (Option.some.inj heq)
  cases ys with
  | nil =>
    have hend : next (some a) = none := hys
    rw [append_nil]
    rw [hend] at hleft' ⊢
    exact hleft'
  | cons b rest =>
    rw [hys.1] at hleft' ⊢
    have hmem : ∀ c ∈ b :: rest, c ≠ a ∧ xs.getLast? ≠ some c := by
      intro c hc
      refine ⟨fun heq => hay.1 (heq ▸ hc), fun hlast => ?_⟩
      exact hdisj c (mem_of_getLast? hlast) c (mem_cons_of_mem a hc) rfl
    have hkeep : ∀ c ∈ b :: rest, Function.update (Function.update next xs.getLast? (some b))
        (some a) stop (some c) = next (some c) := by
      intro c hc
      rw [Function.update_of_ne fun heq => (hmem c hc).1 (Option.some.inj heq),
        Function.update_of_ne fun heq => (hmem c hc).2 heq.symm]
    refine append_cons_iff.mpr ⟨hleft', hys.2.congr (hkeep b mem_cons_self) fun c hc => ?_⟩
    exact hkeep c (mem_cons_of_mem b hc)

theorem push_front (h : Visits next none xs none) (ha : a ∉ xs) :
    Visits (Function.update (Function.update next (some a) (next none)) none (some a))
      none (a :: xs) none := by
  refine ⟨Function.update_self _ _ _, ?_⟩
  have hkeep : ∀ b ∈ xs, Function.update (Function.update next (some a) (next none)) none (some a)
      (some b) = next (some b) := by
    intro b hb
    have hne : some b ≠ some a := fun heq => ha (Option.some.inj heq ▸ hb)
    rw [Function.update_of_ne (Option.some_ne_none b), Function.update_of_ne hne]
  have hfirst : Function.update (Function.update next (some a) (next none)) none (some a)
      (some a) = next none := by
    rw [Function.update_of_ne (Option.some_ne_none a), Function.update_self]
  cases xs with
  | nil => exact hfirst.trans h
  | cons b rest =>
    exact ⟨hfirst.trans h.1, h.2.congr (hkeep b mem_cons_self) fun c hc =>
      hkeep c (mem_cons_of_mem b hc)⟩

theorem push_back (h : Visits next none xs none) (hxs : xs.Nodup) (ha : a ∉ xs)
    (hlast : next (some a) = none) :
    Visits (Function.update next xs.getLast? (some a)) none (xs ++ [a]) none := by
  have hleft := h.redirect (some a) hxs fun a _ => (Option.some_ne_none a).symm
  rw [Option.or_none] at hleft
  refine append_cons_iff.mpr ⟨hleft, ?_⟩
  refine (Function.update_of_ne (fun heq => ?_) _ _).trans hlast
  exact ha (mem_of_getLast? heq.symm)

end Visits

/-- A list linked in both directions. -/
structure Doubly {α : Type} (next prev : Option α → Option α) (order : List α) : Prop where
  nodup : order.Nodup
  forward : Visits next none order none
  backward : Visits prev none order.reverse none

namespace Doubly

variable {α : Type} [DecidableEq α] {next prev : Option α → Option α} {order xs ys : List α}
variable {a : α}

omit [DecidableEq α] in
theorem nil_iff : Doubly next prev [] ↔ next none = none ∧ prev none = none :=
  ⟨fun h => ⟨h.forward, h.backward⟩, fun h => ⟨nodup_nil, h.1, h.2⟩⟩

omit [DecidableEq α] in
theorem flip (h : Doubly next prev order) : Doubly prev next order.reverse where
  nodup := nodup_reverse.mpr h.nodup
  forward := h.backward
  backward := by
    rw [reverse_reverse]
    exact h.forward

omit [DecidableEq α] in
theorem head (h : Doubly next prev order) : next none = order.head? := by
  rw [h.forward.head, Option.or_none]

omit [DecidableEq α] in
theorem tail (h : Doubly next prev order) : prev none = order.getLast? := by
  rw [h.flip.head, head?_reverse]

omit [DecidableEq α] in
theorem next_eq (h : Doubly next prev (xs ++ a :: ys)) : next (some a) = ys.head? := by
  rw [(Visits.append_cons_iff.mp h.forward).2.head, Option.or_none]

omit [DecidableEq α] in
theorem prev_eq (h : Doubly next prev (xs ++ a :: ys)) : prev (some a) = xs.getLast? := by
  have hflip := h.flip
  rw [reverse_append, reverse_cons, append_assoc, singleton_append] at hflip
  rw [next_eq hflip, head?_reverse]

theorem unlink (h : Doubly next prev (xs ++ a :: ys)) :
    Doubly
      (Function.update (Function.update next (prev (some a)) (next (some a))) (some a) none)
      (Function.update (Function.update prev (next (some a)) (prev (some a))) (some a) none)
      (xs ++ ys) where
  nodup := h.nodup.sublist ((List.Sublist.refl xs).append (sublist_cons_self a ys))
  forward := by
    rw [h.prev_eq]
    exact h.forward.skip h.nodup none
  backward := by
    have hflip := h.flip
    rw [reverse_append, reverse_cons, append_assoc, singleton_append] at hflip
    rw [h.next_eq, reverse_append, ← getLast?_reverse]
    exact hflip.forward.skip hflip.nodup none

theorem pushFront (h : Doubly next prev order) (ha : a ∉ order) (hprev : prev (some a) = none) :
    Doubly (Function.update (Function.update next (some a) (next none)) none (some a))
      (Function.update prev (next none) (some a)) (a :: order) where
  nodup := nodup_cons.mpr ⟨ha, h.nodup⟩
  forward := h.forward.push_front ha
  backward := by
    rw [h.head, reverse_cons, ← getLast?_reverse]
    exact h.backward.push_back h.flip.nodup (fun hmem => ha (mem_reverse.mp hmem)) hprev

theorem pushBack (h : Doubly next prev order) (ha : a ∉ order) (hnext : next (some a) = none) :
    Doubly (Function.update next (prev none) (some a))
      (Function.update (Function.update prev (some a) (prev none)) none (some a))
      (order ++ [a]) := by
  have hback := (h.flip.pushFront (fun hmem => ha (mem_reverse.mp hmem)) hnext).flip
  rwa [reverse_cons, reverse_reverse] at hback

end Doubly

end Hadris
