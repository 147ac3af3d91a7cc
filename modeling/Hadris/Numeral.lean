import Mathlib.Algebra.Order.Group.Nat
import Mathlib.Tactic.Ring

namespace Hadris

section

variable {α : Type} {base : Nat} {digit : Nat → α} {digit? : α → Option Nat}

def numeral (base : Nat) (digit : Nat → α) : Nat → Nat → List α
  | 0, _ => []
  | width + 1, value => numeral base digit width (value / base) ++ [digit (value % base)]

def readNumeral (base : Nat) (digit? : α → Option Nat) : Nat → List α → Option Nat
  | acc, [] => some acc
  | acc, a :: rest => (digit? a).bind fun d => readNumeral base digit? (acc * base + d) rest

@[simp] theorem numeral_length (width value : Nat) :
    (numeral base digit width value).length = width := by
  induction width generalizing value with
  | zero => rfl
  | succ width ih => rw [numeral, List.length_append, ih, List.length_singleton]

theorem readNumeral_append (acc : Nat) (front back : List α) :
    readNumeral base digit? acc (front ++ back) =
      (readNumeral base digit? acc front).bind fun acc => readNumeral base digit? acc back := by
  induction front generalizing acc with
  | nil => rfl
  | cons a front ih =>
    rw [List.cons_append, readNumeral, readNumeral, Option.bind_assoc]
    congr 1
    funext d
    exact ih _

theorem readNumeral_numeral (hbase : 0 < base) (hdigit : ∀ d < base, digit? (digit d) = some d)
    {width value : Nat} (hvalue : value < base ^ width) (acc : Nat) :
    readNumeral base digit? acc (numeral base digit width value) =
      some (acc * base ^ width + value) := by
  induction width generalizing value with
  | zero =>
    obtain rfl : value = 0 := by simpa using hvalue
    simp [numeral, readNumeral]
  | succ width ih =>
    have hhigh : value / base < base ^ width := by
      rw [Nat.div_lt_iff_lt_mul hbase]
      rwa [Nat.pow_succ] at hvalue
    rw [numeral, readNumeral_append, ih hhigh, Option.bind_some, readNumeral,
      hdigit _ (Nat.mod_lt _ hbase), Option.bind_some, readNumeral]
    have hsplit := Nat.div_add_mod value base
    congr 1
    rw [Nat.pow_succ]
    calc (acc * base ^ width + value / base) * base + value % base
        = acc * (base ^ width * base) + (base * (value / base) + value % base) := by ring
      _ = acc * (base ^ width * base) + value := by rw [hsplit]

end

end Hadris
