import Mathlib.Data.Nat.Bitwise
import Mathlib.Tactic.Common

namespace Hadris

/-- Code over unsigned integers of a fixed width: nothing when an operation
leaves its type, else what the code returns. -/
abbrev Checked (ε : Type) := ExceptT ε Option

namespace Checked

variable {ε α β : Type}

def overflow : Checked ε α := ExceptT.mk none

def lift (result : Except ε α) : Checked ε α := ExceptT.mk (some result)

def fit (width n : Nat) : Checked ε Nat := if n < 2 ^ width then pure n else overflow

def add (width a b : Nat) : Checked ε Nat := fit width (a + b)

def mul (width a b : Nat) : Checked ε Nat := fit width (a * b)

def sub (a b : Nat) : Checked ε Nat := if b ≤ a then pure (a - b) else overflow

def shl (width a n : Nat) : Checked ε Nat :=
  if n < width then pure (a * 2 ^ n % 2 ^ width) else overflow

def shr (width a n : Nat) : Checked ε Nat := if n < width then pure (a / 2 ^ n) else overflow

def divCeil (width a b : Nat) : Checked ε Nat :=
  if b = 0 then overflow
  else if 0 < a % b then add width (a / b) 1
  else pure (a / b)

def checkedMul (width a b : Nat) : Option Nat := if a * b < 2 ^ width then some (a * b) else none

def cast (width n : Nat) : Nat := n % 2 ^ width

def trailingZeros (width n : Nat) : Nat :=
  ((List.range width).takeWhile fun bit => !n.testBit bit).length

def reject (wrong : Bool) (error : ε) : Checked ε Unit :=
  lift (if wrong then .error error else .ok ())

def returns (code : Checked ε α) : Bool :=
  match code.run with
  | some (.ok _) => true
  | _ => false

theorem lift_ok (a : α) : (lift (.ok a) : Checked ε α) = pure a := rfl

theorem lift_bind (result : Except ε α) (f : α → Except ε β) :
    lift (result >>= f) = lift result >>= fun a => lift (f a) := by
  cases result <;> rfl

theorem fit_of_lt {width n : Nat} (h : n < 2 ^ width) : (fit width n : Checked ε Nat) = pure n :=
  if_pos h

theorem add_of_lt {width a b : Nat} (h : a + b < 2 ^ width) :
    (add width a b : Checked ε Nat) = pure (a + b) := fit_of_lt h

theorem mul_of_lt {width a b : Nat} (h : a * b < 2 ^ width) :
    (mul width a b : Checked ε Nat) = pure (a * b) := fit_of_lt h

theorem sub_of_le {a b : Nat} (h : b ≤ a) : (sub a b : Checked ε Nat) = pure (a - b) := if_pos h

theorem shl_of_lt {width a n : Nat} (hn : n < width) (h : a * 2 ^ n < 2 ^ width) :
    (shl width a n : Checked ε Nat) = pure (a * 2 ^ n) := by
  rw [shl, if_pos hn, Nat.mod_eq_of_lt h]

theorem shr_of_lt {width a n : Nat} (h : n < width) :
    (shr width a n : Checked ε Nat) = pure (a / 2 ^ n) := if_pos h

theorem checkedMul_eq_none {width a b : Nat} :
    checkedMul width a b = none ↔ 2 ^ width ≤ a * b := by
  simp [checkedMul]

theorem cast_of_lt {width n : Nat} (h : n < 2 ^ width) : cast width n = n := Nat.mod_eq_of_lt h

theorem mul_lt_two_pow {a b m n : Nat} (ha : a < 2 ^ m) (hb : b < 2 ^ n) :
    a * b < 2 ^ (m + n) := by
  rw [Nat.pow_add]
  exact Nat.mul_lt_mul'' ha hb

theorem add_sub_one_div (a : Nat) {b : Nat} (hb : 0 < b) :
    (a + b - 1) / b = if 0 < a % b then a / b + 1 else a / b := by
  have hdiv := Nat.div_add_mod a b
  have hmod := Nat.mod_lt a hb
  split
  · rw [show a + b - 1 = a % b - 1 + b * (a / b + 1) by rw [Nat.mul_succ]; omega,
      Nat.add_mul_div_left _ _ hb, Nat.div_eq_of_lt (by omega), Nat.zero_add]
  · rw [show a + b - 1 = b - 1 + b * (a / b) by omega, Nat.add_mul_div_left _ _ hb,
      Nat.div_eq_of_lt (by omega), Nat.zero_add]

theorem divCeil_of_lt {width a b : Nat} (hb : 0 < b) (h : a / b + 1 < 2 ^ width) :
    (divCeil width a b : Checked ε Nat) = pure ((a + b - 1) / b) := by
  rw [divCeil, if_neg hb.ne', add_sub_one_div a hb]
  split
  · exact add_of_lt h
  · rfl

theorem trailingZeros_two_pow {width k : Nat} (h : k < width) :
    trailingZeros width (2 ^ k) = k := by
  obtain ⟨rest, rfl⟩ := Nat.exists_eq_add_of_lt h
  rw [trailingZeros, Nat.add_assoc, List.range_add, List.range_succ_eq_map, List.map_cons,
    List.takeWhile_append_of_pos, List.takeWhile_cons_of_neg]
  · simp
  · simp
  · intro bit hbit
    have hlt := List.mem_range.mp hbit
    simp [show k ≠ bit by omega]

theorem reject_bind (wrong : Bool) (error : ε) (f : Unit → Checked ε α) :
    reject wrong error >>= f = if wrong then lift (.error error) else f () := by
  cases wrong <;> rfl

theorem bind_run_ok {x : Checked ε α} {f : α → Checked ε β} {b : β}
    (h : (x >>= f).run = some (.ok b)) :
    ∃ a, x.run = some (.ok a) ∧ (f a).run = some (.ok b) := by
  rcases hx : x.run with _ | _ | a
  · change (ExceptT.run x).bind _ = _ at h
    rw [hx] at h
    cases h
  · change (ExceptT.run x).bind _ = _ at h
    rw [hx] at h
    cases h
  · change (ExceptT.run x).bind _ = _ at h
    rw [hx] at h
    exact ⟨a, rfl, h⟩

theorem bind_run_of_ok {x : Checked ε α} {f : α → Checked ε β} {a : α}
    (h : x.run = some (.ok a)) :
    (x >>= f).run = (f a).run := by
  change (ExceptT.run x).bind _ = _
  rw [h]
  rfl

theorem bind_run_ne {x : Checked ε α} {f : α → Checked ε β} (hx : x.run ≠ none)
    (hf : ∀ a, x.run = some (.ok a) → (f a).run ≠ none) : (x >>= f).run ≠ none := by
  change (ExceptT.run x).bind _ ≠ none
  rcases hrun : x.run with _ | _ | a
  · exact absurd hrun hx
  · exact Option.some_ne_none _
  · exact hf a hrun

theorem lift_run_ok {result : Except ε α} {a : α} : (lift result).run = some (.ok a) ↔
    result = .ok a := by
  rw [lift, ExceptT.run_mk, Option.some.injEq]

theorem lift_run_ne (result : Except ε α) : (lift result).run ≠ none := Option.some_ne_none _

theorem add_run_ok {width a b c : Nat} :
    (add width a b : Checked ε Nat).run = some (.ok c) ↔ a + b < 2 ^ width ∧ a + b = c := by
  rw [add, fit]
  split
  · rename_i h
    rw [and_iff_right h]
    exact ⟨fun h => by cases h; rfl, fun h => by rw [h]; rfl⟩
  · rename_i h
    exact ⟨fun h => (by cases h), fun hlt => absurd hlt.1 h⟩

theorem add_run_ne {width a b : Nat} (h : a + b < 2 ^ width) :
    (add width a b : Checked ε Nat).run ≠ none := by
  rw [add_of_lt h]
  exact Option.some_ne_none _

theorem sub_run_ne {a b : Nat} (h : b ≤ a) : (sub a b : Checked ε Nat).run ≠ none := by
  rw [sub_of_le h]
  exact Option.some_ne_none _

theorem sub_run_ok {a b c : Nat} :
    (sub a b : Checked ε Nat).run = some (.ok c) ↔ b ≤ a ∧ a - b = c := by
  rw [sub]
  split
  · rename_i h
    rw [and_iff_right h]
    exact ⟨fun h => by cases h; rfl, fun h => by rw [h]; rfl⟩
  · rename_i h
    exact ⟨fun h => (by cases h), fun hle => absurd hle.1 h⟩

theorem reject_run_ok {wrong : Bool} {error : ε} {u : Unit} :
    (reject wrong error).run = some (.ok u) ↔ wrong = false := by
  rw [reject, lift_run_ok]
  cases wrong
  · exact iff_of_true rfl rfl
  · exact iff_of_false (fun h => by cases h) (fun h => by cases h)

theorem run_of_returns {code : Checked ε α} (h : code.returns = true) :
    ∃ a, code.run = some (.ok a) := by
  rw [returns] at h
  split at h
  · rename_i a hrun
    exact ⟨a, hrun⟩
  · cases h

end Checked

end Hadris
