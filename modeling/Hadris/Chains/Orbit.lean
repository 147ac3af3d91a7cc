import Mathlib.Data.Nat.Log
import Mathlib.Data.Set.Card
import Mathlib.Logic.Relation
import Mathlib.Tactic.Common

namespace Hadris

open Relation (ReflTransGen)

section

variable {α : Type} (next : α → Option α) (a : α)

def orbit : Nat → Option α
  | 0 => some a
  | n + 1 => (orbit n).bind next

def reached : Set α := {b | ReflTransGen (fun x y => next x = some y) a b}

/-- The walk from `a` ends after `n` links, at `z`. -/
structure Stops (n : Nat) (z : α) : Prop where
  last : orbit next a n = some z
  ends : next z = none

/-- The walk from `a` passes `tail` nodes and then goes round a loop of `loop` nodes. -/
structure Loops (tail loop : Nat) : Prop where
  pos : 0 < loop
  defined : ∀ i, ∃ x, orbit next a i = some x
  closes : orbit next a (tail + loop) = orbit next a tail
  distinct : ∀ i j, i < j → j < tail + loop → orbit next a i ≠ orbit next a j

end

section

variable {α : Type} {next : α → Option α} {a z : α} {tail loop n : Nat}

theorem orbit_succ {x : α} (h : orbit next a n = some x) : orbit next a (n + 1) = next x := by
  simp [orbit, h]

theorem orbit_congr {i j : Nat} (h : orbit next a i = orbit next a j) (k : Nat) :
    orbit next a (i + k) = orbit next a (j + k) := by
  induction k with
  | zero => exact h
  | succ k ih =>
    change (orbit next a (i + k)).bind next = (orbit next a (j + k)).bind next
    rw [ih]

theorem orbit_defined {m : Nat} {x : α} (h : orbit next a n = some x) (hm : m ≤ n) :
    ∃ y, orbit next a m = some y := by
  induction n generalizing x with
  | zero =>
    obtain rfl : m = 0 := by omega
    exact ⟨x, h⟩
  | succ n ih =>
    rcases Nat.lt_or_ge n m with hlt | hle
    · obtain rfl : m = n + 1 := by omega
      exact ⟨x, h⟩
    · obtain ⟨y, hy, -⟩ := Option.bind_eq_some_iff.mp h
      exact ih hy hle

theorem mem_reached_iff {b : α} : b ∈ reached next a ↔ ∃ n, orbit next a n = some b := by
  constructor
  · intro h
    induction h with
    | refl => exact ⟨0, rfl⟩
    | tail _ hstep ih =>
      obtain ⟨n, hn⟩ := ih
      exact ⟨n + 1, (orbit_succ hn).trans hstep⟩
  · rintro ⟨n, hn⟩
    induction n generalizing b with
    | zero =>
      cases hn
      exact ReflTransGen.refl
    | succ n ih =>
      obtain ⟨x, hx, hstep⟩ := Option.bind_eq_some_iff.mp hn
      exact (ih hx).tail hstep

theorem of_mem_reached {p : α → Prop} (ha : p a)
    (hstep : ∀ x y, p x → next x = some y → p y) {b : α} (hb : b ∈ reached next a) : p b := by
  induction hb with
  | refl => exact ha
  | tail _ h ih => exact hstep _ _ ih h

namespace Stops

variable (h : Stops next a n z)
include h

theorem beyond {m : Nat} (hm : n < m) : orbit next a m = none := by
  induction m with
  | zero => omega
  | succ m ih =>
    rcases Nat.lt_or_ge n m with hlt | hle
    · change (orbit next a m).bind next = none
      rw [ih hlt]
      rfl
    · obtain rfl : m = n := by omega
      exact (orbit_succ h.last).trans h.ends

theorem defined {m : Nat} (hm : m ≤ n) : ∃ x, orbit next a m = some x := orbit_defined h.last hm

theorem distinct {i j : Nat} (hij : i < j) (hj : j ≤ n) : orbit next a i ≠ orbit next a j := by
  intro heq
  have hlater := orbit_congr heq (n - j + 1)
  rw [h.beyond (show n < j + (n - j + 1) by omega)] at hlater
  obtain ⟨x, hx⟩ := h.defined (show i + (n - j + 1) ≤ n by omega)
  rw [hx] at hlater
  cases hlater

theorem reached_eq : reached next a = {b | ∃ m ≤ n, orbit next a m = some b} := by
  ext b
  simp only [mem_reached_iff, Set.mem_ofPred_eq]
  constructor
  · rintro ⟨m, hm⟩
    refine ⟨m, ?_, hm⟩
    apply Nat.le_of_not_lt
    intro hlt
    rw [h.beyond hlt] at hm
    cases hm
  · rintro ⟨m, -, hm⟩
    exact ⟨m, hm⟩

end Stops

namespace Loops

variable (h : Loops next a tail loop)
include h

theorem period {i : Nat} (hi : tail ≤ i) (k : Nat) :
    orbit next a (i + k * loop) = orbit next a i := by
  induction k with
  | zero => simp
  | succ k ih =>
    have hround := orbit_congr h.closes (i - tail + k * loop)
    have hleft : i + (k + 1) * loop = tail + loop + (i - tail + k * loop) := by
      rw [Nat.succ_mul]
      omega
    have hright : tail + (i - tail + k * loop) = i + k * loop := by omega
    rw [hleft, hround, hright, ih]

theorem eq_iff {i d : Nat} (hd : 0 < d) : orbit next a i = orbit next a (i + d) ↔
    tail ≤ i ∧ loop ∣ d := by
  constructor
  · intro heq
    -- bring both places into the first round, where nodes are distinct
    have hfirst {j : Nat} (hj : tail ≤ j) : orbit next a (tail + (j - tail) % loop) =
        orbit next a j := by
      have hround := h.period (show tail ≤ tail + (j - tail) % loop by omega) ((j - tail) / loop)
      have hdiv := Nat.mod_add_div (j - tail) loop
      rw [Nat.mul_comm] at hdiv
      rw [← hround]
      congr 1
      omega
    have hlt (k : Nat) : k % loop < loop := Nat.mod_lt _ h.pos
    rcases Nat.lt_or_ge i tail with hi | hi
    · rcases Nat.lt_or_ge (i + d) tail with hj | hj
      · exact absurd heq (h.distinct i (i + d) (by omega) (by omega))
      · have := hlt (i + d - tail)
        exact absurd (heq.trans (hfirst hj).symm) (h.distinct _ _ (by omega) (by omega))
    · refine ⟨hi, ?_⟩
      have hi' := hlt (i - tail)
      have hj' := hlt (i + d - tail)
      have heq' := (hfirst hi).trans (heq.trans (hfirst (show tail ≤ i + d by omega)).symm)
      have hmod : (i - tail) % loop = (i + d - tail) % loop := by
        rcases Nat.lt_trichotomy ((i - tail) % loop) ((i + d - tail) % loop) with hl | he | hg
        · exact absurd heq' (h.distinct _ _ (by omega) (by omega))
        · exact he
        · exact absurd heq'.symm (h.distinct _ _ (by omega) (by omega))
      have hsplit : i + d - tail = i - tail + d := by omega
      rw [hsplit] at hmod
      have hdvd := (Nat.modEq_iff_dvd' (by omega)).mp hmod
      rwa [Nat.add_sub_cancel_left] at hdvd
  · rintro ⟨hi, k, rfl⟩
    rw [Nat.mul_comm]
    exact (h.period hi k).symm

theorem reached_eq : reached next a = {b | ∃ m < tail + loop, orbit next a m = some b} := by
  ext b
  simp only [mem_reached_iff, Set.mem_ofPred_eq]
  constructor
  · rintro ⟨m, hm⟩
    induction m using Nat.strong_induction_on with
    | _ m ih =>
      rcases Nat.lt_or_ge m (tail + loop) with hlt | hge
      · exact ⟨m, hlt, hm⟩
      · have hpos := h.pos
        have hback := h.period (show tail ≤ m - loop by omega) 1
        rw [Nat.one_mul, Nat.sub_add_cancel (by omega)] at hback
        exact ih (m - loop) (by omega) (hback ▸ hm)
  · rintro ⟨m, -, hm⟩
    exact ⟨m, hm⟩

end Loops

theorem ncard_orbit (hdefined : ∀ i < n, ∃ x, orbit next a i = some x)
    (hdistinct : ∀ i j, i < j → j < n → orbit next a i ≠ orbit next a j) :
    {b | ∃ m < n, orbit next a m = some b}.ncard = n := by
  have : Nonempty α := ⟨a⟩
  choose! x hx using hdefined
  have himage : {b | ∃ m < n, orbit next a m = some b} = x '' (Finset.range n : Set Nat) := by
    ext b
    constructor
    · rintro ⟨m, hm, hb⟩
      refine ⟨m, Finset.mem_coe.mpr (Finset.mem_range.mpr hm), ?_⟩
      rw [hx m hm] at hb
      exact Option.some.inj hb
    · rintro ⟨m, hm, rfl⟩
      have hm := Finset.mem_range.mp hm
      exact ⟨m, hm, hx m hm⟩
  have hinj : Set.InjOn x (Finset.range n : Set Nat) := by
    intro i hi j hj heq
    have hi := Finset.mem_range.mp hi
    have hj := Finset.mem_range.mp hj
    rcases Nat.lt_trichotomy i j with hlt | he | hgt
    · exact absurd ((hx i hi).trans (heq ▸ (hx j hj).symm)) (hdistinct i j hlt hj)
    · exact he
    · exact absurd ((hx j hj).trans (heq ▸ (hx i hi).symm)) (hdistinct j i hgt hi)
  rw [himage, hinj.ncard_image, Set.ncard_coe_finset, Finset.card_range]

theorem Stops.ncard (h : Stops next a n z) : (reached next a).ncard = n + 1 := by
  rw [h.reached_eq]
  have hcount := ncard_orbit (n := n + 1) (fun i hi => h.defined (by omega)) fun i j hij hj =>
    h.distinct hij (by omega)
  simpa only [Nat.lt_succ_iff] using hcount

theorem Loops.ncard (h : Loops next a tail loop) : (reached next a).ncard = tail + loop := by
  rw [h.reached_eq]
  exact ncard_orbit (fun i _ => h.defined i) h.distinct

theorem stops_or_loops (hfinite : (reached next a).Finite) :
    (∃ n z, Stops next a n z) ∨ ∃ tail loop, Loops next a tail loop := by
  by_cases hall : ∀ i, ∃ x, orbit next a i = some x
  · right
    choose x hx using hall
    have hmem (i : Nat) : x i ∈ reached next a := mem_reached_iff.mpr ⟨i, hx i⟩
    obtain ⟨i, -, j, -, hne, heq⟩ :=
      Set.infinite_univ.exists_ne_map_eq_of_mapsTo (fun i _ => hmem i) hfinite
    have hagain : ∃ j, ∃ i < j, x i = x j := by
      rcases Nat.lt_or_gt_of_ne hne with hlt | hgt
      · exact ⟨j, i, hlt, heq⟩
      · exact ⟨i, j, hgt, heq.symm⟩
    classical
    -- the first node that comes again closes the loop
    obtain ⟨tail, hlt, hclose⟩ := Nat.find_spec hagain
    refine ⟨tail, Nat.find hagain -
      tail, by omega, fun i => ⟨x i, hx i⟩, ?_, fun i j hij hj => ?_⟩
    · rw [Nat.add_sub_cancel' hlt.le, hx, hx, hclose]
    · intro heq
      rw [hx, hx] at heq
      exact Nat.find_min hagain (show j < Nat.find hagain by omega) ⟨i, hij, Option.some.inj heq⟩
  · left
    classical
    have hnone : ∃ i, orbit next a i = none := by
      obtain ⟨i, hi⟩ := not_forall.mp hall
      refine ⟨i, Option.eq_none_iff_forall_ne_some.mpr fun x hx => hi ⟨x, hx⟩⟩
    obtain ⟨n, hn⟩ : ∃ n, Nat.find hnone = n + 1 := by
      refine Nat.exists_eq_succ_of_ne_zero fun h => ?_
      have hspec := Nat.find_spec hnone
      rw [h] at hspec
      cases hspec
    obtain ⟨z, hz⟩ := Option.ne_none_iff_exists'.mp
      (Nat.find_min hnone (show n < Nat.find hnone by omega))
    refine ⟨n, z, hz, ?_⟩
    rw [← orbit_succ hz, ← hn]
    exact Nat.find_spec hnone

end

end Hadris

namespace Hadris

def markBefore (h : Nat) : Nat := 2 ^ Nat.log 2 h - 1

/-- Where a walk first meets its mark, after `tail` nodes and in a loop of `loop`: it goes
round once from the first mark in the loop that is kept long enough. -/
def meeting (tail loop : Nat) : Nat := 2 ^ Nat.clog 2 (max (tail + 1) loop) - 1 + loop

section

variable {h : Nat}

theorem markBefore_lt (hpos : 0 < h) : markBefore h < h := by
  have hpow := Nat.pow_log_le_self 2 hpos.ne'
  have hone := Nat.two_pow_pos (Nat.log 2 h)
  rw [markBefore]
  omega

theorem lt_two_pow_log_succ (h : Nat) : h < 2 * 2 ^ Nat.log 2 h := by
  have hlt := Nat.lt_pow_succ_log_self Nat.one_lt_two h
  rwa [Nat.pow_succ, Nat.mul_comm] at hlt

theorem log_succ (hpos : 0 < h) :
    Nat.log 2 (h + 1) = if h + 1 = 2 * 2 ^ Nat.log 2 h then Nat.log 2 h + 1 else Nat.log 2 h := by
  have hlow := Nat.pow_log_le_self 2 hpos.ne'
  have hhigh := lt_two_pow_log_succ h
  split
  · rename_i heq
    apply Nat.log_eq_of_pow_le_of_lt_pow
    · rw [Nat.pow_succ]
      omega
    · rw [Nat.pow_succ, Nat.pow_succ]
      omega
  · rename_i hne
    apply Nat.log_eq_of_pow_le_of_lt_pow
    · omega
    · rw [Nat.pow_succ]
      omega

end

section

variable {α : Type} {next : α → Option α} {a z : α} {tail loop n h : Nat}

theorem Stops.not_meets (hstops : Stops next a n z) (hpos : 0 < h) (hn : h ≤ n) :
    orbit next a (markBefore h) ≠ orbit next a h :=
  hstops.distinct (markBefore_lt hpos) hn

theorem log_meeting (hloop : 0 < loop) :
    Nat.log 2 (meeting tail loop) = Nat.clog 2 (max (tail + 1) loop) := by
  have hle := Nat.le_pow_clog Nat.one_lt_two (max (tail + 1) loop)
  apply Nat.log_eq_of_pow_le_of_lt_pow
  · rw [meeting]
    omega
  · rw [meeting, Nat.pow_succ]
    omega

theorem meeting_pos (hloop : 0 < loop) : 0 < meeting tail loop := by
  rw [meeting]
  omega

theorem meeting_eq (hloop : 0 < loop) :
    meeting tail loop = markBefore (meeting tail loop) + loop := by
  rw [markBefore, log_meeting hloop]
  rfl

theorem Loops.meets (hloops : Loops next a tail loop) :
    orbit next a (markBefore (meeting tail loop)) = orbit next a (meeting tail loop) := by
  have hle := Nat.le_pow_clog Nat.one_lt_two (max (tail + 1) loop)
  have htail : tail ≤ markBefore (meeting tail loop) := by
    rw [markBefore, log_meeting hloops.pos]
    omega
  rw [(hloops.eq_iff hloops.pos).mpr ⟨htail, dvd_rfl⟩, ← meeting_eq hloops.pos]

theorem Loops.meeting_le (hloops : Loops next a tail loop) (hpos : 0 < h)
    (hmeets : orbit next a (markBefore h) = orbit next a h) : meeting tail loop ≤ h := by
  have hlt := markBefore_lt hpos
  have hlow := Nat.pow_log_le_self 2 hpos.ne'
  have hhigh := lt_two_pow_log_succ h
  have hone := Nat.two_pow_pos (Nat.log 2 h)
  have hsplit : markBefore h + (h - markBefore h) = h := by omega
  obtain ⟨htail, hdvd⟩ := (hloops.eq_iff (Nat.sub_pos_of_lt hlt)).mp
    (hmeets.trans (by rw [hsplit]))
  have hle := Nat.le_of_dvd (by omega) hdvd
  simp only [markBefore] at hlt htail hle
  have hclog : Nat.clog 2 (max (tail + 1) loop) ≤ Nat.log 2 h :=
    Nat.clog_le_of_le_pow (by omega)
  have hpow := Nat.pow_le_pow_right Nat.two_pos hclog
  rw [meeting]
  omega

theorem meeting_le_mul (tail loop : Nat) : meeting tail loop ≤ 2 * max tail loop + loop := by
  rw [meeting]
  rcases Nat.lt_or_ge 1 (max (tail + 1) loop) with hlt | hle
  · have hpred := Nat.pow_pred_clog_lt_self Nat.one_lt_two hlt
    have hpos : 0 < Nat.clog 2 (max (tail + 1) loop) := Nat.clog_pos Nat.one_lt_two hlt
    obtain ⟨k, hk⟩ := Nat.exists_eq_succ_of_ne_zero hpos.ne'
    rw [hk, Nat.pred_succ] at hpred
    rw [hk, Nat.pow_succ]
    omega
  · rw [Nat.clog_of_right_le_one hle]
    omega

end

end Hadris
