import Hadris.Borrow
import Hadris.Chains.Orbit

namespace Hadris

open ChainGuard (u32Max)

/-- Short of twice the largest power, the walk reaches a mark where the power says so, and
there the power doubles. -/
theorem mark_moves {h : Nat} (hpos : 0 < h) (hsat : h < 2 * u32Max) :
    (h - markBefore h = min (2 ^ Nat.log 2 h) u32Max ↔ h + 1 = 2 * 2 ^ Nat.log 2 h) ∧
      (h + 1 = 2 * 2 ^ Nat.log 2 h →
        min (min (2 ^ Nat.log 2 h) u32Max * 2) u32Max = min (2 ^ Nat.log 2 (h + 1)) u32Max) := by
  have hmax : u32Max = 4294967295 := rfl
  have hlow := Nat.pow_log_le_self 2 hpos.ne'
  have hhigh := lt_two_pow_log_succ h
  have hone := Nat.two_pow_pos (Nat.log 2 h)
  have hlog := log_succ hpos
  rcases Nat.lt_or_ge (Nat.log 2 h) 32 with hlt | hge
  · have hsmall : 2 ^ Nat.log 2 h ≤ 2 ^ 31 := Nat.pow_le_pow_right Nat.two_pos (by omega)
    refine ⟨?_, fun heq => ?_⟩
    · rw [markBefore]
      omega
    · rw [hlog, if_pos heq, Nat.pow_succ]
      omega
  · have hlarge : 2 ^ 32 ≤ 2 ^ Nat.log 2 h := Nat.pow_le_pow_right Nat.two_pos hge
    have hexp : Nat.log 2 h = 32 := by
      rcases Nat.lt_or_ge 32 (Nat.log 2 h) with hgt | hle
      · have := Nat.pow_le_pow_right Nat.two_pos hgt
        omega
      · omega
    rw [hexp] at hhigh hlow
    rw [markBefore, hexp]
    omega

theorem markBefore_succ {h : Nat} (hpos : 0 < h) :
    markBefore (h + 1) = if h + 1 = 2 * 2 ^ Nat.log 2 h then h else markBefore h := by
  rw [markBefore, log_succ hpos]
  split
  · rw [Nat.pow_succ]
    omega
  · rfl

/-- The positions that walks along the chain at `first` come to: one that starts there, and
any that goes on from a remembered position. -/
inductive Remembered (next : Nat → Option Nat) (first : Nat) : ChainPos → Prop
  | start : Remembered next first (ChainPos.start first)
  | advance {at_ at' : ChainPos} {cluster : Nat} (h : Remembered next first at_)
      (hnext : next at_.cluster = some cluster) (hstep : at_.advance cluster = some at') :
      Remembered next first at'

/-- The guard of a walk at index `i` of the chain at `first`. -/
structure Guards (next : Nat → Option Nat) (first i : Nat) (guard : ChainGuard) : Prop where
  mark : orbit next first (markBefore (i + 1)) = some guard.mark
  power : guard.power = min (2 ^ Nat.log 2 (i + 1)) u32Max
  steps : guard.steps = i - markBefore (i + 1)

section

variable {next : Nat → Option Nat} {first i cluster tail loop n z : Nat}
  {guard guard' : ChainGuard} {at_ at' : ChainPos}

theorem guards_new : Guards next first 0 (ChainGuard.new first) := ⟨rfl, rfl, rfl⟩

theorem Guards.step_eq_none_iff (h : Guards next first i guard)
    (hnext : orbit next first (i + 1) = some cluster) :
    guard.step cluster = none ↔ orbit next first (markBefore (i + 1)) =
      orbit next first (i + 1) := by
  rw [h.mark, hnext, Option.some.injEq, ChainGuard.step]
  constructor
  · intro hnone
    split at hnone
    · rename_i heq
      exact heq.symm
    · split at hnone <;> cases hnone
  · intro heq
    rw [if_pos heq.symm]

theorem Guards.step (h : Guards next first i guard) (hsat : i + 1 < 2 * u32Max)
    (hnext : orbit next first (i + 1) = some cluster) (hstep : guard.step cluster = some guard') :
    Guards next first (i + 1) guard' := by
  have hpos : 0 < i + 1 := i.succ_pos
  have hlt := markBefore_lt hpos
  obtain ⟨hmoves, hpower⟩ := mark_moves hpos hsat
  have hsteps : guard.steps + 1 = i + 1 - markBefore (i + 1) := by
    rw [h.steps]
    omega
  simp only [ChainGuard.step, hsteps, h.power, hmoves] at hstep
  split at hstep
  · cases hstep
  split at hstep
  · rename_i heq
    cases hstep
    refine ⟨?_, hpower heq, ?_⟩
    · rw [markBefore_succ hpos, if_pos heq]
      exact hnext
    · rw [markBefore_succ hpos, if_pos heq, Nat.sub_self]
  · rename_i hne
    cases hstep
    refine ⟨?_, ?_, ?_⟩
    · rw [markBefore_succ hpos, if_neg hne]
      exact h.mark
    · rw [log_succ hpos, if_neg hne]
    · rw [markBefore_succ hpos, if_neg hne]

/-- A position is where the walk is, with the guard of the way there. -/
structure Walked (next : Nat → Option Nat) (first : Nat) (at_ : ChainPos) : Prop where
  cluster : orbit next first at_.index = some at_.cluster
  guard : Guards next first at_.index at_.guard

theorem Walked.step (h : Walked next first at_) (hnext : next at_.cluster = some cluster) :
    orbit next first (at_.index + 1) = some cluster := (orbit_succ h.cluster).trans hnext

theorem Walked.advance_eq_none_iff (h : Walked next first at_)
    (hnext : next at_.cluster = some cluster) :
    at_.advance cluster = none ↔ orbit next first (markBefore (at_.index + 1)) = orbit next first
      (at_.index + 1) := by
  rw [ChainPos.advance, Option.map_eq_none_iff]
  exact h.guard.step_eq_none_iff (h.step hnext)

theorem Walked.advance (h : Walked next first at_) (hsat : at_.index + 1 < 2 * u32Max)
    (hnext : next at_.cluster = some cluster) (hstep : at_.advance cluster = some at') :
    Walked next first at' ∧ at'.index = at_.index + 1 := by
  obtain ⟨guard, hguard, rfl⟩ := Option.map_eq_some_iff.mp hstep
  exact ⟨⟨h.step hnext, h.guard.step hsat (h.step hnext) hguard⟩, rfl⟩

theorem meeting_lt_sat (hloop : 0 < loop) (hle : tail + loop ≤ 0xFFFFFFF5) :
    meeting tail loop + 1 < 2 * u32Max := by
  have hmax : u32Max = 4294967295 := rfl
  have hclog : Nat.clog 2 (max (tail + 1) loop) ≤ 32 := Nat.clog_le_of_le_pow (by omega)
  have hpow := Nat.pow_le_pow_right Nat.two_pos hclog
  rw [meeting]
  omega

theorem Remembered.walked_of_stops (h : Remembered next first at_) (hstops : Stops next first n z)
    (hn : n < 0xFFFFFFF5) :
    Walked next first at_ ∧ at_.index ≤ n := by
  have hmax : u32Max = 4294967295 := rfl
  induction h with
  | start => exact ⟨⟨rfl, guards_new⟩, Nat.zero_le n⟩
  | @advance at_ at' cluster _ hnext hstep ih =>
    obtain ⟨hwalked, hle⟩ := ih
    have hlt : at_.index + 1 ≤ n := by
      refine Nat.le_of_not_lt fun hlt => ?_
      have hbeyond := hstops.beyond hlt
      rw [hwalked.step hnext] at hbeyond
      cases hbeyond
    obtain ⟨hwalked', hindex⟩ := hwalked.advance (by omega) hnext hstep
    exact ⟨hwalked', by omega⟩

theorem Remembered.walked_of_loops (h : Remembered next first at_)
    (hloops : Loops next first tail loop)
    (hle : tail + loop ≤ 0xFFFFFFF5) : Walked next first at_ ∧ at_.index < meeting tail loop := by
  have hsat := meeting_lt_sat hloops.pos hle
  induction h with
  | start => exact ⟨⟨rfl, guards_new⟩, meeting_pos hloops.pos⟩
  | @advance at_ at' cluster _ hnext hstep ih =>
    obtain ⟨hwalked, hlt⟩ := ih
    obtain ⟨hwalked', hindex⟩ := hwalked.advance (by omega) hnext hstep
    refine ⟨hwalked', Nat.lt_of_le_of_ne (by omega) fun heq => ?_⟩
    -- at the meeting the walk would have been stopped
    have hmeets := hloops.meets
    rw [← heq, hindex, ← hwalked.advance_eq_none_iff hnext, hstep] at hmeets
    cases hmeets

theorem Remembered.advance_of_stops (h : Remembered next first at_)
    (hstops : Stops next first n z) (hn : n < 0xFFFFFFF5)
    (hnext : next at_.cluster = some cluster) : at_.advance cluster ≠ none := by
  obtain ⟨hwalked, -⟩ := h.walked_of_stops hstops hn
  have hlt : at_.index + 1 ≤ n := by
    refine Nat.le_of_not_lt fun hlt => ?_
    have hbeyond := hstops.beyond hlt
    rw [hwalked.step hnext] at hbeyond
    cases hbeyond
  rw [ne_eq, hwalked.advance_eq_none_iff hnext]
  exact hstops.not_meets (Nat.succ_pos _) hlt

theorem Remembered.advance_of_loops (h : Remembered next first at_)
    (hloops : Loops next first tail loop)
    (hle : tail + loop ≤ 0xFFFFFFF5) (hnext : next at_.cluster = some cluster) :
    at_.advance cluster = none ↔ at_.index + 1 = meeting tail loop := by
  obtain ⟨hwalked, hlt⟩ := h.walked_of_loops hloops hle
  rw [hwalked.advance_eq_none_iff hnext]
  constructor
  · intro hmeets
    have := hloops.meeting_le (Nat.succ_pos _) hmeets
    omega
  · intro heq
    rw [heq]
    exact hloops.meets

end

end Hadris
