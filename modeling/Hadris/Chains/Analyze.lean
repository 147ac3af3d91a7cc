import Hadris.BlockBuf
import Hadris.Chains.Guard

namespace Hadris

open ChainGuard (u32Max)
open Prog (Triple)

/-- How a chain ends. -/
inductive End where
  | eoc
  | bad (cluster : Nat)
  | broken (cluster : Nat)
  | cycle (cluster : Nat)
deriving DecidableEq, Repr

/-- A chain's length in distinct clusters and how it ends. -/
structure Chain where
  len : Nat
  end_ : End
deriving DecidableEq, Repr

/-- Where the FAT entry of a cluster leads. -/
inductive Link where
  | next (cluster : Nat)
  | end_ (e : End)
deriving DecidableEq, Repr

def Link.cluster? : Link → Option Nat
  | .next cluster => some cluster
  | .end_ _ => none

/-- A sum of 32 bits. One that does not fit panics in a build that checks for overflow, and
wraps around in one that does not. -/
def plus (checked : Bool) (a b : Nat) : Option Nat :=
  if a + b < 2 ^ 32 then some (a + b) else if checked then none else some ((a + b) % 2 ^ 32)

section

variable (link : Nat → Prog Io Stop Link) (checked : Bool)

def stepWith (cluster : Nat) : Prog Io Stop Nat := do
  match ← link cluster with
  | .next next => pure next
  | .end_ _ => Prog.fail (.ofKind .corrupt)

/-- The tortoise waits while the hare moves on, and is put where the hare is each time it
has gone as far as `power`: the chain where it ends, or the length of its loop where they
meet. -/
def searchWith : Nat → Nat → Nat → Nat → Nat → Nat → Prog Io Stop (Option (Nat ⊕ Chain))
  | 0, _, _, _, _, _ => Prog.fail .diverged
  | turns + 1, tortoise, hare, steps, power, lambda =>
    if tortoise = hare then pure (some (.inl lambda))
    else do
      let (tortoise, power, lambda) :=
        if power = lambda then (hare, min (power * 2) u32Max, 0) else (tortoise, power, lambda)
      match ← link hare with
      | .end_ e => pure ((plus checked steps 1).map fun len => .inr ⟨len, e⟩)
      | .next hare =>
        match plus checked steps 1, plus checked lambda 1 with
        | some steps, some lambda => searchWith turns tortoise hare steps power lambda
        | _, _ => pure none

def aheadWith : Nat → Nat → Nat → Prog Io Stop (Nat × Nat)
  | 0, hare, last => pure (hare, last)
  | lambda + 1, hare, _ => do
      let next ← stepWith link hare
      aheadWith lambda next hare

/-- Moves both on until they meet: the number of links, and the cluster the hare was at
last. -/
def entryWith : Nat → Nat → Nat → Nat → Nat → Prog Io Stop (Option (Nat × Nat))
  | 0, _, _, _, _ => Prog.fail .diverged
  | turns + 1, tortoise, hare, last, mu =>
    if tortoise = hare then pure (some (mu, last))
    else do
      let tortoise ← stepWith link tortoise
      let next ← stepWith link hare
      match plus checked mu 1 with
      | some mu => entryWith turns tortoise next hare mu
      | none => pure none

def cycleWith (turns first lambda : Nat) : Prog Io Stop (Option Chain) := do
  let (hare, last) ← aheadWith link lambda first first
  match ← entryWith link checked turns first hare last 0 with
  | some (mu, last) => pure ((plus checked mu lambda).map fun len => ⟨len, .cycle last⟩)
  | none => pure none

/-- Measures the chain at `first`, finding a cycle with Brent's algorithm; `none` where the
build panics. -/
def analyzeWith (turns first : Nat) : Prog Io Stop (Option Chain) := do
  match ← link first with
  | .end_ e => pure (some ⟨1, e⟩)
  | .next hare => do
      match ← searchWith link checked turns first hare 1 1 1 with
      | some (.inr chain) => pure (some chain)
      | some (.inl lambda) => cycleWith link checked turns first lambda
      | none => pure none

end

theorem plus_of_lt {checked : Bool} {a b : Nat} (h : a + b < 2 ^ 32) :
    plus checked a b = some (a + b) := if_pos h

/-- Where the program `link` leads from the clusters of `D`, which it does not leave. -/
structure FollowsLinks (J : Io → Prop) (E : Stop → Io → Prop) (D : Nat → Prop)
    (link : Nat → Prog Io Stop Link) (f : Nat → Link) : Prop where
  reads : ∀ c, D c → Triple J (link c) (fun l io => l = f c ∧ J io) E
  closed : ∀ c d, D c → f c = .next d → D d

/-- The places of the hare and the tortoise when the hare is `h` links on. -/
structure Searching (next : Nat → Option Nat) (first h tortoise hare power lambda : Nat) :
    Prop where
  tortoise : orbit next first (markBefore h) = some tortoise
  hare : orbit next first h = some hare
  power : power = min (2 ^ Nat.log 2 h) u32Max
  lambda : lambda = h - markBefore h

section

variable {next : Nat → Option Nat}
  {first h n z tortoise hare power lambda tail loop cluster : Nat}

theorem searching_one (hnext : next first = some hare) : Searching next first 1 first hare 1 1 :=
  ⟨rfl, hnext, rfl, rfl⟩

theorem Searching.meets_iff (hs : Searching next first h tortoise hare power lambda) :
    tortoise = hare ↔ orbit next first (markBefore h) = orbit next first h := by
  rw [hs.tortoise, hs.hare, Option.some.injEq]

theorem Searching.moved (hs : Searching next first h tortoise hare power lambda) (hpos : 0 < h)
    (hsat : h < 2 * u32Max) (hnext : next hare = some cluster) (hlambda : power = lambda) :
    Searching next first (h + 1) hare cluster (min (power * 2) u32Max) 1 := by
  obtain ⟨hmoves, hpower⟩ := mark_moves hpos hsat
  have heq := hmoves.mp (by rw [← hs.lambda, ← hs.power, hlambda])
  have hmark : markBefore (h + 1) = h := by rw [markBefore_succ hpos, if_pos heq]
  refine ⟨?_, (orbit_succ hs.hare).trans hnext, ?_, ?_⟩
  · rw [hmark]
    exact hs.hare
  · rw [hs.power]
    exact hpower heq
  · rw [hmark]
    omega

theorem Searching.stayed (hs : Searching next first h tortoise hare power lambda) (hpos : 0 < h)
    (hsat : h < 2 * u32Max) (hnext : next hare = some cluster) (hlambda : power ≠ lambda) :
    Searching next first (h + 1) tortoise cluster power (lambda + 1) ∧ lambda + 1 < 2 ^ 32 := by
  have hmax : u32Max = 4294967295 := rfl
  obtain ⟨hmoves, -⟩ := mark_moves hpos hsat
  have hne : ¬ h + 1 = 2 * 2 ^ Nat.log 2 h := by
    rw [← hmoves, ← hs.lambda, ← hs.power]
    exact fun heq => hlambda heq.symm
  have hmark : markBefore (h + 1) = markBefore h := by rw [markBefore_succ hpos, if_neg hne]
  have hlt := markBefore_lt hpos
  have hl := hs.lambda
  have hhigh := lt_two_pow_log_succ h
  have hlow := Nat.pow_log_le_self 2 hpos.ne'
  refine ⟨⟨?_, (orbit_succ hs.hare).trans hnext, ?_, ?_⟩, ?_⟩
  · rw [hmark]
    exact hs.tortoise
  · rw [hs.power, log_succ hpos, if_neg hne]
  · rw [hmark]
    omega
  · rw [markBefore] at hl
    omega

def nextOn (f : Nat → Link) (cluster : Nat) : Option Nat := (f cluster).cluster?

theorem nextOn_eq_some {f : Nat → Link} {c d : Nat} : nextOn f c = some d ↔ f c = .next d := by
  rw [nextOn]
  cases f c <;> simp [Link.cluster?]

variable {J : Io → Prop} {E : Stop → Io → Prop} {D : Nat → Prop} {link : Nat → Prog Io Stop Link}
  {f : Nat → Link}
variable {checked : Bool} {e : End} {turns : Nat} {Q : Option (Nat ⊕ Chain) → Io → Prop}

theorem FollowsLinks.mem_orbit (hf : FollowsLinks J E D link f) (hfirst : D first) {i c : Nat}
    (hc : orbit (nextOn f) first i = some c) : D c :=
  of_mem_reached hfirst (fun x y hx hy => hf.closed x y hx (nextOn_eq_some.mp hy))
    (mem_reached_iff.mpr ⟨i, hc⟩)

theorem FollowsLinks.stepWith (hf : FollowsLinks J E D link f) {c d : Nat} (hc : D c)
    (hnext : nextOn f c = some d) :
    Triple J (stepWith link c) (fun r io => r = d ∧ J io) E := by
  refine Triple.bind (hf.reads c hc) fun l => Triple.assume ?_
  rintro rfl
  rw [nextOn_eq_some.mp hnext]
  exact Triple.pure fun io h => ⟨rfl, h⟩

theorem plus_steps (hfit : checked = true → h < 2 ^ 32) :
    plus checked (h % 2 ^ 32) 1 = if checked = true ∧ 2 ^ 32 ≤ h + 1 then none
      else some ((h + 1) % 2 ^ 32) := by
  rw [plus]
  cases checked with
  | true =>
    have hlt := hfit rfl
    rw [Nat.mod_eq_of_lt hlt]
    simp only [true_and, if_true]
    split
    · rw [if_neg (by omega), Nat.mod_eq_of_lt (by omega)]
    · rw [if_pos (by omega)]
  | false =>
    simp only [Bool.false_eq_true, false_and, if_false]
    split
    · rw [Nat.mod_eq_of_lt (show h % 2 ^ 32 + 1 < 2 ^ 32 by assumption) |>.symm, Nat.mod_add_mod]
    · rw [Nat.mod_add_mod]

theorem FollowsLinks.search_step (hf : FollowsLinks J E D link f)
    (hs : Searching (nextOn f) first h tortoise hare power lambda) (hpos : 0 < h)
    (hsat : h < 2 * u32Max)
    (hne : tortoise ≠ hare) (hhare : D hare) (hnext : nextOn f hare = some cluster)
    (hfit : checked = true → h < 2 ^ 32)
    (hover : checked = true → 2 ^ 32 ≤ h + 1 → ∀ io, J io → Q none io)
    (hrest : (checked = true → h + 1 < 2 ^ 32) → ∀ tortoise power lambda,
      Searching (nextOn f) first (h + 1) tortoise cluster power lambda →
      Triple J (searchWith link checked turns tortoise cluster ((h + 1) % 2 ^ 32) power lambda) Q
        E) :
    Triple J (searchWith link checked (turns + 1) tortoise hare (h % 2 ^ 32) power lambda) Q
      E := by
  rw [searchWith, if_neg hne]
  have hgoes (tortoise power lambda : Nat) (hlambda : lambda + 1 < 2 ^ 32)
      (hs : Searching (nextOn f) first (h + 1) tortoise cluster power (lambda + 1)) :
      Triple J (link hare >>= fun l => match l with
        | .end_ e => pure ((plus checked (h % 2 ^ 32) 1).map fun len => .inr ⟨len, e⟩)
        | .next hare =>
          match plus checked (h % 2 ^ 32) 1, plus checked lambda 1 with
          | some steps, some lambda => searchWith link checked turns tortoise
              hare steps power lambda
          | _, _ => pure none) Q E := by
    refine Triple.bind (hf.reads hare hhare) fun l => Triple.assume ?_
    rintro rfl
    simp only [nextOn_eq_some.mp hnext, plus_steps hfit, plus_of_lt hlambda]
    by_cases hchecked : checked = true ∧ 2 ^ 32 ≤ h + 1
    · simp only [if_pos hchecked]
      exact Triple.pure (hover hchecked.1 hchecked.2)
    · simp only [if_neg hchecked]
      exact hrest (fun hc => Nat.lt_of_not_le fun hle => hchecked ⟨hc, hle⟩) _ _ _ hs
  by_cases hlambda : power = lambda
  · simp only [if_pos hlambda]
    exact hgoes _ _ 0 (by decide) (hs.moved hpos hsat hnext hlambda)
  · simp only [if_neg hlambda]
    obtain ⟨hs', hlt⟩ := hs.stayed hpos hsat hnext hlambda
    exact hgoes _ _ _ hlt hs'

variable (checked turns) in
theorem FollowsLinks.search_stops (hf : FollowsLinks J E D link f) (hfirst : D first)
    (hstops : Stops (nextOn f) first n z) (hend : f z = .end_ e) (hn : n + 1 < 2 ^ 32)
    (hs : Searching (nextOn f) first h tortoise hare power lambda) (hpos : 0 < h) (hle : h ≤ n)
    (hturns : n < h + turns) :
    Triple J (searchWith link checked turns tortoise hare (h % 2 ^ 32) power lambda)
      (fun r io => r = some (.inr ⟨n + 1, e⟩) ∧ J io) E := by
  have hmax : u32Max = 4294967295 := rfl
  induction turns generalizing h tortoise hare power lambda with
  | zero => omega
  | succ turns ih =>
    have hhare := hf.mem_orbit hfirst hs.hare
    have hne : tortoise ≠ hare := by
      rw [ne_eq, hs.meets_iff]
      exact hstops.not_meets hpos hle
    rcases Nat.lt_or_ge h n with hlt | hge
    · obtain ⟨cluster, hcluster⟩ := hstops.defined (show h + 1 ≤ n by omega)
      refine hf.search_step hs hpos (by omega) hne hhare
        ((orbit_succ hs.hare).symm.trans hcluster) (fun _ => by omega)
        (fun _ hover => by omega) fun _ tortoise power lambda hs' => ih hs' (by omega)
          (by omega) (by omega)
    · obtain rfl : h = n := by omega
      obtain rfl : hare = z := Option.some.inj (hs.hare.symm.trans hstops.last)
      rw [searchWith, if_neg hne]
      refine Triple.bind (hf.reads hare hhare) fun l => Triple.assume ?_
      rintro rfl
      rw [hend, plus_steps fun _ => by omega, if_neg (by omega), Nat.mod_eq_of_lt hn]
      exact Triple.pure fun io h => ⟨rfl, h⟩

variable (checked turns) in
theorem FollowsLinks.search_loops (hf : FollowsLinks J E D link f) (hfirst : D first)
    (hloops : Loops (nextOn f) first tail loop) (hsat : meeting tail loop < 2 * u32Max)
    (hs : Searching (nextOn f) first h tortoise hare power lambda) (hpos : 0 < h)
    (hle : h ≤ meeting tail loop)
    (hfit : checked = true → h < 2 ^ 32) (hturns : meeting tail loop < h + turns) :
    Triple J (searchWith link checked turns tortoise hare (h % 2 ^ 32) power lambda)
      (fun r io => r = (if checked = true ∧ 2 ^ 32 ≤ meeting tail loop then none
        else some (.inl loop)) ∧ J io) E := by
  induction turns generalizing h tortoise hare power lambda with
  | zero => omega
  | succ turns ih =>
    have hhare := hf.mem_orbit hfirst hs.hare
    by_cases hmeets : tortoise = hare
    · obtain rfl : h = meeting tail loop :=
        Nat.le_antisymm hle (hloops.meeting_le hpos (hs.meets_iff.mp hmeets))
      have hone : meeting tail loop = markBefore (meeting tail loop) + loop :=
        meeting_eq hloops.pos
      have hlambda : lambda = loop := by
        rw [hs.lambda]
        omega
      rw [searchWith, if_pos hmeets, hlambda, if_neg fun hover => by
        have := hfit hover.1
        omega]
      exact Triple.pure fun io h => ⟨rfl, h⟩
    · have hlt : h < meeting tail loop := by
        refine Nat.lt_of_le_of_ne hle fun heq => hmeets (hs.meets_iff.mpr ?_)
        rw [heq]
        exact hloops.meets
      obtain ⟨cluster, hcluster⟩ := hloops.defined (h + 1)
      refine hf.search_step hs hpos (by omega) hmeets hhare
        ((orbit_succ hs.hare).symm.trans hcluster) hfit
        (fun hc hover io hio => ⟨?_, hio⟩) fun hfit' tortoise power lambda hs' =>
          ih hs' (by omega) (by omega) hfit' (by omega)
      rw [if_pos ⟨hc, by omega⟩]

theorem FollowsLinks.ahead (hf : FollowsLinks J E D link f) (hfirst : D first)
    (hloops : Loops (nextOn f) first tail loop)
    (k : Nat) {i hare last : Nat} (hhare : orbit (nextOn f) first i = some hare)
    (hlast : 0 < i → orbit (nextOn f) first (i - 1) = some last) :
    Triple J (aheadWith link k hare last)
      (fun r io => (orbit (nextOn f) first (i + k) = some r.1 ∧
        (0 < i + k → orbit (nextOn f) first (i + k - 1) = some r.2)) ∧
        J io) E := by
  induction k generalizing i hare last with
  | zero => exact Triple.pure fun io h => ⟨⟨hhare, hlast⟩, h⟩
  | succ k ih =>
    obtain ⟨next, hnext⟩ := hloops.defined (i + 1)
    refine Triple.bind (hf.stepWith (hf.mem_orbit hfirst hhare)
      ((orbit_succ hhare).symm.trans hnext)) fun c => Triple.assume ?_
    rintro rfl
    have hplace : i + (k + 1) = i + 1 + k := by omega
    rw [hplace]
    exact ih hnext fun _ => hhare

variable (checked turns) in
theorem FollowsLinks.entry (hf : FollowsLinks J E D link f) (hfirst : D first)
    (hloops : Loops (nextOn f) first tail loop)
    (htail : tail < 2 ^ 32) {m tortoise hare last : Nat}
    (htortoise : orbit (nextOn f) first m = some tortoise)
    (hhare : orbit (nextOn f) first (m + loop) = some hare)
    (hlast : orbit (nextOn f) first (m + loop - 1) = some last)
    (hle : m ≤ tail) (hturns : tail < m + turns) :
    Triple J (entryWith link checked turns tortoise hare last m)
      (fun r io => (∃ last, r = some (tail, last) ∧ orbit (nextOn f) first (tail + loop - 1) =
        some last) ∧ J io) E := by
  induction turns generalizing m tortoise hare last with
  | zero => omega
  | succ turns ih =>
    have hmeets : tortoise = hare ↔ tail ≤ m := by
      rw [← Option.some.injEq, ← htortoise, ← hhare, hloops.eq_iff hloops.pos]
      simp
    by_cases heq : tortoise = hare
    · obtain rfl : m = tail := Nat.le_antisymm hle (hmeets.mp heq)
      rw [entryWith, if_pos heq]
      exact Triple.pure fun io h => ⟨⟨last, rfl, hlast⟩, h⟩
    · have hlt : m < tail := Nat.lt_of_not_le fun hge => heq (hmeets.mpr hge)
      obtain ⟨t, ht⟩ := hloops.defined (m + 1)
      obtain ⟨x, hx⟩ := hloops.defined (m + loop + 1)
      rw [entryWith, if_neg heq]
      refine Triple.bind (hf.stepWith (hf.mem_orbit hfirst htortoise)
        ((orbit_succ htortoise).symm.trans ht)) fun c =>
        Triple.assume ?_
      rintro rfl
      refine Triple.bind (hf.stepWith (hf.mem_orbit hfirst hhare)
        ((orbit_succ hhare).symm.trans hx)) fun d => Triple.assume ?_
      rintro rfl
      rw [plus_of_lt (by omega)]
      have hplace : m + 1 + loop = m + loop + 1 := by omega
      refine ih ht ?_ ?_ hlt (by omega)
      · rw [hplace]
        exact hx
      · rw [hplace]
        exact hhare

theorem FollowsLinks.cycle (hf : FollowsLinks J E D link f) (hfirst : D first)
    (hloops : Loops (nextOn f) first tail loop)
    (hcount : tail + loop < 2 ^ 32) (hturns : tail < turns) :
    Triple J (cycleWith link checked turns first loop)
      (fun r io => (∃ last, r = some ⟨tail + loop, .cycle last⟩ ∧
        orbit (nextOn f) first (tail + loop - 1) = some last) ∧ J io) E := by
  refine Triple.bind (hf.ahead hfirst hloops loop (i := 0) rfl nofun) fun r =>
    Triple.assume fun hr => ?_
  rw [Nat.zero_add] at hr
  have hentry := hf.entry checked turns (m := 0) hfirst hloops (by omega) rfl
    ((Nat.zero_add loop).symm ▸ hr.1) ((Nat.zero_add loop).symm ▸ hr.2 hloops.pos)
      (Nat.zero_le _) (by omega)
  refine Triple.bind hentry fun r => Triple.assume ?_
  rintro ⟨last, rfl, hlast⟩
  simp only [plus_of_lt hcount]
  exact Triple.pure fun io h => ⟨⟨last, rfl, hlast⟩, h⟩

theorem FollowsLinks.analyze_stops (hf : FollowsLinks J E D link f) (hfirst : D first)
    (hstops : Stops (nextOn f) first n z)
    (hend : f z = .end_ e) (hn : n + 1 < 2 ^ 32) (hturns : n ≤ turns) :
    Triple J (analyzeWith link checked turns first)
      (fun r io => r = some ⟨n + 1, e⟩ ∧ J io) E := by
  refine Triple.bind (hf.reads first hfirst) fun l => Triple.assume ?_
  rintro rfl
  rcases Nat.eq_zero_or_pos n with rfl | hpos
  · obtain rfl : first = z := Option.some.inj hstops.last
    rw [hend]
    exact Triple.pure fun io h => ⟨rfl, h⟩
  · obtain ⟨hare, hhare⟩ := hstops.defined hpos
    rw [nextOn_eq_some.mp hhare]
    have hsearch := hf.search_stops checked turns hfirst hstops hend hn
      (searching_one hhare) one_pos hpos
      (by omega)
    refine Triple.bind hsearch fun r => Triple.assume ?_
    rintro rfl
    exact Triple.pure fun io h => ⟨rfl, h⟩

variable (checked turns) in
theorem FollowsLinks.analyze_loops (hf : FollowsLinks J E D link f) (hfirst : D first)
    (hloops : Loops (nextOn f) first tail loop) (hcount : tail + loop ≤ 0xFFFFFFF5)
    (hturns : meeting tail loop ≤ turns) :
    Triple J (analyzeWith link checked turns first)
      (fun r io => (if checked = true ∧ 2 ^ 32 ≤ meeting tail loop then r = none
        else ∃ last, r = some ⟨tail + loop, .cycle last⟩ ∧
          orbit (nextOn f) first (tail + loop - 1) = some last) ∧ J io) E := by
  have hsat := meeting_lt_sat hloops.pos hcount
  have hone : 0 < meeting tail loop := meeting_pos hloops.pos
  have hle : tail < meeting tail loop := by
    have hpow := Nat.le_pow_clog Nat.one_lt_two (max (tail + 1) loop)
    have hpos := hloops.pos
    rw [meeting]
    omega
  refine Triple.bind (hf.reads first hfirst) fun l => Triple.assume ?_
  rintro rfl
  obtain ⟨hare, hhare⟩ := hloops.defined 1
  rw [nextOn_eq_some.mp hhare]
  have hsearch := hf.search_loops checked turns hfirst hloops (by omega)
    (searching_one hhare) one_pos hone
    (fun _ => by omega) (by omega)
  refine Triple.bind hsearch fun r => Triple.assume ?_
  rintro rfl
  by_cases hover : checked = true ∧ 2 ^ 32 ≤ meeting tail loop
  · simp only [if_pos hover]
    exact Triple.pure fun io h => ⟨rfl, h⟩
  · simp only [if_neg hover]
    exact hf.cycle hfirst hloops (by omega) (by omega)

end

end Hadris
