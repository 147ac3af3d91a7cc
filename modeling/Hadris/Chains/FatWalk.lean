import Hadris.Chains.Guard
import Hadris.FatStore
import Hadris.FaultFree
import Mathlib.Order.Interval.Finset.Nat

namespace Hadris

open Prog (Triple)

namespace Geometry

def linkAt (geo : Geometry) (img : Nat → UInt8) (cluster : Nat) :
    Except ChainError (Option Nat) :=
  geo.kind.next (geo.entry img 0 cluster) geo.maxCluster

def follow (geo : Geometry) (img : Nat → UInt8) (cluster : Nat) : Option Nat :=
  match geo.linkAt img cluster with
  | .ok next => next
  | .error _ => none

variable {geo : Geometry} {img : Nat → UInt8} {first cluster next : Nat}

theorem follow_eq_some : geo.follow img cluster = some next ↔
    geo.linkAt img cluster = .ok (some next) := by
  rw [follow]
  cases geo.linkAt img cluster with
  | error e => simp
  | ok r => simp

theorem isCluster_of_follow (h : geo.follow img cluster = some next) : geo.IsCluster next := by
  have hnext := (Fat.new geo).next_isCluster (follow_eq_some.mp h)
  rwa [Fat.isCluster_iff] at hnext

theorem reached_isCluster (hfirst : geo.IsCluster first)
    (h : cluster ∈ reached (geo.follow img) first) : geo.IsCluster cluster :=
  of_mem_reached hfirst (fun _ _ _ hnext => isCluster_of_follow hnext) h

variable (img) in
theorem ncard_reached_le (hfirst : geo.IsCluster first) :
    (reached (geo.follow img) first).Finite ∧ (reached (geo.follow img) first).ncard ≤
      geo.maxCluster - 1 := by
  have hsub : reached (geo.follow img) first ⊆
      (Finset.Icc firstDataCluster geo.maxCluster : Finset Nat) := by
    intro c hc
    rw [Finset.mem_coe, Finset.mem_Icc]
    exact reached_isCluster hfirst hc
  refine ⟨(Finset.finite_toSet _).subset hsub, ?_⟩
  have hle := Set.ncard_le_ncard hsub (Finset.finite_toSet _)
  rw [Set.ncard_coe_finset, Nat.card_Icc] at hle
  simp only [firstDataCluster] at hle
  omega

theorem Valid.maxCluster_lt (hv : geo.Valid) : geo.maxCluster < 0x0FFFFFF7 := by
  have hmax := hv.maxCluster.2
  cases hkind : geo.kind <;> simp only [hkind, FatKind.badCluster] at hmax <;> omega

theorem entry_fits {bs count : Nat} (hv : geo.Valid) (hfits : geo.dataEnd ≤ count * bs)
    (hc : geo.IsCluster cluster) :
    geo.entryAt 0 cluster + geo.kind.entryLen ≤ count * bs := by
  have hentry := (entryAt_bounds hv (copies_pos hv) hc.2).2
  have hdata := hv.dataStart
  simp only [dataEnd] at hfits
  simp only [fatEnd] at hentry
  omega

end Geometry

namespace Fat

variable {fat : Fat} {bs count : Nat} {img : Nat → UInt8} {E : Stop → Io → Prop} {cluster : Nat}

theorem holds_get (hv : fat.geo.Valid) (hfits : fat.geo.dataEnd ≤ count * bs)
    (hc : fat.geo.IsCluster cluster) :
    Triple (Io.Holds bs count img) (fat.get cluster)
      (fun stored io => stored = fat.geo.entry img 0 cluster ∧ Io.Holds bs count img io) E := by
  rw [get, checkCluster, if_pos ((fat.isCluster_iff cluster).mpr hc)]
  refine Triple.bind (Triple.pure (Q := fun _ => Io.Holds bs count img) fun _ h => h) fun _ => ?_
  refine Triple.bind (Io.holds_readBytes (Geometry.entry_fits hv hfits hc)) fun bytes =>
    Triple.assume ?_
  rintro rfl
  exact Triple.pure fun io h => ⟨rfl, h⟩

def linkError : ChainError → Stop
  | .bad => Detail.badCluster.corrupt
  | .outOfBounds _ => Detail.brokenChain.corrupt

theorem holds_next (hv : fat.geo.Valid) (hfits : fat.geo.dataEnd ≤ count * bs)
    (hc : fat.geo.IsCluster cluster) :
    Triple (Io.Holds bs count img) (fat.next cluster)
      (fun next io => fat.geo.linkAt img cluster = .ok next ∧ Io.Holds bs count img io)
      (fun e io => (∃ err, fat.geo.linkAt img cluster = .error err ∧ e = linkError err) ∧
        Io.Holds bs count img io) := by
  refine Triple.bind (holds_get hv hfits hc) fun stored => Triple.assume ?_
  rintro rfl
  rw [Geometry.linkAt]
  split
  · rename_i hnext
    exact Triple.pure fun io h => ⟨hnext, h⟩
  · rename_i hbad
    exact Triple.fail fun io h => ⟨⟨_, hbad, rfl⟩, h⟩
  · rename_i hbad
    exact Triple.fail fun io h => ⟨⟨_, hbad, rfl⟩, h⟩

/-- What a walk towards cluster `want` of the chain at `first` gives: the position, the last one
of a chain that ends before, the error of the entry a chain ends with, or that of a
loop, at the meeting. -/
inductive Walks (geo : Geometry) (img : Nat → UInt8) (first want : Nat) :
    Except Stop ChainPos → Prop
  | reached {at_ : ChainPos} (h : Remembered (geo.follow img) first at_)
      (hindex : at_.index = want) :
      Walks geo img first want (.ok at_)
  | ended {at_ : ChainPos} (h : Remembered (geo.follow img) first at_) (hindex : at_.index < want)
      (hend : geo.linkAt img at_.cluster = .ok none) : Walks geo img first want (.ok at_)
  | broken {at_ : ChainPos} {err : ChainError} (h : Remembered (geo.follow img) first at_)
      (hindex : at_.index < want)
      (hend : geo.linkAt img at_.cluster = .error err) :
      Walks geo img first want (.error (linkError err))
  | looped {at_ : ChainPos} {cluster : Nat} (h : Remembered (geo.follow img) first at_)
      (hindex : at_.index < want)
      (hnext : geo.follow img at_.cluster = some cluster) (hnone : at_.advance cluster = none) :
      Walks geo img first want (.error Detail.cyclicChain.corrupt)

section

variable {first want : Nat} {at_ : ChainPos}

theorem isCluster_of_remembered (hfirst : fat.geo.IsCluster first)
    (h : Remembered (fat.geo.follow img) first at_) :
    fat.geo.IsCluster at_.cluster := by
  induction h with
  | start => exact hfirst
  | advance _ hnext hstep _ =>
    obtain ⟨guard, -, rfl⟩ := Option.map_eq_some_iff.mp hstep
    exact Geometry.isCluster_of_follow hnext

theorem advance_index {next : Nat} {at' : ChainPos} (h : at_.advance next = some at') :
    at'.index = at_.index + 1 := by
  obtain ⟨guard, -, rfl⟩ := Option.map_eq_some_iff.mp h
  rfl

theorem holds_walkLoop (hv : fat.geo.Valid) (hfits : fat.geo.dataEnd ≤ count * bs)
    (hfirst : fat.geo.IsCluster first)
    (steps : Nat) (h : Remembered (fat.geo.follow img) first at_)
    (hwant : at_.index + steps = want) :
    Triple (Io.Holds bs count img) (fat.walkLoop steps at_)
      (fun at' io => Walks fat.geo img first want (.ok at') ∧ Io.Holds bs count img io)
      (fun e io => Walks fat.geo img first want (.error e) ∧ Io.Holds bs count img io) := by
  induction steps generalizing at_ with
  | zero => exact Triple.pure fun io hio => ⟨.reached h hwant, hio⟩
  | succ steps ih =>
    refine Triple.bind ((holds_next hv hfits (isCluster_of_remembered hfirst h)).weaken
      (fun _ _ h => h) ?_) fun next => Triple.assume fun hnext => ?_
    · rintro e io ⟨⟨err, herr, rfl⟩, hio⟩
      exact ⟨.broken h (by omega) herr, hio⟩
    cases next with
    | none => exact Triple.pure fun io hio => ⟨.ended h (by omega) hnext, hio⟩
    | some next =>
      have hfollow := Geometry.follow_eq_some.mpr hnext
      rcases hstep : at_.advance next with _ | at'
      · simp only [hstep]
        exact Triple.fail fun io hio => ⟨.looped h (by omega) hfollow hstep, hio⟩
      · simp only [hstep]
        exact ih (h.advance hfollow hstep) (by rw [advance_index hstep]; omega)

theorem holds_walk (hv : fat.geo.Valid) (hfits : fat.geo.dataEnd ≤ count * bs)
    (hfirst : fat.geo.IsCluster first)
    (h : Remembered (fat.geo.follow img) first at_) (want : Nat) :
    Triple (Io.Holds bs count img) (fat.walk first at_ want)
      (fun at' io => Walks fat.geo img first want (.ok at') ∧ Io.Holds bs count img io)
      (fun e io => Walks fat.geo img first want (.error e) ∧ Io.Holds bs count img io) := by
  refine Triple.ite (fun hfrom => holds_walkLoop hv hfits hfirst _ h (by omega)) fun _ => ?_
  rw [checkCluster, if_pos ((fat.isCluster_iff first).mpr hfirst)]
  refine Triple.bind (Triple.pure (Q := fun c io => c = first ∧ Io.Holds bs count img io) fun _
    h => ⟨rfl, h⟩) fun c =>
    Triple.assume ?_
  rintro rfl
  exact holds_walkLoop hv hfits hfirst _ .start (Nat.zero_add _)

variable {n z tail loop : Nat} {r : Except Stop ChainPos}

/-- What a walk gives on a chain that ends after `n` links, at cluster `z`. -/
def StopsAt (geo : Geometry) (img : Nat → UInt8) (first n z want : Nat)
    (r : Except Stop ChainPos) : Prop :=
  if n < want then
    match geo.linkAt img z with
    | .ok _ => ∃ at_, r = .ok at_ ∧ Remembered (geo.follow img) first at_ ∧
        at_.index = n ∧ at_.cluster = z
    | .error err => r = .error (linkError err)
  else ∃ at_, r = .ok at_ ∧ Remembered (geo.follow img) first at_ ∧ at_.index = want

/-- What a walk gives on a chain that enters a loop. -/
def LoopsAt (geo : Geometry) (img : Nat → UInt8) (first tail loop want : Nat)
    (r : Except Stop ChainPos) : Prop :=
  if meeting tail loop ≤ want then r = .error Detail.cyclicChain.corrupt
  else ∃ at_, r = .ok at_ ∧ Remembered (geo.follow img) first at_ ∧ at_.index = want

theorem walked_eq_last {geo : Geometry} (h : Walked (geo.follow img) first at_)
    (hstops : Stops (geo.follow img) first n z)
    (hend : geo.follow img at_.cluster = none) : at_.index = n ∧ at_.cluster = z := by
  have hnone : orbit (geo.follow img) first (at_.index + 1) = none :=
    (orbit_succ h.cluster).trans hend
  have hge : n ≤ at_.index := by
    refine Nat.le_of_not_lt fun hlt => ?_
    obtain ⟨x, hx⟩ := hstops.defined (show at_.index + 1 ≤ n by omega)
    rw [hnone] at hx
    cases hx
  have hle : at_.index ≤ n := by
    refine Nat.le_of_not_lt fun hlt => ?_
    have hbeyond := hstops.beyond hlt
    rw [h.cluster] at hbeyond
    cases hbeyond
  have hindex : at_.index = n := by omega
  have hcluster := h.cluster
  rw [hindex, hstops.last] at hcluster
  exact ⟨hindex, (Option.some.inj hcluster).symm⟩

theorem follow_of_error {geo : Geometry} {cluster : Nat} {err : ChainError}
    (h : geo.linkAt img cluster = .error err) :
    geo.follow img cluster = none := by
  rw [Geometry.follow, h]

theorem follow_of_end {geo : Geometry} {cluster : Nat} (h : geo.linkAt img cluster = .ok none) :
    geo.follow img cluster = none := by
  rw [Geometry.follow, h]

theorem Walks.stopsAt {geo : Geometry} (h : Walks geo img first want r)
    (hstops : Stops (geo.follow img) first n z)
    (hn : n < 0xFFFFFFF5) : StopsAt geo img first n z want r := by
  rw [StopsAt]
  cases h with
  | @reached at_ h hindex =>
    obtain ⟨-, hle⟩ := h.walked_of_stops hstops hn
    rw [if_neg (by omega)]
    exact ⟨at_, rfl, h, hindex⟩
  | @ended at_ h hindex hend =>
    obtain ⟨hwalked, -⟩ := h.walked_of_stops hstops hn
    obtain ⟨hlast, rfl⟩ := walked_eq_last hwalked hstops (follow_of_end hend)
    rw [if_pos (by omega), hend]
    exact ⟨at_, rfl, h, hlast, rfl⟩
  | @broken at_ err h hindex hend =>
    obtain ⟨hwalked, -⟩ := h.walked_of_stops hstops hn
    obtain ⟨hlast, rfl⟩ := walked_eq_last hwalked hstops (follow_of_error hend)
    rw [if_pos (by omega), hend]
  | looped h _ hnext hnone => exact absurd hnone (h.advance_of_stops hstops hn hnext)

theorem Walks.loopsAt {geo : Geometry} (h : Walks geo img first want r)
    (hloops : Loops (geo.follow img) first tail loop)
    (hle : tail + loop ≤ 0xFFFFFFF5) : LoopsAt geo img first tail loop want r := by
  have hgoes {at_ : ChainPos} (h : Walked (geo.follow img) first at_) :
      geo.follow img at_.cluster ≠ none := by
    obtain ⟨x, hx⟩ := hloops.defined (at_.index + 1)
    rw [orbit_succ h.cluster] at hx
    rw [hx]
    exact Option.some_ne_none x
  rw [LoopsAt]
  cases h with
  | @reached at_ h hindex =>
    obtain ⟨-, hlt⟩ := h.walked_of_loops hloops hle
    rw [if_neg (by omega)]
    exact ⟨at_, rfl, h, hindex⟩
  | ended h _ hend =>
    obtain ⟨hwalked, -⟩ := h.walked_of_loops hloops hle
    exact absurd (follow_of_end hend) (hgoes hwalked)
  | broken h _ hend =>
    obtain ⟨hwalked, -⟩ := h.walked_of_loops hloops hle
    exact absurd (follow_of_error hend) (hgoes hwalked)
  | looped h hindex hnext hnone =>
    have hmeets := (h.advance_of_loops hloops hle hnext).mp hnone
    rw [if_pos (by omega)]

end

end Fat

/-- What the guard says of the walks along a chain: nothing where it ends, and that it
loops at the meeting. -/
structure Guarded (next : Nat → Option Nat) (first : Nat) : Prop where
  stops : ∀ n z, Stops next first n z → ∀ at_ cluster, Remembered next first at_ →
    next at_.cluster = some cluster →
    at_.advance cluster ≠ none
  loops : ∀ tail loop, Loops next first tail loop → meeting tail loop ≤ 2 * max tail loop + loop ∧
    ∀ at_, Remembered next first at_ → at_.index < meeting tail loop ∧
      ∀ cluster, next at_.cluster = some cluster →
        (at_.advance cluster = none ↔ at_.index + 1 = meeting tail loop)

theorem guarded_of_ncard {next : Nat → Option Nat} {first : Nat}
    (hcount : (reached next first).ncard ≤ 0xFFFFFFF5) :
    Guarded next first where
  stops n z hstops at_ cluster h hnext := by
    have hn := hstops.ncard
    exact h.advance_of_stops hstops (by omega) hnext
  loops tail loop hloops := by
    have hle : tail + loop ≤ 0xFFFFFFF5 := hloops.ncard.symm.trans_le hcount
    exact ⟨meeting_le_mul tail loop, fun at_ h =>
      ⟨(h.walked_of_loops hloops hle).2, fun cluster hnext =>
        h.advance_of_loops hloops hle hnext⟩⟩

/-- A chain, of which every FAT has fewer than `2 ^ 32 - 10` clusters, ends or enters a loop. A
guarded walk along it, which may be left and taken up again at any position it came to, is never
stopped in a chain that ends, and is always stopped at the meeting in one that loops. So `walk`
finds the position wanted, the end of the chain, or its loop. -/
theorem chainGuard_exact :
    (∀ (next : Nat → Option Nat) (first : Nat), (reached next first).Finite →
      (reached next first).ncard ≤ 0xFFFFFFF5 →
      ((∃ n z, Stops next first n z) ∨ ∃ tail loop, Loops next first tail loop) ∧
        Guarded next first) ∧
    ∀ (fat : Fat) (bs count : Nat) (img : Nat → UInt8) (first : Nat), fat.geo.Valid →
      fat.geo.dataEnd ≤ count * bs →
      fat.geo.IsCluster first → (reached (fat.geo.follow img) first).ncard ≤
        fat.geo.maxCluster - 1 ∧
      Guarded (fat.geo.follow img) first ∧
      ∀ at_, Remembered (fat.geo.follow img) first at_ → ∀ want io, Io.Holds bs count img io →
        (∃ n z, Stops (fat.geo.follow img) first n z ∧
          Fat.StopsAt fat.geo img first n z want ((fat.walk first at_ want).run io).1) ∨
        ∃ tail loop, Loops (fat.geo.follow img) first tail loop ∧
          Fat.LoopsAt fat.geo img first tail loop want ((fat.walk first at_ want).run io).1 := by
  refine ⟨fun next first hfinite hcount => ⟨stops_or_loops hfinite, guarded_of_ncard hcount⟩, ?_⟩
  intro fat bs count img first hv hfits hfirst
  obtain ⟨hfinite, hle⟩ := Geometry.ncard_reached_le img hfirst
  have hmax := hv.maxCluster_lt
  have hcount : (reached (fat.geo.follow img) first).ncard ≤ 0xFFFFFFF5 := by omega
  refine ⟨hle, guarded_of_ncard hcount, fun at_ h want io hio => ?_⟩
  have hwalks : Fat.Walks fat.geo img first want ((fat.walk first at_ want).run io).1 := by
    have hrun := Fat.holds_walk hv hfits hfirst h want io hio
    rcases hres : (fat.walk first at_ want).run io with ⟨e | at', io'⟩
    · rw [hres] at hrun
      exact hrun.1
    · rw [hres] at hrun
      exact hrun.1
  rcases stops_or_loops hfinite with ⟨n, z, hstops⟩ | ⟨tail, loop, hloops⟩
  · have hn := hstops.ncard
    exact .inl ⟨n, z, hstops, hwalks.stopsAt hstops (by omega)⟩
  · exact .inr ⟨tail, loop, hloops, hwalks.loopsAt hloops (hloops.ncard.symm.trans_le hcount)⟩

def loopGeo : Geometry where
  kind := .fat12
  sectorSize := 512
  clusterSize := 512
  clusterShift := 9
  reservedSectors := 1
  fatStart := 512
  fatSize := 512
  fatCount := 1
  activeFat := 0
  mirrored := true
  root := .fixed 1024 512
  dataStart := 1536
  maxCluster := 11
  fsInfoSector := none
  volumeSerial := none

theorem loopGeo_valid : loopGeo.Valid := by
  refine ⟨?_, rfl, ?_, ?_, rfl, .inl rfl, ?_, fun _ => rfl, nofun, ?_, ?_, ?_, ?_⟩
  · decide
  · decide
  · decide
  · decide
  · decide
  · decide
  · exact ⟨nofun, by decide⟩
  · decide

def loopImg : Nat → UInt8 := tableBytes [(515, 0x03), (516, 0x20)]

theorem loopImg_loops : Loops (loopGeo.follow loopImg) 2 0 2 where
  pos := by decide
  defined i := by
    have hstep : ∀ i, orbit (loopGeo.follow loopImg) 2 i = some 2 ∨
        orbit (loopGeo.follow loopImg) 2 i = some 3 := by
      intro i
      induction i with
      | zero => exact .inl rfl
      | succ i ih =>
        rcases ih with h | h
        · rw [orbit_succ h]
          exact .inr (by decide)
        · rw [orbit_succ h]
          exact .inl (by decide)
    rcases hstep i with h | h
    · exact ⟨2, h⟩
    · exact ⟨3, h⟩
  closes := by decide
  distinct i j hij hj := by
    obtain rfl : i = 0 := by omega
    obtain rfl : j = 1 := by omega
    decide

/-- A walk left at cluster index 2 of a loop of two and taken up again is stopped at index 3. -/
theorem chainGuard_exact_loop :
    ∃ at_, Remembered (loopGeo.follow loopImg) 2 at_ ∧ at_.index = 2 ∧
      (((Fat.new loopGeo).walk 2 at_ 9).run (Io.sample 13 loopImg [])).1 =
        .error Detail.cyclicChain.corrupt := by
  have hio : Io.Holds 512 13 loopImg (Io.sample 13 loopImg []) :=
    ⟨⟨List.length_replicate, nofun⟩, ⟨rfl, rfl, rfl, rfl⟩⟩
  obtain ⟨-, -, hwalk⟩ := chainGuard_exact.2 (Fat.new loopGeo) 512 13 loopImg 2 loopGeo_valid
    (by decide) ⟨by decide, by decide⟩
  have hone : Remembered (loopGeo.follow loopImg) 2 ⟨1, 3, ⟨3, 2, 0⟩⟩ :=
    .advance .start (show _ = some 3 by decide) (by decide)
  have htwo : Remembered (loopGeo.follow loopImg) 2 ⟨2, 2, ⟨3, 2, 1⟩⟩ :=
    .advance hone (show _ = some 2 by decide) (by decide)
  refine ⟨_, htwo, rfl, ?_⟩
  rcases hwalk _ htwo 9 _ hio with ⟨n, z, hstops, -⟩ | ⟨tail, loop, hloops, hat⟩
  · obtain ⟨x, hx⟩ := loopImg_loops.defined (n + 1)
    cases hx.symm.trans (hstops.beyond (Nat.lt_succ_self n))
  · have hcount := hloops.ncard.symm.trans loopImg_loops.ncard
    have hle := meeting_le_mul tail loop
    rw [Fat.LoopsAt, if_pos (by omega)] at hat
    exact hat

end Hadris
