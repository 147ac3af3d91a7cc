import Hadris.Chains.Analyze
import Hadris.Chains.FatWalk
import Hadris.Exfat.UpcaseAgree

namespace Hadris

open Prog (Triple)

/-- The link of `last` closes the loop: it leads back to a cluster passed, and no
cluster came twice before. -/
def Closes (next : Nat → Option Nat) (first last : Nat) : Prop :=
  ∃ k, orbit next first k = some last ∧
    (∀ i j, i < j → j ≤ k → orbit next first i ≠ orbit next first j) ∧
    ∃ i ≤ k, orbit next first (k + 1) = orbit next first i

/-- `chain` is what the chain at `first` is, where `ends` says how the entry
of a cluster ends one. -/
structure Measures (next : Nat → Option Nat) (ends : Nat → End → Prop) (first : Nat)
    (chain : Chain) : Prop where
  len : chain.len = (reached next first).ncard
  end_ : (∃ z ∈ reached next first, next z = none ∧ ends z chain.end_) ∨
    ∃ last, chain.end_ = .cycle last ∧ Closes next first last

section

variable {J : Io → Prop} {E : Stop → Io → Prop} {D : Nat → Prop} {link : Nat → Prog Io Stop Link}
  {f : Nat → Link}
variable {first tail loop : Nat} {next : Nat → Option Nat}

theorem Loops.closes_last (hloops : Loops next first tail loop) {last : Nat}
    (hlast : orbit next first (tail + loop - 1) = some last) :
    Closes next first last := by
  have hpos := hloops.pos
  refine ⟨tail + loop - 1, hlast, fun i j hij hj => hloops.distinct i j hij (by omega),
    tail, by omega, ?_⟩
  rw [Nat.sub_add_cancel (by omega)]
  exact hloops.closes

theorem Loops.unique {tail' loop' : Nat} (h : Loops next first tail loop)
    (h' : Loops next first tail' loop') :
    tail = tail' ∧ loop = loop' := by
  have hcount : tail + loop = tail' + loop' := h.ncard.symm.trans h'.ncard
  have htail : tail' ≤ tail := ((h'.eq_iff h.pos).mp h.closes.symm).1
  have htail' : tail ≤ tail' := ((h.eq_iff h'.pos).mp h'.closes.symm).1
  omega

/-- The analysis measures the chain, unless the build checks for overflow and the links to the
meeting are too many to count. -/
theorem FollowsLinks.analyze_iff (hf : FollowsLinks J E D link f) (checked : Bool) (turns : Nat)
    {ends : Nat → End → Prop} (hE : ∀ e io, ¬ E e io) (hfirst : D first)
    (hends : ∀ z e, D z → f z = .end_ e → ends z e) (hfinite : (reached (nextOn f) first).Finite)
    (hcount : (reached (nextOn f) first).ncard ≤ 0xFFFFFFF5)
    (hturns : 3 * (reached (nextOn f) first).ncard ≤ turns) {io : Io} (hio : J io) :
    (∃ chain io', (analyzeWith link checked turns first).run io = (.ok (some chain), io') ∧
      Measures (nextOn f) ends first chain) ↔
      (checked = true → ∀ tail loop, Loops (nextOn f) first tail loop → meeting tail loop <
        2 ^ 32) := by
  have hnofail {Q : Option Chain → Io → Prop}
      (h : Triple J (analyzeWith link checked turns first) Q E) :
      ∃ r io', (analyzeWith link checked turns first).run io = (.ok r, io') ∧ Q r io' :=
    (h.weaken (fun _ _ h => h) fun e io h => hE e io h).ok_of hio
  rcases stops_or_loops hfinite with ⟨n, z, hstops⟩ | ⟨tail, loop, hloops⟩
  · have hn := hstops.ncard
    have hz := hf.mem_orbit hfirst hstops.last
    obtain ⟨e, he⟩ : ∃ e, f z = .end_ e := by
      cases hlink : f z with
      | next c => exact absurd ((nextOn_eq_some.mpr hlink).symm.trans
          hstops.ends) (Option.some_ne_none c)
      | end_ e => exact ⟨e, rfl⟩
    obtain ⟨r, io', hrun, rfl, -⟩ :=
      hnofail (hf.analyze_stops hfirst hstops he (by omega) (by omega))
    have hmem : z ∈ reached (nextOn f) first := mem_reached_iff.mpr ⟨n, hstops.last⟩
    refine ⟨fun _ _ tail loop hloops => ?_, fun _ =>
      ⟨_, io', hrun, hn.symm, .inl ⟨z, hmem, hstops.ends, hends z e hz he⟩⟩⟩
    obtain ⟨x, hx⟩ := hloops.defined (n + 1)
    cases hx.symm.trans (hstops.beyond (Nat.lt_succ_self n))
  · have hn := hloops.ncard
    have hmeeting := meeting_le_mul tail loop
    obtain ⟨r, io', hrun, hr, -⟩ :=
      hnofail (hf.analyze_loops checked turns hfirst hloops (by omega) (by omega))
    have hunique : (checked = true → ∀ tail loop, Loops (nextOn f) first tail loop →
        meeting tail loop < 2 ^ 32) ↔
          ¬ (checked = true ∧ 2 ^ 32 ≤ meeting tail loop) := by
      constructor
      · exact fun h hover => Nat.not_lt_of_le hover.2 (h hover.1 tail loop hloops)
      · intro h hc tail' loop' hloops'
        obtain ⟨rfl, rfl⟩ := hloops.unique hloops'
        exact Nat.lt_of_not_le fun hover => h ⟨hc, hover⟩
    rw [hunique]
    constructor
    · rintro ⟨chain, io'', hrun', -⟩ hover
      rw [if_pos hover] at hr
      cases hr
      cases hrun.symm.trans hrun'
    · intro hfits
      rw [if_neg hfits] at hr
      obtain ⟨last, rfl, hlast⟩ := hr
      exact ⟨_, io', hrun, hn.symm, .inr ⟨last, rfl, hloops.closes_last hlast⟩⟩

end

namespace Check

def linkOf (cluster : Nat) : Except ChainError (Option Nat) → Link
  | .ok (some next) => .next next
  | .ok none => .end_ .eoc
  | .error .bad => .end_ (.bad cluster)
  | .error (.outOfBounds _) => .end_ (.broken cluster)

variable (fat : Fat)

def link (cluster : Nat) : Prog Io Stop Link := do
  let stored ← fat.get cluster
  pure (linkOf cluster (fat.geo.kind.next stored fat.geo.maxCluster))

def analyze (checked : Bool) (first : Nat) : Prog Io Stop (Option Chain) :=
  analyzeWith (link fat) checked (3 * fat.geo.maxCluster) first

end Check

/-- How the stored entry of `cluster` ends a chain: by an end mark, a bad mark, or a value that is
free, reserved or out of range. -/
def Geometry.EndsAs (geo : Geometry) (img : Nat → UInt8) (cluster : Nat) : End → Prop
  | .eoc => geo.kind.endOfChain ≤ geo.value img 0 cluster
  | .bad c => c = cluster ∧ geo.value img 0 cluster = geo.kind.badCluster
  | .broken c => c = cluster ∧
    (geo.value img 0 cluster < firstDataCluster ∨ geo.maxCluster < geo.value img 0 cluster) ∧
      geo.value img 0 cluster < geo.kind.endOfChain ∧
      geo.value img 0 cluster ≠ geo.kind.badCluster
  | .cycle _ => False

namespace Check

def leads (geo : Geometry) (img : Nat → UInt8) (cluster : Nat) : Link :=
  linkOf cluster (geo.linkAt img cluster)

variable {fat : Fat} {bs count : Nat} {img : Nat → UInt8} {E : Stop → Io → Prop}
  {cluster : Nat} {e : End}

theorem nextOf_leads : nextOn (leads fat.geo img) = fat.geo.follow img := by
  funext c
  rw [nextOn, leads, Geometry.follow]
  rcases fat.geo.linkAt img c with (_ | _) | (_ | _) <;> rfl

theorem endsAs_of_leads (h : leads fat.geo img cluster = .end_ e) :
    fat.geo.EndsAs img cluster e := by
  have hvalue : fat.geo.value img 0 cluster = fat.geo.entry img 0 cluster &&&
    fat.geo.kind.mask := rfl
  simp only [leads, Geometry.linkAt, FatKind.next, ← hvalue, FatKind.isEndOfChain, FatKind.isBad,
    decide_eq_true_eq, beq_iff_eq] at h
  split at h
  · cases h
    assumption
  rename_i heoc
  split at h
  · cases h
    exact ⟨rfl, ‹_›⟩
  rename_i hbad
  split at h
  · cases h
    exact ⟨rfl, ‹_›, Nat.lt_of_not_le heoc, hbad⟩
  · cases h

variable (img) in
theorem followsLinks (hv : fat.geo.Valid) (hfits : fat.geo.dataEnd ≤ count * bs) :
    FollowsLinks (Io.Holds bs count img) E fat.geo.IsCluster (link fat) (leads fat.geo img) where
  reads c hc := by
    refine Triple.bind (Fat.holds_get hv hfits hc) fun stored => Triple.assume ?_
    rintro rfl
    exact Triple.pure fun io h => ⟨rfl, h⟩
  closed c d _ hnext := by
    have hfollow := nextOn_eq_some.mpr hnext
    rw [nextOf_leads] at hfollow
    exact Geometry.isCluster_of_follow hfollow

end Check

namespace Exfat

namespace Check

variable (geo : Geometry)

def linkOf (cluster stored : Nat) : Link :=
  if stored = fatEnd then .end_ .eoc
  else if stored = fatBad then .end_ (.bad cluster)
  else if geo.isCluster stored then .next stored
  else .end_ (.broken cluster)

def link (cluster : Nat) : Prog Io Stop Link := do
  let stored ← get geo cluster
  pure (linkOf geo cluster stored)

def analyze (checked : Bool) (first : Nat) : Prog Io Stop (Option Chain) :=
  analyzeWith (link geo) checked (3 * geo.maxCluster) first

end Check

namespace Geometry

def follow (geo : Geometry) (img : Nat → UInt8) (cluster : Nat) : Option Nat :=
  if geo.isCluster (fatAt geo img cluster) then some (fatAt geo img cluster) else none

/-- How the stored entry of `cluster` ends a chain. -/
def EndsAs (geo : Geometry) (img : Nat → UInt8) (cluster : Nat) : End → Prop
  | .eoc => fatAt geo img cluster = fatEnd
  | .bad c => c = cluster ∧ fatAt geo img cluster = fatBad
  | .broken c => c = cluster ∧ geo.isCluster (fatAt geo img cluster) = false ∧
    fatAt geo img cluster ≠ fatEnd ∧
      fatAt geo img cluster ≠ fatBad
  | .cycle _ => False

variable {geo : Geometry} {img : Nat → UInt8} {first cluster : Nat}

variable (img) in
theorem ncard_reached_le (hfirst : geo.isCluster first = true) :
    (reached (geo.follow img) first).Finite ∧ (reached (geo.follow img) first).ncard ≤
      geo.clusterCount := by
  have hsub : reached (geo.follow img) first ⊆
      (Finset.Icc firstCluster geo.maxCluster : Finset Nat) := by
    intro c hc
    have hin : geo.isCluster c = true := by
      refine of_mem_reached (p := fun c => geo.isCluster c = true) hfirst
        (fun x y _ hnext => ?_) hc
      rw [follow] at hnext
      split at hnext
      · cases hnext
        assumption
      · cases hnext
    rw [Finset.mem_coe, Finset.mem_Icc]
    simpa [isCluster] using hin
  refine ⟨(Finset.finite_toSet _).subset hsub, ?_⟩
  have hle := Set.ncard_le_ncard hsub (Finset.finite_toSet _)
  rw [Set.ncard_coe_finset, Nat.card_Icc] at hle
  simp only [firstCluster, maxCluster] at hle
  omega

end Geometry

namespace Check

def leads (geo : Geometry) (img : Nat → UInt8) (cluster : Nat) : Link :=
  linkOf geo cluster (fatAt geo img cluster)

variable {geo : Geometry} {img : Nat → UInt8} {bs count cluster : Nat} {e : End}

theorem nextOf_leads (hv : geo.Valid) : nextOn (leads geo img) = geo.follow img := by
  have hcount := hv.clusterCount.2
  have hend : geo.isCluster fatEnd = false := by
    rw [Bool.eq_false_iff, ne_eq, Geometry.isCluster, Bool.and_eq_true,
      decide_eq_true_eq, decide_eq_true_eq]
    simp only [Geometry.maxCluster, fatEnd, maxClusterCount] at hcount ⊢
    omega
  have hbad : geo.isCluster fatBad = false := by
    rw [Bool.eq_false_iff, ne_eq, Geometry.isCluster, Bool.and_eq_true,
      decide_eq_true_eq, decide_eq_true_eq]
    simp only [Geometry.maxCluster, fatBad, maxClusterCount] at hcount ⊢
    omega
  funext c
  rw [nextOn, leads, Geometry.follow, linkOf]
  split
  · rename_i heq
    rw [heq, hend]
    rfl
  split
  · rename_i heq
    rw [heq, hbad]
    rfl
  split <;> rfl

theorem endsAs_of_leads (h : leads geo img cluster = .end_ e) : geo.EndsAs img cluster e := by
  rw [leads, linkOf] at h
  split at h
  · cases h
    assumption
  rename_i hend
  split at h
  · cases h
    exact ⟨rfl, ‹_›⟩
  rename_i hbad
  split at h
  · cases h
  · rename_i hout
    cases h
    exact ⟨rfl, Bool.eq_false_iff.mpr hout, hend, hbad⟩

variable (img) in
theorem followsLinks (hv : geo.Valid) (hlen : geo.volumeLen ≤ count * bs) :
    FollowsLinks (Io.Holds bs count img) (fun _ _ => False) (fun c => geo.isCluster c = true)
      (link geo)
      (leads geo img) where
  reads c hc := by
    have hmax : ¬ geo.maxCluster < c := by
      simp only [Geometry.isCluster, Bool.and_eq_true, decide_eq_true_eq] at hc
      omega
    have hget := (Upcase.reader_of_holds img hv hlen).fat c hc
    rw [link, get, if_neg hmax]
    refine Triple.bind hget fun stored => Triple.assume ?_
    rintro rfl
    exact Triple.pure fun io h => ⟨rfl, h⟩
  closed c d _ hnext := by
    have hfollow := nextOn_eq_some.mpr hnext
    rw [nextOf_leads hv, Geometry.follow] at hfollow
    split at hfollow
    · cases hfollow
      assumption
    · cases hfollow

end Check

end Exfat

/-- The checkers measure every chain: its length is the number of clusters that following links
from `first` comes to, and its end is that of the entry of the last one, or the cluster whose link
closes a loop. Only where the build checks for overflow and an exFAT volume has a loop so long, or
so far off, that counting the links to the meeting takes more than 32 bits
does the analysis panic. -/
theorem analyze_exact_iff (bs count : Nat) (img : Nat → UInt8) (checked : Bool)
    (first : Nat) (io : Io) (hio : Io.Holds bs count img io) :
    (∀ fat : Fat, fat.geo.Valid → fat.geo.dataEnd ≤ count * bs → fat.geo.IsCluster first →
      ∃ chain io', (Check.analyze fat checked first).run io = (.ok (some chain), io') ∧
        Measures (fat.geo.follow img) (fat.geo.EndsAs img) first chain) ∧
    ∀ geo : Exfat.Geometry, geo.Valid → geo.volumeLen ≤ count * bs → geo.isCluster first →
      ((∃ chain io', (Exfat.Check.analyze geo checked first).run io = (.ok (some chain), io') ∧
        Measures (geo.follow img) (geo.EndsAs img) first chain) ↔
        (checked = true → ∀ tail loop, Loops (geo.follow img) first tail loop →
          meeting tail loop < 2 ^ 32)) := by
  constructor
  · intro fat hv hfits hfirst
    obtain ⟨hfinite, hle⟩ := Geometry.ncard_reached_le img hfirst
    have hmax := hv.maxCluster_lt
    have hiff := (Check.followsLinks img (E := fun _ _ => False) hv hfits).analyze_iff checked
      (3 * fat.geo.maxCluster) (fun _ _ h => h) hfirst
      (fun z e _ => Check.endsAs_of_leads)
    rw [Check.nextOf_leads] at hiff
    refine (hiff hfinite (by omega) (by omega) hio).mpr fun _ tail loop hloops => ?_
    have hcount := hloops.ncard
    have hmeeting := meeting_le_mul tail loop
    omega
  · intro geo hv hlen hfirst
    obtain ⟨hfinite, hle⟩ := Exfat.Geometry.ncard_reached_le img hfirst
    have hmax : geo.clusterCount ≤ 0xFFFFFFF5 := hv.clusterCount.2
    have hcount : geo.maxCluster = geo.clusterCount + 1 := rfl
    have hiff := (Exfat.Check.followsLinks img hv hlen).analyze_iff checked (3 * geo.maxCluster)
      (fun _ _ h => h) hfirst
      (fun z e _ => Exfat.Check.endsAs_of_leads)
    rw [Exfat.Check.nextOf_leads hv] at hiff
    exact hiff hfinite (by omega) (by omega) hio

namespace Exfat

def ringGeo : Geometry where
  sectorShift := 9
  clusterShift := 9
  volumeLen := 2 ^ 34 + (2 ^ 31 + 1) * 512
  fatStart := 12288
  mirrorFat := none
  active := 0
  heapStart := 2 ^ 34
  clusterCount := 2 ^ 31 + 1
  root := 2
  serial := 0
  flags := 0
  percentInUse := 0

theorem ringGeo_valid : ringGeo.Valid where
  sectorShift := by decide
  clusterShift := by decide
  clusterCount := by decide
  fats base hbase := by
    obtain rfl : base = 12288 := by simpa [Geometry.fats, ringGeo] using hbase
    decide
  mirror := nofun
  heap := by decide
  root := by decide

def ringEntry (cluster : Nat) : Nat := if cluster = 2 ^ 31 + 2 then 2 else cluster + 1

def ringImg (a : Nat) : UInt8 := u8 (ringEntry ((a - 12288) / 4) / 256 ^ ((a - 12288) % 4))

theorem fatAt_ringImg {cluster : Nat} (h : ringEntry cluster < 2 ^ 32) :
    fatAt ringGeo ringImg cluster = ringEntry cluster := by
  have hbyte {i : Nat} (hi : i < 4) : byteAt (slice ringImg (Geometry.entryAt 12288 cluster) 4)
      i = ringEntry cluster / 256 ^ i % 256 := by
    have hdiv : (Geometry.entryAt 12288 cluster + i - 12288) / 4 = cluster := by
      simp only [Geometry.entryAt]
      omega
    have hmod : (Geometry.entryAt 12288 cluster + i - 12288) % 4 = i := by
      simp only [Geometry.entryAt]
      omega
    rw [byteAt, slice_getD _ _ _ hi, ringImg, hdiv, hmod, u8_toNat]
  rw [fatAt, u32At, u16At, u16At]
  simp only [ringGeo, hbyte (show 0 < 4 by decide), hbyte (show 0 + 1 < 4 by decide),
    hbyte (show 0 + 2 < 4 by decide), hbyte (show 0 + 2 + 1 < 4 by decide)]
  omega

theorem ring_follow {i : Nat} (hi : i < 2 ^ 31 + 1) :
    ringGeo.follow ringImg (2 + i) = some (2 + (i + 1) % (2 ^ 31 + 1)) := by
  have hentry : ringEntry (2 + i) = 2 + (i + 1) % (2 ^ 31 + 1) := by
    rw [ringEntry]
    split
    · rw [show i + 1 = 2 ^ 31 + 1 by omega, Nat.mod_self]
    · rw [Nat.mod_eq_of_lt (by omega)]
      omega
  have hlt := Nat.mod_lt (i + 1) (show 0 < 2 ^ 31 + 1 by decide)
  have hin : ringGeo.isCluster (2 + (i + 1) % (2 ^ 31 + 1)) = true := by
    rw [Geometry.isCluster, Bool.and_eq_true, decide_eq_true_eq, decide_eq_true_eq]
    exact ⟨Nat.le_add_right 2 _, show _ ≤ 2 ^ 31 + 1 + 1 by omega⟩
  rw [Geometry.follow, fatAt_ringImg (by omega), hentry, if_pos hin]

theorem ring_orbit (i : Nat) :
    orbit (ringGeo.follow ringImg) 2 i = some (2 + i % (2 ^ 31 + 1)) := by
  induction i with
  | zero => rfl
  | succ i ih => rw [orbit_succ ih, ring_follow (Nat.mod_lt i (by decide)), Nat.mod_add_mod]

theorem ring_loops : Loops (ringGeo.follow ringImg) 2 0 (2 ^ 31 + 1) where
  pos := by decide
  defined i := ⟨_, ring_orbit i⟩
  closes := by rw [ring_orbit, ring_orbit, Nat.zero_add, Nat.mod_self, Nat.zero_mod]
  distinct i j hij hj := by
    rw [ring_orbit, ring_orbit, Nat.mod_eq_of_lt (by omega), Nat.mod_eq_of_lt (by omega),
      ne_eq, Option.some.injEq]
    omega

def ringIo : Io := Io.sample (2 ^ 25 + (2 ^ 31 + 1)) ringImg []

theorem ringIo_holds : Io.Holds 512 (2 ^ 25 + (2 ^ 31 + 1)) ringImg ringIo :=
  ⟨⟨List.length_replicate, nofun⟩, ⟨rfl, rfl, rfl, rfl⟩⟩

/-- The chain at cluster 2 is a loop of `2 ^ 31 + 1` clusters. A build that checks for overflow
has no result for it. -/
theorem analyze_ring_panics : ¬ ∃ chain io', (Check.analyze ringGeo true 2).run ringIo =
    (.ok (some chain), io') ∧
    Measures (ringGeo.follow ringImg) (ringGeo.EndsAs ringImg) 2 chain := by
  rintro ⟨chain, io', hrun, -⟩
  have hcount : 0 + (2 ^ 31 + 1) ≤ 0xFFFFFFF5 := by decide
  have hmeeting : 2 ^ 32 ≤ meeting 0 (2 ^ 31 + 1) := by
    have hclog : 32 ≤ Nat.clog 2 (max (0 + 1) (2 ^ 31 + 1)) :=
      (Nat.lt_clog_iff_pow_lt Nat.one_lt_two).mpr (by decide)
    have hpow := Nat.pow_le_pow_right Nat.two_pos hclog
    rw [meeting]
    generalize Nat.clog 2 (max (0 + 1) (2 ^ 31 + 1)) = k at hpow ⊢
    omega
  have hsize : ringGeo.volumeLen ≤ (2 ^ 25 + (2 ^ 31 + 1)) * 512 := by decide
  have hloops := ring_loops
  rw [← Check.nextOf_leads ringGeo_valid] at hloops
  have hturns : meeting 0 (2 ^ 31 + 1) ≤ 3 * ringGeo.maxCluster :=
    (meeting_le_mul _ _).trans (by decide)
  obtain ⟨r, io'', hrun', hr, -⟩ :=
    ((Check.followsLinks ringImg ringGeo_valid hsize).analyze_loops true _ (by decide)
    hloops hcount hturns).ok_of ringIo_holds
  rw [if_pos ⟨rfl, hmeeting⟩] at hr
  cases hr
  cases hrun.symm.trans hrun'

/-- A loop of two clusters of a FAT12 volume is measured, and the ring is, where
overflow is not checked for. -/
theorem analyze_exact_iff_rings :
    (∃ chain io', (Hadris.Check.analyze (Fat.new loopGeo) true 2).run (Io.sample 13 loopImg []) =
      (.ok (some chain), io') ∧
      Measures (loopGeo.follow loopImg) (loopGeo.EndsAs loopImg) 2 chain) ∧
    ∃ chain io', (Check.analyze ringGeo false 2).run ringIo = (.ok (some chain), io') ∧
      Measures (ringGeo.follow ringImg) (ringGeo.EndsAs ringImg) 2 chain := by
  constructor
  · exact (analyze_exact_iff 512 13 loopImg true 2 (Io.sample 13 loopImg [])
      ⟨⟨List.length_replicate, nofun⟩, ⟨rfl, rfl, rfl, rfl⟩⟩).1
      (Fat.new loopGeo) loopGeo_valid (by decide) ⟨by decide, by decide⟩
  · exact ((analyze_exact_iff 512 (2 ^ 25 + (2 ^ 31 + 1)) ringImg false 2 ringIo ringIo_holds).2
      ringGeo ringGeo_valid
      (by decide) (by decide)).mpr nofun

end Exfat

end Hadris
