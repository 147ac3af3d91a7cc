import Hadris.Exfat.UpcaseSpec
import Hadris.FaultFree
import Mathlib.Logic.Relation

namespace Hadris.Exfat.Upcase

open Borrow (Sound triple_getState_eq triple_setState)
open Prog (Triple)

variable {geo : Geometry} {img : Nat → UInt8} {extent : Extent} {table : List UInt8}
  {J : Device Stop → Prop} {E : Stop → Io → Prop}

section Index

variable (hr : Reader geo img J E) (hgeo : geo.Valid) (hbytes : HoldsBytes geo img extent table)

include hr hbytes in
theorem indexCluster_triple {pos : Nat} (hpos : pos < extent.len) :
    Triple (Io.Sound J)
      (indexCluster geo extent (chainAt geo img extent ((pos - 1) / geo.clusterSize)) pos)
      (fun r io => r = chainAt geo img extent (pos / geo.clusterSize) ∧ Io.Sound J io) E := by
  have hsize := clusterSize_pos geo
  rw [indexCluster]
  refine Triple.ite (fun hnew => ?_) fun hsame => ?_
  · obtain ⟨k, rfl⟩ : ∃ k, pos = (k + 1) * geo.clusterSize := by
      obtain ⟨k, rfl⟩ := Nat.dvd_of_mod_eq_zero hnew.2
      refine ⟨k - 1, ?_⟩
      have hk : 0 < k := Nat.pos_of_ne_zero fun h => by simp [h] at hnew
      rw [Nat.sub_add_cancel hk, Nat.mul_comm]
    have hprev : ((k + 1) * geo.clusterSize - 1) / geo.clusterSize = k := by
      rw [Nat.succ_mul, Nat.add_sub_assoc hsize, Nat.add_comm, Nat.add_mul_div_right _ _ hsize,
        Nat.div_eq_of_lt (by omega), Nat.zero_add]
    rw [hprev, Nat.mul_div_cancel _ hsize, chainAt]
    refine Triple.ite (fun hcontiguous => ?_) fun hchain => ?_
    · rw [if_pos hcontiguous]
      exact Triple.pure fun io h => ⟨rfl, h⟩
    · rw [if_neg hchain]
      refine hr.fat _ (hbytes.isCluster ?_)
      rw [Nat.succ_mul] at hpos
      omega
  · have hprev : (pos - 1) / geo.clusterSize = pos / geo.clusterSize := by
      rcases Nat.eq_zero_or_pos pos with rfl | hpos'
      · rfl
      have hmod : pos % geo.clusterSize ≠ 0 := fun h => hsame ⟨hpos', h⟩
      have h := Nat.div_add_mod pos geo.clusterSize
      have hlt := Nat.mod_lt pos hsize
      rw [show pos - 1 = pos % geo.clusterSize - 1 + pos / geo.clusterSize * geo.clusterSize by
        rw [Nat.mul_comm]; omega, Nat.add_mul_div_right _ _ hsize, Nat.div_eq_of_lt (by omega),
        Nat.zero_add]
    rw [hprev]
    exact Triple.pure fun io h => ⟨rfl, h⟩

theorem chunk_even (hgeo : geo.Valid) {pos len : Nat} (hpos : pos % 2 = 0) (hlen : pos < len) :
    let n := min (min 64 (geo.clusterSize - pos % geo.clusterSize)) (len - pos)
    0 < n ∧ pos % geo.clusterSize + n ≤ geo.clusterSize ∧ pos + n ≤ len ∧
      ((pos + n) % 2 = 0 ∨ len ≤ pos + n) := by
  have hlt := Nat.mod_lt pos (clusterSize_pos geo)
  have hsize : geo.clusterSize = 2 * 2 ^ (geo.clusterShift - 1) := by
    have hshift := hgeo.clusterShift
    have hsector := hgeo.sectorShift
    rw [Geometry.clusterSize, ← Nat.pow_succ']
    congr 1
    omega
  have heven : pos % geo.clusterSize % 2 = 0 := by
    rw [hsize, Nat.mod_mul_right_mod]
    exact hpos
  generalize geo.clusterSize = size at *
  generalize 2 ^ (geo.clusterShift - 1) = half at *
  intro n
  simp only [n]
  omega

include hr hgeo hbytes

theorem indexLoop_triple (fuel pos : Nat) (hfuel : extent.len ≤ pos + fuel)
    (hpos : pos ≤ extent.len) (heven : pos % 2 = 0 ∨ extent.len ≤ pos) :
    Triple (Sound (Indexed extent ((unitsOf table).take (pos / 2))) fun _ => J)
      (indexLoop geo fuel (UpcaseDecoder.feedAll ((unitsOf table).take (pos / 2)) .new).2
        (chainAt geo img extent ((pos - 1) / geo.clusterSize)) pos)
      (fun _ => Sound (Indexed extent (unitsOf table)) fun _ => J) (Fails E fun _ => True) := by
  have hlength := unitsOf_length table
  rw [hbytes.length] at hlength
  have hall : extent.len ≤ pos → (unitsOf table).take (pos / 2) = unitsOf table := by
    intro hend
    exact List.take_of_length_le (by omega)
  induction fuel generalizing pos with
  | zero =>
    rw [hall (by omega)]
    exact Triple.pure fun b hb => hb
  | succ fuel ih =>
    rw [indexLoop]
    refine triple_getState_eq fun t ht => ?_
    rw [ht.extent]
    refine Triple.pre (Triple.ite (fun hmore => ?_) fun hstop => ?_) (fun b hb =>
      (⟨hb.io, hb.state ▸ ht⟩ :
        Sound (Indexed extent ((unitsOf table).take (pos / 2))) (fun _ => J) b))
    · have heven' : pos % 2 = 0 := heven.resolve_right (by omega)
      obtain ⟨hn, hwithin, hlen, hnext⟩ := chunk_even hgeo heven' hmore
      dsimp only
      generalize hchunk : min (min 64 (geo.clusterSize - pos % geo.clusterSize))
        (extent.len - pos) = n at hn hwithin hlen hnext ⊢
      refine Triple.bind (triple_onIo_reads (indexCluster_triple hr hbytes hmore)
        fun _ _ => trivial) fun cluster => Triple.assume ?_
      rintro rfl
      obtain ⟨base, hbase, -⟩ := hbytes.bytes pos hmore
      rw [clusterAt_eq hbase, pure_bind]
      refine Triple.bind (triple_onIo_reads (hr.data _ _ hbase _ n hwithin) fun _ _ => trivial)
        fun chunk => Triple.assume ?_
      rintro rfl
      rw [hbytes.slice_eq hwithin hlen hbase]
      have htake := unitsOf_bytesAt heven'
        (show pos + n ≤ table.length by rw [hbytes.length]; exact hlen)
      have hdiv : (pos + n - 1) / geo.clusterSize = pos / geo.clusterSize := by
        have h := Nat.div_add_mod pos geo.clusterSize
        rw [show pos + n - 1 = pos % geo.clusterSize + n - 1 +
          pos / geo.clusterSize * geo.clusterSize by rw [Nat.mul_comm]; omega,
          Nat.add_mul_div_right _ _ (clusterSize_pos geo), Nat.div_eq_of_lt (by omega),
          Nat.zero_add]
      refine Triple.bind (triple_setState (U := Indexed extent
        ((unitsOf table).take ((pos + n) / 2))) (J := fun _ => J) (fun t _ ht _ => ?_)
        fun _ _ _ hJ => hJ) fun _ => ?_
      · rw [htake]
        exact ht.feed _
      have hloop := ih (pos + n) (by omega) hlen hnext fun hend =>
        List.take_of_length_le (by omega)
      rw [hdiv, htake, UpcaseDecoder.feedAll_append] at hloop
      rw [htake]
      exact hloop
    · rw [hall (by omega)]
      exact Triple.pure fun b hb => hb

theorem indexUpcase_triple (storedChecksum : Nat) :
    Triple (Sound (fun t => t = new) fun _ => J) (indexUpcase geo extent storedChecksum)
      (fun _ => Sound (Valid extent (unitsOf table)) fun _ => J) (Fails E fun _ => True) := by
  rw [indexUpcase]
  refine Triple.bind (triple_setState (U := Indexed extent []) (J := fun _ => J) ?_
    fun _ _ _ hJ => hJ) fun _ => ?_
  · rintro t - rfl -
    exact ⟨rfl, rfl, rfl, rfl, Nat.succ_pos 1, fun _ _ => rfl⟩
  have hloop := indexLoop_triple hr hgeo hbytes extent.len 0 (by omega) (by omega) (.inl rfl)
  simp only [Nat.zero_div, List.take_zero, Nat.zero_sub] at hloop
  refine Triple.bind hloop fun _ => ?_
  refine Triple.bind (triple_setState (U := fun t => ∃ t₀, Indexed extent (unitsOf table) t₀ ∧
    t = { t₀ with identity := Function.update t₀.identity 0 false }) (J := fun _ => J)
    (fun t _ ht _ => ⟨t, ht, rfl⟩) fun _ _ _ hJ => hJ) fun _ => ?_
  refine Triple.bind (triple_setState (U := fun t => ∃ t₀, Indexed extent (unitsOf table) t₀ ∧
    t = setCached { t₀ with identity := Function.update t₀.identity 0 false } 0
      { t₀.cache 0 with page := 0 }) (J := fun _ => J) ?_ fun _ _ _ hJ => hJ) fun _ => ?_
  · rintro t - ⟨t₀, ht₀, rfl⟩ -
    exact ⟨t₀, ht₀, rfl⟩
  refine triple_setState (J := fun _ => J) ?_ fun _ _ _ hJ => hJ
  rintro t - ⟨t₀, ht₀, rfl⟩ -
  refine ht₀.valid rfl rfl (fun page hpage => ?_) rfl rfl fun slot => ?_
  · exact Function.update_of_ne (by omega) _ _
  · simp only [setCached]
    by_cases hone : slot = 1
    · rw [hone, Function.update_self]
    · rw [Function.update_of_ne hone]
      by_cases hzero : slot = 0
      · rw [hzero, Function.update_self]
      · rw [Function.update_of_ne hzero]
        exact ht₀.cache slot (by simp only [upcaseCache]; omega)

end Index

theorem fatEntry_triple {cluster : Nat}
    (h : Triple (Io.Sound J) (Io.readBytes (Geometry.entryAt geo.fatStart cluster) 4)
      (fun data io => data = slice img (Geometry.entryAt geo.fatStart cluster) 4 ∧
        Io.Sound J io) E) :
    Triple (Io.Sound J) (fatEntry geo cluster)
      (fun entry io => entry = fatAt geo img cluster ∧ Io.Sound J io) E := by
  refine Triple.bind h fun data => Triple.assume ?_
  rintro rfl
  exact Triple.pure fun io h => ⟨rfl, h⟩

theorem reader_of_bytes (geo : Geometry) (img : Nat → UInt8) :
    Reader geo img (fun d => d.bytes = img) fun _ => Io.Sound fun d => d.bytes = img where
  fat _ _ := fatEntry_triple (Io.readBytes_sound (fun _ _ h => h) (fun _ h => h) _ _)
  data _ _ _ _ _ _ := Io.readBytes_sound (fun _ _ h => h) (fun _ h => h) _ _

theorem reader_of_holds (img : Nat → UInt8) {bs count : Nat} (hgeo : geo.Valid)
    (hlen : geo.volumeLen ≤ count * bs) :
    Reader geo img (Device.Holds bs count img) fun _ _ => False where
  fat cluster hcluster := by
    refine fatEntry_triple (Io.holds_readBytes ?_)
    have hfat := hgeo.fats geo.fatStart (by simp [Geometry.fats])
    have hheap := hgeo.heap
    simp only [Geometry.isCluster, Bool.and_eq_true, decide_eq_true_eq] at hcluster
    have hmax : cluster ≤ geo.clusterCount + 1 := hcluster.2
    simp only [Geometry.entryAt]
    omega
  data cluster base hbase within n hn := by
    refine Io.holds_readBytes ?_
    have hcluster := isCluster_of_clusterOffset hbase
    rw [Geometry.clusterOffset, if_pos hcluster] at hbase
    cases hbase
    simp only [Geometry.isCluster, Bool.and_eq_true, decide_eq_true_eq] at hcluster
    have hmax : cluster ≤ geo.clusterCount + 1 := hcluster.2
    have hmin : 2 ≤ cluster := hcluster.1
    have hmul := Nat.mul_le_mul_right geo.clusterSize
      (show cluster - firstCluster + 1 ≤ geo.clusterCount by simp only [firstCluster]; omega)
    rw [Nat.succ_mul] at hmul
    have hheap := hgeo.heap
    omega

/-- What may happen to a mounted volume: a query, or anything else that leaves
the bytes of the table and the buffer coherent. -/
inductive Step (geo : Geometry) (extent : Extent) (table : List UInt8) :
    Borrow Upcase → Borrow Upcase → Prop
  | query (b : Borrow Upcase) (unit : Nat) : Step geo extent table b ((upcase geo unit).run b).2
  | other (b : Borrow Upcase) (io : Io) (hio : Io.Coherent io)
      (hbytes : HoldsBytes geo io.dev.bytes extent table) :
      Step geo extent table b { b with io := io }

/-- A mounted volume whose index is right. -/
structure Mounted (geo : Geometry) (extent : Extent) (table : List UInt8) (b : Borrow Upcase) :
    Prop where
  io : Io.Coherent b.io
  bytes : HoldsBytes geo b.io.dev.bytes extent table
  valid : Valid extent (unitsOf table) b.state

theorem Mounted.sound {b : Borrow Upcase} (h : Mounted geo extent table b) :
    Sound (Valid extent (unitsOf table)) (fun _ d => d.bytes = b.io.dev.bytes) b :=
  ⟨⟨h.io, rfl⟩, h.valid⟩

theorem mounted_of_sound {b : Borrow Upcase} (hbytes : HoldsBytes geo img extent table)
    (h : Sound (Valid extent (unitsOf table)) (fun _ d => d.bytes = img) b) :
    Mounted geo extent table b :=
  ⟨h.io.1, h.io.2 ▸ hbytes, h.state⟩

theorem Mounted.step {b b' : Borrow Upcase} (hgeo : geo.Valid) (h : Mounted geo extent table b)
    (hstep : Step geo extent table b b') : Mounted geo extent table b' := by
  cases hstep with
  | query unit =>
    refine mounted_of_sound h.bytes ?_
    have hquery := upcase_triple (reader_of_bytes geo b.io.dev.bytes) hgeo h.bytes
      (.inl fun _ _ hs => hs) unit
    exact Triple.state_of (hquery.weaken (fun _ _ hq => hq.2) fun _ _ he => ⟨he.1, he.2⟩) h.sound
  | other io hio hbytes => exact ⟨hio, hbytes, h.valid⟩

theorem Mounted.run {b b' : Borrow Upcase} (hgeo : geo.Valid) (h : Mounted geo extent table b)
    (hrun : Relation.ReflTransGen (Step geo extent table) b b') :
    Mounted geo extent table b' := by
  induction hrun with
  | refl => exact h
  | tail _ hstep ih => exact ih.step hgeo hstep

theorem mounted_of_index {b : Borrow Upcase} {storedChecksum : Nat} (hgeo : geo.Valid)
    (hnew : b.state = new) (hio : Io.Coherent b.io)
    (hbytes : HoldsBytes geo b.io.dev.bytes extent table)
    (hindex : ((indexUpcase geo extent storedChecksum).run b).1 = .ok ()) :
    Mounted geo extent table ((indexUpcase geo extent storedChecksum).run b).2 := by
  have h := indexUpcase_triple (reader_of_bytes geo b.io.dev.bytes) hgeo hbytes storedChecksum b
    ⟨⟨hio, rfl⟩, hnew⟩
  rcases hrun : (indexUpcase geo extent storedChecksum).run b with ⟨e | ⟨⟩, b'⟩
  · rw [hrun] at hindex
    cases hindex
  · rw [hrun] at h
    exact mounted_of_sound hbytes h

/-- A query of a mounted volume yields what the whole table says, and fails only
where a read fails or the chain of the table comes back to a cluster. -/
theorem Mounted.upcase_eq {b : Borrow Upcase} (hgeo : geo.Valid) (h : Mounted geo extent table b)
    (unit : Nat) :
    (∀ upper, ((upcase geo unit).run b).1 = .ok upper →
      upper = decodeTable (unitsOf table) unit) ∧
      (b.io.dev.script = [] → geo.volumeLen ≤ b.io.dev.size → Distinct geo b.io.dev.bytes extent →
        ((upcase geo unit).run b).1 = .ok (decodeTable (unitsOf table) unit)) := by
  constructor
  · intro upper hupper
    have hquery := upcase_triple (reader_of_bytes geo b.io.dev.bytes) hgeo h.bytes
      (.inl fun _ _ hs => hs) unit b h.sound
    rcases hrun : (upcase geo unit).run b with ⟨e | value, b'⟩ <;> rw [hrun] at hupper hquery
    · cases hupper
    · cases hupper
      exact hquery.1
  · intro hscript hlen hdistinct
    have hquery := upcase_triple (reader_of_holds b.io.dev.bytes hgeo hlen) hgeo h.bytes
      (.inr hdistinct) unit b ⟨⟨h.io, rfl, rfl, rfl, hscript⟩, h.valid⟩
    rcases hrun : (upcase geo unit).run b with ⟨e | value, b'⟩ <;> rw [hrun] at hquery
    · exact hquery.1.elim
    · rw [hquery.1]

/-- Lazy decoding agrees with the table: whatever the table holds and whatever
earlier queries left in the cache, a query yields what a sequential decoding of
the whole table yields. -/
theorem upcase_agrees {b₀ b : Borrow Upcase} {storedChecksum : Nat} (hgeo : geo.Valid)
    (hnew : b₀.state = new) (hio : Io.Coherent b₀.io)
    (hbytes : HoldsBytes geo b₀.io.dev.bytes extent table)
    (hindex : ((indexUpcase geo extent storedChecksum).run b₀).1 = .ok ())
    (hrun : Relation.ReflTransGen (Step geo extent table)
      ((indexUpcase geo extent storedChecksum).run b₀).2 b) (unit : Nat) :
    (∀ upper, ((upcase geo unit).run b).1 = .ok upper →
      upper = decodeTable (unitsOf table) unit) ∧
      (b.io.dev.script = [] → geo.volumeLen ≤ b.io.dev.size → Distinct geo b.io.dev.bytes extent →
        ((upcase geo unit).run b).1 = .ok (decodeTable (unitsOf table) unit)) :=
  ((mounted_of_index hgeo hnew hio hbytes hindex).run hgeo hrun).upcase_eq hgeo unit

/-- A table that maps 0x101 to 0x100, after a run of identity mappings that
crosses from page 0 to page 1. -/
def runTable : List UInt8 := [0xFF, 0xFF, 0x01, 0x01, 0x00, 0x01]

def runGeo : Geometry where
  sectorShift := 9
  clusterShift := 9
  volumeLen := 1048576
  fatStart := 12288
  mirrorFat := none
  active := 0
  heapStart := 16384
  clusterCount := 8
  root := 2
  serial := 0
  flags := 0
  percentInUse := 0

def runExtent : Extent := ⟨3, 6, true⟩

@[irreducible] def runVolume : Borrow Upcase :=
  ⟨Io.sample 2048 (patch (fun _ => 0) 16896 runTable) [], new, none⟩

theorem runGeo_valid : runGeo.Valid where
  sectorShift := by decide
  clusterShift := by decide
  clusterCount := by decide
  fats := by decide
  mirror := nofun
  heap := by decide
  root := by decide

theorem runVolume_holds : HoldsBytes runGeo runVolume.io.dev.bytes runExtent runTable where
  length := rfl
  bytes := by
    unfold runVolume
    decide

theorem runVolume_state : runVolume.state = new := by
  unfold runVolume
  rfl

theorem runVolume_coherent : Io.Coherent runVolume.io := by
  unfold runVolume
  exact ⟨List.length_replicate, fun _ hc => (nomatch hc)⟩

example : decodeTable (unitsOf runTable) 0x100 = 0x100 := by decide +kernel

theorem runVolume_ran : ((indexUpcase runGeo runExtent 0).run runVolume).1.toOption = some () ∧
    ((indexUpcase runGeo runExtent 0).run runVolume).2.io.dev.script.isEmpty = true ∧
      runGeo.volumeLen ≤ ((indexUpcase runGeo runExtent 0).run runVolume).2.io.dev.size ∧
        decodeTable (unitsOf runTable) 0x101 = 0x100 := by
  decide +kernel

theorem runVolume_index : ((indexUpcase runGeo runExtent 0).run runVolume).1 = .ok () := by
  have hrun := runVolume_ran.1
  rcases hindex : ((indexUpcase runGeo runExtent 0).run runVolume).1 with e | ⟨⟩
  · rw [hindex] at hrun
    cases hrun
  · rfl

theorem runVolume_indexed :
    ((indexUpcase runGeo runExtent 0).run runVolume).2.io.dev.script = [] ∧
      runGeo.volumeLen ≤ ((indexUpcase runGeo runExtent 0).run runVolume).2.io.dev.size :=
  ⟨List.isEmpty_iff.mp runVolume_ran.2.1, runVolume_ran.2.2.1⟩

theorem upcase_agrees_run : ((upcase runGeo 0x101).run
    ((indexUpcase runGeo runExtent 0).run runVolume).2).1 = .ok 0x100 := by
  have hagrees := (upcase_agrees runGeo_valid runVolume_state runVolume_coherent runVolume_holds
    runVolume_index .refl 0x101).2 runVolume_indexed.1 runVolume_indexed.2
  rw [runVolume_ran.2.2.2] at hagrees
  refine hagrees fun i j hij _ => ?_
  rw [chainAt_contiguous rfl, chainAt_contiguous rfl]
  exact fun h => absurd (Nat.add_left_cancel h) hij.ne

end Hadris.Exfat.Upcase
