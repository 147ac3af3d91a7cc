import Hadris.FatStore

namespace Hadris

open List

namespace Device

variable {ε : Type} {A : Outcome ε → Prop}

/-- A call to come may fail. -/
def Faulty (A : Outcome ε → Prop) : Prop := ∃ e landed, A (.failed e landed)

/-- A write to come may fail that is stored. -/
def Lands (A : Outcome ε → Prop) : Prop := ∃ e landed, A (.failed e landed) ∧ landed 0 = true

theorem Lands.faulty (h : Lands A) : Faulty A := by
  obtain ⟨e, landed, hA, -⟩ := h
  exact ⟨e, landed, hA⟩

theorem Failed.faulty {past : Prop} {stored : Nat → Bool} (h : Failed A past stored)
    (hpast : ¬ past) : Faulty A := by
  rcases h with h | ⟨e, landed, hA, -⟩
  · exact absurd h.1 hpast
  · exact ⟨e, landed, hA⟩

theorem Failed.lands {past : Prop} {stored : Nat → Bool} (h : Failed A past stored)
    (hpast : ¬ past) (hstored : stored 0 = true) : Lands A := by
  rcases h with h | ⟨e, landed, hA, hle⟩
  · exact absurd h.1 hpast
  · exact ⟨e, landed, hA, hle 0 hstored⟩

end Device

/-- A volume on a device it fits. -/
structure Medium where
  geo : Geometry
  blockSize : Nat
  blockCount : Nat
  valid : geo.Valid
  fits : geo.dataEnd ≤ blockCount * blockSize

/-- What a driver works on, as far as allocation goes: the values of the FAT entries,
what it tracks of the volume, and what it holds. -/
structure View where
  tbl : Nat → Nat → Nat
  fat : Fat
  held : Option Held

def Fat.marked (fat : Fat) (dirty : Dirty) (info : Bool) : Fat :=
  { fat with dirty := dirty, infoDirty := info }

namespace Medium

open Borrow (getState onIo setState setHeld)
open Device (Faulty Lands)
open Prog (Triple)

/-- The entry of `cluster` in FAT copy `step` lies in one device block. -/
def Whole (m : Medium) (step cluster : Nat) : Prop :=
  m.geo.entryAt step cluster % m.blockSize + m.geo.kind.entryLen ≤ m.blockSize

instance (m : Medium) (step cluster : Nat) : Decidable (m.Whole step cluster) :=
  inferInstanceAs (Decidable (_ ≤ _))

/-- The device holds the bytes of `rest` with the table `tbl`, and answers as `A` allows. -/
def Shown (m : Medium) (A : Outcome Stop → Prop) (rest : Nat → UInt8)
    (tbl : Nat → Nat → Nat) (io : Io) : Prop :=
  ∃ img, m.geo.Shows rest tbl img ∧ Io.Answers A m.blockSize m.blockCount img io

/-- The volume is as `v` says. -/
structure At (m : Medium) (A : Outcome Stop → Prop) (rest : Nat → UInt8) (v : View) (vol : Vol) :
    Prop where
  io : m.Shown A rest v.tbl vol.io
  geo : v.fat.geo = m.geo
  state : ∃ dirty info, vol.state = v.fat.marked dirty info
  held : vol.held = v.held

variable {m : Medium} {A : Outcome Stop → Prop} {rest : Nat → UInt8} {tbl tbl' : Nat → Nat → Nat}
  {v : View}
variable {α : Type} {E : Stop → Vol → Prop} {step cluster : Nat}

theorem fatEnd_le (m : Medium) : m.geo.fatEnd ≤ m.blockCount * m.blockSize := by
  have hdata := m.valid.dataStart
  have hfits := m.fits
  simp only [Geometry.dataEnd] at hfits
  simp only [Geometry.fatEnd]
  omega

theorem entry_fits (hstep : step < m.geo.copies) (hc : cluster ≤ m.geo.maxCluster) :
    m.geo.entryAt step cluster + m.geo.kind.entryLen ≤ m.blockCount * m.blockSize :=
  (Geometry.entryAt_bounds m.valid hstep hc).2.trans m.fatEnd_le

theorem at_pos {vol : Vol} (h : m.At A rest v vol) : 0 < m.blockSize := by
  obtain ⟨img, -, hio⟩ := h.io
  exact hio.pos

theorem entryLen_pos (m : Medium) : 0 < m.geo.kind.entryLen := by
  cases m.geo.kind <;> decide

theorem whole_iff (hbs : 0 < m.blockSize) : m.Whole step cluster ↔
    (m.geo.entryAt step cluster + m.geo.kind.entryLen - 1) / m.blockSize =
      m.geo.entryAt step cluster / m.blockSize := by
  have hlen := m.entryLen_pos
  have hdiv := Nat.div_add_mod' (m.geo.entryAt step cluster) m.blockSize
  rw [Whole]
  constructor
  · intro h
    exact Nat.div_eq_of_lt_le (by omega) (by rw [Nat.succ_mul]; omega)
  · intro h
    have hlt := Nat.lt_succ_of_le h.le
    rw [Nat.div_lt_iff_lt_mul hbs, Nat.succ_mul] at hlt
    omega

theorem shown_size {f : Nat → Prog Io Stop α} {Q : α → Io → Prop} {E : Stop → Io → Prop}
    (h : 0 < m.blockSize → Triple (m.Shown A rest tbl) (f m.blockSize) Q E) :
    Triple (m.Shown A rest tbl) (Io.blockSize >>= f) Q E := by
  rintro io ⟨img, hshows, hio⟩
  have hrun := h hio.pos io ⟨img, hshows, hio⟩
  rw [← hio.blockSize] at hrun
  exact hrun

theorem at_getState {f : Fat → Prog Vol Stop α} {Q : α → Vol → Prop}
    (h : ∀ dirty info, Triple (m.At A rest v) (f (v.fat.marked dirty info)) Q E) :
    Triple (m.At A rest v) (getState >>= f) Q E := by
  intro vol hvol
  obtain ⟨dirty, info, hstate⟩ := hvol.state
  have hrun := h dirty info vol hvol
  rw [← hstate] at hrun
  exact hrun

theorem at_size {f : Nat → Prog Vol Stop α} {Q : α → Vol → Prop}
    (h : 0 < m.blockSize → Triple (m.At A rest v) (f m.blockSize) Q E) :
    Triple (m.At A rest v) (onIo Io.blockSize >>= f) Q E := by
  intro vol hvol
  obtain ⟨img, -, hio⟩ := hvol.io
  have hrun := h hio.pos vol hvol
  rw [← hio.blockSize] at hrun
  exact hrun

theorem at_onIo {x : Prog Io Stop α} {Q : α → (Nat → Nat → Nat) → Prop}
    {R : Stop → (Nat → Nat → Nat) → Prop}
    (h : Triple (m.Shown A rest v.tbl) x (fun a io => ∃ tbl', Q a tbl' ∧ m.Shown A rest tbl' io)
      fun e io => ∃ tbl', R e tbl' ∧ m.Shown A rest tbl' io) :
    Triple (m.At A rest v) (onIo x)
      (fun a vol => ∃ tbl', Q a tbl' ∧ m.At A rest { v with tbl := tbl' } vol)
      fun e vol => ∃ tbl', R e tbl' ∧ m.At A rest { v with tbl := tbl' } vol := by
  intro vol hvol
  have hx := h vol.io hvol.io
  simp only [onIo, Prog.run_zoom, Borrow.ioLens]
  rcases hrun : x.run vol.io with ⟨e | a, io⟩ <;> rw [hrun] at hx
  · obtain ⟨tbl', hR, hio⟩ := hx
    exact ⟨tbl', hR, hio, hvol.geo, hvol.state, hvol.held⟩
  · obtain ⟨tbl', hQ, hio⟩ := hx
    exact ⟨tbl', hQ, hio, hvol.geo, hvol.state, hvol.held⟩

theorem at_reads {x : Prog Io Stop α} {Q : α → Prop} {R : Stop → Prop}
    (h : Triple (m.Shown A rest v.tbl) x (fun a io => Q a ∧ m.Shown A rest v.tbl io)
      fun e io => R e ∧ m.Shown A rest v.tbl io) :
    Triple (m.At A rest v) (onIo x) (fun a vol => Q a ∧ m.At A rest v vol) fun e vol => R e ∧
      m.At A rest v vol := by
  intro vol hvol
  have hx := h vol.io hvol.io
  simp only [onIo, Prog.run_zoom, Borrow.ioLens]
  rcases hrun : x.run vol.io with ⟨e | a, io⟩ <;> rw [hrun] at hx
  · exact ⟨hx.1, hx.2, hvol.geo, hvol.state, hvol.held⟩
  · exact ⟨hx.1, hx.2, hvol.geo, hvol.state, hvol.held⟩

theorem at_setState {f : Fat → Fat} {fat : Fat} (hgeo : v.fat.geo = m.geo → fat.geo = m.geo)
    (hf : ∀ dirty info, ∃ dirty' info', f (v.fat.marked dirty info) = fat.marked dirty' info') :
    Triple (m.At A rest v) (setState f) (fun _ => m.At A rest { v with fat := fat }) E := by
  refine Triple.modify fun vol hvol => ⟨hvol.io, hgeo hvol.geo, ?_, hvol.held⟩
  obtain ⟨dirty, info, hstate⟩ := hvol.state
  rw [hstate]
  exact hf dirty info

theorem at_setHeld (f : Held → Held) :
    Triple (m.At A rest v) (setHeld f) (fun _ => m.At A rest { v with held := v.held.map f }) E :=
  Triple.modify fun vol hvol => ⟨hvol.io, hvol.geo, hvol.state, by rw [← hvol.held]⟩

end Medium

namespace Fat

open Device (Faulty Lands)
open Prog (Triple)

variable {m : Medium} {A : Outcome Stop → Prop} {rest : Nat → UInt8}
  {tbl : Nat → Nat → Nat} {fat : Fat}

theorem shown_writeCleanBitAt (hgeo : fat.geo = m.geo) (hk : m.geo.kind ≠ .fat12)
    (clean : Bool) {step : Nat} (hstep : step < m.geo.copies) :
    Triple (m.Shown A rest tbl) (fat.writeCleanBitAt clean step) (fun _ => m.Shown A rest tbl)
      (fun _ io => Faulty A ∧ m.Shown A rest tbl io) := by
  refine Medium.shown_size fun hpos => ?_
  rw [hgeo]
  have hdiv := Nat.div_add_mod' (m.geo.cleanAt step) m.blockSize
  have hmod := Nat.mod_lt (m.geo.cleanAt step) hpos
  have hmem := Geometry.cleanAt_mem m.valid step
  have hcopy := Geometry.fatCopy_le m.valid hstep
  have hend := m.fatEnd_le
  have hindex : m.geo.cleanAt step / m.blockSize < m.blockCount :=
    (Nat.div_lt_iff_lt_mul hpos).mpr (by omega)
  have hpast : ¬ m.blockCount ≤ m.geo.cleanAt step / m.blockSize := not_le.mpr hindex
  rintro io ⟨img, hshows, hio⟩
  refine Triple.bind (P := fun io => Io.Answers A m.blockSize m.blockCount img io)
    ((Io.answers_load _).weaken (fun _ _ h => h) fun _ io h => ?_) (fun _ => ?_) io hio
  · exact ⟨h.1.faulty hpast, img, hshows, h.2⟩
  refine Io.answers_contents ?_
  refine Triple.when (fun _ => ?_) fun _ io h => ⟨img, hshows, h.1⟩
  refine Triple.bind (Io.answers_contentsMut _) fun _ => ?_
  generalize (slice img (m.geo.cleanAt step / m.blockSize * m.blockSize) m.blockSize).getD
    (m.geo.cleanAt step % m.blockSize) 0 = before
  have hsame (a : Nat) (ha : a ≠ m.geo.cleanAt step) := patch_slice_set img
    (m.geo.cleanAt step / m.blockSize * m.blockSize) m.blockSize
      (m.geo.cleanAt step % m.blockSize)
    (m.geo.kind.withClean clean before) (hdiv ▸ ha)
  have hclean := hshows.clean m.valid hk hstep hsame
  have hlen : ((slice img (m.geo.cleanAt step / m.blockSize * m.blockSize) m.blockSize).set
      (m.geo.cleanAt step % m.blockSize) (m.geo.kind.withClean clean before)).length =
        m.blockSize := by
    rw [length_set, slice_length]
  refine (Io.answers_store A _ _ img hlen).weaken (fun _ io h => ⟨_, hclean, h⟩) fun _ io h => ?_
  obtain ⟨stored, hfailed, hio⟩ := h
  refine ⟨hfailed.faulty hpast, ?_⟩
  split at hio
  · exact ⟨_, hclean, hio⟩
  · exact ⟨_, hshows, hio⟩

theorem shown_writeCleanBit (hgeo : fat.geo = m.geo) (hk : m.geo.kind ≠ .fat12) (clean : Bool) :
    Triple (m.Shown A rest tbl) (fat.writeCleanBit clean) (fun _ => m.Shown A rest tbl)
      (fun _ io => Faulty A ∧ m.Shown A rest tbl io) := by
  rw [writeCleanBit, hgeo]
  exact Triple.each_range' (P := fun _ => m.Shown A rest tbl) 0 m.geo.copies fun step _ hstep =>
    shown_writeCleanBitAt hgeo hk clean (by omega)

/-- The link that an entry of the active FAT copy is. -/
abbrev link (m : Medium) (tbl : Nat → Nat → Nat) (cluster : Nat) :
    Except ChainError (Option Nat) :=
  m.geo.kind.next (tbl 0 cluster) m.geo.maxCluster

theorem next_and_mask (kind : FatKind) (stored max : Nat) :
    kind.next (stored &&& kind.mask) max = kind.next stored max := by
  simp only [FatKind.next, Nat.and_assoc, Nat.and_self]

theorem shown_entry {step cluster : Nat} (hstep : step < m.geo.copies)
    (hc : m.geo.IsCluster cluster) :
    Triple (m.Shown A rest tbl) (Io.readBytes (m.geo.entryAt step cluster) m.geo.kind.entryLen)
      (fun bytes io => m.geo.kind.decode cluster bytes &&& m.geo.kind.mask = tbl step cluster ∧
        m.Shown A rest tbl io)
      (fun _ io => Faulty A ∧ m.Shown A rest tbl io) := by
  rintro io ⟨img, hshows, hio⟩
  have hfits := m.entry_fits hstep hc.2
  refine ((Io.answers_readBytes _ _).weaken
    (fun bytes io h => ⟨?_, img, hshows, h.2⟩) fun _ io h =>
    ⟨h.1.faulty (by omega), img, hshows, h.2⟩) io hio
  rw [h.1]
  exact hshows.inside step hstep cluster hc

theorem shown_get (hgeo : fat.geo = m.geo) (cluster : Nat) :
    Triple (m.Shown A rest tbl) (fat.get cluster)
      (fun stored io => (m.geo.IsCluster cluster ∧ stored &&& m.geo.kind.mask = tbl 0 cluster) ∧
        m.Shown A rest tbl io)
      (fun _ io => (Faulty A ∨ ¬ m.geo.IsCluster cluster) ∧ m.Shown A rest tbl io) := by
  rw [get, checkCluster]
  by_cases hc : fat.isCluster cluster
  · rw [if_pos hc]
    rw [isCluster_iff, hgeo] at hc
    refine Triple.bind (Triple.pure (Q := fun _ => m.Shown A rest tbl) fun _ h => h) fun _ => ?_
    rw [hgeo]
    exact Triple.bind
      ((shown_entry (Geometry.copies_pos m.valid) hc).weaken (fun _ _ h => h) fun _ io h =>
      ⟨.inl h.1, h.2⟩) fun bytes => Triple.assume fun hbytes =>
        Triple.pure fun io h => ⟨⟨hc, hbytes⟩, h⟩
  · rw [if_neg hc]
    rw [isCluster_iff, hgeo] at hc
    exact fun io h => ⟨.inr hc, h⟩

theorem shown_next (hgeo : fat.geo = m.geo) (cluster : Nat) :
    Triple (m.Shown A rest tbl) (fat.next cluster)
      (fun next io => (m.geo.IsCluster cluster ∧ link m tbl cluster = .ok next) ∧
        m.Shown A rest tbl io)
      (fun _ io => (Faulty A ∨ ¬ m.geo.IsCluster cluster ∨
        ∃ err, link m tbl cluster = .error err) ∧
        m.Shown A rest tbl io) := by
  refine Triple.bind ((shown_get hgeo cluster).weaken (fun _ _ h => h) fun _ io h =>
    ⟨h.1.imp id .inl, h.2⟩)
    fun stored => Triple.assume fun hstored => ?_
  rw [link, ← hstored.2, next_and_mask, hgeo]
  split
  · rename_i next hnext
    exact Triple.pure fun io h => ⟨⟨hstored.1, hnext⟩, h⟩
  · rename_i hbad
    exact Triple.fail fun io h => ⟨.inr (.inr ⟨_, hbad⟩), h⟩
  · rename_i hbad
    exact Triple.fail fun io h => ⟨.inr (.inr ⟨_, hbad⟩), h⟩

theorem lowest_mem {group : ClusterGroup} (h : group.members ≠ []) :
    group.lowest ∈ group.members := by
  rw [ClusterGroup.lowest, getLastD_eq_getLast?, getLast?_eq_some_getLast h]
  exact getLast_mem h

def groupEntries (group : ClusterGroup) (tail : Option Nat) : List Nat :=
  group.members ++ tail.toList

def groupStored (geo : Geometry) (step : Nat) (group : ClusterGroup) (chain tail : Option Nat)
    (img : Nat → UInt8) : Nat → UInt8 :=
  geo.withEntries step false tail.toList group.lowest
    (geo.withEntries step chain.isSome group.members (chain.getD 0) img)

def groupMembers (geo : Geometry) (step : Nat) (group : ClusterGroup) (chain : Option Nat)
    (tbl : Nat → Nat → Nat) : Nat → Nat → Nat :=
  geo.storedAll step chain.isSome group.members (chain.getD 0) tbl

def groupLinked (geo : Geometry) (step : Nat) (group : ClusterGroup) (chain tail : Option Nat)
    (tbl : Nat → Nat → Nat) : Nat → Nat → Nat :=
  geo.storedAll step false tail.toList group.lowest (groupMembers geo step group chain tbl)

/-- The entries of a group lie in the block of FAT copy `step` that holds its lowest. -/
def Fits (m : Medium) (group : ClusterGroup) (tail : Option Nat) (step : Nat) : Prop :=
  ∀ c ∈ groupEntries group tail,
    m.geo.Lies step (m.geo.entryAt step group.lowest / m.blockSize * m.blockSize) m.blockSize c

theorem patchBlock_fits {img : Nat → UInt8} {step : Nat} (h : m.geo.Shows rest tbl img)
    (hstep : step < m.geo.copies) {group : ClusterGroup} (chain : Option Nat) {tail : Option Nat}
    (hmembers : ∀ c ∈ groupEntries group tail, m.geo.IsCluster c)
    (hfits : Fits m group tail step) :
    ∃ taken freed, patchBlock m.geo.kind
      (m.geo.entryAt step group.lowest / m.blockSize * m.blockSize)
      (m.geo.entryAt step) group chain tail
        (slice img (m.geo.entryAt step group.lowest / m.blockSize * m.blockSize)
        m.blockSize) = some (slice (groupStored m.geo step group chain tail img)
          (m.geo.entryAt step group.lowest / m.blockSize * m.blockSize) m.blockSize,
            taken, freed) ∧
      m.geo.freeCount (groupMembers m.geo step group chain tbl step) + taken = m.geo.freeCount
        (tbl step) + freed := by
  have hgroup (c : Nat) (hc : c ∈ group.members) := hmembers c (mem_append_left _ hc)
  obtain ⟨taken, freed, hpatch, hcount⟩ := patchEntries_lies h m.valid hstep chain.isSome hgroup
    (fun c hc => hfits c (mem_append_left _ hc)) (chain.getD 0) (0, 0)
  refine ⟨taken, freed, ?_, hcount⟩
  cases tail with
  | none =>
    simp only [patchBlock, hpatch, Option.bind_eq_bind, Option.bind_some]
    rfl
  | some tail =>
    have htail (c : Nat) (hc : c ∈ [tail]) := hmembers c (mem_append_right _ hc)
    obtain ⟨_, _, hlast, -⟩ := patchEntries_lies
      (h.withEntries m.valid hstep chain.isSome hgroup (chain.getD 0))
      m.valid hstep false htail (fun c hc => hfits c (mem_append_right _ hc)) group.lowest (0, 0)
    simp only [patchBlock, hpatch, hlast, Option.bind_eq_bind, Option.bind_some]
    rfl

theorem patchBlock_none {img : Nat → UInt8} {step : Nat} (h : m.geo.Shows rest tbl img)
    (hstep : step < m.geo.copies) {group : ClusterGroup} (chain : Option Nat) {tail : Option Nat}
    (hmembers : ∀ c ∈ groupEntries group tail, m.geo.IsCluster c)
    (hfits : ¬ Fits m group tail step) :
    patchBlock m.geo.kind (m.geo.entryAt step group.lowest / m.blockSize * m.blockSize)
      (m.geo.entryAt step) group chain tail
        (slice img (m.geo.entryAt step group.lowest / m.blockSize * m.blockSize)
        m.blockSize) = none := by
  have hgroup (c : Nat) (hc : c ∈ group.members) := hmembers c (mem_append_left _ hc)
  by_cases hlies : ∀ c ∈ group.members,
      m.geo.Lies step (m.geo.entryAt step group.lowest / m.blockSize * m.blockSize) m.blockSize c
  · obtain ⟨taken, freed, hpatch, -⟩ :=
      patchEntries_lies h m.valid hstep chain.isSome hgroup hlies (chain.getD 0) (0, 0)
    cases tail with
    | none => exact absurd (fun c hc => hlies c (by simpa [groupEntries] using hc)) hfits
    | some tail =>
      have htail : ¬ ∀ c ∈ [tail],
          m.geo.Lies step (m.geo.entryAt step group.lowest / m.blockSize * m.blockSize)
            m.blockSize c := by
        refine fun hone => hfits fun c hc => ?_
        rcases mem_append.mp hc with hc | hc
        · exact hlies c hc
        · exact hone c hc
      have hlast := patchEntries_none false htail group.lowest
        (slice_length (m.geo.withEntries step chain.isSome
        group.members (chain.getD 0) img) (m.geo.entryAt step group.lowest / m.blockSize *
          m.blockSize) m.blockSize)
        (0, 0)
      simp only [patchBlock, hpatch, hlast, Option.bind_eq_bind,
        Option.bind_some, Option.bind_none]
  · rw [patchBlock, patchEntries_none chain.isSome hlies _ (slice_length _ _ _)]
    rfl

theorem shown_storeGroup (hgeo : fat.geo = m.geo) {group : ClusterGroup}
    (chain : Option Nat) {tail : Option Nat}
    {step : Nat} (hstep : step < m.geo.copies) (hne : group.members ≠ [])
    (hmembers : ∀ c ∈ groupEntries group tail, m.geo.IsCluster c) :
    Triple (m.Shown A rest tbl) (fat.storeGroup group chain tail step)
      (fun counts io => Fits m group tail step ∧
        m.geo.freeCount (groupMembers m.geo step group chain tbl step) + counts.1 =
        m.geo.freeCount (tbl step) + counts.2 ∧
          m.Shown A rest (groupLinked m.geo step group chain tail tbl) io)
      (fun e io => ((¬ Fits m group tail step ∧ e = .ofKind .corrupt ∨ Faulty A) ∧
        m.Shown A rest tbl io) ∨
        (Fits m group tail step ∧ Lands A) ∧
          m.Shown A rest (groupLinked m.geo step group chain tail tbl) io) := by
  refine Medium.shown_size fun hpos => ?_
  rw [hgeo]
  rintro io ⟨img, hshows, hio⟩
  have hlowest := hmembers _ (mem_append_left _ (lowest_mem hne))
  have hentry := m.entry_fits hstep hlowest.2
  have hlen := m.entryLen_pos
  have hpast : ¬ m.blockCount ≤ m.geo.entryAt step group.lowest / m.blockSize := by
    rw [not_le, Nat.div_lt_iff_lt_mul hpos]
    omega
  by_cases hfits : Fits m group tail step
  · obtain ⟨taken, freed, hpatch, hcount⟩ := patchBlock_fits hshows hstep chain hmembers hfits
    have hsame : Hadris.patch img (m.geo.entryAt step group.lowest / m.blockSize * m.blockSize)
        (slice (groupStored m.geo step group chain tail img)
          (m.geo.entryAt step group.lowest / m.blockSize * m.blockSize) m.blockSize) =
        groupStored m.geo step group chain tail img :=
      patch_slice_of_same img _ m.blockSize fun a ha => by
        rw [groupStored, Geometry.withEntries_outside
          (fun c hc => hfits c (mem_append_right _ hc)) _ ha,
          Geometry.withEntries_outside (fun c hc => hfits c (mem_append_left _ hc)) _ ha]
    have hnew : m.geo.Shows rest (groupLinked m.geo step group chain tail tbl)
        (groupStored m.geo step group chain tail img) :=
      (hshows.withEntries m.valid hstep _
        (fun c hc => hmembers c (mem_append_left _ hc)) _).withEntries
        m.valid hstep _ (fun c hc => hmembers c (mem_append_right _ hc)) _
    refine ((Io.answers_update fun block a h => ?_).weaken (fun counts io h => ?_) fun e io h =>
      ?_) io hio
    · rw [hpatch, Option.some.injEq, Prod.mk.injEq] at h
      rw [← h.1, slice_length]
    · obtain ⟨block, hblock, hio⟩ := h
      rw [hpatch, Option.some.injEq, Prod.mk.injEq] at hblock
      rw [← hblock.1, hsame] at hio
      rw [← hblock.2]
      exact ⟨hfits, hcount, _, hnew, hio⟩
    · rcases h with ⟨hnone, -⟩ | ⟨stored, hfailed, hyes, hno⟩
      · rw [hpatch] at hnone
        cases hnone
      · cases hstored : stored 0 with
        | false => exact .inl ⟨.inr (hfailed.faulty hpast), _, hshows, hno hstored⟩
        | true =>
          obtain ⟨block, a, hblock, hio⟩ := hyes hstored
          rw [hpatch, Option.some.injEq, Prod.mk.injEq] at hblock
          rw [← hblock.1, hsame] at hio
          exact .inr ⟨⟨hfits, hfailed.lands hpast hstored⟩, _, hnew, hio⟩
  · have hpatch := patchBlock_none hshows hstep chain hmembers hfits
    refine ((Io.answers_update fun block a h => ?_).weaken (fun counts io h => ?_) fun e io h =>
      ?_) io hio
    · rw [hpatch] at h
      cases h
    · obtain ⟨block, hblock, -⟩ := h
      rw [hpatch] at hblock
      cases hblock
    · rcases h with ⟨-, rfl, hio⟩ | ⟨stored, hfailed, hyes, hno⟩
      · exact .inl ⟨.inl ⟨hfits, rfl⟩, _, hshows, hio⟩
      · cases hstored : stored 0 with
        | false => exact .inl ⟨.inr (hfailed.faulty hpast), _, hshows, hno hstored⟩
        | true =>
          obtain ⟨block, a, hblock, -⟩ := hyes hstored
          rw [hpatch] at hblock
          cases hblock

theorem wasFree_mask (fat : Fat) (cluster stored : Nat) :
    fat.wasFree cluster (stored &&& fat.geo.kind.mask) = fat.wasFree cluster stored := by
  simp only [wasFree, Nat.and_assoc, Nat.and_self]

theorem wasFree_marked (fat : Fat) (dirty : Dirty) (info : Bool) (cluster stored : Nat) :
    (fat.marked dirty info).wasFree cluster stored = fat.wasFree cluster stored := rfl

end Fat

namespace View

/-- What is tracked while the entry of `cluster` is written: one across two blocks
of the active copy may be left half written. -/
def pending (m : Medium) (step cluster value : Nat) (v : View) : Fat :=
  if step = 0 ∧ ¬ m.Whole 0 cluster then
    { v.fat with
      split := some (cluster, value, v.fat.wasFree cluster (v.tbl 0 cluster))
      unmirrored := some (cluster, cluster) }
  else v.fat

def written (m : Medium) (step cluster value : Nat) (v : View) : Fat :=
  let fat := v.pending m step cluster value
  let wasFree := v.fat.wasFree cluster (v.tbl 0 cluster)
  let isFree : Bool := value &&& m.geo.kind.mask == 0
  let fat := if step = 0 ∧ wasFree ≠ isFree then if isFree then fat.adjustFree 1 0
    else fat.adjustFree 0 1 else fat
  if step = 0 ∧ ¬ m.Whole 0 cluster then { fat with split := none } else fat

def put (m : Medium) (step cluster value : Nat) (v : View) : View :=
  { v with
    tbl := Geometry.stored step cluster (value &&& m.geo.kind.mask) v.tbl
    fat := v.written m step cluster value }

variable {m : Medium} {step cluster value : Nat} {v : View}

@[simp] theorem put_tbl : (v.put m step cluster value).tbl =
    Geometry.stored step cluster (value &&& m.geo.kind.mask) v.tbl := rfl

@[simp] theorem put_fat : (v.put m step cluster value).fat = v.written m step cluster value := rfl

theorem pending_geo : (v.pending m step cluster value).geo = v.fat.geo := by
  rw [pending]
  split <;> rfl

theorem written_geo : (v.written m step cluster value).geo = v.fat.geo := by
  simp only [written]
  split <;> split <;> (try split) <;> exact pending_geo

theorem written_split : (v.written m step cluster value).split =
    if step = 0 ∧ ¬ m.Whole 0 cluster then none else v.fat.split := by
  simp only [written, pending]
  by_cases hsplit : step = 0 ∧ ¬ m.Whole 0 cluster
  · simp only [if_pos hsplit]
  · simp only [if_neg hsplit]
    split <;> (try split) <;> rfl

theorem written_unmirrored : (v.written m step cluster value).unmirrored =
    if step = 0 ∧ ¬ m.Whole 0 cluster then some (cluster, cluster) else v.fat.unmirrored := by
  simp only [written, pending]
  by_cases hsplit : step = 0 ∧ ¬ m.Whole 0 cluster
  · simp only [if_pos hsplit]
    split <;> (try split) <;> rfl
  · simp only [if_neg hsplit]
    split <;> (try split) <;> rfl

end View

namespace Vol

open Borrow (getState onIo reading setState setHeld)
open Device (Faulty Lands)
open Prog (Triple)

variable {m : Medium} {A : Outcome Stop → Prop} {rest : Nat → UInt8} {v : View}
  {E : Stop → Vol → Prop}

theorem at_beginWrite : Triple (m.At A rest v) beginWrite (fun _ => m.At A rest v)
    fun _ vol => Faulty A ∧ m.At A rest v vol := by
  have hmark (dirty : Dirty) : Triple (m.At A rest v)
    (setState fun fat => { fat with dirty := dirty })
      (fun _ => m.At A rest v) fun _ vol => Faulty A ∧ m.At A rest v vol :=
    Medium.at_setState (fun h => h) fun _ info => ⟨dirty, info, rfl⟩
  have hio {x : Prog Io Stop Unit}
    (h : Triple (m.Shown A rest v.tbl) x (fun _ => m.Shown A rest v.tbl)
      fun _ io => Faulty A ∧ m.Shown A rest v.tbl io) :
      Triple (m.At A rest v) (onIo x) (fun _ => m.At A rest v) fun _ vol => Faulty A ∧
        m.At A rest v vol :=
    (Medium.at_reads (h.post fun _ _ hio => ⟨trivial, hio⟩)).post fun _ _ h => h.2
  refine Medium.at_getState fun dirty info => Triple.of_forall fun vol hvol => ?_
  refine Triple.pre ?_ fun vol' heq => show m.At A rest v vol' from heq ▸ hvol
  refine Triple.ite (fun _ => Triple.pure fun _ h => h) fun hskip => ?_
  have hgeo : (v.fat.marked dirty info).geo = m.geo := hvol.geo
  have hk : m.geo.kind ≠ .fat12 := by
    intro hk
    rw [hgeo, hk] at hskip
    exact hskip (Or.inl rfl)
  refine Triple.bind (hmark _) fun _ =>
    Triple.bind (hio (Fat.shown_writeCleanBit hgeo hk false)) fun _ =>
    Triple.bind (hio ?_) fun _ => hmark _
  rintro io ⟨img, hshows, hio⟩
  exact (Io.answers_flush.weaken (fun _ io h => ⟨img, hshows, h⟩)
    fun _ io h => ⟨h.1.faulty id, img, hshows, h.2⟩) io hio

/-- What a write of an entry leaves that fails: the entry is old or new when it lies
in one block. -/
def Unput (m : Medium) (A : Outcome Stop → Prop) (rest : Nat → UInt8) (step cluster value : Nat)
    (v : View) (vol : Vol) : Prop :=
  m.At A rest v vol ∨
    ∃ w, (m.Whole step cluster →
      w = v.tbl step cluster ∨ w = value &&& m.geo.kind.mask ∧ Lands A) ∧
    m.At A rest { v with
      tbl := Geometry.stored step cluster w v.tbl
      fat := v.pending m step cluster value } vol

theorem stored_same (step cluster : Nat) (tbl : Nat → Nat → Nat) :
    Geometry.stored step cluster (tbl step cluster) tbl = tbl := by
  rw [Geometry.stored, Function.update_eq_self, Function.update_eq_self]

theorem at_putEntry {step cluster : Nat} (hstep : step < m.geo.copies)
    (hc : m.geo.IsCluster cluster) (value : Nat) :
    Triple (m.At A rest v)
      (putEntry step cluster value) (fun _ => m.At A rest (v.put m step cluster value))
      fun _ vol => Faulty A ∧ Unput m A rest step cluster value v vol := by
  have hfits := m.entry_fits hstep hc.2
  refine Triple.bind (at_beginWrite.weaken (fun _ _ h => h) fun _ vol h => ⟨h.1, .inl h.2⟩)
    fun _ => ?_
  refine Medium.at_getState fun dirty info => Medium.at_size fun hbs => ?_
  refine Triple.of_forall fun vol₀ hvol => ?_
  have hgeo : (v.fat.marked dirty info).geo = m.geo := hvol.geo
  obtain ⟨img, hshows, hio⟩ := hvol.io
  rw [hgeo]
  -- the entry is read
  refine Triple.bind
    (Q := fun bytes vol => bytes = slice img (m.geo.entryAt step cluster) m.geo.kind.entryLen ∧
    m.At A rest v vol ∧ Io.Answers A m.blockSize m.blockCount img vol.io) ?_ fun bytes =>
      Triple.assume ?_
  · intro vol heq
    subst heq
    have hread := Io.answers_readBytes (m.geo.entryAt step cluster) m.geo.kind.entryLen vol.io hio
    simp only [onIo, Prog.run_zoom, Borrow.ioLens]
    rcases hrun : (Io.readBytes (m.geo.entryAt step cluster) m.geo.kind.entryLen).run
      vol.io with ⟨e | bytes, io⟩ <;>
      rw [hrun] at hread
    · exact ⟨hread.1.faulty (by omega),
        .inl ⟨⟨img, hshows, hread.2⟩, hvol.geo, hvol.state, hvol.held⟩⟩
    · exact ⟨hread.1, ⟨⟨img, hshows, hread.2⟩, hvol.geo, hvol.state, hvol.held⟩, hread.2⟩
  rintro rfl
  have hread : m.geo.kind.decode cluster
    (slice img (m.geo.entryAt step cluster) m.geo.kind.entryLen) &&&
      m.geo.kind.mask = v.tbl step cluster := hshows.inside step hstep cluster hc
  have hwas : (v.fat.marked dirty info).wasFree cluster (m.geo.kind.decode cluster
      (slice img (m.geo.entryAt step cluster) m.geo.kind.entryLen)) = v.fat.wasFree cluster
        (v.tbl step cluster) := by
    have hmask := hgeo ▸ hread
    rw [Fat.wasFree_marked, ← hread, ← hvol.geo, Fat.wasFree_mask]
  have hsplit :
      (step == 0 && decide (m.blockSize < m.geo.entryAt step cluster % m.blockSize +
        m.geo.kind.entryLen)) =
        true ↔ step = 0 ∧ ¬ m.Whole 0 cluster := by
    rw [Bool.and_eq_true, beq_iff_eq, decide_eq_true_eq]
    refine and_congr_right fun hzero => ?_
    rw [hzero, Medium.Whole, not_le]
  rw [hwas]
  generalize (step == 0 && decide
    (m.blockSize < m.geo.entryAt step cluster % m.blockSize + m.geo.kind.entryLen)) =
    split at hsplit ⊢
  -- an entry across two blocks is tracked while it is half written
  refine Triple.bind (Q := fun _ vol =>
    m.At A rest { v with fat := v.pending m step cluster value } vol ∧
    Io.Answers A m.blockSize m.blockCount img vol.io) ?_ fun _ => ?_
  · refine Triple.when (fun h => Triple.modify fun vol h' => ?_) fun h vol h' => ?_
    · have hpending := hsplit.mp h
      obtain rfl := hpending.1
      obtain ⟨dirty', info', hstate⟩ := h'.1.state
      refine ⟨⟨h'.1.io, View.pending_geo.trans hvol.geo, ⟨dirty', info', ?_⟩, h'.1.held⟩, h'.2⟩
      rw [hstate, View.pending, if_pos hpending]
      rfl
    · rw [View.pending, if_neg (fun hs => h (hsplit.mpr hs))]
      exact h'
  -- the entry is stored
  refine Triple.bind (Q := fun _ => m.At A rest { v with
    tbl := Geometry.stored step cluster (value &&& m.geo.kind.mask) v.tbl
    fat := v.pending m step cluster value }) ?_ fun _ => ?_
  · rintro vol ⟨hat, hio'⟩
    have hput := Io.answers_put false (m.geo.entryAt step cluster)
      (m.geo.kind.encode cluster value
        (slice img (m.geo.entryAt step cluster) m.geo.kind.entryLen)) vol.io hio'
    have hlen := m.geo.kind.encode_length cluster value
      (slice img (m.geo.entryAt step cluster) m.geo.kind.entryLen)
    have hpast : ¬ m.blockCount * m.blockSize < m.geo.entryAt step cluster +
        (m.geo.kind.encode cluster value
          (slice img (m.geo.entryAt step cluster) m.geo.kind.entryLen)).length := by
      rw [hlen]
      omega
    simp only [onIo, Prog.run_zoom, Borrow.ioLens]
    rcases hrun : (Io.put false (m.geo.entryAt step cluster) (m.geo.kind.encode cluster value
      (slice img (m.geo.entryAt step cluster) m.geo.kind.entryLen))).run vol.io with ⟨e | ⟨⟩, io⟩
        <;> rw [hrun] at hput
    · obtain ⟨hrefused, img', hio', hmixed⟩ := hput.mixed
      refine ⟨hrefused.faulty hpast, .inr ?_⟩
      by_cases hwhole : m.Whole step cluster
      · have hinside := (Medium.whole_iff hbs).mp hwhole
        rw [← hlen] at hinside
        obtain ⟨stored, hfailed, hio'⟩ := hput.block hinside
        cases hstored : stored 0 with
        | false =>
          refine ⟨_, fun _ => .inl rfl, ⟨img, ?_, ?_⟩, hat.geo, hat.state, hat.held⟩
          · rwa [stored_same]
          · rwa [hstored, if_neg Bool.false_ne_true] at hio'
        | true =>
          refine ⟨_, fun _ => .inr ⟨rfl, hfailed.lands hpast hstored⟩,
            ⟨_, hshows.withEntry m.valid hstep hc value, ?_⟩, hat.geo, hat.state, hat.held⟩
          rwa [hstored, if_pos rfl] at hio'
      · exact ⟨m.geo.value img' step cluster, fun h => absurd h hwhole,
          ⟨img', hshows.mixed m.valid hstep hc hmixed, hio'⟩, hat.geo, hat.state, hat.held⟩
    · exact ⟨⟨_, hshows.withEntry m.valid hstep hc value, hput⟩, hat.geo, hat.state, hat.held⟩
  -- what is free changes with the active copy
  refine Triple.bind (Q := fun _ => m.At A rest { v with
    tbl := Geometry.stored step cluster (value &&& m.geo.kind.mask) v.tbl
    fat := if step = 0 ∧ v.fat.wasFree cluster (v.tbl 0 cluster) ≠
      (value &&& m.geo.kind.mask == 0) then
      if (value &&& m.geo.kind.mask == 0) = true
        then (v.pending m step cluster value).adjustFree 1 0
      else (v.pending m step cluster value).adjustFree 0 1
        else v.pending m step cluster value }) ?_ fun _ => ?_
  · have hadjust (freed taken : Nat) (fat : Fat) (dirty : Dirty) (info : Bool) :
        (fat.marked dirty info).adjustFree freed taken =
          (fat.adjustFree freed taken).marked dirty true := rfl
    refine Triple.when (fun h => ?_) fun h vol hat => ?_
    · obtain ⟨rfl, hne⟩ := h
      rw [if_pos ⟨rfl, hne⟩]
      refine Medium.at_setState (fun hgeo => ?_) fun dirty info => ⟨dirty, true, ?_⟩
      · split <;> exact hgeo
      · split <;> exact hadjust _ _ _ _ _
    · rwa [if_neg]
      rintro ⟨rfl, hne⟩
      exact h ⟨rfl, hne⟩
  · rw [View.put]
    refine Triple.when (fun h => Medium.at_setState (fun _ => View.written_geo.trans hvol.geo)
      fun dirty info => ⟨dirty, info, ?_⟩) fun h vol hat => ?_
    · simp only [View.written]
      rw [if_pos (hsplit.mp h)]
      rfl
    · simp only [View.written]
      rwa [if_neg fun hs => h (hsplit.mpr hs)]

theorem at_reading {α : Type} {x : Fat → Prog Io Stop α} {Q : α → Prop} {R : Stop → Prop}
    (h : ∀ fat, fat.geo = m.geo → Triple (m.Shown A rest v.tbl) (x fat)
      (fun a io => Q a ∧ m.Shown A rest v.tbl io)
      fun e io => R e ∧ m.Shown A rest v.tbl io) :
    Triple (m.At A rest v) (reading x) (fun a vol => Q a ∧ m.At A rest v vol) fun e vol => R e ∧
      m.At A rest v vol :=
  Medium.at_getState fun dirty info vol hvol =>
    Medium.at_reads (h (v.fat.marked dirty info) hvol.geo) vol hvol

/-- What a group stored in one FAT copy makes of the volume. -/
def Patched (m : Medium) (A : Outcome Stop → Prop) (rest : Nat → UInt8) (group : ClusterGroup)
    (chain tail : Option Nat) (step : Nat) (v : View) (vol : Vol) : Prop :=
  ∃ taken freed, m.geo.freeCount (Fat.groupMembers m.geo step group chain v.tbl step) + taken =
      m.geo.freeCount (v.tbl step) + freed ∧
    m.At A rest { v with
      tbl := Fat.groupLinked m.geo step group chain tail v.tbl
      fat := if step = 0 ∧ taken ≠ freed then v.fat.adjustFree freed taken else v.fat } vol

/-- What it leaves when it is not stored, or stored though it failed. -/
def Unpatched (m : Medium) (A : Outcome Stop → Prop) (rest : Nat → UInt8) (group : ClusterGroup)
    (chain tail : Option Nat) (step : Nat) (v : View) (e : Stop) (vol : Vol) : Prop :=
  (¬ Fat.Fits m group tail step ∧ e = .ofKind .corrupt ∨ Faulty A) ∧ m.At A rest v vol ∨
    (Fat.Fits m group tail step ∧ Lands A) ∧
      m.At A rest { v with tbl := Fat.groupLinked m.geo step group chain tail v.tbl } vol

theorem at_patchCopy {group : ClusterGroup} (chain : Option Nat) {tail : Option Nat} {step : Nat}
    (hstep : step < m.geo.copies) (hne : group.members ≠ [])
    (hmembers : ∀ c ∈ Fat.groupEntries group tail, m.geo.IsCluster c) :
    Triple (m.At A rest v) (patchCopy group chain tail step)
      (fun _ vol => Fat.Fits m group tail step ∧ Patched m A rest group chain tail step v vol)
      (Unpatched m A rest group chain tail step v) := by
  refine Medium.at_getState fun dirty info vol hvol => ?_
  have hgeo : (v.fat.marked dirty info).geo = m.geo := hvol.geo
  have hstore : Triple (m.Shown A rest v.tbl)
      ((v.fat.marked dirty info).storeGroup group chain tail step)
      (fun counts io => ∃ tbl, (Fat.Fits m group tail step ∧
        m.geo.freeCount (Fat.groupMembers m.geo step group chain v.tbl step) + counts.1 =
          m.geo.freeCount (v.tbl step) + counts.2 ∧
            tbl = Fat.groupLinked m.geo step group chain tail v.tbl) ∧
        m.Shown A rest tbl io)
      fun e io => ∃ tbl,
        (((¬ Fat.Fits m group tail step ∧ e = .ofKind .corrupt ∨ Faulty A) ∧ tbl = v.tbl) ∨
        (Fat.Fits m group tail step ∧ Lands A) ∧
          tbl = Fat.groupLinked m.geo step group chain tail v.tbl) ∧
        m.Shown A rest tbl io := by
    refine (Fat.shown_storeGroup hgeo chain hstep hne hmembers).weaken
      (fun counts io h => ?_) fun _ io h => ?_
    · exact ⟨_, ⟨h.1, h.2.1, rfl⟩, h.2.2⟩
    · rcases h with ⟨hwhy, hio⟩ | ⟨hwhy, hio⟩
      · exact ⟨_, .inl ⟨hwhy, rfl⟩, hio⟩
      · exact ⟨_, .inr ⟨hwhy, rfl⟩, hio⟩
  refine Triple.bind ((Medium.at_onIo hstore).weaken (fun _ _ h => h) fun _ vol h => ?_)
    (fun counts => ?_) vol hvol
  · obtain ⟨tbl, ⟨hwhy, rfl⟩ | ⟨hwhy, rfl⟩, hat⟩ := h
    · exact .inl ⟨hwhy, hat⟩
    · exact .inr ⟨hwhy, hat⟩
  · obtain ⟨taken, freed⟩ := counts
    rintro vol ⟨tbl, ⟨hfits, hcount, rfl⟩, hat⟩
    have hadjust :
        Triple (m.At A rest { v with tbl := Fat.groupLinked m.geo step group chain tail v.tbl })
          (Prog.when (step = 0 ∧ taken ≠ freed) (setState fun fat => fat.adjustFree freed taken))
          (fun _ => m.At A rest { v with
            tbl := Fat.groupLinked m.geo step group chain tail v.tbl
            fat := if step = 0 ∧ taken ≠ freed then v.fat.adjustFree freed taken else v.fat })
          (Unpatched m A rest group chain tail step v) := by
      refine Triple.when (fun h => ?_) fun h vol hat => ?_
      · rw [if_pos h]
        exact Medium.at_setState (fun hgeo => hgeo) fun dirty _ => ⟨dirty, true, rfl⟩
      · rwa [if_neg h]
    exact (hadjust.post fun _ vol hat => ⟨hfits, taken, freed, hcount, hat⟩) vol hat

end Vol

end Hadris
