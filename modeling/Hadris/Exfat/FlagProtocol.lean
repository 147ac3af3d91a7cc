import Hadris.Exfat.VolumeFlag

namespace Hadris.Exfat

open Prog (Keeps Yields Triple)
open Borrow (getState onIo setHeld setState keeps_getState keeps_setHeld)
open VolumeFlag (Logged Durable)

section Reads

open Io (Reads)

variable (geo : Geometry)

theorem reads_checkCluster (cluster : Nat) :
    Reads (checkCluster geo cluster) fun c => c = cluster ∧ geo.isCluster cluster := by
  simp only [checkCluster]
  exact Reads.ite (fun h => Reads.pure ⟨rfl, h⟩) fun _ => Reads.fail _

theorem reads_fatEntry (cluster : Nat) : Reads (fatEntry geo cluster) fun _ => True :=
  Reads.bind (Reads.readBytes _ _) fun _ _ => Reads.pure trivial

theorem reads_get (cluster : Nat) : Reads (get geo cluster) fun _ => True :=
  Reads.ite (fun _ => Reads.fail _) fun _ => reads_fatEntry geo cluster

theorem reads_next (cluster : Nat) :
    Reads (next geo cluster) fun next => ∀ c, next = some c → geo.isCluster c := by
  refine Reads.bind (reads_get geo cluster) fun entry _ => ?_
  refine Reads.ite (fun _ => Reads.pure (by simp)) fun _ => ?_
  refine Reads.ite (fun h => Reads.pure ?_) fun _ => Reads.ite (fun _ => Reads.fail _) fun _ =>
    Reads.fail _
  rintro c ⟨⟩
  exact h

theorem reads_locateLoop (turns : Nat) (at_ : ChainPos) :
    Reads (locateLoop geo turns at_) fun _ => True := by
  induction turns generalizing at_ with
  | zero => exact Reads.pure trivial
  | succ turns ih =>
    refine Reads.bind (reads_next geo at_.cluster) fun next _ => ?_
    split
    · exact Reads.fail _
    · split
      · exact ih _
      · exact Reads.fail _

theorem reads_locate (extent : Extent) (from_ : ChainPos) (want : Nat) :
    Reads (locate geo extent from_ want) fun _ => True := by
  refine Reads.ite (fun _ => ?_) fun _ =>
    Reads.ite (fun _ => reads_locateLoop geo _ _) fun _ => ?_
  · exact Reads.bind (reads_checkCluster geo _) fun _ _ => Reads.pure trivial
  · exact Reads.bind (reads_checkCluster geo _) fun _ _ => reads_locateLoop geo _ _

theorem reads_firstGood (l : List Nat) : Reads (Vol.firstGood geo l) fun _ => True := by
  induction l with
  | nil => exact Reads.pure trivial
  | cons candidate rest ih =>
    exact Reads.bind (reads_get geo _) fun _ _ =>
      Reads.ite (fun _ => ih) fun _ => Reads.pure trivial

end Reads

namespace Geometry

variable {geo : Geometry}

theorem Valid.fatStart_le (hv : geo.Valid) {base : Nat} (h : base ∈ geo.fats) :
    12288 ≤ base ∧ base + (geo.clusterCount + 2) * 4 ≤ geo.heapStart := by
  have hfat := hv.fats base h
  have hpow := Nat.pow_le_pow_right (n := 2) (by omega) hv.sectorShift.1
  simp only [sectorSize] at hfat
  omega

theorem fatStart_mem (geo : Geometry) : geo.fatStart ∈ geo.fats := by simp [fats]

theorem clusterOffset_ge {cluster at_ : Nat} (h : geo.clusterOffset cluster = some at_) :
    geo.heapStart ≤ at_ := by
  simp only [clusterOffset] at h
  split at h
  · cases h
    exact Nat.le_add_right _ _
  · cases h

theorem isCluster_iff {cluster : Nat} :
    geo.isCluster cluster = true ↔ firstCluster ≤ cluster ∧ cluster ≤ geo.maxCluster := by
  simp [isCluster]

end Geometry

/-- An exFAT volume: its geometry, the bitmap of its other FAT, the block size
of its device, of which one block holds `VolumeFlags`, and whether the volume
was dirty when it was opened. -/
structure FlagProtocol where
  geo : Geometry
  mirror : Option Extent
  size : Nat
  start : Prop
  valid : geo.Valid
  oneBlock : (Vol.volumeFlagsAt + 1) / size = Vol.volumeFlagsAt / size

namespace FlagProtocol

open Hadris.Exfat.Vol

variable (p : FlagProtocol)

/-- What every operation keeps of the state. -/
structure Tracks (ex : ExFat) : Prop where
  geo : ex.geo = p.geo
  mirror : ex.mirror = p.mirror

/-- What the state and the device agree on. With `armed`, `beginWrite` is
done. -/
structure Ready (armed : Bool) (ex : ExFat) (d : Device Stop) : Prop where
  logged : Logged p.size p.start d
  durable : ex.dirty ≠ .clean → Durable p.size p.start d
  armed : armed = true → ex.dirty ≠ .clean

/-- The invariant of the runs of a volume. -/
abbrev Inv (armed : Bool) : Vol → Prop := Borrow.Sound p.Tracks (p.Ready armed)

variable {p} {armed : Bool} {α β : Type}

theorem Ready.disarm {ex : ExFat} {d : Device Stop} (h : p.Ready true ex d) :
    p.Ready armed ex d :=
  ⟨h.logged, h.durable, fun _ => h.armed rfl⟩

theorem Ready.script {ex : ExFat} {d : Device Stop} (h : p.Ready armed ex d)
    (rest : List (Outcome Stop)) : p.Ready armed ex { d with script := rest } :=
  ⟨h.logged.script rest, h.durable, h.armed⟩

theorem Inv.disarm {vol : Vol} (h : p.Inv true vol) : p.Inv armed vol :=
  h.mono (fun _ hs => hs) fun _ _ _ hd => hd.disarm

theorem keeps_setState {f : ExFat → ExFat} (hgeo : ∀ ex, (f ex).geo = ex.geo)
    (hmirror : ∀ ex, (f ex).mirror = ex.mirror) (hdirty : ∀ ex, (f ex).dirty = ex.dirty) :
    Keeps (p.Inv armed) (setState f) := by
  refine Borrow.keeps_setState (fun ex h => ⟨(hgeo ex).trans h.geo, (hmirror ex).trans h.mirror⟩)
    fun ex d _ hd => ⟨hd.logged, ?_, ?_⟩
  · rw [hdirty]
    exact hd.durable
  · rw [hdirty]
    exact hd.armed

theorem keeps_blockSize {f : Nat → Prog Vol Stop α} (h : Keeps (p.Inv armed) (f p.size)) :
    Keeps (p.Inv armed) (onIo Io.blockSize >>= f) :=
  Borrow.keeps_blockSize (fun _ _ hd => hd.logged.blockSize) h

theorem yields_reads {x : Prog Io Stop α} {Q : α → Prop} (hx : Io.Reads x Q) :
    Yields (p.Inv armed) (onIo x) Q :=
  Borrow.triple_reads hx fun _ _ rest hd => hd.script rest

theorem yields_getState {f : ExFat → Prog Vol Stop α} {Q : α → Prop}
    (h : ∀ ex, p.Tracks ex → Yields (p.Inv armed) (f ex) Q) :
    Yields (p.Inv armed) (getState >>= f) Q :=
  Borrow.triple_getState h

theorem yields_checkCluster (cluster : Nat) : Yields (p.Inv armed) (checkCluster p.geo cluster)
    fun c => c = cluster ∧ p.geo.isCluster cluster := by
  simp only [checkCluster]
  exact Yields.ite (fun h => Yields.pure ⟨rfl, h⟩) fun _ => Yields.fail _

theorem yields_clusterAt (cluster : Nat) :
    Yields (p.Inv armed) (clusterAt p.geo cluster) fun at_ => p.geo.heapStart ≤ at_ := by
  simp only [clusterAt]
  split
  · rename_i at_ hat
    exact Yields.pure (Geometry.clusterOffset_ge hat)
  · exact Yields.fail _

theorem keeps_write_io {x : Prog Io Stop α}
    (h : Keeps (Io.Sound fun d => Logged p.size p.start d ∧ Durable p.size p.start d) x) :
    Keeps (p.Inv true) (onIo x) := by
  refine Borrow.keeps_onIo fun ex _ io hio => ?_
  have hx := h io ⟨hio.1, hio.2.logged, hio.2.durable (hio.2.armed rfl)⟩
  exact ⟨hx.1, hx.2.1, fun _ => hx.2.2, hio.2.armed⟩

theorem keeps_put {zeros : Bool} {offset : Nat} {data : List UInt8}
    (havoid : volumeFlagsAt < offset ∨ offset + data.length ≤ volumeFlagsAt) :
    Keeps (p.Inv true) (onIo (Io.put zeros offset data)) :=
  keeps_write_io
    (Io.keeps_put (VolumeFlag.frame_durable havoid) (fun _ hd => hd.1.blockSize) zeros
    offset data (Nat.le_refl _) (Nat.le_refl _))

theorem keeps_io_flush : Keeps (p.Inv armed) (onIo Io.flush) :=
  Borrow.keeps_onIo fun _ _ => Io.keeps_flush (fun _ rest hd => hd.script rest) fun _ done hd =>
    ⟨hd.logged.flush done, fun hc => (hd.durable hc).flush done, hd.armed⟩

theorem testBit_setFlag (flags : Nat) :
    (clearFlag (flags ||| volumeDirty) volumeClearToZero).testBit 1 = true := by
  simp only [clearFlag, Nat.testBit_and, Nat.testBit_or]
  have hmask : (0xFFFF ^^^ volumeClearToZero).testBit 1 = true := by decide
  have hdirty : volumeDirty.testBit 1 = true := by decide
  rw [hmask, hdirty, Bool.or_true, Bool.and_true]

theorem writeFlags_io {I J K : Device Stop → Prop} {flags : Nat}
    (hsize : ∀ d, I d → d.blockSize = p.size)
    (hscript : ∀ d rest, I d → I { d with script := rest })
    (hscriptK : ∀ d rest, K d → K { d with script := rest }) (hIJ : ∀ d, I d → J d)
    (hfailed : ∀ d landed, I d → J (d.commit (volumeFlagsAt / d.blockSize)
      (VolumeFlag.flagBlock d flags) (.failed landed)))
    (hdone : ∀ d, I d → K (d.commit (volumeFlagsAt / d.blockSize)
      (VolumeFlag.flagBlock d flags) .done)) :
    Triple (Io.Sound I) (Io.writeBytes volumeFlagsAt (u16Bytes flags)) (fun _ => Io.Sound K)
      (fun _ => Io.Sound J) := by
  have hlen : (u16Bytes flags).length = 2 := rfl
  refine Io.put_block (by omega) ?_ hsize hscript hscriptK hIJ (fun d landed hd => ?_)
    (fun d hd => ?_) false
  · rw [hlen]
    exact p.oneBlock
  · have h := hfailed d landed hd
    rwa [VolumeFlag.flagBlock, hsize d hd] at h
  · have h := hdone d hd
    rwa [VolumeFlag.flagBlock, hsize d hd] at h

theorem beginWrite_spec :
    Triple (p.Inv armed) beginWrite (fun _ => p.Inv true) (fun _ => p.Inv armed) := by
  refine Borrow.triple_getState_eq fun ex hex => ?_
  refine Triple.when (fun hclean => ?_) fun hc vol h => ?_
  · cases armed with
    | true => exact fun vol h => absurd (h.state ▸ hclean) (h.io.2.armed rfl)
    | false =>
      have hback (s : ExFat) (d : Device Stop) (hs : s = ex) (hd : Logged p.size p.start d) :
          p.Ready false s d :=
        ⟨hd, fun hd' => absurd (hs ▸ hclean) hd', fun hf => absurd hf Bool.false_ne_true⟩
      have hflags := testBit_setFlag ex.flags
      have hput : Triple (Borrow.Sound (fun s => s = ex) (p.Ready false))
          (onIo (Io.writeBytes volumeFlagsAt
            (u16Bytes (clearFlag (ex.flags ||| volumeDirty) volumeClearToZero))))
          (fun _ => Borrow.Sound (fun s => s = ex) fun _ d => Logged p.size p.start d ∧
            (VolumeFlag.mark p.size).Set p.start d.log ∧ VolumeFlag.Pending p.size d.log)
          (fun _ => p.Inv false) := by
        refine Triple.conseq (Borrow.triple_onIo (T := fun s => s = ex)
          (I := fun _ => Logged p.size p.start) (J := fun _ => Logged p.size p.start)
          fun s hs => writeFlags_io (fun d hd => hd.blockSize) (fun d rest hd => hd.script rest)
            (fun d rest hd => ⟨hd.1.script rest, hd.2⟩) (fun _ hd => hd)
            (fun d landed hd => hd.setFlag hflags _) fun d hd => ?_)
          (fun vol h => h.mono (fun _ hs => hs) fun _ _ _ hd => hd.logged) (fun _ _ h => h)
          fun _ vol h => h.mono (fun _ hs => hs ▸ hex) fun s d hs hd => hback s d hs hd
        have hset :=
          (VolumeFlag.isSet_flagBlock (d := d) (Eq.refl (Fate.stored .done))).mpr hflags
        exact ⟨hd.setFlag hflags .done, (hd.setFlag hflags .done).marked hset,
          VolumeFlag.pending_setFlag hd.blockSize hflags⟩
      refine Triple.bind (Q := fun _ => Borrow.Sound p.Tracks fun _ d =>
        Logged p.size p.start d ∧ (VolumeFlag.mark p.size).Set p.start d.log ∧
          VolumeFlag.Pending p.size d.log) (Triple.bind hput fun _ =>
            Borrow.triple_setState (fun s _ hs _ => ?_) fun _ _ _ hd => hd) fun _ => ?_
      · rw [hs]
        exact ⟨hex.geo, hex.mirror⟩
      refine Triple.bind (Borrow.triple_setState (U := fun s => p.Tracks s ∧ s.dirty = .marked)
        (J := fun _ d => Logged p.size p.start d ∧ (VolumeFlag.mark p.size).Set p.start d.log ∧
          VolumeFlag.Pending p.size d.log)
        (fun s _ hs _ => ⟨⟨hs.geo, hs.mirror⟩, rfl⟩) fun _ _ _ hd => hd) fun _ => ?_
      have hmarked (s : ExFat) (hs : s.dirty = .marked) : s.dirty ≠ .clean := by
        rw [hs]
        decide
      refine (Borrow.triple_onIo fun s hs => Io.flush_sound
        (J := fun d => Logged p.size p.start d ∧ Durable p.size p.start d)
        (K := fun d => Logged p.size p.start d ∧ Durable p.size p.start d)
        (fun d rest hd => ⟨hd.1.script rest, hd.2⟩)
        (fun d hd => ⟨hd.1.flush false, VolumeFlag.durable_flush_failed hd.2.2⟩)
        fun d hd => ⟨hd.1.flush true, VolumeFlag.durable_flush hd.2.1⟩).weaken ?_ ?_
      · exact fun _ vol h => h.mono (fun _ hs => hs.1) fun s d hs hd =>
          ⟨hd.1, fun _ => hd.2, fun _ => hmarked s hs.2⟩
      · exact fun _ vol h => h.mono (fun _ hs => hs.1) fun s d hs hd =>
          ⟨hd.1, fun _ => hd.2, fun _ => hmarked s hs.2⟩
  · exact h.mono (fun _ hs => hs ▸ hex) fun s d hs hd => ⟨hd.logged, hd.durable, fun _ => hs ▸ hc⟩

theorem keeps_beginWrite : Keeps (p.Inv armed) beginWrite :=
  Prog.keeps_iff_triple.mpr (beginWrite_spec.post fun _ _ h => h.disarm)

theorem keeps_armed {f : Unit → Prog Vol Stop α} (h : Keeps (p.Inv true) (f ())) :
    Keeps (p.Inv armed) (beginWrite >>= f) :=
  Prog.keeps_iff_triple.mpr (Triple.bind beginWrite_spec fun _ =>
    (Prog.keeps_iff_triple.mp h).weaken (fun _ _ h => h.disarm) fun _ _ h => h.disarm)

theorem keeps_clearDirty : Keeps (p.Inv false) clearDirty := by
  refine Prog.keeps_iff_triple.mpr (Borrow.triple_getState_eq fun ex hex => ?_)
  refine Triple.when (fun hmarked => ?_) fun _ vol h => h.mono (fun _ hs => hs ▸ hex)
    fun _ _ _ hd => hd
  have hne : ex.dirty ≠ .clean := by
    rw [hmarked]
    decide
  have hback (s : ExFat) (d : Device Stop) (_ : s = ex)
      (hd : Logged p.size p.start d ∧ Durable p.size p.start d) : p.Ready false s d :=
    ⟨hd.1, fun _ => hd.2, fun hf => absurd hf Bool.false_ne_true⟩
  have hflush : Triple (Borrow.Sound (fun s => s = ex) (p.Ready false)) (onIo Io.flush)
      (fun _ => Borrow.Sound (fun s => s = ex) fun _ d =>
        (Logged p.size p.start d ∧ Durable p.size p.start d) ∧
          (VolumeFlag.mark p.size).Settled (fun _ => False) d.log) (fun _ => p.Inv false) := by
    refine (Borrow.triple_onIo fun s hs => Io.flush_sound
      (J := fun d => Logged p.size p.start d ∧ Durable p.size p.start d)
      (fun d rest hd => hd.script rest) (fun d hd => ?_) fun d hd => ?_).weaken (fun _ _ h => h)
      fun _ vol h => h.mono (fun _ hs => hs ▸ hex) fun s d hs hd => hback s d hs hd
    · exact ⟨hd.logged.flush false, (hd.durable (hs ▸ hne)).flush false⟩
    · exact ⟨⟨hd.logged.flush true, (hd.durable (hs ▸ hne)).flush true⟩,
        Mark.settled_cons_of_flushes rfl⟩
  refine Triple.bind hflush fun _ => ?_
  have hput : Triple (Borrow.Sound (fun s => s = ex) fun _ d =>
      (Logged p.size p.start d ∧ Durable p.size p.start d) ∧
        (VolumeFlag.mark p.size).Settled (fun _ => False) d.log)
      (onIo (Io.writeBytes volumeFlagsAt (u16Bytes (clearFlag ex.flags volumeDirty))))
      (fun _ => Borrow.Sound p.Tracks fun _ d => Logged p.size p.start d)
        (fun _ => p.Inv false) := by
    refine (Borrow.triple_onIo fun s hs => writeFlags_io (K := Logged p.size p.start)
      (J := fun d => Logged p.size p.start d ∧ Durable p.size p.start d)
      (fun d hd => hd.1.1.blockSize) (fun d rest hd => ⟨⟨hd.1.1.script rest, hd.1.2⟩, hd.2⟩)
      (fun d rest hd => hd.script rest) (fun d hd => hd.1)
      (fun d landed hd => ⟨hd.1.1.clearFlag hd.2 _, hd.1.2.clearFlag_failed⟩)
      fun d hd => hd.1.1.clearFlag hd.2 _).weaken (fun _ vol h => h.mono (fun _ hs => hs ▸ hex)
        fun _ _ _ hd => hd) fun _ vol h => h.mono (fun _ hs => hs ▸ hex) fun s d hs hd =>
          hback s d hs hd
  refine Triple.bind (Q := fun _ => Borrow.Sound p.Tracks fun _ d => Logged p.size p.start d)
    (Triple.bind hput fun _ => Borrow.triple_setState (fun s _ hs _ => ⟨hs.geo, hs.mirror⟩)
      fun _ _ _ hd => hd) fun _ => ?_
  exact Borrow.triple_setState (fun s _ hs _ => ⟨hs.geo, hs.mirror⟩) fun s d _ hd =>
    ⟨hd, fun hc => absurd rfl hc, fun hf => absurd hf Bool.false_ne_true⟩

theorem keeps_write {offset : Nat} {data : List UInt8}
    (havoid : volumeFlagsAt < offset ∨ offset + data.length ≤ volumeFlagsAt) :
    Keeps (p.Inv armed) (write offset data) :=
  keeps_armed (keeps_put havoid)

theorem keeps_write_of_le {offset : Nat} {data : List UInt8} (h : 12288 ≤ offset) :
    Keeps (p.Inv armed) (write offset data) := by
  refine keeps_write (Or.inl ?_)
  simp only [volumeFlagsAt]
  omega

theorem keeps_set (cluster value : Nat) : Keeps (p.Inv armed) (set cluster value) := by
  refine keeps_getState fun ex hex => ?_
  rw [hex.geo]
  refine Yields.keeps_bind (yields_checkCluster cluster) fun _ _ =>
    Keeps.each _ fun base hbase => ?_
  have hfat := p.valid.fatStart_le hbase
  refine keeps_write_of_le ?_
  simp only [Geometry.entryAt]
  omega

theorem heapStart_le (p : FlagProtocol) :
    12288 ≤ p.geo.heapStart ∧ p.geo.clusterCount + 12288 ≤ p.geo.heapStart := by
  have hfat := p.valid.fatStart_le p.geo.fatStart_mem
  omega

theorem yields_bitmapOffset (pos : Nat) :
    Yields (p.Inv armed) (bitmapOffset pos) fun at_ => p.geo.heapStart ≤ at_ := by
  refine yields_getState fun ex hex => ?_
  refine Yields.bind (yields_reads (reads_locate _ _ _ _)) fun hint _ => ?_
  refine Yields.bind (Yields.of_keeps (keeps_setState (fun _ => rfl) (fun _ => rfl) fun _ => rfl))
    fun _ _ => ?_
  rw [hex.geo]
  refine Yields.bind (yields_clusterAt _) fun at_ hat => Yields.pure ?_
  omega

theorem yields_mirrorOffset (mirror : Extent) (pos : Nat) :
    Yields (p.Inv armed) (mirrorOffset mirror pos) fun at_ => p.geo.heapStart ≤ at_ := by
  refine yields_getState fun ex hex => ?_
  refine Yields.bind (yields_reads (reads_locate _ _ _ _)) fun other _ => ?_
  rw [hex.geo]
  refine Yields.bind (yields_clusterAt _) fun at_ hat => Yields.pure ?_
  omega

theorem keeps_bitmapBytes (pos len : Nat) : Keeps (p.Inv armed) (bitmapBytes pos len) :=
  keeps_getState fun _ _ => Yields.keeps_bind (yields_bitmapOffset pos) fun _ _ =>
    (yields_reads (Io.Reads.readBytes _ _)).keeps

theorem keeps_bit (cluster : Nat) : Keeps (p.Inv armed) (bit cluster) := by
  refine keeps_getState fun ex hex => ?_
  rw [hex.geo]
  exact Yields.keeps_bind (yields_checkCluster cluster) fun _ _ =>
    Keeps.bind (keeps_bitmapBytes _ _) fun _ => Keeps.pure _

theorem keeps_runUsedLoop (end_ fuel bit : Nat) :
    Keeps (p.Inv armed) (runUsedLoop end_ fuel bit) := by
  induction fuel generalizing bit with
  | zero => exact Keeps.pure _
  | succ fuel ih =>
    refine Keeps.ite (Keeps.bind (keeps_bitmapBytes _ _) fun chunk => ?_) (Keeps.pure _)
    exact Keeps.ite (ih _) (Keeps.pure _)

theorem keeps_runUsed (first count : Nat) : Keeps (p.Inv armed) (runUsed first count) := by
  refine Keeps.ite (Keeps.pure _) (keeps_getState fun ex hex => ?_)
  rw [hex.geo]
  refine Yields.keeps_bind (yields_checkCluster _) fun _ _ => ?_
  exact Yields.keeps_bind (yields_checkCluster _) fun _ _ => keeps_runUsedLoop _ _ _

theorem keeps_adjustFree (flips : Nat) (state : ClusterState) :
    Keeps (p.Inv armed) (setState fun ex => ex.adjustFree flips state) :=
  keeps_setState (fun _ => rfl) (fun _ => rfl) fun _ => rfl

theorem keeps_setBit (cluster : Nat) (state : ClusterState) :
    Keeps (p.Inv armed) (setBit cluster state) := by
  refine keeps_getState fun ex hex => ?_
  rw [hex.geo]
  refine Yields.keeps_bind (yields_checkCluster _) fun _ _ => ?_
  refine Yields.keeps_bind (yields_bitmapOffset _) fun at_ hat => ?_
  refine Yields.keeps_bind (yields_reads (Io.Reads.readBytes _ _)) fun byte _ =>
    Keeps.when fun _ => ?_
  have hheap := p.heapStart_le
  refine Keeps.bind (Keeps.whenSome fun mirror _ => ?_) fun _ =>
    Keeps.bind (keeps_write_of_le (by omega)) fun _ => keeps_adjustFree _ _
  refine Yields.keeps_bind (yields_mirrorOffset _ _) fun otherAt hother => ?_
  exact Yields.keeps_bind (yields_reads (Io.Reads.readBytes _ _)) fun _ _ =>
    keeps_write_of_le (by omega)

/-- The bits of a place are behind the boot sector. -/
def PlaceOk (p : FlagProtocol) (place : Place × Place) : Prop :=
  12288 ≤ place.1.2 ∧ (p.mirror.isSome = true → 12288 ≤ place.2.2)

theorem yields_bitPlace (cluster : Nat) :
    Yields (p.Inv armed) (bitPlace cluster) p.PlaceOk := by
  refine Borrow.triple_blockSize (fun _ _ hd => hd.logged.blockSize) ?_
  refine yields_getState fun ex hex => ?_
  rw [hex.geo]
  refine Yields.bind (yields_checkCluster _) ?_
  rintro _ ⟨rfl, hc⟩
  refine Yields.bind (yields_bitmapOffset _) fun at_ hat => ?_
  have hheap := p.heapStart_le
  rw [Geometry.isCluster_iff] at hc
  simp only [Geometry.maxCluster, firstCluster] at hc
  split
  · rename_i hnone
    refine Yields.pure ⟨?_, fun hs => ?_⟩
    · simp only [firstCluster]
      omega
    · rw [← hex.mirror, hnone] at hs
      cases hs
  · refine Yields.bind (yields_mirrorOffset _ _) fun other hother => Yields.pure ⟨?_, fun _ => ?_⟩
    · simp only [firstCluster]
      omega
    · simp only [firstCluster]
      omega

theorem patchBitmap_outside {state : ClusterState} {start origin : Nat} {clusters : List Nat}
    {data data' : List UInt8} {flips flips' : Nat}
    (h : patchBitmap state start origin clusters data flips = some (data', flips')) :
    data'.length = data.length ∧ ∀ k, start + k < origin → data'.getD k 0 = data.getD k 0 := by
  induction clusters generalizing data flips with
  | nil =>
    cases h
    exact ⟨rfl, fun _ _ => rfl⟩
  | cons cluster rest ih =>
    simp only [patchBitmap] at h
    split at h
    · cases h
    · rename_i hrange
      obtain ⟨hlen, hout⟩ := ih h
      rw [List.length_set] at hlen
      refine ⟨hlen, fun k hk => (hout k hk).trans ?_⟩
      rw [List.getD_eq_getElem?_getD, List.getElem?_set_ne (by omega), List.getD_eq_getElem?_getD]

theorem patchLinks_outside {start base : Nat} {clusters : List Nat} {next : Nat}
    {data data' : List UInt8} (h : patchLinks start base clusters next data = some data') :
    data'.length = data.length ∧ ∀ k, start + k < base → data'.getD k 0 = data.getD k 0 := by
  induction clusters generalizing data next with
  | nil =>
    cases h
    exact ⟨rfl, fun _ _ => rfl⟩
  | cons cluster rest ih =>
    simp only [patchLinks] at h
    split at h
    · cases h
    · rename_i hrange
      obtain ⟨hlen, hout⟩ := ih h
      have hfit : Geometry.entryAt base cluster - start + (u32Bytes next).length ≤
          data.length := by
        have hfour : (u32Bytes next).length = 4 := rfl
        omega
      have hpatched := Io.length_patched hfit
      refine ⟨hlen.trans hpatched, fun k hk => (hout k hk).trans ?_⟩
      refine Io.getD_patched hfit (Or.inl ?_)
      simp only [Geometry.entryAt] at hrange ⊢
      omega

theorem keeps_update {index : Nat} {f : List UInt8 → Option (List UInt8 × α)}
    (hf : ∀ block data a, f block = some (data, a) → data.length = block.length ∧
      ∀ k, index * p.size + k < 12288 → data.getD k 0 = block.getD k 0) :
    Keeps (p.Inv true) (onIo (Io.update index f)) := by
  have hframe := @VolumeFlag.frame_durable p.size p.start 12288
    (12288 + (index * p.size + p.size)) (Or.inl (by decide))
  refine keeps_write_io (Io.keeps_update hframe (fun _ hd => hd.1.blockSize)
    fun block data a hlen h => ?_)
  obtain ⟨hlen', hsame⟩ := hf block data a h
  exact ⟨hlen'.trans hlen, fun k hk hout => hsame k (by omega)⟩

theorem keeps_storeBits {group : ClusterGroup} {place : Place} (state : ClusterState)
    (hplace : 12288 ≤ place.2) : Keeps (p.Inv true) (onIo (storeBits group place state)) := by
  refine Borrow.keeps_onIo_blockSize (fun _ _ hd => hd.logged.blockSize) (keeps_update ?_)
  intro block data flips h
  obtain ⟨hlen, hsame⟩ := patchBitmap_outside h
  exact ⟨hlen, fun k hk => hsame k (by omega)⟩

theorem keeps_patchBits {group : ClusterGroup} {place : Place × Place} (state : ClusterState)
    (hplace : p.PlaceOk place) : Keeps (p.Inv armed) (patchBits group place state) := by
  refine keeps_armed (keeps_getState fun ex hex => ?_)
  refine Keeps.bind (Keeps.when fun hmirror => ?_) fun _ => ?_
  · rw [hex.mirror] at hmirror
    exact Keeps.bind (keeps_storeBits _ (hplace.2 hmirror)) fun _ => Keeps.pure _
  · exact Keeps.bind (keeps_storeBits _ hplace.1) fun _ => keeps_adjustFree _ _

theorem keeps_gatherBits (place : Place × Place) (end_ fuel cluster : Nat)
    (group : ClusterGroup) :
    Keeps (p.Inv armed) (gatherBits place end_ fuel cluster group) := by
  induction fuel generalizing cluster group with
  | zero => exact Keeps.pure _
  | succ fuel ih =>
    refine Keeps.ite (Keeps.bind (yields_bitPlace _).keeps fun other => ?_) (Keeps.pure _)
    exact Keeps.ite (ih _ _) (Keeps.pure _)

theorem keeps_setBitsLoop (end_ : Nat) (state : ClusterState) (fuel cluster : Nat) :
    Keeps (p.Inv armed) (setBitsLoop end_ state fuel cluster) := by
  induction fuel generalizing cluster with
  | zero => exact Keeps.pure _
  | succ fuel ih =>
    refine Keeps.ite (Yields.keeps_bind (yields_bitPlace _) fun place hplace => ?_) (Keeps.pure _)
    refine Keeps.bind (keeps_gatherBits _ _ _ _ _) fun r => ?_
    exact Keeps.bind (keeps_patchBits _ hplace) fun _ => ih _

theorem keeps_setBits (first count : Nat) (state : ClusterState) :
    Keeps (p.Inv armed) (setBits first count state) := by
  refine Keeps.when fun _ => keeps_getState fun ex hex => ?_
  rw [hex.geo]
  refine Yields.keeps_bind (yields_checkCluster _) fun _ _ => ?_
  exact Yields.keeps_bind (yields_checkCluster _) fun _ _ => keeps_setBitsLoop _ _ _ _

theorem keeps_storeLinks {group : ClusterGroup} (next : Nat) {base : Nat}
    (hbase : base ∈ p.geo.fats) : Keeps (p.Inv true) (onIo (storeLinks group next base)) := by
  have hfat := p.valid.fatStart_le hbase
  refine Borrow.keeps_onIo_blockSize (fun _ _ hd => hd.logged.blockSize) (keeps_update ?_)
  intro block data u h
  simp only [Option.map_eq_some_iff, Prod.mk.injEq] at h
  obtain ⟨data', h, rfl, -⟩ := h
  obtain ⟨hlen, hsame⟩ := patchLinks_outside h
  exact ⟨hlen, fun k hk => hsame k (by omega)⟩

theorem keeps_patchFat (group : ClusterGroup) (next : Nat) :
    Keeps (p.Inv armed) (patchFat group next) := by
  refine keeps_armed (keeps_getState fun ex hex => Keeps.each _ fun base hbase => ?_)
  rw [hex.geo] at hbase
  exact keeps_storeLinks next hbase

theorem keeps_linkRunLoop (first fuel top head : Nat) :
    Keeps (p.Inv armed) (linkRunLoop first fuel top head) := by
  induction fuel generalizing top head with
  | zero => exact Keeps.pure _
  | succ fuel ih =>
    refine Keeps.ite (keeps_getState fun ex _ => keeps_blockSize ?_) (Keeps.pure _)
    exact Keeps.bind (keeps_patchFat _ _) fun _ => ih _ _

theorem keeps_linkRun (first count : Nat) : Keeps (p.Inv armed) (linkRun first count) := by
  refine Keeps.when fun _ => keeps_getState fun ex hex => ?_
  rw [hex.geo]
  refine Yields.keeps_bind (yields_checkCluster _) fun _ _ => ?_
  exact Yields.keeps_bind (yields_checkCluster _) fun _ _ => keeps_linkRunLoop _ _ _ _

theorem keeps_countFreeLoop (count fuel pos used : Nat) :
    Keeps (p.Inv armed) (countFreeLoop count fuel pos used) := by
  induction fuel generalizing pos used with
  | zero => exact Keeps.pure _
  | succ fuel ih =>
    exact Keeps.ite (Keeps.bind (keeps_bitmapBytes _ _) fun _ => ih _ _) (Keeps.pure _)

theorem keeps_countFree : Keeps (p.Inv armed) countFree := by
  refine keeps_getState fun ex _ => ?_
  split
  · exact Keeps.pure _
  · refine Keeps.bind (keeps_countFreeLoop _ _ _ _) fun used => ?_
    exact Keeps.bind (keeps_setState (fun _ => rfl) (fun _ => rfl) fun _ => rfl) fun _ =>
      Keeps.pure _

theorem keeps_writePercentInUse : Keeps (p.Inv armed) writePercentInUse := by
  refine Keeps.bind keeps_countFree fun free => keeps_getState fun ex _ => ?_
  refine Keeps.bind (keeps_write (Or.inl (by decide))) fun _ => ?_
  exact keeps_setState (fun _ => rfl) (fun _ => rfl) fun _ => rfl

theorem keeps_findFreeLoop (from_ fuel scanned index : Nat) :
    Keeps (p.Inv armed) (findFreeLoop from_ fuel scanned index) := by
  induction fuel generalizing scanned index with
  | zero => exact Keeps.pure _
  | succ fuel ih =>
    refine keeps_getState fun ex _ => Keeps.ite ?_ (Keeps.pure _)
    refine Keeps.bind (keeps_bitmapBytes _ _) fun chunk => ?_
    refine Keeps.bind (yields_reads (reads_firstGood _ _)).keeps fun found => ?_
    split
    · exact Keeps.pure _
    · exact ih _ _

theorem keeps_setNextFree (cluster : Nat) : Keeps (p.Inv armed) (setNextFree cluster) :=
  keeps_setState (fun _ => rfl) (fun _ => rfl) fun _ => rfl

theorem keeps_allocate : Keeps (p.Inv armed) allocate := by
  refine keeps_getState fun ex _ => Keeps.ite (Keeps.fail _) ?_
  refine Keeps.bind (keeps_findFreeLoop _ _ _ _) fun found => ?_
  split
  · exact Keeps.bind (keeps_setState (fun _ => rfl) (fun _ => rfl) fun _ => rfl) fun _ =>
      Keeps.fail _
  · refine Keeps.bind (keeps_setHeld _) fun _ => Keeps.bind (keeps_set _ _) fun _ => ?_
    exact Keeps.bind (keeps_setBit _ _) fun _ => Keeps.bind (keeps_setNextFree _) fun _ =>
      Keeps.pure _

theorem keeps_windowUsed (window : BitmapWindow) (cluster : Nat) :
    Keeps (p.Inv armed) (window.used cluster) := by
  refine Keeps.bind (Keeps.ite ?_ (Keeps.pure _)) fun window =>
    Keeps.ite (Keeps.fail _) (Keeps.pure _)
  exact Keeps.bind (keeps_bitmapBytes _ _) fun _ => Keeps.pure _

theorem keeps_windowAvailable (window : BitmapWindow) (cluster : Nat) :
    Keeps (p.Inv armed) (window.available cluster) := by
  refine Keeps.bind (keeps_windowUsed _ _) fun r => Keeps.ite (Keeps.pure _) ?_
  exact keeps_getState fun ex _ => Keeps.bind (yields_reads (reads_get _ _)).keeps fun _ =>
    Keeps.pure _

theorem keeps_scanFree (total from_ count turns step found : Nat) (window : BitmapWindow) :
    Keeps (p.Inv armed) (scanFree total from_ count turns step found window) := by
  induction turns generalizing step found window with
  | zero => exact Keeps.pure _
  | succ turns ih =>
    refine Keeps.bind (keeps_windowAvailable _ _) fun r => Keeps.ite ?_ (ih _ _ _)
    exact Keeps.ite (Keeps.pure _) (ih _ _ _)

theorem keeps_gatherFree (size total from_ high top : Nat) (group : ClusterGroup)
    (window : BitmapWindow) :
    Keeps (p.Inv armed) (gatherFree size total from_ high top group window) := by
  induction top generalizing group window with
  | zero => exact Keeps.pure _
  | succ top ih =>
    refine keeps_getState fun ex _ => Keeps.ite (Keeps.pure _) ?_
    exact Keeps.bind (keeps_windowAvailable _ _) fun r => ih _ _

theorem keeps_linkFreeLoop (total from_ fuel top head : Nat) (window : BitmapWindow) :
    Keeps (p.Inv armed) (linkFreeLoop total from_ fuel top head window) := by
  induction fuel generalizing top head window with
  | zero => exact Keeps.pure _
  | succ fuel ih =>
    refine Keeps.ite (Keeps.pure _) (keeps_blockSize ?_)
    refine Keeps.bind (keeps_gatherFree _ _ _ _ _ _ _) fun r => Keeps.ite (ih _ _ _) ?_
    exact Keeps.bind (keeps_patchFat _ _) fun _ => ih _ _ _

theorem keeps_nextOf (stop : Bool) (cluster : Nat) :
    Keeps (p.Inv armed) (nextOf stop cluster) := by
  refine keeps_getState fun ex _ => Keeps.ite (Keeps.pure _) ?_
  exact (yields_reads ((reads_next _ _).attempt)).keeps

theorem keeps_gatherMark (used : Bool) (place : Place × Place) (left cluster : Nat)
    (group : ClusterGroup) : Keeps (p.Inv armed) (gatherMark used place left cluster group) := by
  induction left generalizing cluster group with
  | zero => exact Keeps.pure _
  | succ left ih =>
    refine Keeps.bind (keeps_nextOf _ _) fun next => ?_
    split
    · exact Keeps.pure _
    · exact Keeps.pure _
    · refine Keeps.ite (Keeps.bind (yields_bitPlace _).keeps fun other => ?_) (Keeps.pure _)
      exact Keeps.ite (ih _ _) (Keeps.pure _)

theorem keeps_markChainLoop (record : Bool) (state : ClusterState) (fuel left cluster : Nat) :
    Keeps (p.Inv armed) (markChainLoop record state fuel left cluster) := by
  induction fuel generalizing left cluster with
  | zero => exact Keeps.fail _
  | succ fuel ih =>
    refine Yields.keeps_bind (yields_bitPlace _) fun place hplace => ?_
    refine Keeps.bind (keeps_gatherMark _ _ _ _ _) fun r => ?_
    refine Keeps.bind (Keeps.when fun _ => ?_) fun _ => ?_
    · exact Keeps.bind (Keeps.when fun _ => keeps_setHeld _) fun _ => keeps_patchBits _ hplace
    · split
      · exact Keeps.fail _
      · exact ih _ _
      · exact Keeps.pure _

theorem keeps_allocateRun (count : Nat) : Keeps (p.Inv armed) (allocateRun count) := by
  refine Keeps.ite (Keeps.pure _) (Keeps.ite keeps_allocate ?_)
  refine keeps_getState fun ex _ => Keeps.ite (Keeps.fail _) ?_
  refine Keeps.bind (keeps_scanFree _ _ _ _ _ _ _) fun r => ?_
  split
  · exact Keeps.bind (keeps_setState (fun _ => rfl) (fun _ => rfl) fun _ => rfl) fun _ =>
      Keeps.fail _
  · refine Keeps.bind (keeps_linkFreeLoop _ _ _ _ _ _) fun head => ?_
    refine Keeps.bind (keeps_setHeld _) fun _ =>
      Keeps.bind (keeps_markChainLoop _ _ _ _ _) fun _ => ?_
    exact Keeps.bind (keeps_setNextFree _) fun _ => Keeps.pure _

theorem keeps_freeChain (first : Nat) : Keeps (p.Inv armed) (freeChain first) := by
  refine keeps_getState fun ex hex => ?_
  rw [hex.geo]
  refine Yields.keeps_bind (yields_checkCluster _) fun _ _ => ?_
  exact Keeps.bind (keeps_markChainLoop _ _ _ _ _) fun _ => keeps_setHeld _

/-- Entries that leave `VolumeFlags` alone. -/
def SpareFlag (size : Nat) (entries : List (Nat × List UInt8)) : Prop :=
  ∀ run ∈ segments size entries, volumeFlagsAt < run.1 ∨ run.1 + run.2.length ≤ volumeFlagsAt

theorem keeps_putEntries (primaryFirst : Bool) {entries : List (Nat × List UInt8)}
    (hspare : SpareFlag p.size entries) :
    Keeps (p.Inv armed) (putEntries primaryFirst entries) := by
  refine keeps_blockSize (Keeps.each _ fun run hrun => keeps_write (hspare run ?_))
  cases primaryFirst with
  | true => exact hrun
  | false => exact List.mem_reverse.mp hrun

end FlagProtocol

end Hadris.Exfat
