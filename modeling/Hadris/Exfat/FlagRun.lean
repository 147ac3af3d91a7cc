import Hadris.Exfat.FlagProtocol
import Hadris.FaultFree

namespace Hadris.Exfat

open List

open Prog (Keeps Triple)
open Borrow (onIo setState)
open Hadris.Exfat.Vol (volumeFlagsAt)

section Mount

variable {I : Device Stop → Prop} {img : Nat → UInt8}

theorem keeps_bootSum (hscript : ∀ d rest, I d → I { d with script := rest })
    (base turns at_ sum : Nat) : Keeps (Io.Sound I) (bootSum base turns at_ sum) := by
  induction turns generalizing at_ sum with
  | zero => exact Keeps.pure _
  | succ turns ih => exact Keeps.bind (Io.keeps_readBytes hscript _ _) fun _ => ih _ _

theorem keeps_sumStored (hscript : ∀ d rest, I d → I { d with script := rest })
    (base sum turns at_ : Nat) : Keeps (Io.Sound I) (sumStored base sum turns at_) := by
  induction turns generalizing at_ with
  | zero => exact Keeps.pure _
  | succ turns ih =>
    exact Keeps.bind (Io.keeps_readBytes hscript _ _) fun _ => Keeps.ite (Keeps.pure _) (ih _)

theorem bootRegion_sound (hscript : ∀ d rest, I d → I { d with script := rest })
    (himg : ∀ d, I d → d.bytes = img) (base : Nat) :
    Triple (Io.Sound I) (bootRegion base) (fun found io =>
      (∀ geo, found = some geo → parseBoot (slice img base bootSectorLen) = .ok geo) ∧
        Io.Sound I io) (fun _ => Io.Sound I) := by
  refine Triple.bind (Io.readBytes_sound hscript himg _ _) fun boot =>
    Triple.assume fun hboot => ?_
  rw [← hboot]
  split
  · exact Triple.pure fun _ h => ⟨fun _ hf => (nomatch hf), h⟩
  · rename_i geo hgeo
    refine Triple.bind (Prog.keeps_iff_triple.mp (keeps_bootSum hscript _ _ _ _)) fun sum => ?_
    refine Triple.bind (Prog.keeps_iff_triple.mp (keeps_sumStored hscript _ _ _ _))
      fun stored => Triple.pure fun _ h => ⟨fun geo' hf => ?_, h⟩
    split at hf
    · rw [hgeo, Option.some.inj hf]
    · cases hf

theorem keeps_backupBoot (hscript : ∀ d rest, I d → I { d with script := rest })
    (himg : ∀ d, I d → d.bytes = img) (shifts : List Nat) :
    Keeps (Io.Sound I) (backupBoot shifts) := by
  induction shifts with
  | nil => exact Keeps.pure _
  | cons shift rest ih =>
    refine Keeps.bind (Keeps.gets _) fun len => Keeps.ite (Keeps.pure _) ?_
    refine Keeps.bind (Prog.keeps_iff_triple.mpr ((bootRegion_sound hscript himg _).post
      fun _ _ h => h.2)) fun found => ?_
    split
    · exact Keeps.pure _
    · exact ih

theorem readBoot_sound (hscript : ∀ d rest, I d → I { d with script := rest })
    (himg : ∀ d, I d → d.bytes = img) :
    Triple (Io.Sound I) readBoot (fun r io =>
      (r.2 = .main → parseBoot (slice img 0 bootSectorLen) = .ok r.1) ∧ Io.Sound I io)
      (fun _ => Io.Sound I) := by
  have hfitting (geo : Geometry) (region : BootRegion)
      (h : region = .main → parseBoot (slice img 0 bootSectorLen) = .ok geo) :
      Triple (Io.Sound I) (fitting geo region) (fun r io =>
        (r.2 = .main → parseBoot (slice img 0 bootSectorLen) = .ok r.1) ∧ Io.Sound I io)
        (fun _ => Io.Sound I) :=
    Triple.bind (Triple.gets (Q := fun _ => Io.Sound I) fun _ hs => hs) fun _ =>
      Triple.ite (fun _ => Triple.fail fun _ hs => hs) fun _ =>
        Triple.pure fun _ hs => ⟨h, hs⟩
  refine Triple.bind (Triple.gets (Q := fun _ => Io.Sound I) fun _ hs => hs) fun _ => ?_
  refine Triple.ite (fun _ => Triple.fail fun _ hs => hs) fun _ => ?_
  refine Triple.bind (bootRegion_sound hscript himg 0) fun found => Triple.assume ?_
  intro hfound
  split
  · exact hfitting _ _ fun _ => hfound _ rfl
  · refine Triple.bind (Prog.keeps_iff_triple.mp (keeps_backupBoot hscript himg _))
      fun found => ?_
    split
    · exact hfitting _ _ fun hf => (nomatch hf)
    · refine Triple.bind (Prog.keeps_iff_triple.mp (Io.keeps_readBytes hscript _ _)) fun _ => ?_
      exact Triple.ite (fun _ => Triple.fail fun _ hs => hs) fun _ =>
        Triple.fail fun _ hs => hs

theorem testBit_u16At (bytes : List UInt8) (i : Nat) :
    (u16At bytes i).testBit 1 = (bytes.getD i 0).toNat.testBit 1 := by
  simp only [u16At, byteAt, Nat.testBit_eq_decide_div_mod_eq]
  congr 1
  have h₀ := (bytes.getD i 0).toNat_lt
  apply propext
  constructor <;> intro h <;> omega

theorem flags_dirty {geo : Geometry} (h : parseBoot (slice img 0 bootSectorLen) = .ok geo) :
    geo.flags &&& volumeDirty ≠ 0 ↔ VolumeFlag.isSet img := by
  have hbyte : (slice img 0 bootSectorLen).getD 106 0 = img (0 + 106) :=
    slice_getD _ _ _ (by decide)
  have hmask : VolumeFlag.mask = u8 (2 ^ 1) := rfl
  have hdirty : volumeDirty = 2 ^ 1 := rfl
  rw [(parseBoot_ok h).1, VolumeFlag.isSet, hmask, Ne, Ne,
    and_two_pow_eq_zero_iff (by omega), hdirty, Nat.and_two_pow]
  change ¬ ((u16At (slice img 0 bootSectorLen) 106).testBit 1).toNat * 2 ^ 1 = 0 ↔
    ¬ (img (0 + 106)).toNat.testBit 1 = false
  rw [testBit_u16At, hbyte]
  cases (img (0 + 106)).toNat.testBit 1 <;> simp

end Mount

/-- `vol` is the volume on the device of `io`, just mounted from its main boot
region with a fresh buffer: what mounting reads besides may leave any block in
the buffer. A volume read from the backup is not written to. -/
structure Opened (io : Io) (vol : Vol) : Prop where
  fresh : io.block.cached = none
  length : io.block.data.length = io.dev.blockSize
  boot : ∃ geo io', readBoot.run io = (.ok (geo, .main), io') ∧
    ∃ bitmap mirror, vol.state = ExFat.new geo bitmap mirror
  device : vol.io.dev.bytes = io.dev.bytes ∧ vol.io.dev.blockSize = io.dev.blockSize ∧
    vol.io.dev.log = []
  buffer : Io.Coherent vol.io

/-- One call of a driver. -/
inductive Op where
  | lend (held : Option Held)
  | read (offset len : Nat)
  | locate (extent : Extent) (from_ : ChainPos) (want : Nat)
  | write (zeros : Bool) (offset : Nat) (data : List UInt8)
  | flush
  | beginWrite
  | clearDirty
  | markClean
  | set (cluster value : Nat)
  | bit (cluster : Nat)
  | runUsed (first count : Nat)
  | setBit (cluster : Nat) (state : ClusterState)
  | setBits (first count : Nat) (state : ClusterState)
  | linkRun (first count : Nat)
  | countFree
  | writePercentInUse
  | allocate
  | allocateRun (count : Nat)
  | freeChain (first : Nat)
  | writeSet (entries : List (Nat × List UInt8))
  | clearSet (entries : List (Nat × List UInt8))
deriving DecidableEq

namespace Op

def prog : Op → Prog Vol Stop Unit
  | .lend held => Prog.modify fun vol => { vol with held := held }
  | .read offset len => do
      let _ ← onIo (Io.readBytes offset len)
      pure ()
  | .locate extent from_ want => do
      let ex ← Borrow.getState
      let _ ← onIo (Exfat.locate ex.geo extent from_ want)
      pure ()
  | .write zeros offset data => do
      Vol.beginWrite
      onIo (Io.put zeros offset data)
  | .flush => onIo Io.flush
  | .beginWrite => Vol.beginWrite
  | .clearDirty => Vol.clearDirty
  | .markClean => setState ExFat.markClean
  | .set cluster value => Vol.set cluster value
  | .bit cluster => do
      let _ ← Vol.bit cluster
      pure ()
  | .runUsed first count => do
      let _ ← Vol.runUsed first count
      pure ()
  | .setBit cluster state => Vol.setBit cluster state
  | .setBits first count state => Vol.setBits first count state
  | .linkRun first count => Vol.linkRun first count
  | .countFree => do
      let _ ← Vol.countFree
      pure ()
  | .writePercentInUse => Vol.writePercentInUse
  | .allocate => do
      let _ ← Vol.allocate
      pure ()
  | .allocateRun count => do
      let _ ← Vol.allocateRun count
      pure ()
  | .freeChain first => Vol.freeChain first
  | .writeSet entries => Vol.writeSet entries
  | .clearSet entries => Vol.clearSet entries

/-- Bytes `offset..offset + len` do not hold `VolumeDirty`. -/
def sparesFlag (offset len : Nat) : Prop := volumeFlagsAt < offset ∨ offset + len ≤ volumeFlagsAt

/-- Writes of a driver's own leave `VolumeDirty` alone. -/
def Avoids : Op → Prop
  | .write _ offset data => sparesFlag offset data.length
  | .writeSet entries | .clearSet entries =>
    ∀ entry ∈ entries, entry.2.length = entrySize ∧ sparesFlag entry.1 entrySize
  | _ => True

end Op

/-- A run: each call goes on from the state the one before left behind, whether
that succeeded or failed. -/
def runOps (ops : List Op) (vol : Vol) : Vol := ops.foldl (fun vol op => (op.prog.run vol).2) vol

theorem spareFlag_segments (size : Nat) {entries : List (Nat × List UInt8)}
    (h : ∀ entry ∈ entries, entry.2.length = entrySize ∧ Op.sparesFlag entry.1 entrySize) :
    FlagProtocol.SpareFlag size entries := by
  induction entries with
  | nil => exact fun _ hrun => (nomatch hrun)
  | cons entry rest ih =>
    obtain ⟨at_, bytes⟩ := entry
    have hrest := ih fun e he => h e (by simp [he])
    obtain ⟨hlen, hat⟩ := h (at_, bytes) (by simp)
    simp only at hlen hat
    have hfirst : volumeFlagsAt < at_ ∨ at_ + bytes.length ≤ volumeFlagsAt := hlen ▸ hat
    simp only [FlagProtocol.SpareFlag, Vol.segments] at hrest ⊢
    rcases hsegments : Vol.segments size rest with _ | ⟨⟨next, more⟩, tail⟩
    · simpa using hfirst
    · rw [hsegments] at hrest
      have hnext := hrest (next, more) (by simp)
      simp only at hnext ⊢
      split
      · rename_i hjoin
        intro run hrun
        rcases mem_cons.mp hrun with rfl | hrun
        · simp only [length_append]
          omega
        · exact hrest run (by simp [hrun])
      · intro run hrun
        rcases mem_cons.mp hrun with rfl | hrun
        · exact hfirst
        · exact hrest run hrun

namespace FlagProtocol

variable {p : FlagProtocol}

theorem keeps_markClean : Keeps (p.Inv false) (setState ExFat.markClean) := by
  refine Borrow.keeps_setState (fun ex h => ⟨h.geo, h.mirror⟩) fun ex d _ hd =>
    ⟨hd.logged, fun hc => hd.durable fun hclean => hc ?_, fun hf => (nomatch hf)⟩
  simp [ExFat.markClean, hclean]

theorem keeps_op {op : Op} (havoid : op.Avoids) : Keeps (p.Inv false) op.prog := by
  cases op with
  | lend held => exact fun _ h => ⟨h.io, h.state⟩
  | read offset len =>
    exact Keeps.bind (yields_reads (Io.Reads.readBytes _ _)).keeps fun _ => Keeps.pure _
  | locate extent from_ want =>
    exact Borrow.keeps_getState fun _ _ =>
      Keeps.bind (yields_reads (reads_locate _ _ _ _)).keeps fun _ => Keeps.pure _
  | write zeros offset data => exact keeps_armed (keeps_put havoid)
  | flush => exact keeps_io_flush
  | beginWrite => exact keeps_beginWrite
  | clearDirty => exact keeps_clearDirty
  | markClean => exact keeps_markClean
  | set cluster value => exact keeps_set _ _
  | bit cluster => exact Keeps.bind (keeps_bit _) fun _ => Keeps.pure _
  | runUsed first count => exact Keeps.bind (keeps_runUsed _ _) fun _ => Keeps.pure _
  | setBit cluster state => exact keeps_setBit _ _
  | setBits first count state => exact keeps_setBits _ _ _
  | linkRun first count => exact keeps_linkRun _ _
  | countFree => exact Keeps.bind keeps_countFree fun _ => Keeps.pure _
  | writePercentInUse => exact keeps_writePercentInUse
  | allocate => exact Keeps.bind keeps_allocate fun _ => Keeps.pure _
  | allocateRun count => exact Keeps.bind (keeps_allocateRun _) fun _ => Keeps.pure _
  | freeChain first => exact keeps_freeChain _
  | writeSet entries => exact keeps_putEntries _ (spareFlag_segments _ havoid)
  | clearSet entries =>
    refine keeps_putEntries _ (spareFlag_segments _ fun entry hentry => ?_)
    obtain ⟨⟨at_, bytes⟩, hmem, rfl⟩ := mem_map.mp hentry
    have h := havoid _ hmem
    simp only [Vol.clearEntry, length_set]
    exact h

theorem keeps_runOps {ops : List Op} (havoid : ∀ op ∈ ops, op.Avoids) {vol : Vol}
    (h : p.Inv false vol) : p.Inv false (runOps ops vol) := by
  induction ops generalizing vol with
  | nil => exact h
  | cons op ops ih =>
    exact ih (fun op' h' => havoid op' (by simp [h'])) (keeps_op (havoid op (by simp)) vol h)

end FlagProtocol

theorem Opened.booted {io : Io} {vol : Vol} (h : Opened io vol) :
    parseBoot (slice io.dev.bytes 0 bootSectorLen) = .ok vol.state.geo := by
  obtain ⟨geo, io', hrun, bitmap, mirror, hstate⟩ := h.boot
  have hsound : Io.Sound (fun d => d.bytes = io.dev.bytes) io :=
    ⟨⟨h.length, fun i hi => by rw [h.fresh] at hi; cases hi⟩, rfl⟩
  have hboot := readBoot_sound (I := fun d => d.bytes = io.dev.bytes) (fun _ _ hd => hd)
    (fun d hd => hd) io hsound
  rw [hrun] at hboot
  rw [hstate]
  exact hboot.1 rfl

theorem Opened.inv {io : Io} {vol : Vol} (h : Opened io vol)
    (hblock : (volumeFlagsAt + 1) / io.dev.blockSize = volumeFlagsAt / io.dev.blockSize) :
    FlagProtocol.Inv ⟨vol.state.geo, vol.state.mirror, io.dev.blockSize,
      VolumeFlag.isSet io.dev.bytes, parseBoot_valid h.booted, hblock⟩ false vol := by
  have hparse := h.booted
  obtain ⟨hbytes, hsize, hlog⟩ := h.device
  obtain ⟨geo, io', -, bitmap, mirror, hstate⟩ := h.boot
  refine ⟨⟨h.buffer, ⟨hsize, ?_, ?_, ?_⟩, fun hdirty => ?_, fun hf => (nomatch hf)⟩, ⟨rfl, rfl⟩⟩
  · rw [hlog, hbytes]
    exact id
  · rw [hlog]
    trivial
  · rw [hlog]
    exact fun _ => trivial
  · rw [VolumeFlag.Durable, hlog]
    intro _
    rw [hstate] at hparse hdirty
    refine (flags_dirty hparse).mp fun hclean => hdirty ?_
    simp only [ExFat.new] at hclean ⊢
    rw [if_neg (not_not.mpr hclean)]

/-- In every run of an exFAT volume, however device calls fail, `VolumeDirty` is
cleared only right after a successful flush; and in a run that is spared, every
write of anything but `VolumeFlags` comes after a successful flush since the
flag was written as set, or found set. -/
theorem volume_dirty_protocol {io : Io} {vol : Vol} (h : Opened io vol)
    (hblock : (volumeFlagsAt + 1) / io.dev.blockSize = volumeFlagsAt / io.dev.blockSize)
    (ops : List Op) (hops : ∀ op ∈ ops, op.Avoids) :
    Past.Always (fun e older => VolumeFlag.clears io.dev.blockSize e →
        (VolumeFlag.mark io.dev.blockSize).Settled (fun _ => False) older)
        (runOps ops vol).io.dev.log ∧
      (VolumeFlag.Spared io.dev.blockSize (VolumeFlag.isSet io.dev.bytes)
          (runOps ops vol).io.dev.log →
        Past.Always (VolumeFlag.Obeys io.dev.blockSize (VolumeFlag.isSet io.dev.bytes))
          (runOps ops vol).io.dev.log) := by
  have hrun := FlagProtocol.keeps_runOps hops (h.inv hblock)
  exact ⟨hrun.io.2.logged.settled, hrun.io.2.logged.obeys⟩

/-- A boot sector with one FAT of a sector and 8 clusters of a sector, and the
checksum of its boot region. -/
def sampleBytes (a : Nat) : UInt8 :=
  if a < 512 then
    tableBytes [(3, 0x45), (4, 0x58), (5, 0x46), (6, 0x41), (7, 0x54), (8, 0x20), (9, 0x20),
      (10, 0x20), (73, 8), (80, 24), (84, 1), (88, 32), (92, 8), (96, 2), (105, 1), (108, 9),
      (110, 1), (510, 0x55), (511, 0xAA)] a
  else if 5632 ≤ a ∧ a < 6144 then [0x7E, 0x0B, 0x97, 0x82].getD (a % 4) 0
  else 0

def sampleGeo : Geometry where
  sectorShift := 9
  clusterShift := 9
  volumeLen := 1048576
  fatStart := 12288
  mirrorFat := none
  active := 0
  heapStart := 16384
  clusterCount := 8
  root := 2
  serial := 0
  flags := 0
  percentInUse := 0

def sampleIo (script : List (Outcome Stop)) : Io := Io.sample 2048 sampleBytes script

def sampleVol (script : List (Outcome Stop)) : Vol :=
  ⟨sampleIo script, ExFat.new sampleGeo ⟨2, 1, true⟩ none, none⟩

section Checked

variable {bs count sum : Nat} {img : Nat → UInt8} {E : Stop → Io → Prop}

/-- What `bootSum` gives on a device that holds `img`. -/
def sumOf (img : Nat → UInt8) (base : Nat) : Nat → Nat → Nat → Nat
  | 0, _, sum => sum
  | turns + 1, at_, sum => sumOf img base turns (at_ + 128)
    (bootChecksum sum (min at_ 1) (slice img (base + at_) 128))

/-- What `sumStored` gives on a device that holds `img`. -/
def storedIn (img : Nat → UInt8) (base sum : Nat) : Nat → Nat → Bool
  | 0, _ => true
  | turns + 1, at_ =>
    if (List.range 32).any fun word => u32At (slice img (base + at_) 128) (word * 4) != sum
      then false
    else storedIn img base sum turns (at_ + 128)

theorem holds_bootSum (base turns at_ sum : Nat) (h : base + at_ + turns * 128 ≤ count * bs) :
    Triple (Io.Holds bs count img) (bootSum base turns at_ sum)
      (fun r io => r = sumOf img base turns at_ sum ∧ Io.Holds bs count img io) E := by
  induction turns generalizing at_ sum with
  | zero => exact Triple.pure fun io hio => ⟨rfl, hio⟩
  | succ turns ih =>
    refine Triple.bind (Io.holds_readBytes (by omega)) fun chunk => Triple.assume ?_
    rintro rfl
    exact ih _ _ (by omega)

theorem holds_sumStored (base turns at_ : Nat) (h : base + at_ + turns * 128 ≤ count * bs) :
    Triple (Io.Holds bs count img) (sumStored base sum turns at_)
      (fun r io => r = storedIn img base sum turns at_ ∧ Io.Holds bs count img io) E := by
  induction turns generalizing at_ with
  | zero => exact Triple.pure fun io hio => ⟨rfl, hio⟩
  | succ turns ih =>
    refine Triple.bind (Io.holds_readBytes (by omega)) fun chunk => Triple.assume ?_
    rintro rfl
    rw [storedIn]
    split
    · exact Triple.pure fun io hio => ⟨rfl, hio⟩
    · exact ih _ (by omega)

/-- Only bytes of the boot sector are skipped. -/
theorem bootChecksum_one (bytes : List UInt8) (sum : Nat) :
    bootChecksum sum 1 bytes = bytes.foldl checksumStep sum := by
  rw [bootChecksum]
  simp only [Nat.one_ne_zero, false_and, if_false]
  rw [← foldl_map (f := Prod.fst), zipIdx_map_fst]

/-- Chunks of zeros that leave the checksum as it is. -/
theorem sumOf_zeros {turns at_ : Nat} (hsum : (replicate 128 0).foldl checksumStep sum = sum)
    (hat : 0 < at_)
    (hzero : ∀ a, at_ ≤ a → a < at_ + turns * 128 → img a = 0) :
    sumOf img 0 turns at_ sum = sum := by
  induction turns generalizing at_ with
  | zero => rfl
  | succ turns ih =>
    have hslice : slice img (0 + at_) 128 = replicate 128 0 := by
      apply eq_replicate_iff.mpr
      refine ⟨slice_length _ _ _, fun b hb => ?_⟩
      obtain ⟨i, hi, rfl⟩ := mem_map.mp hb
      rw [mem_range] at hi
      exact hzero _ (by omega) (by omega)
    rw [sumOf, hslice, Nat.min_eq_right hat, bootChecksum_one, hsum]
    exact ih (by omega) fun a ha hlt => hzero a (by omega) (by omega)

theorem sumOf_add (base m n at_ sum : Nat) :
    sumOf img base (m + n) at_ sum = sumOf img base n (at_ + m * 128)
      (sumOf img base m at_ sum) := by
  induction m generalizing at_ sum with
  | zero => rw [Nat.zero_add, Nat.zero_mul, Nat.add_zero, sumOf]
  | succ m ih => rw [Nat.succ_add, sumOf, sumOf, ih, Nat.succ_mul,
      Nat.add_assoc at_, Nat.add_comm 128]

/-- Pieces that are all the same are compared once. -/
theorem storedIn_same (words : List UInt8) {base at_ turns : Nat}
    (hslice : ∀ turn < turns, slice img (base + (at_ + turn * 128)) 128 = words)
    (hwords : ((List.range 32).any fun word => u32At words (word * 4) != sum) = false) :
    storedIn img base sum turns at_ = true := by
  induction turns generalizing at_ with
  | zero => rfl
  | succ turns ih =>
    have hfirst := hslice 0 (Nat.succ_pos _)
    rw [Nat.zero_mul, Nat.add_zero] at hfirst
    rw [storedIn, hfirst, hwords]
    refine ih fun turn hturn => ?_
    have hnext := hslice (turn + 1) (Nat.succ_lt_succ hturn)
    rwa [show at_ + (turn + 1) * 128 = at_ + 128 + turn * 128 by omega] at hnext

end Checked

theorem sum_sample : sumOf sampleBytes 0 44 0 0 = 0x82970B7E := by
  have hhead : sumOf sampleBytes 0 4 0 0 = 0x82970B7E := by decide +kernel
  have hzero : (replicate 128 0).foldl checksumStep 0x82970B7E = 0x82970B7E := by decide +kernel
  rw [show 44 = 4 + 40 from rfl, sumOf_add, hhead]
  refine sumOf_zeros hzero (by decide) fun a hle hlt => ?_
  rw [sampleBytes, if_neg (by omega), if_neg (by omega)]

theorem boot_sample (E : Stop → Io → Prop) : Triple (Io.Holds 512 2048 sampleBytes) (bootRegion 0)
    (fun r io => r = some sampleGeo ∧ Io.Holds 512 2048 sampleBytes io) E := by
  have hparse : parseBoot (slice sampleBytes 0 bootSectorLen) = .ok sampleGeo := by
    have hsome : (parseBoot (slice sampleBytes 0 bootSectorLen)).toOption =
      some sampleGeo := by decide +kernel
    cases h : parseBoot (slice sampleBytes 0 bootSectorLen) <;> rw [h] at hsome <;> cases hsome
    rfl
  have hstored : storedIn sampleBytes 0 0x82970B7E 4 5632 = true := by
    refine storedIn_same ((List.range 128).map fun i => [0x7E, 0x0B, 0x97, 0x82].getD (i % 4) 0)
      (fun turn hturn => map_congr_left fun i hi => ?_) (by decide +kernel)
    rw [mem_range] at hi
    rw [sampleBytes, if_neg (by omega), if_pos (by omega),
      show (0 + (5632 + turn * 128) + i) % 4 = i % 4 by omega]
  rw [bootRegion]
  have hread : Triple (Io.Holds 512 2048 sampleBytes) (Io.readBytes 0 bootSectorLen)
      (fun data io => data = slice sampleBytes 0 bootSectorLen ∧
        Io.Holds 512 2048 sampleBytes io) E :=
    Io.holds_readBytes (show 0 + 512 ≤ 2048 * 512 by omega)
  refine Triple.bind hread fun boot => Triple.assume fun hboot => ?_
  rw [hboot]
  rw [hparse]
  have hturns : (bootRegionSectors - 1) * sampleGeo.sectorSize / 128 = 44 := by decide
  have hcovered : (bootRegionSectors - 1) * sampleGeo.sectorSize = 5632 := by decide
  have hsector : sampleGeo.sectorSize / 128 = 4 := by decide
  have hsum : Triple (Io.Holds 512 2048 sampleBytes) (bootSum 0 44 0 0)
      (fun sum io => sum = sumOf sampleBytes 0 44 0 0 ∧ Io.Holds 512 2048 sampleBytes io) E :=
        holds_bootSum 0 44 0 0 (by omega)
  dsimp only
  rw [hturns, hcovered, hsector]
  refine Triple.bind hsum fun sum => Triple.assume fun hsum => ?_
  rw [hsum, sum_sample]
  refine Triple.bind (holds_sumStored 0 4 5632 (by omega)) fun stored =>
    Triple.assume fun hst => ?_
  rw [hst, hstored, if_pos rfl]
  exact Triple.pure fun io hio => ⟨rfl, hio⟩

theorem readBoot_sample (E : Stop → Io → Prop) : Triple (Io.Holds 512 2048 sampleBytes) readBoot
    (fun r _ => r = (sampleGeo, .main)) E := by
  have hsized : Triple (Io.Holds 512 2048 sampleBytes)
    (Prog.gets fun io : Io => io.block.data.length == io.dev.blockSize)
      (fun sized io => sized = true ∧ Io.Holds 512 2048 sampleBytes io) E :=
    Triple.gets fun io hio => ⟨beq_iff_eq.mpr hio.1.1, hio⟩
  have hlen : Triple (Io.Holds 512 2048 sampleBytes) (Prog.gets fun io : Io => io.dev.size)
      (fun len io => len = 1048576 ∧ Io.Holds 512 2048 sampleBytes io) E :=
    Triple.gets fun io hio => ⟨by rw [Device.size, hio.2.blockSize, hio.2.blockCount], hio⟩
  refine Triple.bind hsized fun sized => Triple.assume ?_
  rintro rfl
  refine Triple.bind (boot_sample E) fun geo => Triple.assume ?_
  rintro rfl
  refine Triple.bind hlen fun len => Triple.assume ?_
  rintro rfl
  exact Triple.pure fun io _ => rfl

theorem opened_sample (script : List (Outcome Stop)) :
    Opened (sampleIo []) (sampleVol script) := by
  have hholds : Io.Holds 512 2048 sampleBytes (sampleIo []) :=
    ⟨⟨length_replicate, fun _ hc => (nomatch hc)⟩, rfl, rfl, rfl, rfl⟩
  obtain ⟨_, io', hrun, rfl⟩ := (readBoot_sample fun _ _ => False).ok_of hholds
  exact ⟨rfl, length_replicate, ⟨sampleGeo, io', hrun, ⟨2, 1, true⟩, none, rfl⟩,
    ⟨rfl, rfl, rfl⟩, length_replicate, fun _ hc => (nomatch hc)⟩

example : VolumeFlag.isSet (sampleIo []).dev.bytes = false := by decide +kernel

def sampleFault (landed : Bool) : Outcome Stop := .failed (.ofKind .io) fun _ => landed

@[irreducible] def sampleVolSound : Vol := sampleVol []

@[irreducible] def sampleVolFlush : Vol := sampleVol [.done, .done, sampleFault false]

@[irreducible] def sampleVolClear : Vol := sampleVol (replicate 7 .done ++ [sampleFault true])

theorem opened_sound : Opened (sampleIo []) sampleVolSound := by
  unfold sampleVolSound
  exact opened_sample _

theorem opened_flush : Opened (sampleIo []) sampleVolFlush := by
  unfold sampleVolFlush
  exact opened_sample _

theorem opened_clear : Opened (sampleIo []) sampleVolClear := by
  unfold sampleVolClear
  exact opened_sample _

/-- A run on which no call fails. -/
theorem volume_dirty_protocol_sample :
    Past.Always (VolumeFlag.Obeys 512 (VolumeFlag.isSet (sampleIo []).dev.bytes))
      (runOps [.set 2 fatEnd, .clearDirty, .set 3 fatEnd] sampleVolSound).io.dev.log :=
  (volume_dirty_protocol opened_sound (by decide) _ (by simp [Op.Avoids])).2 (by decide +kernel)

/-- A failed flush leaves the flag counted as durable, and so does a failed
write that clears it, so the next FAT entry is written without a durable
mark. -/
theorem not_obeys_after_fault :
    (Opened (sampleIo []) sampleVolFlush ∧
      ¬ Past.Always (VolumeFlag.Obeys 512 (VolumeFlag.isSet (sampleIo []).dev.bytes))
        (runOps [.set 2 fatEnd, .set 2 fatEnd] sampleVolFlush).io.dev.log) ∧
    (Opened (sampleIo []) sampleVolClear ∧
      ¬ Past.Always (VolumeFlag.Obeys 512 (VolumeFlag.isSet (sampleIo []).dev.bytes))
        (runOps [.set 2 fatEnd, .clearDirty, .set 2 fatEnd] sampleVolClear).io.dev.log) :=
  ⟨⟨opened_flush, by decide +kernel⟩, ⟨opened_clear, by decide +kernel⟩⟩

end Hadris.Exfat
