import Hadris.DirtyProtocol

namespace Hadris

open Prog (Keeps Triple)
open Vol Hadris.Geometry
open Borrow (onIo reading setState)

namespace FatKind

theorem decode_clean {kind : FatKind} (hk : kind ≠ .fat12) (img : Nat → UInt8) (at_ : Nat) :
    kind.decode 1 (slice img at_ kind.entryLen) &&& kind.cleanBit = 0 ↔
      img (at_ + kind.cleanByte) &&& kind.cleanMask = 0 := by
  cases kind with
  | fat12 => exact absurd rfl hk
  | fat16 =>
    have hmask : cleanMask .fat16 = u8 (2 ^ 7) := by decide
    have hbyte : cleanByte .fat16 = 1 := by decide
    rw [hmask, hbyte, and_two_pow_eq_zero (by omega)]
    have hbit : cleanBit .fat16 = 2 ^ 15 := rfl
    rw [hbit, Nat.and_two_pow, Nat.testBit_eq_decide_div_mod_eq]
    have h₀ := (img at_).toNat_lt
    have hdecode : decode .fat16 1 (slice img at_ (entryLen .fat16)) =
        (img at_).toNat + (img (at_ + 1)).toNat * 256 := rfl
    rw [hdecode]
    have hdiv : ((img at_).toNat + (img (at_ + 1)).toNat * 256) / 2 ^ 15 % 2 =
        (img (at_ + 1)).toNat / 2 ^ 7 % 2 := by omega
    rw [hdiv]
    simp
  | fat32 =>
    have hmask : cleanMask .fat32 = u8 (2 ^ 3) := by decide
    have hbyte : cleanByte .fat32 = 3 := by decide
    rw [hmask, hbyte, and_two_pow_eq_zero (by omega)]
    have hbit : cleanBit .fat32 = 2 ^ 27 := rfl
    rw [hbit, Nat.and_two_pow, Nat.testBit_eq_decide_div_mod_eq]
    have h₀ := (img at_).toNat_lt
    have h₁ := (img (at_ + 1)).toNat_lt
    have h₂ := (img (at_ + 2)).toNat_lt
    have hdecode : decode .fat32 1 (slice img at_ (entryLen .fat32)) =
        (img at_).toNat + (img (at_ + 1)).toNat * 256 +
          ((img (at_ + 2)).toNat + (img (at_ + 3)).toNat * 256) * 65536 := rfl
    rw [hdecode]
    have hdiv : ((img at_).toNat + (img (at_ + 1)).toNat * 256 +
        ((img (at_ + 2)).toNat + (img (at_ + 3)).toNat * 256) * 65536) / 2 ^ 27 % 2 =
        (img (at_ + 3)).toNat / 2 ^ 3 % 2 := by omega
    rw [hdiv]
    simp

end FatKind

section Mount

variable {I : Device Stop → Prop} {img : Nat → UInt8}

theorem readGeometry_sound (hscript : ∀ d rest, I d → I { d with script := rest }) :
    Triple (Io.Sound I) readGeometry (fun geo io => geo.Valid ∧ Io.Sound I io)
      (fun _ => Io.Sound I) := by
  refine Triple.bind (Prog.keeps_iff_triple.mp (Io.keeps_readBytes hscript _ _)) fun sector => ?_
  split
  · exact Triple.fail fun _ h => h
  · rename_i geo hgeo
    refine Triple.bind (Triple.gets (Q := fun _ => Io.Sound I) fun _ h => h) fun size => ?_
    exact Triple.ite (fun _ => Triple.fail fun _ h => h) fun _ =>
      Triple.pure fun _ h => ⟨parseBoot_valid hgeo, h⟩

theorem readDirty_sound (hscript : ∀ d rest, I d → I { d with script := rest })
    (himg : ∀ d, I d → d.bytes = img) {geo : Geometry} :
    Triple (Io.Sound I) (readDirty (Fat.new geo))
      (fun wasDirty io => (geo.kind ≠ .fat12 → (wasDirty = true ↔ ¬ geo.cleanSet img 0)) ∧
        Io.Sound I io)
      (fun _ => Io.Sound I) := by
  refine Triple.ite (fun hbit => Triple.pure fun _ h => ⟨fun hk => ?_, h⟩) fun _ => ?_
  · have hbit' : geo.kind.cleanBit = 0 := hbit
    cases hkind : geo.kind <;> simp_all [FatKind.cleanBit]
  · refine Triple.bind (Io.readBytes_sound hscript himg _ _) fun entry =>
      Triple.assume ?_
    rintro rfl
    refine Triple.pure fun io h => ⟨fun hk => ?_, h⟩
    have hclean := FatKind.decode_clean hk img (geo.entryAt 0 1)
    simp only [Fat.new, beq_iff_eq, hclean, cleanSet, cleanAt, not_not]

/-- What `readFat` says of a volume. -/
structure Mounted (geo : Geometry) (img : Nat → UInt8) (fat : Fat) : Prop where
  geometry : fat.geo = geo
  wasDirty : geo.kind ≠ .fat12 → (fat.wasDirty = true ↔ ¬ geo.cleanSet img 0)
  dirty : fat.dirty = if fat.wasDirty then .preserve else .clean
  keepDirty : fat.keepDirty = fat.wasDirty
  split : fat.split = none
  unmirrored : fat.unmirrored = none
  fsInfo : ∀ at_, fat.fsInfo = some at_ → at_ + bootSectorLen ≤ geo.fatStart

theorem readFat_sound (hscript : ∀ d rest, I d → I { d with script := rest })
    (himg : ∀ d, I d → d.bytes = img) {geo : Geometry} (hv : geo.Valid) :
    Triple (Io.Sound I) (readFat geo) (fun fat io => Mounted geo img fat ∧ Io.Sound I io)
      (fun _ => Io.Sound I) := by
  refine Triple.bind (readDirty_sound hscript himg) fun wasDirty =>
    Triple.assume fun hdirty => ?_
  have hbase : Mounted geo img (Fat.opened geo wasDirty) :=
    ⟨rfl, hdirty, rfl, rfl, rfl, rfl, fun _ h => (nomatch h)⟩
  split
  · exact Triple.pure fun _ h => ⟨hbase, h⟩
  · rename_i sector hsector
    refine Triple.bind (Prog.keeps_iff_triple.mp (Io.keeps_readBytes hscript _ _)) fun data => ?_
    refine Triple.pure fun _ h => ⟨⟨hbase.geometry, hbase.wasDirty, hbase.dirty, hbase.keepDirty,
      hbase.split, hbase.unmirrored, ?_⟩, h⟩
    intro at_ hat
    simp only at hat
    split at hat
    · cases hat
      have hmul := Nat.mul_le_mul_right geo.sectorSize (Nat.succ_le_of_lt (hv.fsInfo _ hsector).2)
      have hsize := hv.sectorSize.1
      rw [Nat.succ_mul] at hmul
      rw [hv.fatStart]
      simp only [bootSectorLen]
      omega
    · cases hat

end Mount

def openFat : Prog Io Stop Fat := do
  let geo ← readGeometry
  readFat geo

/-- `vol` is the volume on the device of `io`, just opened with a fresh
buffer. -/
structure Opened (io : Io) (vol : Vol) : Prop where
  fresh : io.block.cached = none
  length : io.block.data.length = io.dev.blockSize
  log : io.dev.log = []
  mount : openFat.run io = (.ok vol.state, vol.io)

/-- The copies that count as marked dirty when a volume is opened: all of them
when it was left dirty, else those whose clean bit is clear. -/
def Vol.markedAtOpen (vol : Vol) (step : Nat) : Prop :=
  vol.state.wasDirty = true ∨ ¬ vol.state.geo.cleanSet vol.io.dev.bytes step

/-- One call of a driver. Operations that record the clusters they hold do so
in what `lend` lent them last, and loops that follow a chain run for as many
turns as given. -/
inductive Op where
  | lend (held : Option Held)
  | read (offset len : Nat)
  | walk (first : Nat) (from_ : ChainPos) (want : Nat)
  | run (at_ : ChainPos) (n max : Nat)
  | write (zeros : Bool) (offset : Nat) (data : List UInt8)
  | flush
  | beginWrite
  | clearDirty
  | markClean
  | preserveDirty
  | forgetUnmirrored
  | set (cluster value : Nat)
  | mirror
  | allocate
  | allocateAfter (tail : Nat)
  | allocateRun (count : Nat)
  | allocateRunAfter (tail count : Nat)
  | freeChain (turns first : Nat)
  | countFree
  | writeFsInfo
deriving DecidableEq

namespace Op

def prog : Op → Prog Vol Stop Unit
  | .lend held => Prog.modify fun vol => { vol with held := held }
  | .read offset len => do
      let _ ← onIo (Io.readBytes offset len)
      pure ()
  | .walk first from_ want => do
      let _ ← reading fun fat => fat.walk first from_ want
      pure ()
  | .run at_ n max => do
      let _ ← reading fun fat => fat.run at_ n max
      pure ()
  | .write zeros offset data => do
      Vol.beginWrite
      onIo (Io.put zeros offset data)
  | .flush => onIo Io.flush
  | .beginWrite => Vol.beginWrite
  | .clearDirty => Vol.clearDirty
  | .markClean => setState Fat.markClean
  | .preserveDirty => setState Fat.preserveDirty
  | .forgetUnmirrored => setState Fat.forgetUnmirrored
  | .set cluster value => Vol.set cluster value
  | .mirror => Vol.mirror
  | .allocate => do
      let _ ← Vol.allocate
      pure ()
  | .allocateAfter tail => do
      let _ ← Vol.allocateAfter tail
      pure ()
  | .allocateRun count => do
      let _ ← Vol.allocateRun count
      pure ()
  | .allocateRunAfter tail count => do
      let _ ← Vol.allocateRunAfter tail count
      pure ()
  | .freeChain turns first => freeChainFor turns first
  | .countFree => do
      let _ ← Vol.countFree
      pure ()
  | .writeFsInfo => Vol.writeFsInfo

/-- Writes of a driver's own leave the FAT entries that hold clean bits alone. -/
def Avoids (geo : Geometry) : Op → Prop
  | .write _ offset data => geo.Avoids offset (offset + data.length)
  | _ => True

end Op

/-- A run: each call goes on from the state the one before left behind, whether
that succeeded or failed. -/
def runOps (ops : List Op) (vol : Vol) : Vol := ops.foldl (fun vol op => (op.prog.run vol).2) vol

namespace Protocol

variable {p : Protocol}

theorem keeps_markClean (hkeep : p.keep = false) :
    Keeps (p.Inv false) (setState Fat.markClean) := by
  refine Borrow.keeps_setState (fun fat h => ⟨h.geo, h.split, h.unmirrored, h.fsInfo, ?_⟩)
    fun fat d _ hd => ⟨hd.logged, fun hc => hd.covered ?_, fun hf => (nomatch hf)⟩
  · rw [hkeep]
    exact fun hf => (nomatch hf)
  · by_cases hp : fat.dirty = .preserve
    · exact Or.inr hp
    · simp only [Fat.markClean, if_neg hp] at hc
      exact hc

theorem keeps_op {op : Op} (havoid : op.Avoids p.geo) (hclean : p.keep = true → op ≠ .markClean) :
    Keeps (p.Inv false) op.prog := by
  cases op with
  | lend held => exact fun _ h => ⟨h.io, h.state⟩
  | read offset len => exact keeps_reads (Io.Reads.readBytes _ _) fun _ _ => Keeps.pure _
  | walk first from_ want =>
    exact keeps_reading (fun fat => fat.reads_walk _ _ _) fun _ _ _ _ => Keeps.pure _
  | run at_ n max =>
    exact keeps_reading (fun fat => fat.reads_run _ _ _) fun _ _ _ _ => Keeps.pure _
  | write zeros offset data => exact keeps_armed (keeps_put _ havoid (Nat.le_refl _))
  | flush => exact keeps_io_flush
  | beginWrite => exact keeps_beginWrite
  | clearDirty => exact keeps_clearDirty
  | markClean =>
    refine keeps_markClean ?_
    cases hkeep : p.keep
    · rfl
    · exact absurd rfl (hclean hkeep)
  | preserveDirty =>
    exact keeps_setState (fun _ h => ⟨h.geo, h.split, h.unmirrored, h.fsInfo, fun _ => rfl⟩)
      fun _ => rfl
  | forgetUnmirrored =>
    exact keeps_setState (fun _ h =>
      ⟨h.geo, fun _ _ _ hs => (nomatch hs), fun _ _ hu => (nomatch hu),
      h.fsInfo, h.keep⟩) fun _ => rfl
  | set cluster value => exact keeps_set _ _
  | mirror => exact keeps_mirror
  | allocate => exact Keeps.bind keeps_allocate fun _ => Keeps.pure _
  | allocateAfter tail =>
    exact Keeps.bind (keeps_allocateAfter _) fun _ => Keeps.pure _
  | allocateRun count =>
    exact Keeps.bind (keeps_allocateRunInner _ fun _ h => (nomatch h))
      fun _ => Keeps.pure _
  | allocateRunAfter tail count =>
    exact Keeps.bind (keeps_allocateRunAfter _ _) fun _ => Keeps.pure _
  | freeChain turns first => exact keeps_freeChainFor _ _
  | countFree => exact Keeps.bind keeps_countFree fun _ => Keeps.pure _
  | writeFsInfo => exact keeps_writeFsInfo

theorem keeps_runOps {ops : List Op} (havoid : ∀ op ∈ ops, op.Avoids p.geo)
    (hclean : p.keep = true → Op.markClean ∉ ops) {vol : Vol} (h : p.Inv false vol) :
    p.Inv false (runOps ops vol) := by
  induction ops generalizing vol with
  | nil => exact h
  | cons op ops ih =>
    have hop := keeps_op (havoid op (by simp))
      (fun hk heq => hclean hk (by simp [heq])) vol h
    exact ih (fun op' h' => havoid op' (by simp [h']))
      (fun hk hmem => hclean hk (by simp [hmem])) hop

end Protocol

theorem Opened.mounted {io : Io} {vol : Vol} (h : Opened io vol) :
    vol.state.geo.Valid ∧ Mounted vol.state.geo io.dev.bytes vol.state ∧
      Io.Sound (fun d => d.bytes = io.dev.bytes ∧ d.blockSize = io.dev.blockSize ∧ d.log = [])
        vol.io := by
  have hscript : ∀ (d : Device Stop) (rest : List (Outcome Stop)),
      (d.bytes = io.dev.bytes ∧ d.blockSize = io.dev.blockSize ∧ d.log = []) →
      ({ d with script := rest } : Device Stop).bytes = io.dev.bytes ∧
        ({ d with script := rest } : Device Stop).blockSize = io.dev.blockSize ∧
        ({ d with script := rest } : Device Stop).log = [] := fun _ _ hd => hd
  have hsound : Io.Sound (fun d => d.bytes = io.dev.bytes ∧ d.blockSize = io.dev.blockSize ∧
      d.log = []) io :=
    ⟨⟨h.length, fun i hi => by rw [h.fresh] at hi; cases hi⟩, rfl, rfl, h.log⟩
  have hrun := h.mount
  have hgeo := readGeometry_sound hscript io hsound
  rcases hread : readGeometry.run io with ⟨e | geo, io'⟩
  · rw [openFat, Prog.run_bind_error hread] at hrun
    cases hrun
  · rw [hread] at hgeo
    rw [openFat, Prog.run_bind_ok hread] at hrun
    have hfat := readFat_sound hscript (fun d hd => hd.1) hgeo.1 io' hgeo.2
    rw [hrun] at hfat
    have heq := hfat.1.geometry
    rw [heq]
    exact ⟨hgeo.1, hfat⟩

theorem Opened.inv {io : Io} {vol : Vol} (h : Opened io vol) (hk : vol.state.geo.kind ≠ .fat12)
    (keep : Bool) (hkeep : keep = true → vol.state.wasDirty = true) :
    Protocol.Inv ⟨vol.state.geo, io.dev.blockSize, vol.markedAtOpen, keep, h.mounted.1, hk⟩ false
      vol := by
  obtain ⟨hv, hm, hio⟩ := h.mounted
  obtain ⟨hbytes, hsize, hlog⟩ := hio.2
  refine ⟨⟨hio.1, ⟨hsize, ?_, ?_, ?_⟩, ?_, fun hf => (nomatch hf)⟩, ⟨rfl, ?_, ?_, hm.fsInfo, ?_⟩⟩
  · intro step _ hclear
    rw [hlog]
    exact Or.inr hclear
  · rw [hlog]
    trivial
  · rw [hlog]
    exact fun _ e he => (nomatch he)
  · intro hc step _
    have hdirty := hm.dirty
    rw [hlog]
    cases hwas : vol.state.wasDirty with
    | true => exact Or.inl hwas
    | false =>
      rw [hwas] at hdirty
      rcases hc with hc | hc <;> rw [hdirty] at hc <;> cases hc
  · rw [hm.split]
    exact fun _ _ _ hs => (nomatch hs)
  · rw [hm.unmirrored]
    exact fun _ _ hu => (nomatch hu)
  · rw [hm.keepDirty]
    exact hkeep

/-- In every run of a FAT16 or FAT32 volume, however device calls fail, a write
that is not one of a clean bit comes only after the mark of every FAT copy is
durable, a clean bit is set only when all but such writes are durable, and the
clean bits of a volume that was dirty when opened stay as they are or are
cleared until `markClean`. -/
theorem dirty_bit_protocol {io : Io} {vol : Vol} (h : Opened io vol)
    (hk : vol.state.geo.kind ≠ .fat12) (ops : List Op)
    (hops : ∀ op ∈ ops, op.Avoids vol.state.geo) :
    Past.Always (vol.state.geo.Obeys io.dev.blockSize vol.markedAtOpen)
        (runOps ops vol).io.dev.log ∧
      (vol.state.wasDirty = true → Op.markClean ∉ ops →
        ∀ e ∈ (runOps ops vol).io.dev.log, ¬ vol.state.geo.lifting io.dev.blockSize e) := by
  constructor
  · have hinv := h.inv hk false fun hf => (nomatch hf)
    have hrun := Protocol.keeps_runOps hops (fun hf : false = true => (nomatch hf)) hinv
    exact hrun.io.2.logged.obeys
  · intro hdirty hclean
    have hrun := Protocol.keeps_runOps hops (fun _ => hclean)
      (h.inv hk true fun _ => hdirty)
    exact hrun.io.2.logged.unraised rfl

def sampleIo (blockCount : Nat) (table : List (Nat × UInt8)) : Io :=
  Io.sample blockCount (tableBytes table) []

def sampleVol (io : Io) (geo : Geometry) (wasDirty : Bool) : Vol :=
  ⟨(openFat.run io).2, Fat.opened geo wasDirty, none⟩

def sampleGeo16 : Geometry where
  kind := .fat16
  sectorSize := 512
  clusterSize := 512
  clusterShift := 9
  reservedSectors := 1
  fatStart := 512
  fatSize := 8192
  fatCount := 2
  activeFat := 0
  mirrored := true
  root := .fixed 16896 512
  dataStart := 17408
  maxCluster := 4086
  fsInfoSector := none
  volumeSerial := none

def sampleBoot16 : List (Nat × UInt8) :=
  [(12, 2), (13, 1), (14, 1), (16, 2), (17, 16), (19, 0x17), (20, 0x10), (22, 16), (510, 0x55),
    (511, 0xAA)]

def sampleClean16 : Io := sampleIo 4119 (sampleBoot16 ++ [(515, 0x80)])

def sampleDirty16 : Io := sampleIo 4119 sampleBoot16

@[irreducible] def sampleVolClean16 : Vol := sampleVol sampleClean16 sampleGeo16 false

@[irreducible] def sampleVolDirty16 : Vol := sampleVol sampleDirty16 sampleGeo16 true

def sampleGeo12 : Geometry where
  kind := .fat12
  sectorSize := 512
  clusterSize := 512
  clusterShift := 9
  reservedSectors := 1
  fatStart := 512
  fatSize := 512
  fatCount := 1
  activeFat := 0
  mirrored := true
  root := .fixed 1024 512
  dataStart := 1536
  maxCluster := 11
  fsInfoSector := none
  volumeSerial := none

def sampleFat12 : Io :=
  sampleIo 13 [(12, 2), (13, 1), (14, 1), (16, 1), (17, 16), (19, 13), (22, 1), (510, 0x55),
    (511, 0xAA)]

@[irreducible] def sampleVol12 : Vol := sampleVol sampleFat12 sampleGeo12 false

theorem opened_sample {blockCount : Nat} {bytes : Nat → UInt8} {script : List (Outcome Stop)}
    {geo : Geometry} {wasDirty : Bool}
    (hrun : (openFat.run (Io.sample blockCount bytes script)).1.toOption =
      some (Fat.opened geo wasDirty)) :
    Opened (.sample blockCount bytes script)
      (sampleVol (.sample blockCount bytes script) geo wasDirty) := by
  refine ⟨rfl, List.length_replicate, rfl, ?_⟩
  rcases hopen : openFat.run (Io.sample blockCount bytes script) with ⟨e | fat, io'⟩ <;>
    rw [hopen] at hrun
  · cases hrun
  · cases hrun
    rw [sampleVol, hopen]

example : sampleVol12.state.geo.maxCluster = 11 := by decide +kernel

theorem opened_clean16 : Opened sampleClean16 sampleVolClean16 := by
  unfold sampleVolClean16
  exact opened_sample (by decide +kernel)

theorem opened_dirty16 : Opened sampleDirty16 sampleVolDirty16 := by
  unfold sampleVolDirty16
  exact opened_sample (by decide +kernel)

theorem opened_fat12 : Opened sampleFat12 sampleVol12 := by
  unfold sampleVol12
  exact opened_sample (by decide +kernel)

/-- A run of a clean volume and of a dirty one, on which a cluster is
allocated. -/
theorem dirty_bit_protocol_sample :
    Past.Always (sampleVolClean16.state.geo.Obeys sampleClean16.dev.blockSize
        sampleVolClean16.markedAtOpen)
        (runOps [.allocate, .clearDirty] sampleVolClean16).io.dev.log ∧
      ∀ e ∈ (runOps [.allocate, .clearDirty] sampleVolDirty16).io.dev.log,
        ¬ sampleVolDirty16.state.geo.lifting sampleDirty16.dev.blockSize e := by
  have havoid (geo : Geometry) : ∀ op ∈ [Op.allocate, .clearDirty], op.Avoids geo := by
    simp [Op.Avoids]
  have hclean : sampleVolClean16.state.geo.kind ≠ .fat12 := by decide +kernel
  have hdirty : sampleVolDirty16.state.geo.kind ≠ .fat12 := by decide +kernel
  have hwas : sampleVolDirty16.state.wasDirty = true := by decide +kernel
  have hmark : Op.markClean ∉ [Op.allocate, .clearDirty] := by decide
  exact ⟨(dirty_bit_protocol opened_clean16 hclean _ (havoid _)).1,
    (dirty_bit_protocol opened_dirty16 hdirty _ (havoid _)).2 hwas hmark⟩

/-- The protocol word by word: a write that is not one of a clean bit comes
after a flush that a write clearing a clean bit came before, and a clean bit is
set when nothing was written since a flush. -/
def Geometry.ObeysStrictly (geo : Geometry) (size : Nat) (e : Event) (older : List Event) :
    Prop :=
  (geo.ordinary size e → Past.Since False (fun _ => True) (fun f before => f = .flush true ∧
    Past.Since False (fun _ => True)
      (fun c _ => c.landed ∧ ∃ step < geo.copies, geo.lowers size step c) before) older) ∧
  (geo.lifting size e → Past.Since False (fun w => ¬ w.isWrite)
    (fun f _ => f = .flush true) older)

instance (geo : Geometry) (size : Nat) (e : Event) (older : List Event) :
    Decidable (geo.ObeysStrictly size e older) :=
  inferInstanceAs (Decidable ((_ → _) ∧ (_ → _)))

/-- FAT12 has no clean bit, a volume dirty when opened needs no mark, and the
clean bit of the second FAT copy is set right after that of the first. -/
theorem not_obeysStrictly :
    (Opened sampleFat12 sampleVol12 ∧ ¬ Past.Always (sampleGeo12.ObeysStrictly 512)
      (runOps [.set 2 0xFFF] sampleVol12).io.dev.log) ∧
    (Opened sampleDirty16 sampleVolDirty16 ∧ ¬ Past.Always (sampleGeo16.ObeysStrictly 512)
      (runOps [.set 2 0xFFFF] sampleVolDirty16).io.dev.log) ∧
    (Opened sampleClean16 sampleVolClean16 ∧ ¬ Past.Always (sampleGeo16.ObeysStrictly 512)
      (runOps [.beginWrite, .clearDirty] sampleVolClean16).io.dev.log) :=
  ⟨⟨opened_fat12, by decide +kernel⟩, ⟨opened_dirty16, by decide +kernel⟩,
    ⟨opened_clean16, by decide +kernel⟩⟩

end Hadris
