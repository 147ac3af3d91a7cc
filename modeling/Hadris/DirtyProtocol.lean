import Hadris.CleanBit
import Hadris.FatRead

namespace Hadris

open Prog (Keeps Triple)
open Borrow (getState onIo reading setHeld setState keeps_getState triple_getState keeps_setHeld)
open Hadris.Geometry (Logged AllCovered)

/-- Whether a state stands for a durable mark, so that `beginWrite` has nothing
to write. -/
def Dirty.isCovered (dirty : Dirty) : Prop := dirty = .marked ∨ dirty = .preserve

/-- A FAT16 or FAT32 volume: its geometry, the block size of its device, which
FAT copies counted as marked when it was opened, and whether what made it dirty
is to be kept. -/
structure Protocol where
  geo : Geometry
  size : Nat
  start : Nat → Prop
  keep : Bool
  valid : geo.Valid
  kind : geo.kind ≠ .fat12

namespace Protocol

open Vol

variable (p : Protocol)

/-- What every operation keeps of the FAT state. -/
structure Tracks (fat : Fat) : Prop where
  geo : fat.geo = p.geo
  split : ∀ cluster value free, fat.split = some (cluster, value, free) →
    fat.isCluster cluster = true
  unmirrored : ∀ first last, fat.unmirrored = some (first, last) → firstDataCluster ≤ first
  fsInfo : ∀ at_, fat.fsInfo = some at_ → at_ + bootSectorLen ≤ p.geo.fatStart
  keep : p.keep = true → fat.keepDirty = true

/-- What the state and the device agree on. With `armed`, the mark is durable,
as it is once `beginWrite` is done. -/
structure Ready (armed : Bool) (fat : Fat) (d : Device Stop) : Prop where
  logged : Logged p.geo p.size p.start p.keep d
  covered : fat.dirty.isCovered → AllCovered p.geo p.size p.start d
  armed : armed = true → fat.dirty.isCovered

/-- The invariant of the runs of a volume. -/
abbrev Inv (armed : Bool) : Vol → Prop := Borrow.Sound p.Tracks (p.Ready armed)

variable {p} {armed : Bool} {α β : Type}

theorem Ready.disarm {fat : Fat} {d : Device Stop} (h : p.Ready true fat d) :
    p.Ready armed fat d :=
  ⟨h.logged, h.covered, fun _ => h.armed rfl⟩

theorem Ready.script {fat : Fat} {d : Device Stop} (h : p.Ready armed fat d)
    (rest : List (Outcome Stop)) : p.Ready armed fat { d with script := rest } :=
  ⟨h.logged.script rest, h.covered, h.armed⟩

theorem ready_of_not_covered {fat : Fat} {d : Device Stop} (hfat : ¬ fat.dirty.isCovered)
    (h : Logged p.geo p.size p.start p.keep d) : p.Ready false fat d :=
  ⟨h, fun hc => absurd hc hfat, fun hf => absurd hf Bool.false_ne_true⟩

theorem Inv.disarm {vol : Vol} (h : p.Inv true vol) : p.Inv armed vol :=
  h.mono (fun _ hs => hs) fun _ _ _ hd => hd.disarm

theorem keeps_setState {f : Fat → Fat} (h : ∀ fat, p.Tracks fat → p.Tracks (f fat))
    (hdirty : ∀ fat, (f fat).dirty = fat.dirty) : Keeps (p.Inv armed) (setState f) := by
  refine Borrow.keeps_setState h fun fat d _ hd => ⟨hd.logged, ?_, ?_⟩
  · rw [hdirty]
    exact hd.covered
  · rw [hdirty]
    exact hd.armed

theorem keeps_blockSize {f : Nat → Prog Vol Stop α} (h : Keeps (p.Inv armed) (f p.size)) :
    Keeps (p.Inv armed) (onIo Io.blockSize >>= f) :=
  Borrow.keeps_blockSize (fun _ _ hd => hd.logged.blockSize) h

theorem triple_reads {x : Prog Io Stop α} {Q : α → Prop} (hx : Io.Reads x Q) :
    Triple (p.Inv armed) (onIo x) (fun a vol => Q a ∧ p.Inv armed vol)
      (fun _ => p.Inv armed) :=
  Borrow.triple_reads hx fun _ _ rest hd => hd.script rest

theorem keeps_reads {x : Prog Io Stop α} {Q : α → Prop} {f : α → Prog Vol Stop β}
    (hx : Io.Reads x Q) (hf : ∀ a, Q a → Keeps (p.Inv armed) (f a)) :
    Keeps (p.Inv armed) (onIo x >>= f) :=
  Borrow.keeps_reads (fun _ _ rest hd => hd.script rest) hx hf

theorem keeps_reading {x : Fat → Prog Io Stop α} {Q : Fat → α → Prop} {f : α → Prog Vol Stop β}
    (hx : ∀ fat, Io.Reads (x fat) (Q fat))
    (hf : ∀ fat a, p.Tracks fat → Q fat a → Keeps (p.Inv armed) (f a)) :
    Keeps (p.Inv armed) (reading x >>= f) :=
  Borrow.keeps_reading (fun _ _ rest hd => hd.script rest) hx hf

theorem keeps_write {x : Prog Io Stop α}
    (h : Keeps (Io.Sound fun d => Logged p.geo p.size p.start p.keep d ∧
      AllCovered p.geo p.size p.start d) x) : Keeps (p.Inv true) (onIo x) := by
  refine Borrow.keeps_onIo fun fat _ io hio => ?_
  have hx := h io ⟨hio.1, hio.2.logged, hio.2.covered (hio.2.armed rfl)⟩
  exact ⟨hx.1, hx.2.1, fun _ => hx.2.2, hio.2.armed⟩

theorem keeps_put {zeros : Bool} {offset : Nat} {data : List UInt8} (hi : Nat)
    (havoid : p.geo.Avoids offset hi) (hhi : offset + data.length ≤ hi) :
    Keeps (p.Inv true) (onIo (Io.put zeros offset data)) :=
  keeps_write (Io.keeps_put (Geometry.frame_covered havoid) (fun _ hd => hd.1.blockSize) zeros
    offset data (Nat.le_refl _) hhi)

theorem keeps_io_flush : Keeps (p.Inv armed) (onIo Io.flush) :=
  Borrow.keeps_onIo fun _ _ => Io.keeps_flush (fun _ rest hd => hd.script rest) fun _ done hd =>
    ⟨hd.logged.flush done, fun hc => Geometry.covered_flush (hd.covered hc) done, hd.armed⟩

theorem writeCleanBit_false_spec {fat : Fat} (hgeo : fat.geo = p.geo) :
    Triple (Io.Sound (Logged p.geo p.size p.start p.keep)) (fat.writeCleanBit false)
      (fun _ => Io.Sound fun d => Logged p.geo p.size p.start p.keep d ∧
        ∀ step < p.geo.copies, ¬ p.geo.cleanSet d.bytes step)
      (fun _ => Io.Sound (Logged p.geo p.size p.start p.keep)) := by
  have hloop := Triple.each_range' (f := fat.writeCleanBitAt false)
    (P := fun n => Io.Sound fun d => Logged p.geo p.size p.start p.keep d ∧
      ∀ step < n, step < p.geo.copies → ¬ p.geo.cleanSet d.bytes step)
    (E := fun _ => Io.Sound (Logged p.geo p.size p.start p.keep)) 0 p.geo.copies ?_
  · simp only [Fat.writeCleanBit, hgeo]
    refine hloop.conseq (fun io h => ⟨h.1, h.2, fun _ hlt => (nomatch hlt)⟩) (fun _ io h => ?_)
      fun _ _ h => h
    exact ⟨h.1, h.2.1, fun step hstep => h.2.2 step (by omega) hstep⟩
  · intro step _ hstep
    rw [Nat.zero_add] at hstep
    refine fat.writeCleanBitAt_spec false step (fun d h => h.1.blockSize)
      (fun d rest h => ⟨h.1.script rest, h.2⟩) (fun d h => h.1) ?_ ?_
    · rintro d ⟨h, hdone⟩ hsame
      rw [hgeo] at hsame
      refine ⟨h, fun other hlt hother => ?_⟩
      by_cases heq : other = step
      · subst heq
        rw [Geometry.cleanSet, hsame]
        exact not_not.mpr (FatKind.withClean_false_and _ _)
      · exact hdone other (by omega) hother
    · rintro d fate ⟨h, hdone⟩ hne
      rw [hgeo] at hne ⊢
      obtain hsize := h.blockSize
      rw [← hsize] at h ⊢
      have hlower := h.lower p.valid hstep fate hne
      refine ⟨hlower, fun hstored => ⟨hlower, fun other hlt hother => ?_⟩⟩
      exact Geometry.cleanSet_lowered p.valid hstep hother hstored fun hother' =>
        hdone other (by omega) hother

theorem beginWrite_spec :
    Triple (p.Inv armed) beginWrite (fun _ => p.Inv true) (fun _ => p.Inv armed) := by
  refine Borrow.triple_getState_eq fun fat hfat => ?_
  have hbit : p.geo.kind.cleanBit ≠ 0 := by
    have hk := p.kind
    cases hkind : p.geo.kind <;> simp_all [FatKind.cleanBit]
  refine Triple.ite (fun hc => Triple.pure fun vol h => ?_) fun hc => ?_
  · refine h.mono (fun _ hs => hs ▸ hfat) fun s d hs hd => ⟨hd.logged, hd.covered, fun _ => ?_⟩
    rw [hs]
    exact hc.resolve_left fun hzero => hbit (hfat.geo ▸ hzero)
  cases armed with
  | true => exact fun vol h => absurd (h.io.2.armed rfl) fun hd => hc (Or.inr (h.state ▸ hd))
  | false =>
    have hmarking (d : Device Stop) (h : Logged p.geo p.size p.start p.keep d) (s : Fat)
        (hs : p.Tracks s ∧ s.dirty = .marking) : p.Ready false s d := by
      refine ready_of_not_covered (fun hd => ?_) h
      rcases hd with hd | hd <;> exact absurd (hs.2.symm.trans hd) (by decide)
    refine Triple.bind (Borrow.triple_setState (U := fun s => p.Tracks s ∧ s.dirty = .marking)
      (J := fun _ => Logged p.geo p.size p.start p.keep) ?_ fun _ _ _ hd => hd.logged) fun _ => ?_
    · intro s _ hs _
      rw [hs]
      exact ⟨⟨hfat.geo, hfat.split, hfat.unmirrored, hfat.fsInfo, hfat.keep⟩, rfl⟩
    refine Triple.bind ((Borrow.triple_onIo fun _ _ =>
      writeCleanBit_false_spec hfat.geo).weaken (fun _ _ h => h) fun _ vol h =>
        h.mono (fun _ hs => hs.1) fun s d hs hd => hmarking d hd s hs) fun _ => ?_
    refine Triple.bind (Q := fun _ => Borrow.Sound (fun s => p.Tracks s ∧ s.dirty = .marking)
      fun _ d => Logged p.geo p.size p.start p.keep d ∧ AllCovered p.geo p.size p.start d)
      ((Borrow.triple_onIo fun _ _ => Io.flush_sound
        (J := Logged p.geo p.size p.start p.keep) ?_ ?_ ?_).weaken (fun _ _ h => h)
        fun _ vol h => h.mono (fun _ hs => hs.1) fun s d hs hd => hmarking d hd s hs) fun _ => ?_
    · exact fun d rest hd => ⟨hd.1.script rest, hd.2⟩
    · exact fun d hd => hd.1.flush false
    · intro d hd
      refine ⟨hd.1.flush true, fun step hstep => ?_⟩
      exact Mark.covered_cons_of_flushes (hd.1.marked step hstep (hd.2 step hstep)) rfl
    · refine Borrow.triple_setState (fun s _ hs _ => ?_) fun s d _ hd => ?_
      · exact ⟨hs.1.geo, hs.1.split, hs.1.unmirrored, hs.1.fsInfo, hs.1.keep⟩
      · exact ⟨hd.1, fun _ => hd.2, fun _ => Or.inl rfl⟩

theorem keeps_beginWrite : Keeps (p.Inv armed) beginWrite :=
  Prog.keeps_iff_triple.mpr (beginWrite_spec.post fun _ _ h => h.disarm)

theorem keeps_armed {f : Unit → Prog Vol Stop α} (h : Keeps (p.Inv true) (f ())) :
    Keeps (p.Inv armed) (beginWrite >>= f) :=
  Prog.keeps_iff_triple.mpr (Triple.bind beginWrite_spec fun _ =>
    (Prog.keeps_iff_triple.mp h).weaken (fun _ _ h => h.disarm) fun _ _ h => h.disarm)

theorem writeCleanBit_true_spec {fat : Fat} (hgeo : fat.geo = p.geo) (hkeep : p.keep = false) :
    Keeps (Io.Sound fun d => Logged p.geo p.size p.start p.keep d ∧
      (p.geo.mark p.size 0).Settled (fun e => p.geo.isMarker p.size e ∧ p.geo.lifting p.size e)
        d.log) (fat.writeCleanBit true) := by
  refine Keeps.each _ fun step hstep => ?_
  rw [hgeo, List.mem_range'_1] at hstep
  refine Prog.keeps_iff_triple.mpr (fat.writeCleanBitAt_spec true step (fun d h => h.1.blockSize)
    (fun d rest h => ⟨h.1.script rest, h.2⟩) (fun d h => h) (fun d h _ => h) ?_)
  rintro d fate ⟨h, hsettled⟩ hne
  rw [hgeo] at hne ⊢
  obtain hsize := h.blockSize
  rw [hkeep] at h ⊢
  rw [← hsize] at h hsettled ⊢
  have hraise := h.raise p.kind (by omega) fate hsettled hne
  exact ⟨hraise, fun _ => hraise⟩

theorem keeps_clearDirty : Keeps (p.Inv false) clearDirty := by
  refine Prog.keeps_iff_triple.mpr ?_
  have hflush : Triple (p.Inv false) (onIo Io.flush)
      (fun _ => Borrow.Sound p.Tracks fun fat d => p.Ready false fat d ∧
        (p.geo.mark p.size 0).Settled (fun e => p.geo.isMarker p.size e ∧ p.geo.lifting p.size e)
          d.log) (fun _ => p.Inv false) := by
    refine Borrow.triple_onIo fun fat _ => Io.flush_sound (fun d rest hd => hd.script rest) ?_ ?_
    · exact fun d hd =>
        ⟨hd.logged.flush false, fun hc => Geometry.covered_flush (hd.covered hc) _, hd.armed⟩
    · exact fun d hd =>
        ⟨⟨hd.logged.flush true, fun hc => Geometry.covered_flush (hd.covered hc) _,
        hd.armed⟩, Mark.settled_cons_of_flushes rfl⟩
  refine Triple.bind hflush fun _ => Borrow.triple_getState_eq fun fat hfat => ?_
  refine Triple.ite (fun hkeep => ?_) fun hkeep => ?_
  · refine Triple.bind (Q := fun _ => p.Inv true) (Triple.when (fun _ => ?_)
      fun hc vol h => ?_) fun _ => Borrow.triple_setState (fun s _ hs _ => ?_) fun s d _ hd => ?_
    · exact beginWrite_spec.pre fun vol h => h.mono (fun _ hs => hs ▸ hfat) fun _ _ _ hd => hd.1
    · refine h.mono (fun _ hs => hs ▸ hfat) fun s d hs hd =>
        ⟨hd.1.logged, hd.1.covered, fun _ => ?_⟩
      rw [hs]
      exact not_not.mp hc
    · exact ⟨hs.geo, hs.split, hs.unmirrored, hs.fsInfo, hs.keep⟩
    · exact ⟨hd.logged, fun _ => hd.covered (hd.armed rfl), fun hf =>
        absurd hf Bool.false_ne_true⟩
  have hkeep' : p.keep = false := by
    cases hp : p.keep
    · rfl
    · exact absurd (hfat.keep hp) hkeep
  refine Triple.ite (fun _ => ?_) fun _ => Triple.pure fun vol h =>
    h.mono (fun _ hs => hs ▸ hfat) fun _ _ _ hd => hd.1
  have hclearing (d : Device Stop) (h : Logged p.geo p.size p.start p.keep d) (s : Fat)
      (hs : p.Tracks s ∧ s.dirty = .clearing) : p.Ready false s d := by
    refine ready_of_not_covered (fun hd => ?_) h
    rcases hd with hd | hd <;> exact absurd (hs.2.symm.trans hd) (by decide)
  refine Triple.bind (Borrow.triple_setState (U := fun s => p.Tracks s ∧ s.dirty = .clearing)
    (J := fun _ d => Logged p.geo p.size p.start p.keep d ∧ (p.geo.mark p.size 0).Settled
      (fun e => p.geo.isMarker p.size e ∧ p.geo.lifting p.size e) d.log)
    ?_ fun _ _ _ hd => ⟨hd.1.logged, hd.2⟩) fun _ => ?_
  · intro s _ hs _
    rw [hs]
    exact ⟨⟨hfat.geo, hfat.split, hfat.unmirrored, hfat.fsInfo, hfat.keep⟩, rfl⟩
  refine Triple.bind ((Borrow.triple_onIo fun _ _ => Prog.keeps_iff_triple.mp
    (writeCleanBit_true_spec hfat.geo hkeep')).weaken (fun _ _ h => h) fun _ vol h =>
      h.mono (fun _ hs => hs.1) fun s d hs hd => hclearing d hd.1 s hs) fun _ => ?_
  refine Triple.bind ((Borrow.triple_onIo fun _ _ => Io.flush_sound
    (J := Logged p.geo p.size p.start p.keep) (K := Logged p.geo p.size p.start p.keep)
    (fun d rest hd => ⟨hd.1.script rest, hd.2⟩) (fun d hd => hd.1.flush false)
    fun d hd => hd.1.flush true).weaken (fun _ _ h => h) fun _ vol h =>
      h.mono (fun _ hs => hs.1) fun s d hs hd => hclearing d hd s hs) fun _ => ?_
  refine Borrow.triple_setState (fun s _ hs _ => ?_) fun s d _ hd => ?_
  · exact ⟨hs.1.geo, hs.1.split, hs.1.unmirrored, hs.1.fsInfo, hs.1.keep⟩
  · exact ready_of_not_covered (by rintro (hc | hc) <;> cases hc) hd

theorem keeps_setCounts {f : Fat → Fat}
    (h : ∀ fat, (f fat).geo = fat.geo ∧ (f fat).split = fat.split ∧
      (f fat).unmirrored = fat.unmirrored ∧ (f fat).fsInfo = fat.fsInfo ∧
      (f fat).keepDirty = fat.keepDirty ∧ (f fat).dirty = fat.dirty) :
    Keeps (p.Inv armed) (setState f) := by
  refine keeps_setState (fun fat hfat => ?_) fun fat => (h fat).2.2.2.2.2
  obtain ⟨hgeo, hsplit, hunmirrored, hinfo, hkeep, -⟩ := h fat
  refine ⟨hgeo.trans hfat.geo, ?_, ?_, ?_, fun hp => hkeep.trans (hfat.keep hp)⟩
  · rw [hsplit]
    simpa only [Fat.isCluster, hgeo] using hfat.split
  · rw [hunmirrored]
    exact hfat.unmirrored
  · rw [hinfo]
    exact hfat.fsInfo

theorem keeps_forgetUnmirrored :
    Keeps (p.Inv armed) (setState fun fat => { fat with unmirrored := .none }) :=
  keeps_setState (fun _ h => ⟨h.geo, h.split, fun _ _ hu => (nomatch hu), h.fsInfo, h.keep⟩)
    fun _ => rfl

theorem keeps_setUnmirrored {first last : Nat} (hfirst : firstDataCluster ≤ first) :
    Keeps (p.Inv armed) (setState fun fat => { fat with unmirrored := some (first, last) }) :=
  keeps_setState (fun _ h => ⟨h.geo, h.split, fun _ _ hu => by cases hu; exact hfirst, h.fsInfo,
    h.keep⟩) fun _ => rfl

theorem keeps_putEntry {step cluster value : Nat} (hstep : step < p.geo.copies)
    (hlow : firstDataCluster ≤ cluster) (hmax : cluster ≤ p.geo.maxCluster) :
    Keeps (p.Inv armed) (putEntry step cluster value) := by
  refine keeps_armed (keeps_getState fun fat hfat => keeps_blockSize ?_)
  refine keeps_reads (Io.Reads.readBytes _ _) fun bytes _ => ?_
  refine Keeps.bind (Keeps.when fun _ => ?_) fun _ => ?_
  · refine keeps_setState (fun f hf => ⟨hf.geo, ?_, ?_, hf.fsInfo, hf.keep⟩) fun _ => rfl
    · rintro _ _ _ ⟨⟩
      rw [Fat.isCluster_iff]
      simp only [hf.geo]
      exact ⟨hlow, hmax⟩
    · rintro _ _ ⟨⟩
      exact hlow
  refine Keeps.bind ?_ fun _ => ?_
  · rw [hfat.geo]
    have hentry := p.geo.entry_mem step hlow hmax
    exact keeps_put _ ((Geometry.avoids_entries p.valid p.kind hstep).mono hentry.1 hentry.2)
      (by rw [FatKind.encode_length])
  refine Keeps.bind (Keeps.when fun _ => ?_) fun _ => Keeps.when fun _ => ?_
  · exact keeps_setCounts fun fat => by split <;> exact ⟨rfl, rfl, rfl, rfl, rfl, rfl⟩
  · exact keeps_setState (fun _ h => ⟨h.geo, fun _ _ _ hs => (nomatch hs), h.unmirrored, h.fsInfo,
      h.keep⟩) fun _ => rfl

theorem keeps_mirrorEntry {cluster : Nat} (hm : p.geo.mirrored = true)
    (hlow : firstDataCluster ≤ cluster) (hmax : cluster ≤ p.geo.maxCluster) :
    Keeps (p.Inv armed) (mirrorEntry cluster) := by
  refine keeps_getState fun fat hfat => keeps_reads (fat.reads_get cluster) fun stored _ => ?_
  refine Keeps.each _ fun step hstep => ?_
  rw [hfat.geo, List.mem_range'_1] at hstep
  refine keeps_reads (Io.Reads.readBytes _ _) fun bytes _ => Keeps.when fun _ => ?_
  refine keeps_putEntry ?_ hlow hmax
  rw [Geometry.copies, if_pos hm]
  omega

theorem keeps_mirror : Keeps (p.Inv armed) mirror := by
  refine keeps_getState fun fat hfat => Keeps.bind (Keeps.whenSome ?_) fun _ => ?_
  · rintro ⟨cluster, value, free⟩ hsplit
    have hc := hfat.split _ _ _ hsplit
    rw [Fat.isCluster_iff, hfat.geo] at hc
    refine keeps_putEntry ?_ hc.1 hc.2
    have hcount := p.valid.activeFat
    simp only [Geometry.copies]
    split <;> omega
  · refine keeps_getState fun fat hfat => Keeps.whenSome ?_
    rintro ⟨first, last⟩ hpending
    have hfirst := hfat.unmirrored _ _ hpending
    refine Keeps.bind (Keeps.when fun hm => ?_) fun _ => keeps_forgetUnmirrored
    rw [hfat.geo] at hm ⊢
    refine Keeps.each _ fun cluster hc => ?_
    rw [List.mem_range'_1] at hc
    exact keeps_mirrorEntry hm (by omega) (by omega)

theorem keeps_set (cluster value : Nat) : Keeps (p.Inv armed) (Vol.set cluster value) := by
  refine keeps_getState fun fat hfat => ?_
  by_cases hc : fat.isCluster cluster
  · have hrange := (fat.isCluster_iff cluster).mp hc
    rw [hfat.geo] at hrange
    simp only [Fat.checkCluster, if_pos hc, pure_bind, hfat.geo]
    refine Keeps.bind (Keeps.when fun _ => keeps_mirror) fun _ => ?_
    refine Keeps.bind (Keeps.when fun _ => keeps_setUnmirrored hrange.1) fun _ => ?_
    refine Keeps.bind (Keeps.each _ fun step hstep => ?_) fun _ => keeps_forgetUnmirrored
    rw [List.mem_range'_1] at hstep
    exact keeps_putEntry (by omega) hrange.1 hrange.2
  · simp only [Fat.checkCluster, if_neg hc]
    exact Keeps.fail _

theorem keeps_patchCopy {group : ClusterGroup} {chain tail : Option Nat} {step : Nat}
    (hstep : step < p.geo.copies)
    (hmembers : ∀ c ∈ group.members, firstDataCluster ≤ c ∧ c ≤ p.geo.maxCluster)
    (htail : ∀ c, tail = some c → firstDataCluster ≤ c ∧ c ≤ p.geo.maxCluster) :
    Keeps (p.Inv true) (patchCopy group chain tail step) := by
  refine keeps_getState fun fat hfat => Keeps.bind (keeps_write ?_) fun _ =>
    Keeps.when fun _ => ?_
  · have hframe : Device.Frame (fun d => Logged p.geo p.size p.start p.keep d ∧
        AllCovered p.geo p.size p.start d) _ _ :=
      Geometry.frame_covered (Geometry.avoids_entries p.valid p.kind hstep)
    refine fat.keeps_storeGroup hframe (fun _ hd => hd.1.blockSize)
      (fun c hc => ?_) fun c hc => ?_
    · rw [hfat.geo]
      exact p.geo.entry_mem step (hmembers c hc).1 (hmembers c hc).2
    · rw [hfat.geo]
      exact p.geo.entry_mem step (htail c hc).1 (htail c hc).2
  · exact keeps_setCounts fun _ => ⟨rfl, rfl, rfl, rfl, rfl, rfl⟩

theorem lowest_mem {group : ClusterGroup} (h : group.members ≠ []) :
    group.lowest ∈ group.members := by
  rw [ClusterGroup.lowest, List.getLastD_eq_getLast?, List.getLast?_eq_some_getLast h]
  exact List.getLast_mem h

theorem keeps_patch {group : ClusterGroup} {chain tail : Option Nat}
    (hne : group.members ≠ [])
    (hmembers : ∀ c ∈ group.members, firstDataCluster ≤ c ∧ c ≤ p.geo.maxCluster)
    (htail : ∀ c, tail = some c → firstDataCluster ≤ c ∧ c ≤ p.geo.maxCluster) :
    Keeps (p.Inv armed) (Vol.patch group chain tail) := by
  refine keeps_armed (keeps_getState fun fat hfat => ?_)
  refine Keeps.bind (Keeps.when fun _ => ?_) fun _ => ?_
  · refine Keeps.bind (Keeps.when fun _ => keeps_mirror) fun _ => keeps_setUnmirrored ?_
    have hlow := (hmembers _ (lowest_mem hne)).1
    cases tail with
    | none => simpa using hlow
    | some tail => exact Nat.le_min.mpr ⟨hlow, (htail tail rfl).1⟩
  · refine Keeps.bind (Keeps.each _ fun step hstep => ?_) fun _ => keeps_forgetUnmirrored
    rw [List.mem_range'_1, hfat.geo] at hstep
    exact keeps_patchCopy (by omega) hmembers htail

variable (p) in
/-- A data cluster of the volume. -/
def IsCluster (cluster : Nat) : Prop := firstDataCluster ≤ cluster ∧ cluster ≤ p.geo.maxCluster

theorem Tracks.isCluster {fat : Fat} (h : p.Tracks fat) {cluster : Nat}
    (hc : fat.isCluster cluster = true) : p.IsCluster cluster := by
  rw [Fat.isCluster_iff, h.geo] at hc
  exact hc

theorem findFree_spec : Triple (p.Inv armed) findFree
    (fun cluster vol => p.IsCluster cluster ∧ p.Inv armed vol) (fun _ => p.Inv armed) := by
  refine triple_getState fun fat hfat => ?_
  refine Triple.ite (fun _ => Triple.fail fun _ h => h) fun _ => ?_
  refine Triple.bind (triple_reads (reads_findFreeLoop fat _ _)) fun found => ?_
  refine Triple.assume fun hfound => ?_
  split
  · exact Triple.pure fun _ h => ⟨hfat.isCluster (hfound _ rfl), h⟩
  · refine Triple.bind (Prog.keeps_iff_triple.mp (Keeps.when fun _ => keeps_setCounts
      fun _ => ⟨rfl, rfl, rfl, rfl, rfl, rfl⟩)) fun _ => ?_
    exact Triple.bind (Prog.keeps_iff_triple.mp (keeps_setCounts
      fun _ => ⟨rfl, rfl, rfl, rfl, rfl, rfl⟩)) fun _ => Triple.fail fun _ h => h

theorem keeps_findFree {f : Nat → Prog Vol Stop α}
    (hf : ∀ cluster, p.IsCluster cluster → Keeps (p.Inv armed) (f cluster)) :
    Keeps (p.Inv armed) (findFree >>= f) :=
  Prog.keeps_iff_triple.mpr (Triple.bind findFree_spec fun cluster =>
    Triple.assume fun hc => Prog.keeps_iff_triple.mp (hf cluster hc))

theorem keeps_setNextFree (cluster : Nat) : Keeps (p.Inv armed) (setNextFree cluster) :=
  keeps_setCounts fun _ => ⟨rfl, rfl, rfl, rfl, rfl, rfl⟩

theorem keeps_allocate : Keeps (p.Inv armed) allocate := by
  refine keeps_findFree fun cluster _ => Keeps.bind (keeps_setHeld _) fun _ => ?_
  refine keeps_getState fun fat _ => Keeps.bind (keeps_set _ _) fun _ => ?_
  exact Keeps.bind (keeps_setNextFree _) fun _ => Keeps.bind (keeps_setCounts
    fun _ => ⟨rfl, rfl, rfl, rfl, rfl, rfl⟩) fun _ => Keeps.pure _

theorem keeps_linkAfter (share : Bool) {tail cluster : Nat} (end_ : Nat)
    (htail : p.IsCluster tail) (hc : p.IsCluster cluster) :
    Keeps (p.Inv armed) (linkAfter share tail cluster end_) := by
  refine Keeps.ite ?_ (Keeps.bind (keeps_set _ _) fun _ => keeps_set _ _)
  have hgroup : ((ClusterGroup.new cluster).add cluster).members = [cluster] := by
    simp [ClusterGroup.new, ClusterGroup.add, ClusterGroup.spans, ClusterGroup.has,
      ClusterGroup.span]
  refine keeps_patch (by rw [hgroup]; simp) (fun c h => ?_) fun c h => ?_
  · rw [hgroup] at h
    obtain rfl := List.mem_singleton.mp h
    exact hc
  · cases h
    exact htail

theorem keeps_allocateAfter (tail : Nat) : Keeps (p.Inv armed) (allocateAfter tail) := by
  refine Keeps.bind (Keeps.gets _) fun held => Keeps.ite (Keeps.fail _) ?_
  refine keeps_reading (fun fat => fat.reads_next tail) fun fat next hfat hnext => ?_
  have htail := hfat.isCluster hnext.1
  split
  · exact Keeps.fail _
  · refine keeps_findFree fun cluster hc => Keeps.bind (keeps_setHeld _) fun _ => ?_
    refine keeps_getState fun fat _ => keeps_blockSize ?_
    refine Keeps.bind (keeps_linkAfter _ _ htail hc) fun _ => ?_
    exact Keeps.bind (keeps_setNextFree _) fun _ => Keeps.bind (keeps_setCounts
      fun _ => ⟨rfl, rfl, rfl, rfl, rfl, rfl⟩) fun _ => Keeps.pure _

theorem keeps_linkGroups {total from_ : Nat} {tail : Option Nat}
    (htotal : total = p.geo.maxCluster - 1) (hfrom : from_ < total)
    (htail : ∀ c, tail = some c → p.IsCluster c) (fuel top left head : Nat) (linked : Bool)
    (htop : top ≤ total) :
    Keeps (p.Inv armed) (linkGroups total from_ tail fuel top left head linked) := by
  induction fuel generalizing top left head linked with
  | zero => exact Keeps.pure _
  | succ fuel ih =>
    cases top with
    | zero => exact Keeps.pure _
    | succ top =>
      refine keeps_getState fun fat hfat => keeps_blockSize ?_
      refine Keeps.ite ?_ ?_
      · refine keeps_reads (fat.reads_get _) fun stored _ => Keeps.ite ?_ ?_
        · refine Keeps.bind (keeps_setHeld _) fun _ => Keeps.bind (keeps_set _ _) fun _ => ?_
          exact Keeps.bind (keeps_setHeld _) fun _ => ih _ _ _ _ (by omega)
        · exact ih _ _ _ _ (by omega)
      · refine keeps_reads (reads_gatherFree fat _ _ _ _ _ _ (by rw [htotal, hfat.geo]) hfrom
          htop (by simp [ClusterGroup.new])) fun r hr => ?_
        obtain ⟨top', group⟩ := r
        obtain ⟨htop', hmembers⟩ := hr
        refine Keeps.ite' (fun _ => ih _ _ _ _ (by simp only at htop'; omega)) fun hcount => ?_
        refine Keeps.bind (keeps_setHeld _) fun _ => Keeps.bind ?_ fun _ =>
          Keeps.bind (keeps_setHeld _) fun _ => ih _ _ _ _ (by simp only at htop'; omega)
        refine keeps_patch (fun h => hcount (by simp [ClusterGroup.count, h]))
          (fun c hc => hfat.isCluster (hmembers c hc)) fun c hc => htail c ?_
        exact Option.eq_some_of_filter_eq_some hc

theorem keeps_allocateRunInner (count : Nat) {tail : Option Nat}
    (htail : ∀ c, tail = some c → p.IsCluster c) :
    Keeps (p.Inv armed) (allocateRunInner count tail) := by
  refine Keeps.ite ?_ ?_
  · refine Keeps.bind (Keeps.ite (Keeps.pure _) keeps_allocate) fun first => ?_
    exact Keeps.bind (Keeps.whenSome fun _ _ => keeps_set _ _) fun _ => Keeps.pure _
  refine keeps_getState fun fat hfat => Keeps.ite (Keeps.fail _) ?_
  have hmax := p.valid.maxCluster.1
  have hfrom : clampCluster fat fat.nextFree - firstDataCluster <
      fat.geo.maxCluster - firstDataCluster + 1 := by
    simp only [clampCluster, hfat.geo]
    omega
  refine keeps_reads (reads_scanFree fat _ _ _ _ _ _) fun r hr => ?_
  split
  · refine Keeps.bind (Keeps.when fun _ => keeps_setCounts fun _ =>
      ⟨rfl, rfl, rfl, rfl, rfl, rfl⟩)
      fun _ => ?_
    exact Keeps.bind (keeps_setCounts fun _ => ⟨rfl, rfl, rfl, rfl, rfl, rfl⟩) fun _ =>
      Keeps.fail _
  · rename_i last
    have hlast := hr last rfl
    refine Keeps.bind (keeps_linkGroups ?_ hfrom htail _ _ _ _ _ (by omega)) fun r => ?_
    · rw [hfat.geo]
      simp only [firstDataCluster] at hmax ⊢
      omega
    · exact Keeps.bind (Keeps.whenSome fun _ _ => keeps_set _ _) fun _ =>
        Keeps.bind (keeps_setNextFree _) fun _ => Keeps.pure _

theorem keeps_allocateRunAfter (tail count : Nat) :
    Keeps (p.Inv armed) (allocateRunAfter tail count) := by
  refine Keeps.ite (keeps_allocateAfter tail) ?_
  refine Keeps.bind (Keeps.gets _) fun held => Keeps.ite (Keeps.fail _) ?_
  refine keeps_reading (fun fat => fat.reads_next tail) fun fat next hfat hnext => ?_
  split
  · exact Keeps.fail _
  · refine keeps_allocateRunInner count ?_
    rintro c ⟨⟩
    exact hfat.isCluster hnext.1

theorem keeps_freeEach (fuel cluster : Nat) : Keeps (p.Inv armed) (freeEach fuel cluster) := by
  induction fuel generalizing cluster with
  | zero => exact Keeps.fail _
  | succ fuel ih =>
    refine keeps_reading (fun fat => fat.reads_next cluster) fun fat next _ _ => ?_
    refine Keeps.bind (keeps_setHeld _) fun _ => Keeps.bind (keeps_set _ _) fun _ => ?_
    split
    · exact ih _
    · exact keeps_setHeld _

theorem keeps_freeGroups (turns fuel cluster : Nat) :
    Keeps (p.Inv armed) (freeGroups turns fuel cluster) := by
  induction fuel generalizing cluster with
  | zero => exact Keeps.fail _
  | succ fuel ih =>
    refine keeps_getState fun fat hfat => keeps_blockSize ?_
    refine keeps_reads (reads_gatherChain fat _ _ _ _ _ (by simp [ClusterGroup.new]))
      fun r hr => ?_
    obtain ⟨next, group⟩ := r
    refine Keeps.bind (Keeps.when fun hcount => ?_) fun _ => ?_
    · refine Keeps.bind (keeps_setHeld _) fun _ => keeps_patch ?_ ?_ (by simp)
      · intro h
        simp [ClusterGroup.count, h] at hcount
      · exact fun c hc => hfat.isCluster (hr.2 c hc)
    · split
      · exact Keeps.fail _
      · exact ih _
      · exact keeps_setHeld _

theorem keeps_freeChainFor (turns first : Nat) :
    Keeps (p.Inv armed) (freeChainFor turns first) := by
  refine keeps_getState fun fat hfat => ?_
  by_cases hc : fat.isCluster first
  · simp only [Fat.checkCluster, if_pos hc, pure_bind]
    exact Keeps.ite (keeps_freeEach _ _) (keeps_freeGroups _ _ _)
  · simp only [Fat.checkCluster, if_neg hc]
    exact Keeps.fail _

theorem keeps_countFree : Keeps (p.Inv armed) countFree := by
  refine keeps_getState fun fat _ => keeps_reads (reads_countFreeLoop fat _ _) fun free _ => ?_
  exact Keeps.bind (keeps_setCounts fun _ => ⟨rfl, rfl, rfl, rfl, rfl, rfl⟩) fun _ => Keeps.pure _

theorem keeps_writeFsInfo : Keeps (p.Inv armed) writeFsInfo := by
  refine keeps_getState fun fat hfat => Keeps.whenSome fun at_ hat => Keeps.when fun _ => ?_
  refine keeps_armed (Keeps.bind (keeps_put p.geo.fatStart ?_ ?_) fun _ =>
    keeps_setCounts fun _ => ⟨rfl, rfl, rfl, rfl, rfl, rfl⟩)
  · intro step _
    have hclean := Geometry.cleanAt_mem p.valid step
    simp only [Geometry.fatCopy] at hclean
    omega
  · have hinfo := hfat.fsInfo at_ hat
    simp only [bootSectorLen] at hinfo
    simp only [fsInfoFreeCount, u32Bytes, List.length_append, List.length_cons, List.length_nil]
    omega

end Protocol

end Hadris
