import Hadris.Fat
import Hadris.Mark

namespace Hadris

open Prog (Triple)

namespace FatKind

theorem cleanMask_ne_zero {kind : FatKind} (h : kind ≠ .fat12) : kind.cleanMask ≠ 0 := by
  cases kind with
  | fat12 => exact absurd rfl h
  | fat16 => decide
  | fat32 => decide

theorem withClean_true_and (kind : FatKind) (byte : UInt8) :
    kind.withClean true byte &&& kind.cleanMask = kind.cleanMask := by
  rw [← UInt8.toBitVec_inj]
  ext i hi
  simp only [withClean, if_true, UInt8.toBitVec_and, UInt8.toBitVec_or, BitVec.getElem_and,
    BitVec.getElem_or]
  cases byte.toBitVec[i] <;> simp

theorem withClean_false_and (kind : FatKind) (byte : UInt8) :
    kind.withClean false byte &&& kind.cleanMask = 0 := by
  rw [← UInt8.toBitVec_inj]
  ext i hi
  simp [withClean]

theorem and_cleanMask_of_ne {kind : FatKind} {byte : UInt8}
    (h : byte ≠ kind.withClean true byte) : byte &&& kind.cleanMask = 0 := by
  have hbit : ∀ mask : BitVec 8, mask = 0 ∨ mask = 0x80 ∨ mask = 0x08 →
      ∀ b : BitVec 8, b ≠ b ||| mask → b &&& mask = 0 := by
    rintro mask (rfl | rfl | rfl)
    · simp
    · decide
    · decide
  rw [← UInt8.toBitVec_inj]
  apply hbit
  · cases kind <;> decide
  · intro heq
    apply h
    rw [← UInt8.toBitVec_inj]
    exact heq

end FatKind

namespace Event

def isWrite : Event → Prop
  | .write .. => True
  | .flush _ => False

def landed : Event → Prop
  | .write _ _ _ fate => fate.stored = true
  | .flush done => done = true

instance : DecidablePred isWrite
  | .write .. => isTrue trivial
  | .flush _ => isFalse id

instance : DecidablePred landed
  | .write _ _ _ fate => inferInstanceAs (Decidable (fate.stored = true))
  | .flush done => inferInstanceAs (Decidable (done = true))

end Event

namespace Geometry

/-- Whether the clean bit of FAT copy `step` is set. -/
def cleanSet (geo : Geometry) (img : Nat → UInt8) (step : Nat) : Prop :=
  img (geo.cleanAt step) &&& geo.kind.cleanMask ≠ 0

/-- Whether the clean bit of FAT copy `step` is set in the device block that
holds it. -/
def cleanIn (geo : Geometry) (size step : Nat) (data : List UInt8) : Prop :=
  data.getD (geo.cleanAt step % size) 0 &&& geo.kind.cleanMask ≠ 0

/-- A write that sets the clean bit of FAT copy `step`. -/
def raises (geo : Geometry) (size step : Nat) : Event → Prop
  | .write block before after _ =>
    block = geo.cleanAt step / size ∧ ¬ geo.cleanIn size step before ∧
      geo.cleanIn size step after
  | .flush _ => False

/-- A write that clears the clean bit of FAT copy `step`. -/
def lowers (geo : Geometry) (size step : Nat) : Event → Prop
  | .write block before after _ =>
    block = geo.cleanAt step / size ∧ geo.cleanIn size step before ∧
      ¬ geo.cleanIn size step after
  | .flush _ => False

/-- A write that changes the clean bit of one FAT copy and nothing else. -/
def isMarker (geo : Geometry) (size : Nat) : Event → Prop
  | .write block before after _ =>
    before ≠ after ∧ ∃ step < geo.copies, block = geo.cleanAt step / size ∧
      ∃ clean, after = before.set (geo.cleanAt step % size)
        (geo.kind.withClean clean (before.getD (geo.cleanAt step % size) 0))
  | .flush _ => False

def ordinary (geo : Geometry) (size : Nat) (e : Event) : Prop := e.isWrite ∧ ¬ geo.isMarker size e

/-- A write that sets the clean bit of a FAT copy. -/
def lifting (geo : Geometry) (size : Nat) (e : Event) : Prop :=
  ∃ step < geo.copies, geo.raises size step e

section Decidable

variable (geo : Geometry) (size step : Nat)

instance (data : List UInt8) : Decidable (geo.cleanIn size step data) :=
  inferInstanceAs (Decidable (_ ≠ _))

instance : DecidablePred (geo.raises size step)
  | .write .. => inferInstanceAs (Decidable (_ ∧ _ ∧ _))
  | .flush _ => isFalse id

instance : DecidablePred (geo.lowers size step)
  | .write .. => inferInstanceAs (Decidable (_ ∧ _ ∧ _))
  | .flush _ => isFalse id

instance : DecidablePred (geo.isMarker size)
  | .write .. => inferInstanceAs (Decidable (_ ∧ _))
  | .flush _ => isFalse id

instance : DecidablePred (geo.ordinary size) := fun _ => inferInstanceAs (Decidable (_ ∧ _))

instance : DecidablePred (geo.lifting size) := fun _ =>
  inferInstanceAs (Decidable (∃ step < geo.copies, _))

end Decidable

/-- The clean bit of FAT copy `step` as a mark: the volume is marked dirty
while the bit is clear. -/
def mark (geo : Geometry) (size step : Nat) : Mark Event where
  puts e := e.landed ∧ geo.lowers size step e
  lifts e := e.landed ∧ geo.raises size step e
  flushes e := e = .flush true

/-- What holds of an event of a run, for every FAT copy that is written.
`start` says of which copies the volume counted as marked when it was opened. -/
def Obeys (geo : Geometry) (size : Nat) (start : Nat → Prop) (e : Event) (older : List Event) :
    Prop :=
  ∀ step < geo.copies, (geo.mark size step).Obeys (start step) (geo.ordinary size)
    (geo.lifting size) (fun e => geo.isMarker size e ∧ geo.lifting size e) e older

theorem activeFat_xor {geo : Geometry} (hv : geo.Valid) {step : Nat} (h : step < geo.copies) :
    geo.activeFat ^^^ step < geo.fatCount ∧
      ∀ other < geo.copies, geo.activeFat ^^^ step = geo.activeFat ^^^ other → step = other := by
  have hactive := hv.activeFat
  simp only [copies] at h ⊢
  split at h
  · rename_i hm
    rw [if_pos hm, hv.mirrored hm]
    simp only [Nat.zero_xor]
    exact ⟨h, fun _ _ heq => heq⟩
  · rename_i hm
    rw [if_neg hm]
    obtain rfl : step = 0 := by omega
    rw [Nat.xor_zero]
    exact ⟨hactive, fun other hother _ => by omega⟩

theorem cleanByte_lt (kind : FatKind) : kind.cleanByte < kind.entryLen := by
  cases kind <;> decide

theorem entryAt_le {geo : Geometry} (hv : geo.Valid) (step : Nat) {cluster : Nat}
    (h : cluster ≤ geo.maxCluster) :
    geo.fatCopy (geo.activeFat ^^^ step) ≤ geo.entryAt step cluster ∧
      geo.entryAt step cluster + geo.kind.entryLen ≤
        geo.fatCopy (geo.activeFat ^^^ step) + geo.fatSize := by
  have hfit := hv.fatSize
  have hmono : geo.kind.entryOffset cluster ≤ geo.kind.entryOffset geo.maxCluster := by
    cases geo.kind <;> simp only [FatKind.entryOffset] <;> omega
  simp only [entryAt]
  omega

theorem fatCopy_disjoint (geo : Geometry) {a b : Nat} (h : a ≠ b) :
    geo.fatCopy a + geo.fatSize ≤ geo.fatCopy b ∨
      geo.fatCopy b + geo.fatSize ≤ geo.fatCopy a := by
  simp only [fatCopy]
  rcases Nat.lt_or_gt_of_ne h with hlt | hgt
  · have hmul := Nat.mul_le_mul_right geo.fatSize (Nat.succ_le_of_lt hlt)
    rw [Nat.succ_mul] at hmul
    omega
  · have hmul := Nat.mul_le_mul_right geo.fatSize (Nat.succ_le_of_lt hgt)
    rw [Nat.succ_mul] at hmul
    omega

theorem cleanAt_mem {geo : Geometry} (hv : geo.Valid) (step : Nat) :
    geo.fatCopy (geo.activeFat ^^^ step) ≤ geo.cleanAt step ∧
      geo.cleanAt step < geo.fatCopy (geo.activeFat ^^^ step) + geo.fatSize := by
  have hmax := hv.maxCluster.1
  have h := entryAt_le hv step
    (show 1 ≤ geo.maxCluster by simp only [firstDataCluster] at hmax; omega)
  have hbyte := cleanByte_lt geo.kind
  simp only [cleanAt]
  omega

theorem cleanAt_ne {geo : Geometry} (hv : geo.Valid) {step other : Nat} (h : step < geo.copies)
    (h' : other < geo.copies) (hne : step ≠ other) : geo.cleanAt step ≠ geo.cleanAt other := by
  have hxor := fun heq => hne ((activeFat_xor hv h).2 other h' heq)
  have hstep := cleanAt_mem hv step
  have hother := cleanAt_mem hv other
  have hdis := geo.fatCopy_disjoint hxor
  omega

/-- Bytes `lo..hi` hold no clean bit. -/
def Avoids (geo : Geometry) (lo hi : Nat) : Prop :=
  ∀ step < geo.copies, geo.cleanAt step < lo ∨ hi ≤ geo.cleanAt step

theorem Avoids.mono {geo : Geometry} {lo hi lo' hi' : Nat} (h : geo.Avoids lo hi)
    (hlo : lo ≤ lo') (hhi : hi' ≤ hi) : geo.Avoids lo' hi' := by
  intro step hstep
  have := h step hstep
  omega

def entries (geo : Geometry) (step : Nat) : Nat × Nat :=
  (geo.entryAt step firstDataCluster, geo.entryAt step geo.maxCluster + geo.kind.entryLen)

theorem entry_mem (geo : Geometry) (step : Nat) {cluster : Nat}
    (hlow : firstDataCluster ≤ cluster)
    (hmax : cluster ≤ geo.maxCluster) : (geo.entries step).1 ≤ geo.entryAt step cluster ∧
      geo.entryAt step cluster + geo.kind.entryLen ≤ (geo.entries step).2 := by
  simp only [entries, entryAt]
  cases geo.kind <;> simp only [FatKind.entryOffset] <;> omega

theorem avoids_entries {geo : Geometry} (hv : geo.Valid) (hk : geo.kind ≠ .fat12) {step : Nat}
    (hstep : step < geo.copies) : geo.Avoids (geo.entries step).1 (geo.entries step).2 := by
  intro other hother
  by_cases hne : step = other
  · subst hne
    left
    have hbyte := cleanByte_lt geo.kind
    simp only [entries, cleanAt, entryAt]
    cases hkind : geo.kind with
    | fat12 => exact absurd hkind hk
    | fat16 =>
      simp only [hkind, FatKind.entryLen, FatKind.entryOffset, firstDataCluster] at hbyte ⊢
      omega
    | fat32 =>
      simp only [hkind, FatKind.entryLen, FatKind.entryOffset, firstDataCluster] at hbyte ⊢
      omega
  · have hxor := fun heq => hne ((activeFat_xor hv hstep).2 other hother heq)
    have hlow := entryAt_le hv step hv.maxCluster.1
    have hhigh := entryAt_le hv step (Nat.le_refl geo.maxCluster)
    have hclean := cleanAt_mem hv other
    have hdis := geo.fatCopy_disjoint hxor
    simp only [entries]
    omega

section Device

variable {geo : Geometry} {size : Nat} {start : Nat → Prop} {keep : Bool}

theorem cleanIn_blockAt {d : Device Stop} (h : d.blockSize = size) (step : Nat) :
    geo.cleanIn size step (d.blockAt (geo.cleanAt step / size)) ↔ geo.cleanSet d.bytes step := by
  subst h
  rw [cleanIn, Device.blockAt_getD, cleanSet]

/-- What a run keeps of the device: the log so far obeys the protocol, a copy
whose clean bit is clear counts as marked, and with `keep` no clean bit was
set. -/
structure Logged (geo : Geometry) (size : Nat) (start : Nat → Prop) (keep : Bool)
    (d : Device Stop) : Prop where
  blockSize : d.blockSize = size
  marked : ∀ step < geo.copies, ¬ geo.cleanSet d.bytes step →
    (geo.mark size step).Set (start step) d.log
  obeys : Past.Always (geo.Obeys size start) d.log
  unraised : keep = true → ∀ e ∈ d.log, ¬ geo.lifting size e

/-- The mark of every copy written is durable. -/
def AllCovered (geo : Geometry) (size : Nat) (start : Nat → Prop) (d : Device Stop) : Prop :=
  ∀ step < geo.copies, (geo.mark size step).Covered (start step) d.log

theorem Logged.script {d : Device Stop} (h : Logged geo size start keep d)
    (rest : List (Outcome Stop)) : Logged geo size start keep { d with script := rest } :=
  ⟨h.blockSize, h.marked, h.obeys, h.unraised⟩

theorem Logged.flush {d : Device Stop} (h : Logged geo size start keep d) (done : Bool) :
    Logged geo size start keep { d with log := .flush done :: d.log } := by
  refine ⟨h.blockSize, ?_, ⟨?_, h.obeys⟩, ?_⟩
  · intro step hstep hclear
    exact Mark.set_cons_of_not_lifts (h.marked step hstep hclear) fun hlift => hlift.2
  · intro step _
    exact ⟨fun ho => (ho.1 : False).elim, fun ⟨_, _, hl⟩ => (hl : False).elim⟩
  · intro hk e he
    rcases List.mem_cons.mp he with rfl | he
    · exact fun ⟨_, _, hl⟩ => (hl : False).elim
    · exact h.unraised hk e he

theorem Logged.commit {d : Device Stop} (h : Logged geo size start keep d) {index : Nat}
    {after : List UInt8} {fate : Fate} (hlen : after.length = d.blockSize)
    (hobeys : geo.Obeys size start (.write index (d.blockAt index) after fate) d.log)
    (hkeep : keep = true → ¬ geo.lifting size (.write index (d.blockAt index) after fate)) :
    Logged geo size start keep (d.commit index after fate) := by
  refine ⟨h.blockSize, ?_, ⟨hobeys, h.obeys⟩, ?_⟩
  · intro step hstep hclear
    simp only [cleanSet, d.commit_bytes index fate hlen] at hclear
    by_cases hhere : fate.stored = true ∧ geo.cleanAt step / d.blockSize = index
    · obtain ⟨hlanded, rfl⟩ := hhere
      rw [if_pos ⟨hlanded, rfl⟩, h.blockSize] at hclear
      by_cases hbefore : geo.cleanSet d.bytes step
      · apply Mark.set_cons_of_puts
        refine ⟨hlanded, by rw [h.blockSize], ?_, hclear⟩
        rw [h.blockSize]
        exact (cleanIn_blockAt h.blockSize step).mpr hbefore
      · exact Mark.set_cons_of_not_lifts (h.marked step hstep hbefore) fun hl => hclear hl.2.2.2
    · rw [if_neg hhere] at hclear
      refine Mark.set_cons_of_not_lifts (h.marked step hstep hclear) fun hl => hhere ⟨hl.1, ?_⟩
      rw [h.blockSize]
      exact hl.2.1.symm
  · intro hk e he
    rcases List.mem_cons.mp he with rfl | he
    · exact hkeep hk
    · exact h.unraised hk e he

theorem not_raises_of_same {d : Device Stop} (hsize : d.blockSize = size) {index : Nat}
    {after : List UInt8} {fate : Fate} {step : Nat}
    (hsame : geo.cleanAt step / size = index →
      after.getD (geo.cleanAt step % size) 0 = d.bytes (geo.cleanAt step)) :
    ¬ geo.raises size step (.write index (d.blockAt index) after fate) := by
  rintro ⟨rfl, hbefore, hafter⟩
  rw [cleanIn_blockAt hsize] at hbefore
  rw [cleanIn, hsame rfl] at hafter
  exact hbefore hafter

theorem covered_commit {d : Device Stop} (h : AllCovered geo size start d) {index : Nat}
    {after : List UInt8} {fate : Fate}
    (hraise : ∀ step < geo.copies,
      ¬ geo.raises size step (.write index (d.blockAt index) after fate)) :
    AllCovered geo size start (d.commit index after fate) := fun step hstep =>
  Mark.covered_cons_of_not_lifts (h step hstep) fun hl => hraise step hstep hl.2

theorem covered_flush {d : Device Stop} (h : AllCovered geo size start d) (done : Bool) :
    AllCovered geo size start { d with log := .flush done :: d.log } := fun step hstep =>
  Mark.covered_cons_of_not_lifts (h step hstep) fun hl => hl.2

/-- Under a durable mark, writes that change no clean bit keep to the
protocol. -/
theorem frame_covered {lo hi : Nat} (havoid : geo.Avoids lo hi) :
    Device.Frame (fun d => Logged geo size start keep d ∧ AllCovered geo size start d) lo hi := by
  refine ⟨fun d rest h => ⟨h.1.script rest, h.2⟩, ?_⟩
  rintro d index after fate ⟨h, hcovered⟩ hlen hout
  have hraise (step : Nat) (hstep : step < geo.copies) :
      ¬ geo.raises size step (.write index (d.blockAt index) after fate) := by
    apply not_raises_of_same h.blockSize
    rintro rfl
    have hdiv := Nat.div_add_mod' (geo.cleanAt step) d.blockSize
    have hat := hout (geo.cleanAt step % d.blockSize) (Nat.mod_lt _ d.blockSize_pos)
      (by rw [← h.blockSize, hdiv]; exact havoid step hstep)
    rwa [← h.blockSize, hdiv, h.blockSize] at hat
  refine ⟨h.commit hlen ?_ ?_, covered_commit hcovered hraise⟩
  · intro step hstep
    refine ⟨fun _ => hcovered step hstep, ?_⟩
    rintro ⟨other, hother, hl⟩
    exact absurd hl (hraise other hother)
  · rintro - ⟨other, hother, hl⟩
    exact hraise other hother hl

end Device

section Marker

variable {geo : Geometry} {start : Nat → Prop} {keep : Bool} {d : Device Stop}

def markerWrite (geo : Geometry) (d : Device Stop) (clean : Bool) (step : Nat) : List UInt8 :=
  (d.blockAt (geo.cleanAt step / d.blockSize)).set (geo.cleanAt step % d.blockSize)
    (geo.kind.withClean clean (d.bytes (geo.cleanAt step)))

theorem markerWrite_length (clean : Bool) (step : Nat) :
    (geo.markerWrite d clean step).length = d.blockSize := by
  simp [markerWrite]

theorem markerWrite_getD (clean : Bool) (step : Nat) :
    (geo.markerWrite d clean step).getD (geo.cleanAt step % d.blockSize) 0 =
      geo.kind.withClean clean (d.bytes (geo.cleanAt step)) := by
  have hlt : geo.cleanAt step % d.blockSize < (geo.markerWrite d clean step).length := by
    rw [markerWrite_length]
    exact Nat.mod_lt _ d.blockSize_pos
  rw [List.getD_eq_getElem _ _ hlt]
  exact List.getElem_set_self _

theorem markerWrite_getD_ne (clean : Bool) (step : Nat) {a : Nat} (h : a ≠ geo.cleanAt step)
    (hblock : a / d.blockSize = geo.cleanAt step / d.blockSize) :
    (geo.markerWrite d clean step).getD (a % d.blockSize) 0 = d.bytes a := by
  have hne : geo.cleanAt step % d.blockSize ≠ a % d.blockSize := by
    intro heq
    apply h
    rw [← Nat.div_add_mod' a d.blockSize, ← Nat.div_add_mod' (geo.cleanAt step) d.blockSize,
      hblock, heq]
  rw [markerWrite, List.getD_eq_getElem?_getD, List.getElem?_set_ne hne,
    ← List.getD_eq_getElem?_getD, ← hblock, Device.blockAt_getD]

theorem markerWrite_isMarker {clean : Bool} {step : Nat} (hstep : step < geo.copies)
    (fate : Fate)
    (h : d.bytes (geo.cleanAt step) ≠ geo.kind.withClean clean (d.bytes (geo.cleanAt step))) :
    geo.isMarker d.blockSize (.write (geo.cleanAt step / d.blockSize)
      (d.blockAt (geo.cleanAt step / d.blockSize)) (geo.markerWrite d clean step) fate) := by
  refine ⟨fun heq => h ?_, step, hstep, rfl, clean, by rw [Device.blockAt_getD]; rfl⟩
  rw [← markerWrite_getD, ← heq, Device.blockAt_getD]

theorem markerWrite_not_raises (hv : geo.Valid) {step other : Nat} (hstep : step < geo.copies)
    (hother : other < geo.copies) {fate : Fate} :
    ¬ geo.raises d.blockSize other (.write (geo.cleanAt step / d.blockSize)
      (d.blockAt (geo.cleanAt step / d.blockSize)) (geo.markerWrite d false step) fate) := by
  by_cases heq : step = other
  · subst heq
    rintro ⟨-, -, hafter⟩
    rw [cleanIn, markerWrite_getD] at hafter
    exact hafter (geo.kind.withClean_false_and _)
  · exact not_raises_of_same rfl fun hblock =>
      markerWrite_getD_ne false step (cleanAt_ne hv hother hstep (Ne.symm heq)) hblock

theorem cleanSet_lowered (hv : geo.Valid) {step other : Nat} (hstep : step < geo.copies)
    (hother : other < geo.copies) {fate : Fate} (hstored : fate.stored = true)
    (h : other ≠ step → ¬ geo.cleanSet d.bytes other) :
    ¬ geo.cleanSet (d.commit (geo.cleanAt step / d.blockSize) (geo.markerWrite d false step)
      fate).bytes other := by
  simp only [cleanSet, d.commit_bytes _ _ (markerWrite_length false step), hstored, true_and]
  by_cases heq : other = step
  · subst heq
    rw [if_pos rfl, markerWrite_getD]
    exact not_not.mpr (geo.kind.withClean_false_and _)
  · have hclear := h heq
    split
    · rename_i hblock
      rwa [markerWrite_getD_ne false step (cleanAt_ne hv hother hstep heq) hblock]
    · exact hclear

theorem Logged.lower (h : Logged geo d.blockSize start keep d) (hv : geo.Valid) {step : Nat}
    (hstep : step < geo.copies) (fate : Fate)
    (hne : d.bytes (geo.cleanAt step) ≠ geo.kind.withClean false (d.bytes (geo.cleanAt step))) :
    Logged geo d.blockSize start keep
      (d.commit (geo.cleanAt step / d.blockSize) (geo.markerWrite d false step) fate) := by
  refine h.commit (markerWrite_length false step) ?_ ?_
  · intro other _
    refine ⟨fun ho => absurd (markerWrite_isMarker hstep fate hne) ho.2, ?_⟩
    rintro ⟨third, hthird, hl⟩
    exact absurd hl (markerWrite_not_raises hv hstep hthird)
  · rintro - ⟨third, hthird, hl⟩
    exact markerWrite_not_raises hv hstep hthird hl

/-- Setting a clean bit keeps to the protocol when everything else is durable,
and what comes next finds it so too. -/
theorem Logged.raise (h : Logged geo d.blockSize start false d) {step : Nat}
    (hk : geo.kind ≠ .fat12) (hstep : step < geo.copies) (fate : Fate)
    (hsettled : (geo.mark d.blockSize 0).Settled
      (fun e => geo.isMarker d.blockSize e ∧ geo.lifting d.blockSize e) d.log)
    (hne : d.bytes (geo.cleanAt step) ≠ geo.kind.withClean true (d.bytes (geo.cleanAt step))) :
    let d' := d.commit (geo.cleanAt step / d.blockSize) (geo.markerWrite d true step) fate
    Logged geo d.blockSize start false d' ∧ (geo.mark d.blockSize 0).Settled
      (fun e => geo.isMarker d.blockSize e ∧ geo.lifting d.blockSize e) d'.log := by
  have hmarker := markerWrite_isMarker hstep fate hne
  refine ⟨h.commit (markerWrite_length true step) ?_ (fun hf => (nomatch hf)), ?_⟩
  · exact fun other _ => ⟨fun ho => absurd hmarker ho.2, fun _ => hsettled⟩
  · refine Mark.settled_cons_of_lifting hsettled ⟨hmarker, step, hstep, rfl, ?_, ?_⟩
    · rw [cleanIn_blockAt rfl, cleanSet]
      exact not_not.mpr (FatKind.and_cleanMask_of_ne hne)
    · rw [cleanIn, markerWrite_getD, FatKind.withClean_true_and]
      exact FatKind.cleanMask_ne_zero hk

end Marker

end Geometry

namespace Fat

/-- What a write of the clean bit of one FAT copy leads to, given what the
block write it makes leads to. -/
theorem writeCleanBitAt_spec {I J K : Device Stop → Prop} {size : Nat} (fat : Fat) (clean : Bool)
    (step : Nat) (hsize : ∀ d, I d → d.blockSize = size)
    (hscript : ∀ d rest, I d → I { d with script := rest }) (hIJ : ∀ d, I d → J d)
    (hsame : ∀ d, I d → d.bytes (fat.geo.cleanAt step) =
      fat.geo.kind.withClean clean (d.bytes (fat.geo.cleanAt step)) → K d)
    (hcommit : ∀ d fate', I d → d.bytes (fat.geo.cleanAt step) ≠
      fat.geo.kind.withClean clean (d.bytes (fat.geo.cleanAt step)) →
      let d' := d.commit (fat.geo.cleanAt step / size)
        ((d.blockAt (fat.geo.cleanAt step / size)).set (fat.geo.cleanAt step % size)
          (fat.geo.kind.withClean clean (d.bytes (fat.geo.cleanAt step)))) fate'
      J d' ∧ (fate'.stored = true → K d')) :
    Triple (Io.Sound I) (fat.writeCleanBitAt clean step) (fun _ => Io.Sound K)
      (fun _ => Io.Sound J) := by
  have herr (io : Io) (h : Io.Sound I io) : Io.Sound J io := ⟨h.1, hIJ _ h.2⟩
  refine Triple.bind (Triple.gets (Q := fun s io => s = size ∧ Io.Sound I io)
    fun io h => ⟨hsize _ h.2, h⟩) fun s => Triple.assume ?_
  rintro rfl
  refine Triple.bind ((Io.load_sound hscript _).weaken (fun _ _ h => h) fun _ => herr)
    fun _ => ?_
  refine Triple.bind (Triple.gets (Q := fun data io => data = io.block.data ∧
    Io.Sound I io ∧ io.block.cached = some (fat.geo.cleanAt step / s)) fun io h => ⟨rfl, h⟩)
    fun data => ?_
  rintro io ⟨rfl, hio, hc⟩
  obtain rfl : io.dev.blockSize = s := hsize _ hio.2
  have hdata := hio.1.cached _ hc
  have hbyte : io.block.data.getD (fat.geo.cleanAt step % io.dev.blockSize) 0 =
      io.dev.bytes (fat.geo.cleanAt step) := by
    rw [hdata, Device.blockAt_getD]
  rw [hbyte]
  refine Triple.when (P := fun io' => io' = io) (fun hne => ?_) (fun heq => ?_) io rfl
  · refine Triple.bind (Triple.modify (Q := fun _ io' =>
      io'.block.data = (io.dev.blockAt (fat.geo.cleanAt step / io.dev.blockSize)).set
        (fat.geo.cleanAt step % io.dev.blockSize)
        (fat.geo.kind.withClean clean (io.dev.bytes (fat.geo.cleanAt step))) ∧
      ((io.dev.blockAt (fat.geo.cleanAt step / io.dev.blockSize)).set
        (fat.geo.cleanAt step % io.dev.blockSize)
        (fat.geo.kind.withClean clean (io.dev.bytes (fat.geo.cleanAt step)))).length =
          io'.dev.blockSize ∧ (I io'.dev ∧ io'.dev.blockSize = io.dev.blockSize ∧
            io'.dev.bytes = io.dev.bytes)) ?_) fun _ => ?_
    · rintro _ rfl
      exact ⟨congrArg (fun data => List.set data _ _) hdata, by simp, hio.2, rfl, rfl⟩
    · refine Io.store_commit (I := fun d => I d ∧ d.blockSize = io.dev.blockSize ∧
        d.bytes = io.dev.bytes) (fun d rest h => ⟨hscript _ _ h.1, h.2⟩) (fun d h =>
          hIJ d h.1) ?_ ?_
      · rintro d landed ⟨hI, hbs, hb⟩
        have hd := (hcommit d (.failed landed) hI (by rwa [hb])).1
        simpa only [Device.blockAt, hbs, hb] using hd
      · rintro d ⟨hI, hbs, hb⟩
        have hd := (hcommit d .done hI (by rwa [hb])).2 rfl
        simpa only [Device.blockAt, hbs, hb] using hd
  · rintro _ rfl
    exact ⟨hio.1, hsame _ hio.2 (not_not.mp heq)⟩

end Fat

end Hadris
