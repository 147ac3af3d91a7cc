import Hadris.CleanBit
import Hadris.Exfat.Volume

namespace Hadris.Exfat

open Past

namespace VolumeFlag

open Hadris.Exfat.Vol (volumeFlagsAt)

def mask : UInt8 := u8 volumeDirty

def isSet (img : Nat → UInt8) : Prop := img volumeFlagsAt &&& mask ≠ 0

/-- Whether `VolumeDirty` is set in the device block that holds it. -/
def isIn (size : Nat) (data : List UInt8) : Prop :=
  data.getD (volumeFlagsAt % size) 0 &&& mask ≠ 0

/-- A write of the block that holds the flag, with the flag set. -/
def sets (size : Nat) : Event → Prop
  | .write block _ after _ => block = volumeFlagsAt / size ∧ isIn size after
  | .flush _ => False

/-- A write that clears the flag. -/
def clears (size : Nat) : Event → Prop
  | .write block before after _ =>
    block = volumeFlagsAt / size ∧ isIn size before ∧ ¬ isIn size after
  | .flush _ => False

/-- A write that changes nothing but `VolumeFlags`. -/
def isFlagWrite (size : Nat) : Event → Prop
  | .write block before after _ =>
    block = volumeFlagsAt / size ∧ ∀ k < size,
      block * size + k ≠ volumeFlagsAt ∧ block * size + k ≠ volumeFlagsAt + 1 →
        after.getD k 0 = before.getD k 0
  | .flush _ => False

def ordinary (size : Nat) (e : Event) : Prop := e.isWrite ∧ ¬ isFlagWrite size e

/-- A write that is part of a call that succeeded. -/
def succeeded : Event → Prop
  | .write _ _ _ fate => fate = .done
  | .flush done => done = true

def mark (size : Nat) : Mark Event where
  puts e := e.landed ∧ sets size e
  lifts e := e.landed ∧ clears size e
  flushes e := e = .flush true

/-- What holds of an event of a run. `start` says whether the flag was set when
the volume was opened. -/
def Obeys (size : Nat) (start : Prop) : Event → List Event → Prop :=
  (mark size).Obeys start (ordinary size) (clears size) fun _ => False

/-- `VolumeFlags` was written with the flag set, by a call that succeeded, and
not made durable. -/
def Pending (size : Nat) : List Event → Prop :=
  Since False (fun e => e ≠ .flush true) fun e _ => succeeded e ∧ isFlagWrite size e ∧ sets size e

/-- A device call fails in one of the two places the driver does not provide
for: a flush, while the flag is written as set and not durable, or a write that
clears the flag, which lands all the same. -/
def Lost (size : Nat) (start : Prop) (e : Event) (older : List Event) : Prop :=
  (e = .flush false ∧ Pending size older ∧ ¬ (mark size).Covered start older) ∨
    (clears size e ∧ e.landed ∧ ¬ succeeded e)

/-- No device call of a log fails in such a place. -/
def Spared (size : Nat) (start : Prop) : List Event → Prop :=
  Always fun e older => ¬ Lost size start e older

section Decidable

variable (size : Nat) (start : Prop) [Decidable start]

instance (data : List UInt8) : Decidable (isIn size data) := inferInstanceAs (Decidable (_ ≠ _))

instance : DecidablePred (sets size)
  | .write .. => inferInstanceAs (Decidable (_ ∧ _))
  | .flush _ => isFalse id

instance : DecidablePred (clears size)
  | .write .. => inferInstanceAs (Decidable (_ ∧ _ ∧ _))
  | .flush _ => isFalse id

instance : DecidablePred (isFlagWrite size)
  | .write .. => inferInstanceAs (Decidable (_ ∧ _))
  | .flush _ => isFalse id

instance : DecidablePred (ordinary size) := fun _ => inferInstanceAs (Decidable (_ ∧ _))

instance : DecidablePred succeeded
  | .write .. => inferInstanceAs (Decidable (_ = _))
  | .flush _ => inferInstanceAs (Decidable (_ = _))

instance (log : List Event) : Decidable ((mark size).Set start log) :=
  inferInstanceAs (Decidable (Since start (fun e => ¬ (e.landed ∧ clears size e))
    (fun e _ => e.landed ∧ sets size e) log))

instance (log : List Event) : Decidable ((mark size).Covered start log) :=
  inferInstanceAs (Decidable (Since start (fun e => ¬ (e.landed ∧ clears size e))
    (fun e older => e = .flush true ∧ (mark size).Set start older) log))

instance (log : List Event) : Decidable ((mark size).Settled (fun _ => False) log) :=
  inferInstanceAs (Decidable (Since False (fun _ => False) (fun e _ => e = .flush true) log))

instance (e : Event) (older : List Event) : Decidable (Obeys size start e older) :=
  inferInstanceAs
    (Decidable ((mark size).Obeys start (ordinary size) (clears size) (fun _ => False)
    e older))

instance (log : List Event) : Decidable (Pending size log) :=
  inferInstanceAs (Decidable (Since False (fun e => e ≠ .flush true)
    (fun e _ => succeeded e ∧ isFlagWrite size e ∧ sets size e) log))

instance (e : Event) (older : List Event) : Decidable (Lost size start e older) :=
  inferInstanceAs (Decidable (_ ∨ _))

instance (log : List Event) : Decidable (Spared size start log) :=
  inferInstanceAs (Decidable (Always (fun e older => ¬ Lost size start e older) log))

instance (img : Nat → UInt8) : Decidable (isSet img) := inferInstanceAs (Decidable (_ ≠ _))

end Decidable

section Device

variable {size : Nat} {start : Prop}

theorem isIn_blockAt {d : Device Stop} (h : d.blockSize = size) :
    isIn size (d.blockAt (volumeFlagsAt / size)) ↔ isSet d.bytes := by
  subst h
  rw [isIn, Device.blockAt_getD, isSet]

/-- What a run keeps of the device. -/
structure Logged (size : Nat) (start : Prop) (d : Device Stop) : Prop where
  blockSize : d.blockSize = size
  marked : isSet d.bytes → (mark size).Set start d.log
  settled : Always (fun e older => clears size e → (mark size).Settled (fun _ => False) older)
    d.log
  obeys : Spared size start d.log → Always (Obeys size start) d.log

/-- The mark is durable, if the run was spared. -/
def Durable (size : Nat) (start : Prop) (d : Device Stop) : Prop :=
  Spared size start d.log → (mark size).Covered start d.log

theorem Logged.script {d : Device Stop} (h : Logged size start d) (rest : List (Outcome Stop)) :
    Logged size start { d with script := rest } :=
  ⟨h.blockSize, h.marked, h.settled, h.obeys⟩

theorem Logged.flush {d : Device Stop} (h : Logged size start d) (done : Bool) :
    Logged size start { d with log := .flush done :: d.log } :=
  ⟨h.blockSize, fun hset => Mark.set_cons_of_not_lifts (h.marked hset) fun hl => hl.2,
    ⟨fun hc => (hc : False).elim, h.settled⟩,
    fun hs => ⟨⟨fun ho => (ho.1 : False).elim, fun hc => (hc : False).elim⟩, h.obeys hs.2⟩⟩

theorem Durable.flush {d : Device Stop} (h : Durable size start d) (done : Bool) :
    Durable size start { d with log := .flush done :: d.log } := fun hs =>
  Mark.covered_cons_of_not_lifts (h hs.2) fun hl => hl.2

theorem Logged.commit {d : Device Stop} (h : Logged size start d) {index : Nat}
    {after : List UInt8} {fate : Fate} (hlen : after.length = d.blockSize)
    (hsettled : clears size (.write index (d.blockAt index) after fate) →
      (mark size).Settled (fun _ => False) d.log)
    (hordinary : ordinary size (.write index (d.blockAt index) after fate) →
      Spared size start d.log → (mark size).Covered start d.log) :
    Logged size start (d.commit index after fate) := by
  refine ⟨h.blockSize, fun hset => ?_, ⟨hsettled, h.settled⟩, fun hs => ?_⟩
  · simp only [isSet, d.commit_bytes index fate hlen] at hset
    by_cases hhere : fate.stored = true ∧ volumeFlagsAt / d.blockSize = index
    · obtain ⟨hstored, rfl⟩ := hhere
      rw [if_pos ⟨hstored, rfl⟩, h.blockSize] at hset
      exact Mark.set_cons_of_puts ⟨hstored, by rw [h.blockSize], hset⟩
    · rw [if_neg hhere] at hset
      refine Mark.set_cons_of_not_lifts (h.marked hset) fun hl => hhere ⟨hl.1, ?_⟩
      rw [h.blockSize]
      exact hl.2.1.symm
  · exact ⟨⟨fun ho => hordinary ho hs.2, fun hc => hsettled hc⟩, h.obeys hs.2⟩

theorem not_clears_of_same {d : Device Stop} (hsize : d.blockSize = size) {index : Nat}
    {after : List UInt8} {fate : Fate}
    (hsame : volumeFlagsAt / size = index →
      after.getD (volumeFlagsAt % size) 0 = d.bytes volumeFlagsAt) :
    ¬ clears size (.write index (d.blockAt index) after fate) := by
  rintro ⟨rfl, hbefore, hafter⟩
  rw [isIn_blockAt hsize] at hbefore
  rw [isIn, hsame rfl] at hafter
  exact hafter hbefore

theorem Durable.commit {d : Device Stop} (h : Durable size start d) {index : Nat}
    {after : List UInt8} {fate : Fate}
    (hclear : ¬ clears size (.write index (d.blockAt index) after fate)) :
    Durable size start (d.commit index after fate) := fun hs =>
  Mark.covered_cons_of_not_lifts (h hs.2) fun hl => hclear hl.2

theorem frame_durable {lo hi : Nat} (havoid : volumeFlagsAt < lo ∨ hi ≤ volumeFlagsAt) :
    Device.Frame (fun d => Logged size start d ∧ Durable size start d) lo hi := by
  refine ⟨fun d rest h => ⟨h.1.script rest, h.2⟩, ?_⟩
  rintro d index after fate ⟨h, hdurable⟩ hlen hout
  have hclear : ¬ clears size (.write index (d.blockAt index) after fate) := by
    apply not_clears_of_same h.blockSize
    rintro rfl
    have hdiv := Nat.div_add_mod' volumeFlagsAt d.blockSize
    have hat := hout (volumeFlagsAt % d.blockSize) (Nat.mod_lt _ d.blockSize_pos)
      (by rw [← h.blockSize, hdiv]; exact havoid)
    rwa [← h.blockSize, hdiv, h.blockSize] at hat
  exact ⟨h.commit hlen (fun hc => absurd hc hclear) fun _ => hdurable, hdurable.commit hclear⟩

end Device

section Flags

variable {size : Nat} {start : Prop} {d : Device Stop} {flags : Nat}

def flagBlock (d : Device Stop) (flags : Nat) : List UInt8 :=
  d.patchedBlock volumeFlagsAt (u16Bytes flags) (volumeFlagsAt / d.blockSize)

theorem u8_and_mask (n : Nat) : u8 n &&& mask = 0 ↔ n.testBit 1 = false :=
  u8_and_two_pow_eq_zero n (k := 1) (by omega)

theorem flagBlock_getD {k : Nat} (hk : k < d.blockSize) :
    (flagBlock d flags).getD k 0 = patch d.bytes volumeFlagsAt (u16Bytes flags)
      (volumeFlagsAt / d.blockSize * d.blockSize + k) :=
  slice_getD _ _ _ hk

theorem isIn_flagBlock : isIn d.blockSize (flagBlock d flags) ↔ flags.testBit 1 = true := by
  have hat := patch_inside d.bytes volumeFlagsAt (u16Bytes flags) (i := 0) (by simp [u16Bytes])
  rw [isIn, flagBlock_getD (Nat.mod_lt _ d.blockSize_pos), Nat.div_add_mod']
  rw [Nat.add_zero] at hat
  rw [hat]
  change ¬ u8 flags &&& mask = 0 ↔ _
  rw [u8_and_mask, Bool.not_eq_false]

theorem flagBlock_isFlagWrite (fate : Fate) : isFlagWrite d.blockSize
    (.write (volumeFlagsAt / d.blockSize) (d.blockAt (volumeFlagsAt / d.blockSize))
      (flagBlock d flags) fate) := by
  refine ⟨rfl, fun k hk hne => ?_⟩
  rw [flagBlock_getD hk, Device.blockAt, slice_getD _ _ _ hk]
  rcases Nat.lt_or_gt_of_ne hne.1 with hlt | hgt
  · exact patch_of_lt _ _ _ hlt
  · refine patch_of_ge _ _ _ ?_
    have hlen : (u16Bytes flags).length = 2 := rfl
    omega

theorem isSet_flagBlock {fate : Fate} (hstored : fate.stored = true) :
    isSet (d.commit (volumeFlagsAt / d.blockSize) (flagBlock d flags) fate).bytes ↔
      flags.testBit 1 = true := by
  have hlen : (flagBlock d flags).length = d.blockSize := d.patchedBlock_length _ _ _
  rw [isSet, d.commit_bytes _ _ hlen, if_pos ⟨hstored, rfl⟩]
  exact isIn_flagBlock

theorem Logged.setFlag (h : Logged size start d) (hflags : flags.testBit 1 = true) (fate : Fate) :
    Logged size start (d.commit (volumeFlagsAt / d.blockSize) (flagBlock d flags) fate) := by
  have hsize := h.blockSize
  subst hsize
  refine h.commit (d.patchedBlock_length _ _ _) (fun hc => ?_) fun ho => ?_
  · exact absurd (isIn_flagBlock.mpr hflags) hc.2.2
  · exact absurd (flagBlock_isFlagWrite fate) ho.2

theorem pending_setFlag (hsize : d.blockSize = size) (hflags : flags.testBit 1 = true) :
    Pending size (d.commit (volumeFlagsAt / d.blockSize) (flagBlock d flags) .done).log := by
  subst hsize
  exact Or.inl ⟨rfl, flagBlock_isFlagWrite _, rfl, isIn_flagBlock.mpr hflags⟩

theorem Logged.clearFlag (h : Logged size start d)
    (hsettled : (mark size).Settled (fun _ => False) d.log) (fate : Fate) :
    Logged size start (d.commit (volumeFlagsAt / d.blockSize) (flagBlock d flags) fate) := by
  have hsize := h.blockSize
  subst hsize
  refine h.commit (d.patchedBlock_length _ _ _) (fun _ => hsettled) fun ho => ?_
  exact absurd (flagBlock_isFlagWrite fate) ho.2

/-- A failed write of the flag as clear leaves the mark in place, if the run is
spared. -/
theorem Durable.clearFlag_failed (h : Durable size start d) {index : Nat} {after : List UInt8}
    {landed : Bool} : Durable size start (d.commit index after (.failed landed)) := by
  intro hs
  refine Mark.covered_cons_of_not_lifts (h hs.2) fun hl => hs.1 (Or.inr ⟨hl.2, hl.1, ?_⟩)
  exact fun hf => nomatch hf

theorem durable_flush (hset : (mark size).Set start d.log) :
    Durable size start { d with log := .flush true :: d.log } := fun _ =>
  Mark.covered_cons_of_flushes hset rfl

/-- A failed flush of the flag written as set: the run is not spared, unless the
mark was durable before. -/
theorem durable_flush_failed (hpending : Pending size d.log) :
    Durable size start { d with log := .flush false :: d.log } := by
  intro hs
  have hcovered : (mark size).Covered start d.log := by
    by_contra hc
    exact hs.1 (Or.inl ⟨rfl, hpending, hc⟩)
  exact Mark.covered_cons_of_not_lifts hcovered fun hl => hl.2

end Flags

end VolumeFlag

end Hadris.Exfat
