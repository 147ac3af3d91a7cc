import Hadris.BlockDevice
import Hadris.Meta

namespace Hadris

open List

/-- One device block of buffering, and the device block it holds, if any.
`capacity` is the length of the storage behind it. -/
structure BlockBuf where
  cached : Option Nat
  data : List UInt8
  capacity : Nat

/-- A device and the buffer every primitive borrows with it. -/
structure Io where
  dev : Device Stop
  block : BlockBuf

namespace Io

open Prog (Lens zoom modify Triple Keeps)

def pastEnd : Stop :=
  .error (Error.new .invalidInput "block request past the end of the device")

def devLens : Lens Io (Device Stop) where
  get io := io.dev
  set d io := { io with dev := d }
  get_set _ _ := rfl

def onDev {α : Type} (x : Prog (Device Stop) Stop α) : Prog Io Stop α := zoom devLens x

def blockSize : Prog Io Stop Nat := Prog.gets fun io => io.dev.blockSize

def flush : Prog Io Stop Unit := onDev Device.flush

def setBlock (f : BlockBuf → BlockBuf) : Prog Io Stop Unit :=
  modify fun io => { io with block := f io.block }

def invalidate : Prog Io Stop Unit := setBlock fun b => { b with cached := none }

def contents : Prog Io Stop (List UInt8) := Prog.gets fun io => io.block.data

def contentsMut (f : List UInt8 → List UInt8) : Prog Io Stop Unit :=
  setBlock fun b => { b with cached := none, data := f b.data }

def load (index : Nat) : Prog Io Stop Unit := do
  let cached ← Prog.gets fun io => io.block.cached
  if cached = some index then pure ()
  else do
    invalidate
    let data ← onDev (Device.readBlocks pastEnd index 1)
    setBlock fun b => { b with cached := some index, data := data }

def store (index : Nat) : Prog Io Stop Unit := do
  invalidate
  let data ← contents
  onDev (Device.writeBlocks pastEnd index data)
  setBlock fun b => { b with cached := some index }

/-- Changes device block `index` through the buffer. Where the change fails the
buffer holds no device block. -/
def update {α : Type} (index : Nat) (f : List UInt8 → Option (List UInt8 × α)) :
    Prog Io Stop α := do
  load index
  let block ← contents
  match f block with
  | none => do
      invalidate
      Prog.fail (.ofKind .corrupt)
  | some (data, a) => do
      contentsMut fun _ => data
      store index
      pure a

def readLoop : Nat → Nat → Nat → Nat → Prog Io Stop (List UInt8)
  | 0, _, _, _ => pure []
  | fuel + 1, index, at_, remaining =>
    if remaining = 0 then pure []
    else do
      let size ← blockSize
      let blocks := if at_ = 0 then remaining / size else 0
      if 0 < blocks then do
        let chunk ← onDev (Device.readBlocks pastEnd index blocks)
        let rest ← readLoop fuel (index + blocks) at_ (remaining - blocks * size)
        pure (chunk ++ rest)
      else do
        load index
        let n := min (size - at_) remaining
        let data ← contents
        let rest ← readLoop fuel (index + 1) 0 (remaining - n)
        pure ((data.drop at_).take n ++ rest)

/-- Reads `len` bytes at byte `offset`. Whole blocks do not pass through the
buffer. -/
def readBytes (offset len : Nat) : Prog Io Stop (List UInt8) := do
  let size ← blockSize
  readLoop len (offset / size) (offset % size) len

/-- The whole blocks one call of `put` writes. Zeros come from the buffer's
storage, as many blocks at once as it holds. -/
def putBlocks (zeros : Bool) (size capacity at_ remaining : Nat) : Nat :=
  let blocks := if at_ = 0 then remaining / size else 0
  if 0 < blocks ∧ zeros then min blocks (capacity / size) else blocks

def putWhole (zeros : Bool) (index : Nat) (data : List UInt8) : Prog Io Stop Unit := do
  let size ← blockSize
  setBlock fun b =>
    if zeros then { b with cached := none, data := replicate size 0 }
    else if b.cached.any fun c => index ≤ c && c - index < data.length / size then
      { b with cached := none }
    else b
  onDev (Device.writeBlocks pastEnd index data)

def putPart (index at_ : Nat) (data : List UInt8) : Prog Io Stop Unit := do
  load index
  contentsMut fun old => old.take at_ ++ data ++ old.drop (at_ + data.length)
  store index

def putLoop (zeros : Bool) : Nat → Nat → Nat → List UInt8 → Prog Io Stop Unit
  | 0, _, _, _ => pure ()
  | fuel + 1, index, at_, data =>
    if data.length = 0 then pure ()
    else do
      let size ← blockSize
      let capacity ← Prog.gets fun io => io.block.capacity
      let blocks := putBlocks zeros size capacity at_ data.length
      if 0 < blocks then do
        putWhole zeros index (data.take (blocks * size))
        putLoop zeros fuel (index + blocks) at_ (data.drop (blocks * size))
      else do
        let n := min (size - at_) data.length
        putPart index at_ (data.take n)
        putLoop zeros fuel (index + 1) 0 (data.drop n)

def put (zeros : Bool) (offset : Nat) (data : List UInt8) : Prog Io Stop Unit := do
  let size ← blockSize
  putLoop zeros data.length (offset / size) (offset % size) data

/-- Writes `data` at byte `offset`. Whole blocks go straight to the device;
partial blocks are read, patched and written through the buffer. -/
def writeBytes (offset : Nat) (data : List UInt8) : Prog Io Stop Unit := put false offset data

def writeZeros (offset len : Nat) : Prog Io Stop Unit := put true offset (replicate len 0)

def sample (blockCount : Nat) (bytes : Nat → UInt8) (script : List (Outcome Stop)) : Io where
  dev := {
    blockSize := 512
    blockSize_pos := by omega
    blockCount := blockCount
    bytes := bytes
    script := script
    log := [] }
  block := ⟨none, replicate 512 0, 512⟩

theorem putBlocks_pos {zeros : Bool} {size capacity at_ remaining : Nat}
    (h : 0 < putBlocks zeros size capacity at_ remaining) :
    at_ = 0 ∧ putBlocks zeros size capacity at_ remaining * size ≤ remaining := by
  have hat : at_ = 0 := by
    by_contra hne
    simp [putBlocks, hne] at h
  have hdiv : remaining / size * size ≤ remaining := Nat.div_mul_le_self _ _
  have hmin : putBlocks zeros size capacity at_ remaining ≤ remaining / size := by
    simp only [putBlocks, if_pos hat]
    split
    · exact Nat.min_le_left _ _
    · exact Nat.le_refl _
  exact ⟨hat, (Nat.mul_le_mul_right _ hmin).trans hdiv⟩

/-- What the buffer says it holds is what the device holds. -/
structure Coherent (io : Io) : Prop where
  length : io.block.data.length = io.dev.blockSize
  cached : ∀ index, io.block.cached = some index → io.block.data = io.dev.blockAt index

section Keeps

variable {I : Device Stop → Prop} {bs lo hi : Nat}

/-- The buffer is coherent and the device satisfies `I`. -/
def Sound (I : Device Stop → Prop) (io : Io) : Prop := Coherent io ∧ I io.dev

theorem load_sound (hscript : ∀ d rest, I d → I { d with script := rest }) (index : Nat) :
    Triple (Sound I) (load index)
      (fun _ io => Sound I io ∧ io.block.cached = some index) (fun _ => Sound I) := by
  intro io h
  by_cases hc : io.block.cached = some index
  · have hrun : (load index).run io = (.ok (), io) := by
      simp [load, Prog.run_bind, hc]
    rw [hrun]
    exact ⟨h, hc⟩
  · obtain ⟨rest, hd, hdata⟩ := Device.readBlocks_cases pastEnd index 1 io.dev
    rcases hread : (Device.readBlocks pastEnd index 1).run io.dev with ⟨e | data, d⟩
    · have hrun : (load index).run io =
          (.error e, { dev := d, block := { io.block with cached := none } }) := by
        simp [load, Prog.run_bind, hc, invalidate, setBlock, onDev, devLens, hread]
      rw [hread] at hd
      rw [hrun]
      simp only at hd
      subst hd
      exact ⟨⟨h.1.length, fun _ hc => by cases hc⟩, hscript _ _ h.2⟩
    · have hrun : (load index).run io =
          (.ok (),
            { dev := d, block := { io.block with cached := some index, data := data } }) := by
        simp [load, Prog.run_bind, hc, invalidate, setBlock, onDev, devLens, hread]
      rw [hread] at hd hdata
      rw [hrun]
      have hslice := hdata data rfl
      simp only at hd
      subst hd hslice
      refine ⟨⟨⟨by simp, ?_⟩, hscript _ _ h.2⟩, rfl⟩
      intro i hi
      cases hi
      simp [Device.blockAt]

theorem flush_sound {J K : Device Stop → Prop}
    (hscript : ∀ d rest, I d → I { d with script := rest })
    (hfailed : ∀ d, I d → J { d with log := .flush false :: d.log })
    (hdone : ∀ d, I d → K { d with log := .flush true :: d.log }) :
    Triple (Sound I) flush (fun _ => Sound K) (fun _ => Sound J) := by
  intro io h
  have hcoherent (d : Device Stop) (hsize : d.blockSize = io.dev.blockSize)
      (hbytes : d.bytes = io.dev.bytes) : Coherent { io with dev := d } := by
    refine ⟨h.1.length.trans hsize.symm, fun i hi => ?_⟩
    change io.block.data = slice d.bytes (i * d.blockSize) d.blockSize
    rw [h.1.cached i hi, hsize, hbytes]
    rfl
  obtain ⟨rest, hrun | ⟨e, hrun⟩⟩ := Device.flush_cases io.dev <;>
    simp only [flush, onDev, devLens, Prog.run_zoom, hrun]
  · exact ⟨hcoherent _ rfl rfl, hdone _ (hscript _ rest h.2)⟩
  · exact ⟨hcoherent _ rfl rfl, hfailed _ (hscript _ rest h.2)⟩

theorem keeps_flush (hscript : ∀ d rest, I d → I { d with script := rest })
    (hflush : ∀ d done, I d → I { d with log := .flush done :: d.log }) :
    Keeps (Sound I) flush :=
  Prog.keeps_iff_triple.mpr
    (flush_sound hscript (fun d h => hflush d false h) fun d h => hflush d true h)

theorem slice_part (img : Nat → UInt8) (index remaining : Nat) {at_ size : Nat}
    (hat : at_ ≤ size) :
    ((slice img (index * size) size).drop at_).take (min (size - at_) remaining) ++
        slice img ((index + 1) * size + 0) (remaining - min (size - at_) remaining) =
      slice img (index * size + at_) remaining := by
  have hwhole : size = at_ + (size - at_) := by omega
  have hdrop := drop_slice img (index * size) at_ (size - at_)
  rw [← hwhole] at hdrop
  rw [hdrop, take_slice _ _ _ (Nat.min_le_left _ _)]
  by_cases hshort : remaining ≤ size - at_
  · rw [Nat.min_eq_right hshort, Nat.sub_self, slice_zero, append_nil]
  · have hsplit : remaining = (size - at_) + (remaining - (size - at_)) := by omega
    conv_rhs => rw [hsplit, slice_append]
    rw [Nat.min_eq_left (by omega), Nat.succ_mul]
    congr 2
    omega

theorem readLoop_sound (bs : Nat) {img : Nat → UInt8}
    (hscript : ∀ d rest, I d → I { d with script := rest })
    (himg : ∀ d, I d → d.bytes = img ∧ d.blockSize = bs) (fuel index at_ remaining : Nat)
    (hfuel : remaining ≤ fuel) (hat : at_ < bs) :
    Triple (Sound I) (readLoop fuel index at_ remaining)
      (fun data io => data = slice img (index * bs + at_) remaining ∧ Sound I io)
      (fun _ => Sound I) := by
  induction fuel generalizing index at_ remaining with
  | zero =>
    obtain rfl := Nat.le_zero.mp hfuel
    exact Triple.pure fun io h => ⟨rfl, h⟩
  | succ fuel ih =>
    unfold readLoop
    refine Triple.ite (fun hzero => Triple.pure fun io h => ⟨by rw [hzero]; rfl, h⟩)
      fun hpos => ?_
    refine Triple.bind (Triple.gets (Q := fun size io => size = bs ∧ Sound I io)
      fun io h => ⟨(himg _ h.2).2, h⟩) fun size => Triple.assume ?_
    rintro rfl
    have hdiv : remaining / size * size ≤ remaining := Nat.div_mul_le_self _ _
    refine Triple.ite (fun hblocks => ?_) fun _ => ?_
    · have hzero : at_ = 0 := by
        by_contra hne
        simp [hne] at hblocks
      subst hzero
      rw [if_pos rfl] at hblocks ⊢
      refine Triple.bind (Q := fun chunk io =>
        chunk = slice img (index * size) (remaining / size * size) ∧ Sound I io) ?_
        fun chunk => Triple.assume ?_
      · intro io h
        obtain ⟨rest, hd, hdata⟩ := Device.readBlocks_cases pastEnd index
          (remaining / size) io.dev
        obtain ⟨hbytes, hsize⟩ := himg _ h.2
        have hsound : Sound I { io with dev := { io.dev with script := rest } } :=
          ⟨⟨h.1.length, fun i hi => h.1.cached i hi⟩, hscript _ _ h.2⟩
        rcases hrun : (Device.readBlocks pastEnd index (remaining / size)).run io.dev with
          ⟨e | data, d⟩ <;> rw [hrun] at hd hdata <;> simp only at hd <;> subst hd <;>
          simp only [onDev, Prog.run_zoom, devLens, hrun]
        · exact hsound
        · refine ⟨?_, hsound⟩
          rw [hdata data rfl, hbytes, hsize]
      · rintro rfl
        have hone : 1 * size ≤ remaining / size * size := Nat.mul_le_mul_right _ hblocks
        refine Triple.bind (ih _ _ _ (by omega) hat) fun rest => Triple.assume ?_
        rintro rfl
        refine Triple.pure fun io h => ⟨?_, h⟩
        have hsplit : remaining = remaining / size * size +
            (remaining - remaining / size * size) := by
          omega
        conv_rhs => rw [hsplit, slice_append]
        rw [Nat.add_mul]
        rfl
    · refine Triple.bind (load_sound hscript index) fun _ => ?_
      refine Triple.bind (Triple.gets (Q := fun data io =>
        data = slice img (index * size) size ∧ Sound I io) fun io h => ⟨?_, h.1⟩) fun data =>
        Triple.assume ?_
      · obtain ⟨hbytes, hsize⟩ := himg _ h.1.2
        rw [h.1.1.cached index h.2, Device.blockAt, hbytes, hsize]
      · rintro rfl
        refine Triple.bind (ih _ _ _ (by omega) (by omega)) fun rest =>
          Triple.assume fun hrest => Triple.pure fun io h => ⟨?_, h⟩
        rw [hrest, slice_part img index _ (by omega)]

theorem readBytes_sound {img : Nat → UInt8}
    (hscript : ∀ d rest, I d → I { d with script := rest })
    (himg : ∀ d, I d → d.bytes = img) (offset len : Nat) :
    Triple (Sound I) (readBytes offset len)
      (fun data io => data = slice img offset len ∧ Sound I io) (fun _ => Sound I) := by
  refine Triple.of_forall fun io h => ?_
  refine Triple.bind (Triple.gets (Q := fun size io' => size = io.dev.blockSize ∧ io' = io)
    fun io' heq => ⟨by rw [heq], heq⟩) fun size => Triple.assume ?_
  rintro rfl
  have hloop := readLoop_sound (I := fun d => I d ∧ d.blockSize = io.dev.blockSize)
    io.dev.blockSize (fun d rest hd => ⟨hscript d rest hd.1, hd.2⟩)
    (fun d hd => ⟨himg d hd.1, hd.2⟩) len (offset / io.dev.blockSize)
      (offset % io.dev.blockSize) len
    (Nat.le_refl _) (Nat.mod_lt _ io.dev.blockSize_pos)
  rw [Nat.div_add_mod'] at hloop
  refine hloop.conseq (fun io' heq => ?_) (fun data io' h' => ⟨h'.1, h'.2.1, h'.2.2.1⟩)
    fun _ io' h' => ⟨h'.1, h'.2.1⟩
  rw [heq]
  exact ⟨h.1, h.2, rfl⟩

theorem keeps_readBytes (hscript : ∀ d rest, I d → I { d with script := rest })
    (offset len : Nat) : Keeps (Sound I) (readBytes offset len) := by
  intro io h
  have hread := readBytes_sound (I := fun d => I d ∧ d.bytes = io.dev.bytes)
    (fun d rest hd => ⟨hscript d rest hd.1, hd.2⟩) (fun d hd => hd.2) offset len
  have hstate : Triple _ (readBytes offset len) (fun _ => Sound I) (fun _ => Sound I) :=
    hread.weaken (fun _ _ h' => ⟨h'.2.1, h'.2.2.1⟩) fun _ _ h' => ⟨h'.1, h'.2.1⟩
  exact hstate.state_of ⟨h.1, h.2, rfl⟩

/-- The buffer differs from device block `index` only inside `lo..hi`. -/
structure Patched (I : Device Stop → Prop) (index lo hi : Nat) (io : Io) : Prop where
  length : io.block.data.length = io.dev.blockSize
  dev : I io.dev
  outside : ∀ k < io.dev.blockSize, index * io.dev.blockSize + k < lo ∨
    hi ≤ index * io.dev.blockSize + k →
    io.block.data.getD k 0 = io.dev.bytes (index * io.dev.blockSize + k)

theorem store_sound (hI : Device.Frame I lo hi) (index : Nat) :
    Triple (Patched I index lo hi) (store index) (fun _ => Sound I) (fun _ => Sound I) := by
  refine Triple.of_state fun io h => ?_
  have hkeep : I ((Device.writeBlocks pastEnd index io.block.data).run io.dev).2 := by
    apply Device.keeps_writeBlocks pastEnd index io.block.data hI h.dev
    rw [h.length]
    exact h.outside
  have hone : io.block.data.length = 1 * io.dev.blockSize := by rw [h.length, Nat.one_mul]
  have hbytes (hok : ((Device.writeBlocks pastEnd index io.block.data).run io.dev).1 = .ok ()) :=
    Device.writeBlocks_ok pastEnd hone hok
  have hbs := Device.writeBlocks_blockSize pastEnd index io.block.data io.dev
  rcases hw : (Device.writeBlocks pastEnd index io.block.data).run io.dev with ⟨e | ⟨⟩, d⟩
  all_goals
    rw [hw] at hkeep hbytes hbs
    simp only at hkeep hbytes hbs
    simp only [store, invalidate, Prog.run_bind, contents, onDev, devLens, Prog.run_zoom, hw,
      setBlock, Prog.run_modify, Prog.run_gets]
  · exact ⟨⟨hbs ▸ h.length, fun i hi => by cases hi⟩, hkeep⟩
  · refine ⟨⟨hbs ▸ h.length, ?_⟩, hkeep⟩
    intro i hi
    cases hi
    change io.block.data = slice d.bytes (index * d.blockSize) d.blockSize
    rw [hbytes trivial, hbs]
    exact (h.length ▸ slice_patch io.dev.bytes (index * io.dev.blockSize) io.block.data).symm

/-- What a write of the buffer to the device leads to, given what one block
write leads to. -/
theorem store_commit {I J K : Device Stop → Prop} {index : Nat} {data : List UInt8}
    (hscript : ∀ d rest, I d → I { d with script := rest })
    (hrange : ∀ d, I d → J d) (hfailed : ∀ d landed, I d →
      J (d.commit index data (.failed landed)))
    (hdone : ∀ d, I d → K (d.commit index data .done)) :
    Triple (fun io => io.block.data = data ∧ data.length = io.dev.blockSize ∧ I io.dev)
      (store index) (fun _ => Sound K) (fun _ => Sound J) := by
  rintro io ⟨rfl, hlen, h⟩
  have hrun : (store index).run io =
      match (Device.writeBlocks pastEnd index io.block.data).run io.dev with
      | (.ok _, d) => (.ok (), { dev := d, block := { io.block with cached := some index } })
      | (.error e, d) => (.error e, { dev := d, block := { io.block with cached := none } }) := by
    simp only [store, invalidate, Prog.run_bind, contents, onDev, devLens, Prog.run_zoom,
      setBlock, Prog.run_modify, Prog.run_gets]
    rcases (Device.writeBlocks pastEnd index io.block.data).run io.dev with ⟨e | ⟨⟩, d⟩ <;> rfl
  rw [hrun]
  rcases Device.writeBlock_cases pastEnd index hlen with hw | ⟨rest, hw⟩ | ⟨rest, e, landed, hw⟩
  · rw [hw]
    exact ⟨⟨hlen, fun i hi => by cases hi⟩, hrange _ h⟩
  · rw [hw]
    refine ⟨⟨hlen, fun i hi => ?_⟩, hdone _ (hscript _ _ h)⟩
    cases hi
    change io.block.data = slice (patch io.dev.bytes (index * io.dev.blockSize) io.block.data)
      (index * io.dev.blockSize) io.dev.blockSize
    rw [← hlen, slice_patch]
  · rw [hw]
    exact ⟨⟨hlen, fun i hi => by cases hi⟩, hfailed _ _ (hscript _ _ h)⟩

theorem keeps_update {α : Type} (hI : Device.Frame I lo hi) (hsize : ∀ d, I d → d.blockSize = bs)
    {index : Nat} {f : List UInt8 → Option (List UInt8 × α)}
    (hf : ∀ block data a, block.length = bs → f block = some (data, a) → data.length = bs ∧
      ∀ k < bs, index * bs + k < lo ∨ hi ≤ index * bs + k → data.getD k 0 = block.getD k 0) :
    Keeps (Sound I) (update index f) := by
  refine Prog.keeps_iff_triple.mpr (Triple.bind (load_sound hI.script index) fun _ => ?_)
  refine Triple.of_forall fun io ⟨h, hc⟩ => ?_
  refine Triple.bind (Triple.gets (Q := fun block io' => block = io.block.data ∧ io' = io)
    fun io' heq => ⟨by rw [heq], heq⟩) fun block => Triple.assume ?_
  rintro rfl
  split
  · refine Triple.bind (Q := fun _ => Sound I) (Triple.modify fun io' heq => ?_) fun _ =>
      Triple.fail fun _ hs => hs
    rw [heq]
    exact ⟨⟨h.1.length, fun _ hc => (nomatch hc)⟩, h.2⟩
  · rename_i data a hdata
    obtain ⟨hlen, hsame⟩ := hf _ _ _ (h.1.length.trans (hsize _ h.2)) hdata
    refine Triple.bind (Triple.modify (Q := fun _ => Patched I index lo hi)
      fun io' heq => ?_) fun _ => Triple.bind (store_sound hI _) fun _ =>
        Triple.pure fun _ hs => hs
    rw [heq]
    refine ⟨hlen.trans (hsize _ h.2).symm, h.2, fun k hk hout => ?_⟩
    simp only at hk hout ⊢
    rw [hsize _ h.2] at hout
    rw [hsame k (hsize _ h.2 ▸ hk) hout, h.1.cached _ hc]
    exact slice_getD _ _ _ hk

theorem getD_patched {old data : List UInt8} {at_ k : Nat}
    (hat : at_ + data.length ≤ old.length) (hk : k < at_ ∨ at_ + data.length ≤ k) :
    (old.take at_ ++ data ++ old.drop (at_ + data.length)).getD k 0 = old.getD k 0 := by
  have htake : (old.take at_).length = at_ := by
    rw [length_take]
    omega
  rcases hk with hk | hk
  · rw [append_assoc, getD_append _ _ _ _ (by omega)]
    simp only [getD_eq_getElem?_getD, getElem?_take, if_pos hk]
  · rw [getD_append_right _ _ _ _ (by rw [length_append]; omega)]
    simp only [getD_eq_getElem?_getD, getElem?_drop, length_append, htake]
    congr 2
    omega

theorem length_patched {old data : List UInt8} {at_ : Nat}
    (hat : at_ + data.length ≤ old.length) :
    (old.take at_ ++ data ++ old.drop (at_ + data.length)).length = old.length := by
  simp only [length_append, length_take, length_drop]
  omega

theorem keeps_putPart (hI : Device.Frame I lo hi) (index at_ : Nat) (data : List UInt8)
    (hsize : ∀ d, I d → d.blockSize = bs) (hat : at_ + data.length ≤ bs)
    (hlo : lo ≤ index * bs + at_) (hhi : index * bs + at_ + data.length ≤ hi) :
    Keeps (Sound I) (putPart index at_ data) := by
  refine Prog.keeps_iff_triple.mpr (Triple.bind (load_sound hI.script index) fun _ => ?_)
  refine Triple.bind (Triple.modify (Q := fun _ => Patched I index lo hi) ?_)
    fun _ => store_sound hI index
  rintro io ⟨h, hc⟩
  have hbs : io.dev.blockSize = bs := hsize _ h.2
  have hlen : at_ + data.length ≤ io.block.data.length := by
    rw [h.1.length, hbs]
    exact hat
  refine ⟨by rw [length_patched hlen, h.1.length], h.2, ?_⟩
  intro k hk hout
  have hk' : k < at_ ∨ at_ + data.length ≤ k := by
    simp only [hbs] at hout
    omega
  rw [getD_patched hlen hk', h.1.cached index hc]
  exact slice_getD _ _ _ hk

theorem putWhole_sound (hI : Device.Frame I lo hi) (zeros : Bool) (index n : Nat)
    (data : List UInt8) (hsize : ∀ d, I d → d.blockSize = bs) (hn : data.length = n * bs)
    (hlo : lo ≤ index * bs) (hhi : index * bs + data.length ≤ hi) :
    Keeps (Sound I) (putWhole zeros index data) := by
  intro io h
  have hbs : io.dev.blockSize = bs := hsize _ h.2
  subst hbs
  have hkeep : I ((Device.writeBlocks pastEnd index data).run io.dev).2 :=
    Device.keeps_writeBlocks pastEnd index data hI h.2 fun k hk hout => by omega
  have hsize' := Device.writeBlocks_blockSize pastEnd index data io.dev
  have hbytes := fun a => Device.writeBlocks_outside pastEnd index data io.dev (a := a)
  have hdiv : data.length / io.dev.blockSize = n := by
    rw [hn, Nat.mul_div_cancel _ io.dev.blockSize_pos]
  have hsame (c : Nat) (hc : c < index ∨ index + n ≤ c) :
      ((Device.writeBlocks pastEnd index data).run io.dev).2.blockAt c = io.dev.blockAt c := by
    simp only [Device.blockAt, hsize']
    apply slice_congr
    intro i hi
    apply hbytes
    rcases hc with hc | hc
    · have := Nat.mul_le_mul_right io.dev.blockSize (Nat.succ_le_of_lt hc)
      rw [Nat.succ_mul] at this
      omega
    · have := Nat.mul_le_mul_right io.dev.blockSize hc
      rw [Nat.add_mul] at this
      omega
  simp only [putWhole, Prog.run_bind, blockSize, Prog.run_gets, setBlock, Prog.run_modify, onDev,
    Prog.run_zoom, devLens, hdiv]
  rcases hw : (Device.writeBlocks pastEnd index data).run io.dev with ⟨r, d⟩
  rw [hw] at hkeep hsize' hsame
  simp only at hkeep hsize' hsame
  cases zeros with
  | true => exact ⟨⟨by simp [hsize'], fun _ hc => by cases hc⟩, hkeep⟩
  | false =>
    simp only [Bool.false_eq_true, if_false]
    split
    · exact ⟨⟨by rw [hsize']; exact h.1.length, fun _ hc => by cases hc⟩, hkeep⟩
    · rename_i hany
      refine ⟨⟨by rw [hsize']; exact h.1.length, fun c hc => ?_⟩, hkeep⟩
      simp only at hc
      simp only [hc, Option.any_some, Bool.and_eq_true, decide_eq_true_eq, not_and] at hany
      rw [h.1.cached c hc, hsame c (by omega)]

theorem keeps_putLoop (hI : Device.Frame I lo hi) (hsize : ∀ d, I d → d.blockSize = bs)
    (zeros : Bool) (fuel index at_ : Nat) (data : List UInt8) (hat : at_ < bs)
    (hlo : lo ≤ index * bs + at_) (hhi : index * bs + at_ + data.length ≤ hi) :
    Keeps (Sound I) (putLoop zeros fuel index at_ data) := by
  induction fuel generalizing index at_ data with
  | zero => exact Keeps.pure _
  | succ fuel ih =>
    unfold putLoop
    refine Keeps.ite (Keeps.pure _) ?_
    refine Prog.keeps_iff_triple.mpr (Triple.bind
      (Triple.gets (Q := fun size io => Sound I io ∧ size = bs)
        fun io h => ⟨h, hsize _ h.2⟩) fun size => ?_)
    refine Triple.bind (Triple.gets (Q := fun _ io => Sound I io ∧ size = bs)
      fun io h => h) fun capacity => ?_
    rintro io ⟨h, rfl⟩
    revert h
    generalize hblocks : putBlocks zeros size capacity at_ data.length = blocks
    refine Prog.keeps_iff_triple.mp (Keeps.ite' (fun hpos => ?_) fun hzero => ?_) io
    · obtain ⟨rfl, hle⟩ := putBlocks_pos (hblocks ▸ hpos)
      rw [hblocks] at hle
      have hlen : (data.take (blocks * size)).length = blocks * size := by
        rw [length_take]
        omega
      refine Keeps.bind (putWhole_sound hI zeros index blocks _ hsize hlen (by omega)
        (by omega)) fun _ => ih _ _ _ hat ?_ ?_
      · rw [Nat.add_mul]
        omega
      · rw [Nat.add_mul, length_drop]
        omega
    · have hlen : (data.take (min (size - at_) data.length)).length =
          min (size - at_) data.length := by
        rw [length_take]
        omega
      refine Keeps.bind (keeps_putPart hI index at_ _ hsize (by omega) hlo (by omega))
        fun _ => ?_
      by_cases hrest : data.length ≤ size - at_
      · rw [drop_eq_nil_of_le (by omega)]
        cases fuel with
        | zero => exact Keeps.pure _
        | succ _ =>
          unfold putLoop
          exact Keeps.pure _
      · refine ih _ _ _ (by omega) ?_ ?_
        · rw [Nat.succ_mul]
          omega
        · rw [Nat.succ_mul, length_drop]
          omega

theorem keeps_put (hI : Device.Frame I lo hi) (hsize : ∀ d, I d → d.blockSize = bs)
    (zeros : Bool) (offset : Nat) (data : List UInt8) (hlo : lo ≤ offset)
    (hhi : offset + data.length ≤ hi) : Keeps (Sound I) (put zeros offset data) := by
  refine Prog.keeps_iff_triple.mpr (Triple.bind
    (Triple.gets (Q := fun size io => (0 < size ∧ size = bs) ∧ Sound I io)
      fun io h => ⟨⟨io.dev.blockSize_pos, hsize _ h.2⟩, h⟩) fun size => ?_)
  refine Triple.assume fun hbs => ?_
  obtain ⟨hpos, rfl⟩ := hbs
  have hdiv : offset / size * size + offset % size = offset := Nat.div_add_mod' _ _
  exact Prog.keeps_iff_triple.mp (keeps_putLoop hI hsize zeros _ _ _ _ (Nat.mod_lt _ hpos)
    (by omega) (by omega))

section Stores

variable {offset : Nat} {data : List UInt8} {P F : Nat → Device Stop → Prop}

theorem frame_blockSize (bs lo hi : Nat) :
    Device.Frame (fun d : Device Stop => d.blockSize = bs) lo hi :=
  ⟨fun _ _ h => h, fun _ _ _ _ h _ _ => h⟩

theorem putWhole_stores (h : Device.Stores bs offset data P F) (zeros : Bool) {index n m : Nat}
    (hindex : index * bs = offset + n) (hfit : n + m * bs ≤ data.length) (hn : n < data.length) :
    Triple (Sound (P n)) (putWhole zeros index ((data.drop n).take (m * bs)))
      (fun _ => Sound (P (n + m * bs))) (fun _ => Sound fun d => ∃ n, F n d) := by
  have hlen : ((data.drop n).take (m * bs)).length = m * bs := by
    rw [length_take, length_drop]
    omega
  have hcoherent := putWhole_sound (frame_blockSize bs (index * bs) (index * bs + m * bs)) zeros
    index m ((data.drop n).take (m * bs)) (fun _ hd => hd) hlen (Nat.le_refl _)
    (by rw [hlen])
  have hdev : Triple (fun io => P n io.dev)
      (putWhole zeros index ((data.drop n).take (m * bs))) (fun _ io => P (n + m * bs) io.dev)
      (fun _ io => ∃ n, F n io.dev) := by
    intro io hio
    have hw := h.writeBlocks pastEnd hindex hfit hn io.dev hio
    simp only [putWhole, Prog.run_bind, blockSize, Prog.run_gets, setBlock,
      Prog.run_modify, onDev, Prog.run_zoom, devLens]
    rcases hrun : (Device.writeBlocks pastEnd index ((data.drop n).take (m * bs))).run io.dev with
      ⟨e | ⟨⟩, d⟩ <;> rw [hrun] at hw <;> exact hw
  refine (hdev.frame hcoherent).conseq (fun io hio => ⟨hio.2, hio.1, ?_⟩)
    (fun _ io hio => ⟨hio.2.1, hio.1⟩) fun _ io hio => ⟨hio.2.1, hio.1⟩
  exact h.blockSize _ _ hio.2

/-- The block that holds byte `n` of the data, with the part of the data that
lies in it. -/
theorem patched_block (data : List UInt8) {d : Device Stop} {n at_ index : Nat}
    (hpos : index * d.blockSize + at_ = offset + n)
    (hat : at_ < d.blockSize) (hstart : n = 0 ∨ at_ = 0) (hn : n < data.length) :
    let part := (data.drop n).take (min (d.blockSize - at_) (data.length - n))
    (d.blockAt index).take at_ ++ part ++ (d.blockAt index).drop (at_ + part.length) =
      d.patchedBlock offset data index := by
  intro part
  have hpart : part.length = min (d.blockSize - at_) (data.length - n) := by
    simp only [part, length_take, length_drop]
    omega
  have hlen : at_ + part.length ≤ (d.blockAt index).length := by
    rw [Device.blockAt_length]
    omega
  apply ext_getElem (by rw [length_patched hlen, Device.blockAt_length,
    Device.patchedBlock_length])
  intro k hk hk'
  rw [length_patched hlen, Device.blockAt_length] at hk
  rw [← getD_eq_getElem _ 0, ← getD_eq_getElem _ 0, Device.patchedBlock,
    slice_getD _ _ _ hk]
  by_cases hin : at_ ≤ k ∧ k < at_ + part.length
  · obtain ⟨j, rfl⟩ := Nat.exists_eq_add_of_le hin.1
    have hold : ((d.blockAt index).take at_).length = at_ := by
      rw [length_take, Device.blockAt_length]
      omega
    rw [append_assoc, getD_append_right _ _ _ _ (by omega), hold, Nat.add_sub_cancel_left,
      getD_append _ _ _ _ (by omega), ← Nat.add_assoc, hpos, Nat.add_assoc,
      patch_inside _ _ _ (by omega), getD_eq_getElem _ _ (by omega),
      getD_eq_getElem _ _ (by omega)]
    simp only [part, getElem_take, getElem_drop]
  · rw [getD_patched hlen (by omega), Device.blockAt, slice_getD _ _ _ hk]
    rcases Nat.lt_or_ge k at_ with hlt | hge
    · exact (patch_of_lt _ _ _ (by omega)).symm
    · exact (patch_of_ge _ _ _ (by omega)).symm

theorem putPart_stores (h : Device.Stores bs offset data P F) {index at_ n : Nat}
    (hpos : index * bs + at_ = offset + n) (hat : at_ < bs) (hstart : n = 0 ∨ at_ = 0)
    (hn : n < data.length) :
    Triple (Sound (P n))
      (putPart index at_ ((data.drop n).take (min (bs - at_) (data.length - n))))
      (fun _ => Sound (P (n + min (bs - at_) (data.length - n))))
        (fun _ => Sound fun d => ∃ n, F n d) := by
  refine Triple.bind ((load_sound (h.script n) index).weaken (fun _ _ hs => hs)
    fun _ io hs => ⟨hs.1, n, h.pending _ _ hn hs.2⟩) fun _ => ?_
  rintro io ⟨hio, hc⟩
  obtain rfl : io.dev.blockSize = bs := h.blockSize _ _ hio.2
  have hdata := hio.1.cached _ hc
  have hblock := patched_block data hpos hat hstart hn
  refine Triple.bind (P := fun io' => io' = io) (Triple.modify (Q := fun _ io' =>
    io'.block.data = io.dev.patchedBlock offset data index ∧
      (io.dev.patchedBlock offset data index).length = io'.dev.blockSize ∧
      (P n io'.dev ∧ io'.dev.blockSize = io.dev.blockSize ∧ io'.dev.bytes = io.dev.bytes)) ?_)
    (fun _ => ?_) io rfl
  · intro io' heq
    rw [heq]
    refine ⟨?_, io.dev.patchedBlock_length _ _ _, hio.2, rfl, rfl⟩
    change io.block.data.take at_ ++ _ ++ io.block.data.drop _ = _
    rw [hdata]
    exact hblock
  · have hsame (d : Device Stop) (hbs : d.blockSize = io.dev.blockSize)
        (hb : d.bytes = io.dev.bytes) :
        d.patchedBlock offset data index = io.dev.patchedBlock offset data index := by
      rw [Device.patchedBlock, Device.patchedBlock, hbs, hb]
    have hdiv : (offset + n) / io.dev.blockSize = index := by
      rw [← hpos, Nat.add_comm, Nat.add_mul_div_right _ _ io.dev.blockSize_pos,
        Nat.div_eq_of_lt hat, Nat.zero_add]
    refine Io.store_commit (I := fun d => P n d ∧ d.blockSize = io.dev.blockSize ∧
      d.bytes = io.dev.bytes) (fun d rest hd => ⟨h.script _ _ _ hd.1, hd.2⟩)
      (fun d hd => ⟨n, h.pending _ _ hn hd.1⟩) ?_ ?_
    · rintro d landed ⟨hP, hbs, hb⟩
      have hfailed := h.failed n d landed hn (h.pending _ _ hn hP)
      rw [hdiv, hsame d hbs hb] at hfailed
      exact ⟨_, hfailed⟩
    · rintro d ⟨hP, hbs, hb⟩
      have hdone := h.done n d hn hP
      have hnext : Device.storedTo io.dev.blockSize offset data n =
          n + min (io.dev.blockSize - at_) (data.length - n) := by
        rw [Device.storedTo, hdiv, Nat.succ_mul]
        omega
      rw [hdiv, hnext, hsame d hbs hb] at hdone
      exact hdone

theorem putLoop_stores (h : Device.Stores bs offset data P F) (zeros : Bool)
    (fuel index at_ n : Nat) (hfuel : data.length - n ≤ fuel) (hle : n ≤ data.length)
    (hpos : n < data.length → index * bs + at_ = offset + n) (hat : at_ < bs)
    (hstart : n = 0 ∨ at_ = 0) :
    Triple (Sound (P n)) (putLoop zeros fuel index at_ (data.drop n))
      (fun _ => Sound (P data.length)) (fun _ => Sound fun d => ∃ n, F n d) := by
  induction fuel generalizing index at_ n with
  | zero =>
    obtain rfl : n = data.length := by omega
    exact Triple.pure fun io hio => hio
  | succ fuel ih =>
    unfold putLoop
    refine Triple.ite (fun hzero => Triple.pure fun io hio => ?_) fun hne => ?_
    · rw [length_drop] at hzero
      obtain rfl : n = data.length := by omega
      exact hio
    rw [length_drop] at hne ⊢
    have hn : n < data.length := by omega
    have hpos := hpos hn
    refine Triple.bind (Triple.gets (Q := fun size io => size = bs ∧ Sound (P n) io)
      fun io hio => ⟨h.blockSize _ _ hio.2, hio⟩) fun size =>
        Triple.assume ?_
    rintro rfl
    refine Triple.bind (Triple.gets (Q := fun _ => Sound (P n)) fun io hio => hio)
      fun capacity => ?_
    generalize hblocks : putBlocks zeros size capacity at_ (data.length - n) = blocks
    refine Triple.ite (fun hpositive => ?_) fun _ => ?_
    · obtain ⟨rfl, hfit⟩ := putBlocks_pos (hblocks ▸ hpositive)
      rw [hblocks] at hfit
      have hone : 1 * size ≤ blocks * size := Nat.mul_le_mul_right _ hpositive
      refine Triple.bind (putWhole_stores h zeros (m := blocks) hpos (by omega) hn) fun _ => ?_
      rw [drop_drop]
      refine ih _ _ _ (by omega) (by omega) (fun _ => ?_) hat (Or.inr rfl)
      rw [Nat.add_mul]
      omega
    · refine Triple.bind (putPart_stores h hpos hat hstart hn) fun _ => ?_
      rw [drop_drop]
      refine ih _ _ _ (by omega) (by omega) (fun hlt => ?_) (by omega) (Or.inr rfl)
      rw [Nat.succ_mul]
      omega

theorem put_stores (h : Device.Stores bs offset data P F) (zeros : Bool) :
    Triple (Sound (P 0)) (put zeros offset data) (fun _ => Sound (P data.length))
      (fun _ => Sound fun d => ∃ n, F n d) := by
  refine Triple.bind (Triple.gets (Q := fun size io => (0 < size ∧ size = bs) ∧
    Sound (P 0) io) fun io hio => ⟨⟨io.dev.blockSize_pos, ?_⟩, hio⟩) fun size =>
      Triple.assume ?_
  · exact h.blockSize _ _ hio.2
  · rintro ⟨hpos, rfl⟩
    have hdiv := Nat.div_add_mod' offset size
    exact putLoop_stores h zeros _ _ _ 0 (by omega) (by omega) (fun _ => by omega)
      (Nat.mod_lt _ hpos) (Or.inl rfl)

theorem put_block {I J K : Device Stop → Prop} (hlen : 0 < data.length)
    (hblock : (offset + data.length - 1) / bs = offset / bs) (hsize : ∀ d, I d → d.blockSize = bs)
    (hscript : ∀ d rest, I d → I { d with script := rest })
    (hscriptK : ∀ d rest, K d → K { d with script := rest }) (hIJ : ∀ d, I d → J d)
    (hfailed : ∀ d landed, I d → J (d.commit (offset / bs)
      (d.patchedBlock offset data (offset / bs)) (.failed landed)))
    (hdone : ∀ d, I d → K (d.commit (offset / bs)
      (d.patchedBlock offset data (offset / bs)) .done)) (zeros : Bool) :
    Triple (Sound I) (put zeros offset data) (fun _ => Sound K) (fun _ => Sound J) := by
  refine Triple.of_forall fun io hio => ?_
  have hpos : 0 < bs := hsize _ hio.2 ▸ io.dev.blockSize_pos
  have hend : Device.storedTo bs offset data 0 = data.length := by
    have hlt : offset + data.length - 1 < (offset / bs + 1) * bs :=
      (Nat.div_lt_iff_lt_mul hpos).mp (by omega)
    simp only [Device.storedTo, Nat.add_zero]
    omega
  have hstores : Device.Stores bs offset data
      (fun n d => (n = 0 ∧ I d) ∨ (n = data.length ∧ K d ∧ d.blockSize = bs))
      (fun n d => (n = 0 ∧ I d) ∨ (n = data.length ∧ J d ∧ d.blockSize = bs)) := by
    refine ⟨?_, ?_, ?_, ?_, ?_, ?_⟩
    · rintro n d (⟨-, h⟩ | ⟨-, -, h⟩)
      · exact hsize d h
      · exact h
    · rintro n d (⟨-, h⟩ | ⟨-, -, h⟩)
      · exact hsize d h
      · exact h
    · rintro n d rest (⟨hn, h⟩ | ⟨hn, h, hs⟩)
      · exact Or.inl ⟨hn, hscript d rest h⟩
      · exact Or.inr ⟨hn, hscriptK d rest h, hs⟩
    · rintro n d hn (⟨rfl, h⟩ | ⟨rfl, -⟩)
      · exact Or.inl ⟨rfl, h⟩
      · exact absurd hn (Nat.lt_irrefl _)
    · rintro n d landed hn (⟨rfl, h⟩ | ⟨rfl, -⟩)
      · rw [hend, Nat.add_zero]
        exact Or.inr ⟨rfl, hfailed d landed h, hsize d h⟩
      · exact absurd hn (Nat.lt_irrefl _)
    · rintro n d hn (⟨rfl, h⟩ | ⟨rfl, -⟩)
      · rw [hend, Nat.add_zero]
        exact Or.inr ⟨rfl, hdone d h, hsize d h⟩
      · exact absurd hn (Nat.lt_irrefl _)
  refine (put_stores hstores zeros).conseq (fun io' h => ?_) (fun _ io' h => ⟨h.1, ?_⟩)
    fun _ io' h => ⟨h.1, ?_⟩
  · rw [h]
    exact ⟨hio.1, Or.inl ⟨rfl, hio.2⟩⟩
  · rcases h.2 with ⟨hzero, -⟩ | ⟨-, hK, -⟩
    · omega
    · exact hK
  · obtain ⟨-, n, ⟨-, hI⟩ | ⟨-, hJ, -⟩⟩ := h
    · exact hIJ _ hI
    · exact hJ

end Stores

end Keeps

/-- `x` only reads, and its results satisfy `Q`. -/
def Reads {α : Type} (x : Prog Io Stop α) (Q : α → Prop) : Prop :=
  ∀ I : Device Stop → Prop, (∀ d rest, I d → I { d with script := rest }) →
    Triple (Sound I) x (fun a io => Q a ∧ Sound I io) (fun _ => Sound I)

namespace Reads

variable {α β : Type} {x : Prog Io Stop α} {Q Q' : α → Prop} {R : β → Prop}

theorem of_keeps
    (h : ∀ I : Device Stop → Prop, (∀ d rest, I d → I { d with script := rest }) →
      Keeps (Sound I) x) : Reads x fun _ => True := fun I hI =>
  (Prog.keeps_iff_triple.mp (h I hI)).post fun _ _ hs => ⟨trivial, hs⟩

theorem mono (hx : Reads x Q) (h : ∀ a, Q a → Q' a) : Reads x Q' := fun I hI =>
  (hx I hI).post fun a _ hs => ⟨h a hs.1, hs.2⟩

theorem pure {a : α} (h : Q a) : Reads (Pure.pure a) Q := fun _ _ =>
  Triple.pure fun _ hs => ⟨h, hs⟩

theorem fail (e : Stop) : Reads (Prog.fail e) Q := fun _ _ => Triple.fail fun _ hs => hs

theorem bind {f : α → Prog Io Stop β} (hx : Reads x Q) (hf : ∀ a, Q a → Reads (f a) R) :
    Reads (x >>= f) R := fun I hI =>
  Triple.bind (hx I hI) fun a => Triple.assume fun ha => hf a ha I hI

theorem ite {c : Prop} [Decidable c] {y : Prog Io Stop α} (hx : c → Reads x Q)
    (hy : ¬ c → Reads y Q) : Reads (if c then x else y) Q := by
  split
  · exact hx ‹_›
  · exact hy ‹_›

theorem attempt (hx : Reads x Q) :
    Reads (Prog.attempt x) fun r => ∀ a, r = .ok a → Q a := fun I hI =>
  (hx I hI).attempt (fun a _ hs => ⟨fun b hb => by cases hb; exact hs.1, hs.2⟩)
    fun _ _ hs => ⟨fun _ hb => (nomatch hb), hs⟩

theorem readBytes (offset len : Nat) : Reads (Io.readBytes offset len) fun _ => True :=
  of_keeps fun _ hI => keeps_readBytes hI offset len

end Reads

end Io

end Hadris
