import Hadris.BlockDevice
import Hadris.Part.Disk

namespace Hadris.Part

open Hadris.Prog

/-- A device that takes every read and write of its blocks. -/
structure Device where
  blockSize : BlockSize
  blockCount : Nat
  count_lt : blockCount < 2 ^ 64
  image : Nat → UInt8

/-- Whether a callback wants to be called again. -/
inductive ControlFlow where
  | cont
  | brk
deriving DecidableEq

/-- What a callback does to its state. -/
abbrev Callback (σ α : Type) := α → σ → ControlFlow × σ

def ofTable {α : Type} (result : Except TableError α) : Except Error α :=
  result.mapError TableError.toError

namespace Device

variable {σ α : Type}

def pastEnd : Error := .new .invalidInput "block request past the end of the device"

def block (dev : Device) (lba : Nat) : List UInt8 :=
  slice dev.image (lba * dev.blockSize.bytes) dev.blockSize.bytes

def readBlock (dev : Device) (lba : Nat) : Except Error (List UInt8) :=
  if lba < dev.blockCount then .ok (dev.block lba) else .error pastEnd

def readRecord (dev : Device) (lba : Nat) : Except Error RawMbr := do
  let block ← dev.readBlock lba
  .ok (RawMbr.codec.decode block)

def crcBlocks (dev : Device) : Nat → Nat → Nat → Crc32 → Except Error Crc32
  | _, 0, _, crc => .ok crc
  | lba, count + 1, left, crc => do
    let block ← dev.readBlock lba
    let take := min left dev.blockSize.bytes
    crcBlocks dev (lba + 1) count (left - take) (crc.update (block.take take))

def checkArray (dev : Device) : Except Detail (RawGptHeader × EntryArray) →
    Except Error (Except Detail (RawGptHeader × EntryArray))
  | .error detail => .ok (.error detail)
  | .ok (header, array) => do
    let crc ← dev.crcBlocks array.lba array.blocks array.bytes .new
    .ok (if crc.finish = header.partitionEntryArrayCrc32 then .ok (header, array)
      else .error .gptEntriesCrc)

def loadCopy (dev : Device) (lba : Nat) :
    Except Error (Except Detail (RawGptHeader × EntryArray)) :=
  if lba = 0 ∨ dev.blockCount ≤ lba then .ok (.error .gptHeader)
  else do
    let block ← dev.readBlock lba
    dev.checkArray (checkHeader block lba dev.blockCount dev.blockSize)

/-- A validated GPT copy, and the array block of the backup copy when that is valid. -/
structure Found where
  header : RawGptHeader
  array : EntryArray
  copy : GptCopy
  damaged : Option GptCopy
  backupEntries : Option Nat

def choose (primary backup : Except Detail (RawGptHeader × EntryArray)) : Except Error Found :=
  match primary, backup with
  | .ok (header, array), backup =>
    let backupEntries := match backup with
      | .ok (other, otherArray) => if sameTable header other then some otherArray.lba else none
      | .error _ => none
    .ok ⟨header, array, .primary, if backupEntries.isNone then some .backup
      else none, backupEntries⟩
  | .error _, .ok (header, array) => .ok ⟨header, array, .backup, some .primary, some array.lba⟩
  | .error detail, .error _ => .error detail.corrupt

def findGpt (dev : Device) : Except Error Found := do
  let primary ← dev.loadCopy 1
  let backupLba := match primary with
    | .ok (header, _) => header.alternateLba.toNat
    | .error _ => dev.blockCount - 1
  let backup ← dev.loadCopy backupLba
  choose primary backup

def call (f : Callback σ α) (a : α) : Prog σ Error ControlFlow :=
  ⟨fun s => (.ok (f a s).1, (f a s).2)⟩

/-- Passes the entries of a block to `f` while there are slots left, of which `left`
are below the count, and the next starts before byte `limit`. -/
def visitSlots (array : EntryArray) (block : List UInt8) (firstByte limit : Nat)
    (f : Callback σ (Nat × RawGptEntry)) : Nat → Nat → Prog σ Error ControlFlow
  | 0, _ => pure .cont
  | left + 1, slot =>
    if slot * array.entrySize < limit then do
      let entry := RawGptEntry.codec.decode (block.drop (slot * array.entrySize - firstByte))
      let flow ← call f (slot, entry)
      match flow with
      | .brk => pure .brk
      | .cont => visitSlots array block firstByte limit f left (slot + 1)
    else pure .cont

def slotAfter (array : EntryArray) (at_ : Nat) : Nat :=
  (at_ + array.entrySize - 1) / array.entrySize

def visitBlocks (dev : Device) (array : EntryArray) (f : Callback σ (Nat × RawGptEntry)) :
    Nat → Nat → Prog σ Error Unit
  | 0, _ => pure ()
  | count + 1, index => do
    let firstByte := index * dev.blockSize.bytes
    let limit := firstByte + dev.blockSize.bytes
    let slot := slotAfter array firstByte
    if array.count ≤ slot ∨ limit ≤ slot * array.entrySize then
      visitBlocks dev array f count (index + 1)
    else do
      let block ← Prog.ofExcept (dev.readBlock (array.lba + index))
      let flow ← visitSlots array block firstByte limit f (array.count - slot) slot
      match flow with
      | .brk => pure ()
      | .cont => visitBlocks dev array f count (index + 1)

def visitEntries (dev : Device) (array : EntryArray) (f : Callback σ (Nat × RawGptEntry)) :
    Prog σ Error Unit := dev.visitBlocks array f array.blocks 0

def logicalAt (ebr : Nat) (entry : RawMbrEntry) : Logical :=
  ⟨ebr, ebr + entry.startLba.toNat, entry.sectorCount.toNat, entry.kind, entry.bootIndicator⟩

def visitLogical (ebr : Nat) (entry : RawMbrEntry) (f : Callback σ Logical) :
    Prog σ Error ControlFlow :=
  if entry.isEmpty then pure .cont
  else if entry.kind.isExtended then Prog.fail Detail.ebrChain.corrupt
  else call f (logicalAt ebr entry)

def walkFrom (dev : Device) (extStart extEnd : Nat) (f : Callback σ Logical) :
    Nat → Nat → Nat → Prog σ Error Unit
  | 0, _, _ => Prog.fail Detail.ebrChain.corrupt
  | left + 1, step, ebr =>
    if extEnd ≤ ebr ∨ dev.blockCount ≤ ebr then Prog.fail Detail.ebrChain.corrupt
    else do
      let record ← Prog.ofExcept (dev.readRecord ebr)
      if !record.hasSignature then
        if step = 0 then pure () else Prog.fail Detail.ebrChain.corrupt
      else do
        let logical := record.entries 0
        let link := record.entries 1
        Prog.ofExcept (ensure ((logical.bootIndicator ||| link.bootIndicator) &&&
          ~~~PartitionFlags.mbrActive == 0) Detail.mbrEntry.corrupt)
        let flow ← visitLogical ebr logical f
        match flow with
        | .brk => pure ()
        | .cont =>
          if link.isEmpty || !link.kind.isExtended then pure ()
          else
            let next := extStart + link.startLba.toNat
            if next ≤ ebr then Prog.fail Detail.ebrChain.corrupt
            else walkFrom dev extStart extEnd f left (step + 1) next

def walkEbr (dev : Device) (extStart extEnd : Nat) (f : Callback σ Logical) : Prog σ Error Unit :=
  dev.walkFrom extStart extEnd f maxLogical 0 extStart

def extendedRange (record : RawMbr) : Option (Nat × Nat) :=
  ((List.finRange 4).find? fun slot => (record.entries slot).kind.isExtended).map fun slot =>
    Mbr.span (record.entries slot)

def collect (x : Callback (List α) α → Prog (List α) Error Unit) : Except Error (List α) :=
  match (x fun a kept => (.cont, kept ++ [a])).run [] with
  | (.ok (), kept) => .ok kept
  | (.error e, _) => .error e

def readLogical (dev : Device) : Option (Nat × Nat) → Except Error (List Logical)
  | none => .ok []
  | some (start, stop) => collect fun f => dev.walkEbr start stop f

def readMbr (dev : Device) (record : RawMbr) : Except Error PartitionTable := do
  let logical ← dev.readLogical (extendedRange record)
  .ok (.mbr (.fromDisk record logical dev.blockCount dev.blockSize))

def readGpt (dev : Device) : Except Error Gpt := do
  let found ← dev.findGpt
  let entries ← collect fun f => dev.visitEntries found.array f
  .ok (.fromDisk found.header found.copy (entries.map Prod.snd) found.damaged found.backupEntries
    dev.blockCount dev.blockSize)

def readTable (dev : Device) (record : RawMbr) : TableKind → Except Error PartitionTable
  | .mbr => dev.readMbr record
  | .gpt => do
    let gpt ← dev.readGpt
    .ok (.gpt gpt)
  | .hybrid => do
    let gpt ← dev.readGpt
    .ok (.hybrid ⟨gpt, record.entries⟩)

def read (dev : Device) : Except Error Disk := do
  ofTable (checkBlockSize dev.blockSize)
  let record ← dev.readRecord 0
  let kind ← ofTable (classify record)
  let table ← dev.readTable record kind
  .ok (.fromDisk table record)

def maxScanBlock : Nat := 4096

def scanPrimary (dev : Device) (record : RawMbr) (f : Callback σ Partition) :
    List (Fin 4) → Prog σ Error ControlFlow
  | [] => pure .cont
  | slot :: rest => do
    let entry := record.entries slot
    if entry.kind.isEmpty || entry.kind.isExtended then scanPrimary dev record f rest
    else do
      let flow ← call f (.fromMbr slot entry.startLba.toNat entry dev.blockSize)
      match flow with
      | .brk => pure .brk
      | .cont => scanPrimary dev record f rest

def numbered (dev : Device) (f : Callback σ Partition) : Callback (Nat × σ) Logical :=
  fun logical s =>
    let result := f (.fromMbr s.1 logical.start logical.entry dev.blockSize) s.2
    (result.1, s.1 + 1, result.2)

def withLocal {τ : Type} (init : τ) (x : Prog (τ × σ) Error α) : Prog σ Error α :=
  ⟨fun s => ((x.run (init, s)).1, (x.run (init, s)).2.2)⟩

def scanMbr (dev : Device) (record : RawMbr) (f : Callback σ Partition) : Prog σ Error Unit := do
  let flow ← dev.scanPrimary record f (List.finRange 4)
  match flow with
  | .brk => pure ()
  | .cont =>
    match extendedRange record with
    | none => pure ()
    | some (start, stop) => withLocal firstLogical (dev.walkEbr start stop (dev.numbered f))

def used (dev : Device) (f : Callback σ Partition) : Callback σ (Nat × RawGptEntry) :=
  fun slot s =>
  if slot.2.isUnused then (.cont, s) else f (.fromGpt slot.1 slot.2 dev.blockSize) s

def scanGpt (dev : Device) (f : Callback σ Partition) : Prog σ Error Unit := do
  let found ← Prog.ofExcept dev.findGpt
  dev.visitEntries found.array (dev.used f)

def scanTable (dev : Device) (record : RawMbr) (f : Callback σ Partition) (kind : TableKind) :
    Prog σ Error Unit := if kind = .mbr then dev.scanMbr record f else dev.scanGpt f

/-- Lists the partitions of a device without an allocator, passing each to `f` until it
breaks, and returns the kind of table. -/
def scan (dev : Device) (f : Callback σ Partition) : Prog σ Error TableKind := do
  Prog.ofExcept (ofTable (checkBlockSize dev.blockSize))
  Prog.ofExcept (ensure (decide (dev.blockSize.bytes ≤ maxScanBlock))
    (Detail.blockSize.error .unsupported))
  let record ← Prog.ofExcept (dev.readRecord 0)
  let kind ← Prog.ofExcept (ofTable (classify record))
  dev.scanTable record f kind
  pure kind

end Device

/-! Writing. -/

def writeBlocks (lba : Nat) (data : List UInt8) : Prog Device Error Unit := do
  let dev ← Prog.gets id
  Prog.ofExcept (ensure (decide (data.length % dev.blockSize.bytes = 0))
    (.new .invalidInput "buffer is not a whole number of blocks"))
  Prog.ofExcept (ensure (decide (lba + data.length / dev.blockSize.bytes ≤ dev.blockCount))
    Device.pastEnd)
  Prog.modify fun dev => { dev with image := patch dev.image (lba * dev.blockSize.bytes) data }

namespace Disk

def checkWrite (disk : Disk) (dev : Device) : Except Error Unit := do
  ensure (decide (dev.blockSize = disk.table.blockSize)) (Detail.blockSize.error .invalidInput)
  match disk.table with
  | .mbr mbr => ofTable mbr.validate
  | _ => .ok ()
  ensure (decide (disk.table.blockCount ≤ dev.blockCount) &&
    disk.table.gpt?.all fun gpt => gpt.fits dev.blockCount) (Detail.diskTooSmall.error .noSpace)

def write (disk : Disk) : Prog Device Error Unit := do
  let dev ← Prog.gets id
  Prog.ofExcept (disk.checkWrite dev)
  Prog.each (fun run => writeBlocks run.lba run.bytes) disk.runs

end Disk

end Hadris.Part

namespace Hadris.Part

open Hadris.Prog

/-- A callback that always wants to be called again. -/
def Callback.Continues {σ α : Type} (f : Callback σ α) : Prop := ∀ a s, (f a s).1 = .cont

def Callback.calls {σ α : Type} (f : Callback σ α) (s : σ) (l : List α) : σ :=
  l.foldl (fun s a => (f a s).2) s

namespace Device

variable {σ τ α β : Type} {dev : Device} {array : EntryArray}

theorem run_call {f : Callback σ α} (hf : f.Continues) (a : α) (s : σ) :
    (call f a).run s = (.ok .cont, (f a s).2) := by
  rw [← hf a s]
  rfl

def entryAt (dev : Device) (array : EntryArray) (slot : Nat) : RawGptEntry :=
  RawGptEntry.codec.decode
    ((dev.block (array.lba + slot * array.entrySize / dev.blockSize.bytes)).drop
    (slot * array.entrySize % dev.blockSize.bytes))

def slotsTo (dev : Device) (array : EntryArray) (slot stop : Nat) : List (Nat × RawGptEntry) :=
  (List.range' slot (stop - slot)).map fun k => (k, dev.entryAt array k)

theorem slotsTo_self (slot : Nat) : dev.slotsTo array slot slot = [] := by
  rw [slotsTo, Nat.sub_self]
  rfl

theorem slotsTo_cons {slot stop : Nat} (h : slot < stop) :
    dev.slotsTo array slot stop = (slot, dev.entryAt array slot) :: dev.slotsTo array
      (slot + 1) stop := by
  obtain ⟨n, rfl⟩ := Nat.exists_eq_add_of_lt h
  rw [slotsTo, slotsTo, show slot + n + 1 - slot = n + 1 by omega,
    show slot + n + 1 - (slot + 1) = n by omega]
  rfl

theorem slotsTo_append {slot middle stop : Nat} (h : slot ≤ middle) (h' : middle ≤ stop) :
    dev.slotsTo array slot middle ++ dev.slotsTo array middle stop =
      dev.slotsTo array slot stop := by
  obtain ⟨m, rfl⟩ := Nat.exists_eq_add_of_le h
  obtain ⟨n, rfl⟩ := Nat.exists_eq_add_of_le h'
  rw [slotsTo, slotsTo, slotsTo, ← List.map_append, Nat.add_sub_cancel_left,
    Nat.add_sub_cancel_left, List.range'_append_1, Nat.add_assoc, Nat.add_sub_cancel_left]

theorem slotAfter_le (hsize : 0 < array.entrySize) (at_ slot : Nat) :
    slotAfter array at_ ≤ slot ↔ at_ ≤ slot * array.entrySize := by
  rw [slotAfter, ← Nat.lt_succ_iff, Nat.div_lt_iff_lt_mul hsize, Nat.succ_mul]
  omega

def slotOf (dev : Device) (array : EntryArray) (index : Nat) : Nat :=
  min array.count (slotAfter array (index * dev.blockSize.bytes))

theorem visitSlots_run {f : Callback σ (Nat × RawGptEntry)} (hf : f.Continues)
    (hsize : 0 < array.entrySize) {index left slot : Nat} (hcount : slot + left = array.count)
    (hslot : index * dev.blockSize.bytes ≤ slot * array.entrySize)
    (hstop : slot ≤ dev.slotOf array (index + 1)) (s : σ) :
    (visitSlots array (dev.block (array.lba + index)) (index * dev.blockSize.bytes)
      (index * dev.blockSize.bytes + dev.blockSize.bytes) f left slot).run s =
        (.ok .cont, f.calls s (dev.slotsTo array slot (dev.slotOf array (index + 1)))) := by
  have hafter := slotAfter_le hsize ((index + 1) * dev.blockSize.bytes) slot
  induction left generalizing slot s with
  | zero =>
    have hlast : dev.slotOf array (index + 1) = slot := by
      rw [slotOf] at hstop ⊢
      omega
    rw [hlast, slotsTo_self]
    rfl
  | succ left ih =>
    rw [visitSlots]
    rw [Nat.succ_mul] at hafter
    split
    · rename_i hlt
      have hblock : slot * array.entrySize / dev.blockSize.bytes = index :=
        Nat.div_eq_of_lt_le hslot (by rwa [Nat.succ_mul])
      have hoffset : slot * array.entrySize % dev.blockSize.bytes =
          slot * array.entrySize - index * dev.blockSize.bytes := by
        rw [Nat.mod_eq_sub_div_mul, hblock]
      have hnext : slot < dev.slotOf array (index + 1) := by
        rw [slotOf, Nat.succ_mul]
        omega
      have hentry : dev.entryAt array slot = RawGptEntry.codec.decode
          ((dev.block (array.lba + index)).drop
            (slot * array.entrySize - index * dev.blockSize.bytes)) := by
        rw [entryAt, hblock, hoffset]
      have hgrow : slot * array.entrySize ≤ (slot + 1) * array.entrySize :=
        Nat.mul_le_mul_right _ (Nat.le_succ slot)
      rw [slotsTo_cons hnext, hentry]
      change ((call f (slot, _)) >>= _).run s = _
      rw [run_bind_ok (run_call hf _ s)]
      exact ih (by omega) (hslot.trans hgrow) hnext _ (slotAfter_le hsize _ _)
    · rename_i hge
      have hlast : dev.slotOf array (index + 1) = slot := by
        rw [slotOf, Nat.succ_mul] at hstop ⊢
        omega
      rw [hlast, slotsTo_self]
      rfl

theorem slotOf_mono (dev : Device) (hsize : 0 < array.entrySize) (index : Nat) :
    dev.slotOf array index ≤ dev.slotOf array (index + 1) := by
  have hnext := (slotAfter_le hsize ((index + 1) * dev.blockSize.bytes) _).mp le_rfl
  have hle : slotAfter array (index * dev.blockSize.bytes) ≤
      slotAfter array ((index + 1) * dev.blockSize.bytes) := by
    rw [slotAfter_le hsize]
    exact (Nat.mul_le_mul_right _ (Nat.le_succ index)).trans hnext
  rw [slotOf, slotOf]
  omega

theorem visitBlocks_run {f : Callback σ (Nat × RawGptEntry)} (hf : f.Continues)
    (hsize : 0 < array.entrySize) {count index : Nat}
    (hdisk : array.lba + index + count ≤ dev.blockCount) (s : σ) :
    (dev.visitBlocks array f count index).run s = (.ok (), f.calls s
      (dev.slotsTo array (dev.slotOf array index) (dev.slotOf array (index + count)))) := by
  induction count generalizing index s with
  | zero =>
    rw [Nat.add_zero, slotsTo_self]
    rfl
  | succ count ih =>
    have hmono := slotOf_mono dev hsize index
    have hlast : dev.slotOf array (index + 1) ≤ dev.slotOf array (index + (count + 1)) := by
      rw [show index + (count + 1) = index + 1 + count by omega]
      clear ih hdisk hmono
      induction count with
      | zero => exact le_rfl
      | succ count ih => exact ih.trans (slotOf_mono dev hsize _)
    have hafter := slotAfter_le hsize ((index + 1) * dev.blockSize.bytes)
      (slotAfter array (index * dev.blockSize.bytes))
    have hself := (slotAfter_le hsize (index * dev.blockSize.bytes) _).mp le_rfl
    rw [Nat.succ_mul] at hafter
    rw [← slotsTo_append hmono hlast, Callback.calls, List.foldl_append, visitBlocks]
    by_cases hskip : array.count ≤ slotAfter array (index * dev.blockSize.bytes) ∨
        index * dev.blockSize.bytes + dev.blockSize.bytes ≤
          slotAfter array (index * dev.blockSize.bytes) * array.entrySize
    · have hsame : dev.slotOf array (index + 1) = dev.slotOf array index := by
        rw [slotOf, slotOf, Nat.succ_mul] at hmono ⊢
        omega
      rw [if_pos hskip, ih (by omega), hsame, slotsTo_self, show index + (count + 1) =
        index + 1 + count by omega]
      rfl
    · have hvisit := hskip
      rw [not_or, not_le, not_le] at hvisit
      have hfirst : dev.slotOf array index = slotAfter array (index * dev.blockSize.bytes) := by
        rw [slotOf]
        omega
      have hread : dev.readBlock (array.lba + index) = .ok (dev.block (array.lba + index)) := by
        rw [readBlock, if_pos (by omega)]
      rw [if_neg hskip, hread]
      change ((visitSlots _ _ _ _ _ _ _) >>= _).run s = _
      rw [run_bind_ok (visitSlots_run hf hsize (by omega) hself (hfirst ▸ hmono) s)]
      rw [show index + (count + 1) = index + 1 + count by omega, hfirst]
      exact ih (by omega) _

theorem visitEntries_run {f : Callback σ (Nat × RawGptEntry)} (hf : f.Continues)
    (hsize : 0 < array.entrySize) (hdisk : array.lba + array.blocks ≤ dev.blockCount)
    (hblocks : array.count * array.entrySize ≤ array.blocks * dev.blockSize.bytes) (s : σ) :
    (dev.visitEntries array f).run s =
      (.ok (), f.calls s (dev.slotsTo array 0 array.count)) := by
  have hzero : dev.slotOf array 0 = 0 := by
    have hle := (slotAfter_le hsize (0 * dev.blockSize.bytes) 0).mpr
      (by omega)
    rw [slotOf]
    omega
  have hcount : dev.slotOf array (0 + array.blocks) = array.count := by
    have hge : ∀ slot, slot < array.count →
        slot < slotAfter array ((0 + array.blocks) * dev.blockSize.bytes) := by
      intro slot hslot
      rw [← not_le, slotAfter_le hsize, not_le, Nat.zero_add]
      exact Nat.lt_of_lt_of_le (Nat.mul_lt_mul_of_pos_right hslot hsize) hblocks
    rw [slotOf, Nat.min_eq_left]
    by_contra hlt
    exact absurd (hge _ (not_le.mp hlt)) (lt_irrefl _)
  rw [visitEntries, visitBlocks_run hf hsize (by omega), hzero, hcount]

/-- A walk that passes the same on to every callback that goes on, with the same result. -/
def Uniform (x : (σ : Type) → Callback σ α → Prog σ Error β) : Prop :=
  ∃ (passed : List α) (result : Except Error β), ∀ (σ : Type) (f : Callback σ α), f.Continues →
    ∀ s, (x σ f).run s = (result, f.calls s passed)

theorem uniform_ofExcept (result : Except Error β) :
    Uniform fun σ (_ : Callback σ α) => (Prog.ofExcept result : Prog σ Error β) := by
  refine ⟨[], result, fun σ f _ s => ?_⟩
  cases result with
  | error e => rfl
  | ok b => rfl

theorem uniform_pure (b : β) : Uniform fun σ (_ : Callback σ α) => (pure b : Prog σ Error β) :=
  uniform_ofExcept (.ok b)

theorem uniform_fail (e : Error) :
    Uniform fun σ (_ : Callback σ α) => (Prog.fail e : Prog σ Error β) :=
  uniform_ofExcept (.error e)

theorem uniform_call (a : α) : Uniform fun σ (f : Callback σ α) => call f a :=
  ⟨[a], .ok .cont, fun _ _ hf s => run_call hf a s⟩

theorem Uniform.bind {γ : Type} {x : (σ : Type) → Callback σ α → Prog σ Error β}
    {y : β → (σ : Type) → Callback σ α → Prog σ Error γ} (hx : Uniform x)
    (hy : ∀ b, Uniform (y b)) :
    Uniform fun σ f => x σ f >>= fun b => y b σ f := by
  obtain ⟨passed, result, hx⟩ := hx
  cases result with
  | error e =>
    refine ⟨passed, .error e, fun σ f hf s => ?_⟩
    rw [run_bind_error (hx σ f hf s)]
  | ok b =>
    obtain ⟨passed', result', hy⟩ := hy b
    refine ⟨passed ++ passed', result', fun σ f hf s => ?_⟩
    rw [run_bind_ok (hx σ f hf s), hy σ f hf, Callback.calls, Callback.calls, Callback.calls,
      List.foldl_append]

theorem Uniform.ite {c : Prop} [Decidable c] {x y : (σ : Type) → Callback σ α → Prog σ Error β}
    (hx : Uniform x) (hy : Uniform y) : Uniform fun σ f => if c then x σ f else y σ f := by
  split
  · exact hx
  · exact hy

theorem uniform_visitLogical (ebr : Nat) (entry : RawMbrEntry) :
    Uniform fun _ f => visitLogical ebr entry f :=
  (uniform_pure _).ite ((uniform_fail _).ite (uniform_call _))

theorem uniform_walkFrom (dev : Device) (extStart extEnd left step ebr : Nat) :
    Uniform fun _ f => dev.walkFrom extStart extEnd f left step ebr := by
  induction left generalizing step ebr with
  | zero => exact uniform_fail _
  | succ left ih =>
    refine Uniform.ite (uniform_fail _) ?_
    refine Uniform.bind (uniform_ofExcept _) fun record => ?_
    refine Uniform.ite (Uniform.ite (uniform_pure _) (uniform_fail _)) ?_
    refine Uniform.bind (uniform_ofExcept _) fun _ => ?_
    refine Uniform.bind (uniform_visitLogical ebr _) fun flow => ?_
    cases flow with
    | brk => exact uniform_pure _
    | cont => exact Uniform.ite (uniform_pure _) (Uniform.ite (uniform_fail _) (ih _ _))

theorem calls_keep (l kept : List α) :
    Callback.calls (fun a kept => (.cont, kept ++ [a])) kept l = kept ++ l := by
  induction l generalizing kept with
  | nil => exact (List.append_nil kept).symm
  | cons a l ih => exact (ih (kept ++ [a])).trans (List.append_cons kept a l).symm

theorem Uniform.collect {x : (σ : Type) → Callback σ α → Prog σ Error Unit} (h : Uniform x)
    {σ : Type} {f : Callback σ α} (hf : f.Continues) (s : σ) :
    (∀ e, collect (x (List α)) = .error e → ((x σ f).run s).1 = .error e) ∧
      ∀ passed, collect (x (List α)) = .ok passed →
        (x σ f).run s = (.ok (), f.calls s passed) := by
  obtain ⟨passed, result, h⟩ := h
  have hcollect := h (List α) (fun a kept => (.cont, kept ++ [a])) (fun _ _ => rfl) []
  rw [calls_keep, List.nil_append] at hcollect
  rw [Device.collect, hcollect, h σ f hf s]
  cases result with
  | error e =>
    refine ⟨fun _ heq => ?_, fun _ heq => (by cases heq)⟩
    cases heq
    rfl
  | ok u =>
    refine ⟨fun _ heq => (by cases heq), fun _ heq => ?_⟩
    cases heq
    rfl

end Device

end Hadris.Part

namespace Hadris.Part

def RawGptHeader.entryArray (header : RawGptHeader) (size : BlockSize) : EntryArray :=
  let bytes := header.numPartitionEntries.toNat * header.sizeOfPartitionEntry.toNat
  ⟨header.partitionEntryLba.toNat, blocksFor bytes size, bytes, header.numPartitionEntries.toNat,
    header.sizeOfPartitionEntry.toNat⟩

def EntryArray.stop (array : EntryArray) : Nat := array.lba + array.blocks

/-- What the header in a block is checked for. -/
structure HeaderOk (block : List UInt8) (lba blockCount : Nat) (size : BlockSize)
    (header : RawGptHeader) : Prop where
  decoded : RawGptHeader.codec.decode block = header
  signature : header.signature = gptSignature
  revision : header.revision >>> 16 = 1
  crc : gptHeaderCrc block header.headerSize = some header.headerCrc32
  place : header.myLba.toNat = lba
  last : header.lastUsableLba.toNat < blockCount
  first : header.firstUsableLba.toNat ≤ saturatingAdd header.lastUsableLba.toNat 1
  outside : ¬ (header.firstUsableLba.toNat ≤ lba ∧ lba ≤ header.lastUsableLba.toNat)
  entrySize : gptEntrySize ≤ header.sizeOfPartitionEntry.toNat
  power : isPowerOfTwo header.sizeOfPartitionEntry.toNat = true
  small : (header.entryArray size).stop < 2 ^ 64
  bytes : (header.entryArray size).bytes ≤ maxArrayBytes
  placed : arrayPlaced lba (header.entryArray size).lba (header.entryArray size).stop
    (header.entryArray size).blocks header.firstUsableLba.toNat header.lastUsableLba.toNat = true
  onDisk : (header.entryArray size).stop ≤ blockCount

variable {block : List UInt8} {lba blockCount : Nat} {size : BlockSize} {header : RawGptHeader}
  {array : EntryArray}

theorem checkHeader_ok : checkHeader block lba blockCount size = .ok (header, array) ↔
    HeaderOk block lba blockCount size header ∧ array = header.entryArray size := by
  rw [checkHeader]
  simp only [except_bind_ok, ensure_ok, okOr_ok, Except.ok.injEq, Prod.mk.injEq, exists_const,
    Bool.and_eq_true, beq_iff_eq, Bool.not_eq_true', Bool.or_eq_false_iff, bne_eq_false_iff_eq,
    decide_eq_false_iff_not, decide_eq_true_eq, Bool.and_eq_false_imp, checkedAdd_some]
  constructor
  · rintro ⟨⟨hsign, hrev⟩, crc, hcrc, rfl, ⟨⟨⟨hplace, hlast⟩, hfirst⟩, houtside⟩,
      ⟨hes, hpower⟩, stop, ⟨hsmall, rfl⟩, ⟨⟨hbytes, hplaced⟩, hdisk⟩, rfl, rfl⟩
    refine ⟨⟨rfl, hsign, hrev, hcrc, hplace, ?_, ?_, ?_, hes, hpower, hsmall, hbytes,
      hplaced, hdisk⟩, rfl⟩
    · omega
    · omega
    · exact fun h => houtside h.1 h.2
  · rintro ⟨⟨rfl, hsign, hrev, hcrc, hplace, hlast, hfirst, houtside, hes, hpower, hsmall, hbytes,
      hplaced, hdisk⟩, rfl⟩
    exact ⟨⟨hsign, hrev⟩, _, hcrc, rfl, ⟨⟨⟨hplace, by omega⟩, by omega⟩,
      fun h h' => houtside ⟨h, h'⟩⟩, ⟨hes, hpower⟩, _, ⟨hsmall, rfl⟩,
        ⟨⟨hbytes, hplaced⟩, hdisk⟩, rfl, rfl⟩

theorem le_blocksFor (bytes : Nat) (size : BlockSize) :
    bytes ≤ blocksFor bytes size * size.bytes := by
  have hpos := size.pos
  have hdiv := Nat.div_add_mod (bytes + size.bytes - 1) size.bytes
  have hlt := Nat.mod_lt (bytes + size.bytes - 1) hpos
  rw [blocksFor, Nat.mul_comm]
  omega

namespace Device

variable {dev : Device}

def arrayBytes (dev : Device) (array : EntryArray) : List UInt8 :=
  (slice dev.image (array.lba * dev.blockSize.bytes) (array.blocks * dev.blockSize.bytes)).take
    array.bytes

theorem crcBlocks_ok {count left : Nat} (hdisk : lba + count ≤ dev.blockCount) (crc : Crc32) :
    dev.crcBlocks lba count left crc = .ok (crc.update
      ((slice dev.image (lba * dev.blockSize.bytes) (count * dev.blockSize.bytes)).take
        left)) := by
  induction count generalizing lba left crc with
  | zero =>
    rw [Nat.zero_mul, slice_zero, List.take_nil]
    rfl
  | succ count ih =>
    have hread : dev.readBlock lba = .ok (dev.block lba) := by
      rw [readBlock, if_pos (by omega)]
    have hbytes : (slice dev.image (lba * dev.blockSize.bytes)
        ((count + 1) * dev.blockSize.bytes)).take left =
        (dev.block lba).take (min left dev.blockSize.bytes) ++
          (slice dev.image ((lba + 1) * dev.blockSize.bytes) (count * dev.blockSize.bytes)).take
            (left - min left dev.blockSize.bytes) := by
      have hrest : left - min left dev.blockSize.bytes = left - dev.blockSize.bytes := by omega
      rw [Nat.succ_mul, Nat.add_comm, slice_append, List.take_append, slice_length, hrest,
        ← Nat.succ_mul, block, ← List.take_take,
        List.take_of_length_le (slice_length _ _ dev.blockSize.bytes).le]
    rw [crcBlocks, hread, hbytes, Crc32.update_append]
    exact ih (by omega) _

/-- A header and an entry array in block `lba` that pass validation. -/
structure Copy (dev : Device) (lba : Nat) (header : RawGptHeader) : Prop where
  first : lba ≠ 0
  last : lba < dev.blockCount
  ok : HeaderOk (dev.block lba) lba dev.blockCount dev.blockSize header
  crc : crc32 (dev.arrayBytes (header.entryArray dev.blockSize)) = header.partitionEntryArrayCrc32

theorem loadCopy_block (h : lba ≠ 0) (h' : lba < dev.blockCount) :
    dev.loadCopy lba =
      dev.checkArray (checkHeader (dev.block lba) lba dev.blockCount dev.blockSize) := by
  rw [loadCopy, if_neg (not_or.mpr ⟨h, not_le.mpr h'⟩), readBlock, if_pos h']
  rfl

theorem checkArray_ok {header : RawGptHeader}
    (h : (header.entryArray dev.blockSize).stop ≤ dev.blockCount) :
    dev.checkArray (.ok (header, header.entryArray dev.blockSize)) =
      .ok (if crc32 (dev.arrayBytes (header.entryArray dev.blockSize)) =
        header.partitionEntryArrayCrc32 then .ok (header, header.entryArray dev.blockSize)
          else .error .gptEntriesCrc) := by
  rw [checkArray, crcBlocks_ok h]
  rfl

theorem Copy.load (h : dev.Copy lba header) :
    dev.loadCopy lba = .ok (.ok (header, header.entryArray dev.blockSize)) := by
  rw [loadCopy_block h.first h.last, checkHeader_ok.mpr ⟨h.ok, rfl⟩, checkArray_ok h.ok.onDisk,
    if_pos h.crc]

theorem loadCopy_none (h : ∀ header, ¬ dev.Copy lba header) :
    ∃ detail, dev.loadCopy lba = .ok (.error detail) := by
  by_cases hrange : lba = 0 ∨ dev.blockCount ≤ lba
  · exact ⟨.gptHeader, by rw [loadCopy, if_pos hrange]⟩
  rw [not_or, not_le] at hrange
  rw [loadCopy_block hrange.1 hrange.2]
  rcases hcheck : checkHeader (dev.block lba) lba dev.blockCount dev.blockSize with
    detail | ⟨header, array⟩
  · exact ⟨detail, rfl⟩
  · obtain ⟨hok, rfl⟩ := checkHeader_ok.mp hcheck
    refine ⟨.gptEntriesCrc, ?_⟩
    rw [checkArray_ok hok.onDisk, if_neg fun hcrc => h header ⟨hrange.1, hrange.2, hok, hcrc⟩]

theorem copy_of_load (h : dev.loadCopy lba = .ok (.ok (header, array))) :
    dev.Copy lba header ∧ array = header.entryArray dev.blockSize := by
  by_cases hcopy : ∃ header, dev.Copy lba header
  · obtain ⟨header', hcopy⟩ := hcopy
    rw [hcopy.load] at h
    cases h
    exact ⟨hcopy, rfl⟩
  · obtain ⟨detail, hload⟩ := loadCopy_none fun header hheader => hcopy ⟨header, hheader⟩
    rw [hload] at h
    cases h

/-! The entries of a copy. -/

theorem Copy.entrySize_pos (h : dev.Copy lba header) :
    0 < (header.entryArray dev.blockSize).entrySize :=
  Nat.lt_of_lt_of_le (by decide) h.ok.entrySize

def entriesOf (dev : Device) (array : EntryArray) : List RawGptEntry :=
  (List.range array.count).map (dev.entryAt array)

theorem Copy.visit {σ : Type} {f : Callback σ (Nat × RawGptEntry)} (h : dev.Copy lba header)
    (hf : f.Continues) (s : σ) :
    (dev.visitEntries (header.entryArray dev.blockSize) f).run s =
      (.ok (), f.calls s (dev.slotsTo (header.entryArray dev.blockSize) 0
        (header.entryArray dev.blockSize).count)) :=
  visitEntries_run hf h.entrySize_pos h.ok.onDisk (le_blocksFor _ _) s

theorem slotsTo_zero (array : EntryArray) :
    dev.slotsTo array 0 array.count =
      (List.range array.count).map fun k => (k, dev.entryAt array k) := by
  rw [slotsTo, Nat.sub_zero, ← List.range_eq_range']

theorem Copy.collect (h : dev.Copy lba header) :
    Device.collect (fun f => dev.visitEntries (header.entryArray dev.blockSize) f) =
      .ok (dev.slotsTo (header.entryArray dev.blockSize) 0
        (header.entryArray dev.blockSize).count) := by
  rw [Device.collect, h.visit (fun _ _ => rfl), calls_keep, List.nil_append]

end Device

end Hadris.Part
