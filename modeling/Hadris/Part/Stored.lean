import Hadris.Part.Load
import Hadris.Region
import Hadris.Part.GptRun
import Hadris.Part.MbrSound

namespace Hadris.Part

open List
open Hadris.Prog

def Run.region (size : BlockSize) (run : Run) : Region := ⟨run.lba * size.bytes, run.bytes.length⟩

def blockBytes (size : BlockSize) (lba count : Nat) : Region :=
  ⟨lba * size.bytes, count * size.bytes⟩

theorem blockBytes_apart {size : BlockSize} {lba count lba' count' : Nat}
    (h : (Region.mk lba count).Apart ⟨lba', count'⟩) :
    (blockBytes size lba count).Apart (blockBytes size lba' count') := by
  rcases h with h | h
  · have hmul := Nat.mul_le_mul_right size.bytes h
    simp only [Region.stop, Nat.add_mul] at hmul
    exact .inl hmul
  · have hmul := Nat.mul_le_mul_right size.bytes h
    simp only [Region.stop, Nat.add_mul] at hmul
    exact .inr hmul

def store (size : BlockSize) (img : Nat → UInt8) (runs : List Run) : Nat → UInt8 :=
  runs.foldl (fun img run => patch img (run.lba * size.bytes) run.bytes) img

section

variable {size : BlockSize} {img : Nat → UInt8} {runs : List Run} {run : Run} {region : Region}

theorem store_append (a b : List Run) :
    store size img (a ++ b) = store size (store size img a) b :=
  foldl_append ..

theorem slice_store_apart (h : ∀ run ∈ runs, region.Apart (run.region size)) :
    slice (store size img runs) region.start region.length =
      slice img region.start region.length := by
  induction runs generalizing img with
  | nil => rfl
  | cons run rest ih =>
    have hrun := h run mem_cons_self
    have hkept : slice (patch img (run.lba * size.bytes) run.bytes) region.start region.length =
        slice img region.start region.length := slice_patch_disjoint _ _ _ _ hrun
    rw [← hkept]
    exact ih fun other hother => h other (mem_cons_of_mem _ hother)

theorem slice_store_mem (img : Nat → UInt8)
    (h : runs.Pairwise fun a b => (a.region size).Apart (b.region size)) (hrun : run ∈ runs) :
    slice (store size img runs) (run.lba * size.bytes) run.bytes.length = run.bytes := by
  induction runs generalizing img with
  | nil => cases hrun
  | cons first rest ih =>
    rw [pairwise_cons] at h
    rcases mem_cons.mp hrun with rfl | hrun
    · exact (slice_store_apart h.1).trans (slice_patch _ _ _)
    · exact ih _ h.2 hrun

theorem whole_padded (size : BlockSize) (bytes : List UInt8) :
    (padded size bytes).length = blocksFor bytes.length size * size.bytes := by
  have hle := le_blocksFor bytes.length size
  rw [padded, length_append, length_replicate]
  omega

theorem blocksFor_of_le {n : Nat} (h : 0 < n) (hle : n ≤ size.bytes) : blocksFor n size = 1 := by
  rw [blocksFor]
  exact Nat.div_eq_of_lt_le (by omega) (by omega)

end

/-- A run of whole blocks within a device. -/
structure Run.Fits (run : Run) (dev : Device) : Prop where
  whole : run.bytes.length = run.bytes.length / dev.blockSize.bytes * dev.blockSize.bytes
  onDisk : run.lba + run.bytes.length / dev.blockSize.bytes ≤ dev.blockCount

variable {dev : Device} {run : Run}

theorem writeBlocks_run (h : run.Fits dev) :
    (writeBlocks run.lba run.bytes).run dev =
      (.ok (),
        { dev with image := patch dev.image (run.lba * dev.blockSize.bytes) run.bytes }) := by
  have hmod : run.bytes.length % dev.blockSize.bytes = 0 := by
    rw [h.whole, Nat.mul_mod_left]
  have hwhole : (ensure (decide (run.bytes.length % dev.blockSize.bytes = 0))
      (Error.new .invalidInput "buffer is not a whole number of blocks")) = .ok () :=
    ensure_of_true _ (decide_eq_true hmod)
  have hdisk : ensure (decide (run.lba + run.bytes.length / dev.blockSize.bytes ≤ dev.blockCount))
      Device.pastEnd = .ok () := ensure_of_true _ (decide_eq_true h.onDisk)
  rw [writeBlocks]
  change ((Prog.ofExcept (ensure (decide (run.bytes.length % dev.blockSize.bytes = 0)) _)) >>=
    fun _ => (Prog.ofExcept (ensure (decide (run.lba + run.bytes.length / dev.blockSize.bytes ≤
      dev.blockCount)) Device.pastEnd) : Prog Device Error Unit) >>= fun _ => _).run dev = _
  rw [hwhole, hdisk]
  rfl

theorem writeRuns_run {runs : List Run} (h : ∀ run ∈ runs, run.Fits dev) :
    (Prog.each (fun run : Run => writeBlocks run.lba run.bytes) runs).run dev =
      (.ok (), { dev with image := store dev.blockSize dev.image runs }) := by
  induction runs generalizing dev with
  | nil => rfl
  | cons run rest ih =>
    rw [Prog.each, run_bind_ok (writeBlocks_run (h run mem_cons_self))]
    exact ih fun other hother => ⟨(h other (mem_cons_of_mem _ hother)).whole,
      (h other (mem_cons_of_mem _ hother)).onDisk⟩

theorem Disk.write_run {disk : Disk} (hcheck : disk.checkWrite dev = .ok ())
    (h : ∀ run ∈ disk.runs, run.Fits dev) :
    disk.write.run dev =
      (.ok (), { dev with image := store dev.blockSize dev.image disk.runs }) := by
  rw [Disk.write]
  change ((Prog.ofExcept (disk.checkWrite dev) : Prog Device Error Unit) >>= fun _ => _).run dev =
    _
  rw [hcheck]
  exact writeRuns_run h

end Hadris.Part

namespace Hadris.Part

open List

def slotCodec (room : Nat) : Codec RawGptEntry where
  width := gptEntrySize + room
  encode := fun entry => RawGptEntry.codec.encode entry ++ replicate room 0
  decode := RawGptEntry.codec.decode
  encode_length := fun entry => by
    rw [length_append, length_replicate, RawGptEntry.codec.encode_length]
    rfl
  decode_encode := fun entry rest => by
    rw [append_assoc, RawGptEntry.codec.decode_encode]

theorem checkBlockSize_ok {size : BlockSize} (h : checkBlockSize size = .ok ()) :
    512 ≤ size.bytes ∧ isPowerOfTwo size.bytes = true := by
  rw [checkBlockSize, ensure_ok, Bool.and_eq_true, decide_eq_true_eq] at h
  exact h

namespace Gpt

variable {gpt : Gpt} {copy : GptCopy} {blockCount : Nat}

/-- What a table must be for a device of `blockCount` blocks to keep it. -/
structure Storable (gpt : Gpt) (blockCount : Nat) : Prop where
  size : checkBlockSize gpt.blockSize = .ok ()
  entrySize : gptEntrySize ≤ gpt.entrySize
  entryLt : gpt.entrySize < 2 ^ 32
  power : isPowerOfTwo gpt.entrySize = true
  bytes : gpt.entries.length * gpt.entrySize ≤ maxArrayBytes
  first : gpt.firstUsable ≤ gpt.lastUsable + 1
  fits : gpt.fits blockCount = true
  blocks : blockCount < 2 ^ 64

theorem fits_ok (h : gpt.fits blockCount = true) :
    2 ≤ gpt.primaryEntriesLba ∧ gpt.primaryEntriesLba + gpt.arrayBlocks ≤ gpt.firstUsable ∧
      gpt.lastUsable < gpt.backupEntriesLba ∧
        gpt.backupEntriesLba + gpt.arrayBlocks ≤ gpt.backupLba ∧ gpt.backupLba < blockCount := by
  simp only [fits, Bool.and_eq_true, decide_eq_true_eq, Option.any_eq_true, checkedAdd_some] at h
  obtain ⟨⟨⟨⟨hprimary, stop, ⟨-, rfl⟩, hstop⟩, hlast⟩, stop', ⟨-, rfl⟩, hstop'⟩, hbackup⟩ := h
  exact ⟨hprimary, hstop, hlast, hstop', hbackup⟩

theorem Storable.count_lt (h : gpt.Storable blockCount) : gpt.entries.length < 2 ^ 32 := by
  have hmul := Nat.mul_le_mul_left gpt.entries.length h.entrySize
  have hbytes := h.bytes
  simp only [gptEntrySize, maxArrayBytes] at hmul hbytes
  omega

def headerLba (gpt : Gpt) : GptCopy → Nat
  | .primary => 1
  | .backup => gpt.backupLba

def entriesLba (gpt : Gpt) : GptCopy → Nat
  | .primary => gpt.primaryEntriesLba
  | .backup => gpt.backupEntriesLba

def headerOf (gpt : Gpt) (copy : GptCopy) : RawGptHeader := gpt.header copy (crc32 gpt.arrayImage)

theorem arrayImage_length (h : gptEntrySize ≤ gpt.entrySize) :
    gpt.arrayImage.length = gpt.entries.length * gpt.entrySize := by
  have hlength := (slotCodec (gpt.entrySize - gptEntrySize)).flatMap_encode_length gpt.entries
  rw [show (slotCodec (gpt.entrySize - gptEntrySize)).width = gpt.entrySize from
    Nat.add_sub_cancel' h] at hlength
  exact hlength

theorem Storable.headerFields (h : gpt.Storable blockCount) (copy : GptCopy) :
    (gpt.headerOf copy).myLba.toNat = gpt.headerLba copy ∧
      (gpt.headerOf copy).firstUsableLba.toNat = gpt.firstUsable ∧
        (gpt.headerOf copy).lastUsableLba.toNat = gpt.lastUsable ∧
          (gpt.headerOf copy).entryArray gpt.blockSize = ⟨gpt.entriesLba copy, gpt.arrayBlocks,
            gpt.entries.length * gpt.entrySize, gpt.entries.length, gpt.entrySize⟩ := by
  obtain ⟨hprimary, hstop, hlast, hstop', hbackup⟩ := fits_ok h.fits
  have hfirst := h.first
  have hblocks := h.blocks
  have h64 : ∀ {n : Nat}, n < blockCount → (UInt64.ofNat n).toNat = n := fun hn =>
    UInt64.toNat_ofNat_of_lt (show _ < 2 ^ 64 by omega)
  have hcount : (UInt32.ofNat gpt.entries.length).toNat = gpt.entries.length :=
    UInt32.toNat_ofNat_of_lt h.count_lt
  have hsize : (UInt32.ofNat gpt.entrySize).toNat = gpt.entrySize :=
    UInt32.toNat_ofNat_of_lt h.entryLt
  have hlba : (UInt64.ofNat (gpt.headerLba copy)).toNat = gpt.headerLba copy := by
    cases copy with
    | primary => rfl
    | backup => exact h64 hbackup
  have hentries : (UInt64.ofNat (gpt.entriesLba copy)).toNat = gpt.entriesLba copy := by
    cases copy with
    | primary => exact h64 (by simp only [entriesLba]; omega)
    | backup => exact h64 (by simp only [entriesLba]; omega)
  refine ⟨?_, h64 (by omega), h64 (by omega), ?_⟩
  · rw [← hlba]
    cases copy <;> rfl
  · rw [RawGptHeader.entryArray]
    change EntryArray.mk (UInt64.ofNat _).toNat
      (blocksFor ((UInt32.ofNat gpt.entries.length).toNat *
      (UInt32.ofNat gpt.entrySize).toNat) gpt.blockSize)
        ((UInt32.ofNat gpt.entries.length).toNat *
        (UInt32.ofNat gpt.entrySize).toNat) (UInt32.ofNat gpt.entries.length).toNat
          (UInt32.ofNat gpt.entrySize).toNat = _
    rw [hcount, hsize, arrayBlocks]
    congr 1
    rw [← hentries]
    cases copy <;> rfl

theorem Storable.blockSize_ok (h : gpt.Storable blockCount) :
    512 ≤ gpt.blockSize.bytes ∧ isPowerOfTwo gpt.blockSize.bytes = true :=
  checkBlockSize_ok h.size

theorem headerOf_crc (gpt : Gpt) (copy : GptCopy) (rest : List UInt8) :
    gptHeaderCrc (RawGptHeader.codec.encode (gpt.headerOf copy) ++ rest)
      (gpt.headerOf copy).headerSize = some (gpt.headerOf copy).headerCrc32 :=
  gptHeaderCrc_encode (gpt.headerOf copy) rest rfl

theorem Storable.placed (h : gpt.Storable blockCount) (copy : GptCopy) :
    arrayPlaced (gpt.headerLba copy) (gpt.entriesLba copy) (gpt.entriesLba copy + gpt.arrayBlocks)
      gpt.arrayBlocks gpt.firstUsable gpt.lastUsable = true := by
  obtain ⟨hprimary, hstop, hlast, hstop', hbackup⟩ := fits_ok h.fits
  have hfirst := h.first
  have hblocks := h.blocks
  cases copy with
  | primary =>
    rw [arrayPlaced, headerLba, if_pos rfl, Bool.and_eq_true,
      decide_eq_true_eq, decide_eq_true_eq]
    exact ⟨hprimary, hstop⟩
  | backup =>
    have hroom : checkedAdd gpt.arrayBlocks 2 = some (gpt.arrayBlocks + 2) :=
      checkedAdd_some.mpr ⟨by omega, rfl⟩
    rw [arrayPlaced, headerLba, entriesLba, if_neg (by omega), hroom, Option.any_some]
    simp only [Bool.and_eq_true, decide_eq_true_eq]
    omega

theorem Storable.array_le (h : gpt.Storable blockCount) (copy : GptCopy) :
    gpt.entriesLba copy + gpt.arrayBlocks ≤ blockCount := by
  obtain ⟨hprimary, hstop, hlast, hstop', hbackup⟩ := fits_ok h.fits
  have hfirst := h.first
  cases copy with
  | primary =>
    rw [entriesLba]
    omega
  | backup =>
    rw [entriesLba]
    omega

theorem Storable.header_ok (h : gpt.Storable blockCount) (copy : GptCopy) :
    HeaderOk (padded gpt.blockSize (RawGptHeader.codec.encode (gpt.headerOf copy)))
      (gpt.headerLba copy) blockCount gpt.blockSize (gpt.headerOf copy) := by
  obtain ⟨hprimary, hstop, hlast, hstop', hbackup⟩ := fits_ok h.fits
  have hblocks := h.blocks
  have hrange := h.first
  have hsat : gpt.firstUsable ≤ saturatingAdd gpt.lastUsable 1 := by
    rw [saturatingAdd]
    omega
  have hlastBlock : gpt.lastUsable < blockCount := by omega
  have houtside :
      ¬ (gpt.firstUsable ≤ gpt.headerLba copy ∧ gpt.headerLba copy ≤ gpt.lastUsable) := by
    cases copy with
    | primary =>
      rw [headerLba]
      omega
    | backup =>
      rw [headerLba]
      omega
  obtain ⟨hplace, hfirst, hlastLba, harray⟩ := h.headerFields copy
  have hsize : (gpt.headerOf copy).sizeOfPartitionEntry.toNat = gpt.entrySize :=
    congrArg EntryArray.entrySize harray
  have hrevision : gptRevision >>> 16 = 1 := by decide
  refine ⟨RawGptHeader.codec.decode_encode _ _, rfl, hrevision, headerOf_crc gpt copy _, hplace,
    ?_, ?_, ?_, ?_, ?_, ?_, ?_, ?_, ?_⟩
  · rwa [hlastLba]
  · rwa [hfirst, hlastLba]
  · rwa [hfirst, hlastLba]
  · rw [hsize]
    exact h.entrySize
  · rw [hsize]
    exact h.power
  · rw [harray]
    exact Nat.lt_of_le_of_lt (h.array_le copy) h.blocks
  · rw [harray]
    exact h.bytes
  · rw [harray, hfirst, hlastLba]
    exact h.placed copy
  · rw [harray]
    exact h.array_le copy

end Gpt

/-- A device that holds one copy of a table. -/
structure Device.Holds (dev : Device) (gpt : Gpt) (copy : GptCopy) : Prop where
  size : dev.blockSize = gpt.blockSize
  header : dev.block (gpt.headerLba copy) =
    padded gpt.blockSize (RawGptHeader.codec.encode (gpt.headerOf copy))
  array : slice dev.image (gpt.entriesLba copy * dev.blockSize.bytes)
    (gpt.arrayBlocks * dev.blockSize.bytes) = padded gpt.blockSize gpt.arrayImage

namespace Device.Holds

variable {dev : Device} {gpt : Gpt} {copy : GptCopy}

theorem arrayBytes (h : dev.Holds gpt copy) (hs : gpt.Storable dev.blockCount) :
    dev.arrayBytes ((gpt.headerOf copy).entryArray dev.blockSize) = gpt.arrayImage := by
  obtain ⟨-, -, -, harray⟩ := hs.headerFields copy
  rw [h.size, harray, Device.arrayBytes, h.array, padded]
  exact take_left' (Gpt.arrayImage_length hs.entrySize)

theorem valid (h : dev.Holds gpt copy) (hs : gpt.Storable dev.blockCount) :
    dev.Copy (gpt.headerLba copy) (gpt.headerOf copy) := by
  obtain ⟨hprimary, hstop, hlast, hstop', hbackup⟩ := Gpt.fits_ok hs.fits
  have hfirst := hs.first
  have hok := hs.header_ok copy
  refine ⟨?_, ?_, ?_, ?_⟩
  · cases copy with
    | primary => exact Nat.one_ne_zero
    | backup =>
      rw [Gpt.headerLba]
      omega
  · cases copy with
    | primary =>
      rw [Gpt.headerLba]
      omega
    | backup => exact hbackup
  · rw [h.header, h.size]
    exact hok
  · rw [h.arrayBytes hs]
    rfl

end Device.Holds

theorem power_dvd {a b : Nat} (ha : isPowerOfTwo a = true) (hb : isPowerOfTwo b = true) :
    a ∣ b ∨ b ∣ a := by
  rw [isPowerOfTwo, beq_iff_eq] at ha hb
  rw [ha, hb]
  rcases Nat.le_total (Nat.log2 a) (Nat.log2 b) with h | h
  · exact .inl (Nat.pow_dvd_pow 2 h)
  · exact .inr (Nat.pow_dvd_pow 2 h)

theorem slot_room {size block : Nat} (hsize : gptEntrySize ≤ size) (hblock : 512 ≤ block)
    (hdvd : size ∣ block ∨ block ∣ size) (slot : Nat) :
    slot * size % block + gptEntrySize ≤ block := by
  have hlt := Nat.mod_lt (slot * size) (show 0 < block by omega)
  rw [gptEntrySize] at *
  rcases hdvd with ⟨n, rfl⟩ | ⟨n, rfl⟩
  · have hmod : slot * size % (size * n) = size * (slot % n) := by
      rw [Nat.mul_comm slot, Nat.mul_mod_mul_left]
    have hn : slot % n + 1 ≤ n := Nat.mod_lt slot
      (Nat.pos_of_mul_pos_left (show 0 < size * n by omega))
    have hmul := Nat.mul_le_mul_left size hn
    rw [Nat.mul_succ] at hmul
    omega
  · rw [Nat.mul_left_comm, Nat.mul_mod_right]
    omega

namespace Device.Holds

variable {dev : Device} {gpt : Gpt} {copy : GptCopy}

theorem block_slice {lba count index : Nat} (h : index < count) :
    dev.block (lba + index) =
      ((slice dev.image (lba * dev.blockSize.bytes) (count * dev.blockSize.bytes)).drop
        (index * dev.blockSize.bytes)).take dev.blockSize.bytes := by
  obtain ⟨n, rfl⟩ := Nat.exists_eq_add_of_lt h
  have hsplit : (index + n + 1) * dev.blockSize.bytes =
      index * dev.blockSize.bytes + (n + 1) * dev.blockSize.bytes := by
    rw [← Nat.add_mul, Nat.add_assoc]
  rw [hsplit, drop_slice, ← Nat.add_mul, Nat.succ_mul n, Nat.add_comm (n * _),
    take_slice _ _ _ (Nat.le_add_right _ _)]
  rfl

theorem drop_arrayImage (hsize : gptEntrySize ≤ gpt.entrySize) {slot : Nat}
    (hslot : slot < gpt.entries.length) :
    ∃ rest, (padded gpt.blockSize gpt.arrayImage).drop (slot * gpt.entrySize) =
      RawGptEntry.codec.encode gpt.entries[slot] ++ rest := by
  have hwidth : (slotCodec (gpt.entrySize - gptEntrySize)).width = gpt.entrySize :=
    Nat.add_sub_cancel' hsize
  have himage : gpt.arrayImage =
      gpt.entries.flatMap (slotCodec (gpt.entrySize - gptEntrySize)).encode := rfl
  have hdrop := (slotCodec (gpt.entrySize - gptEntrySize)).drop_flatMap gpt.entries
    (replicate (blocksFor gpt.arrayImage.length gpt.blockSize * gpt.blockSize.bytes -
      gpt.arrayImage.length) 0) slot
  rw [hwidth, if_pos hslot.le, drop_eq_getElem_cons hslot, flatMap_cons, ← himage] at hdrop
  rw [padded, hdrop]
  change ∃ rest, ((RawGptEntry.codec.encode gpt.entries[slot] ++ _) ++ _) ++ _ = _
  rw [append_assoc, append_assoc]
  exact ⟨_, rfl⟩

theorem entryAt (h : dev.Holds gpt copy) (hs : gpt.Storable dev.blockCount) {slot : Nat}
    (hslot : slot < gpt.entries.length) :
    dev.entryAt ((gpt.headerOf copy).entryArray dev.blockSize) slot = gpt.entries[slot] := by
  obtain ⟨-, -, -, harray⟩ := hs.headerFields copy
  obtain ⟨hblock, hpower⟩ := hs.blockSize_ok
  have hroom := slot_room hs.entrySize hblock (power_dvd hs.power hpower) slot
  rw [← h.size] at hroom
  have hindex : slot * gpt.entrySize / dev.blockSize.bytes < gpt.arrayBlocks := by
    have hend : slot * gpt.entrySize < gpt.arrayBlocks * dev.blockSize.bytes := by
      have hle := le_blocksFor (gpt.entries.length * gpt.entrySize) gpt.blockSize
      have hmul := Nat.mul_lt_mul_of_pos_right hslot
        (show 0 < gpt.entrySize from Nat.lt_of_lt_of_le (by decide) hs.entrySize)
      rw [h.size]
      exact Nat.lt_of_lt_of_le hmul hle
    exact Nat.div_lt_of_lt_mul (hend.trans_eq (Nat.mul_comm _ _))
  have hsum := Nat.div_add_mod' (slot * gpt.entrySize) dev.blockSize.bytes
  obtain ⟨rest, hdrop⟩ := drop_arrayImage hs.entrySize hslot
  rw [h.size, harray, Device.entryAt]
  dsimp only
  rw [block_slice hindex, h.array, drop_take, drop_drop, hsum, hdrop,
    take_append, take_of_length_le, RawGptEntry.codec.decode_encode]
  rw [RawGptEntry.codec.encode_length, width_entryCodec]
  omega

theorem entriesOf (h : dev.Holds gpt copy) (hs : gpt.Storable dev.blockCount) :
    dev.entriesOf ((gpt.headerOf copy).entryArray dev.blockSize) = gpt.entries := by
  obtain ⟨-, -, -, harray⟩ := hs.headerFields copy
  have hcount : ((gpt.headerOf copy).entryArray dev.blockSize).count = gpt.entries.length := by
    rw [h.size, harray]
  refine ext_getElem ?_ fun slot hslot hslot' => ?_
  · rw [Device.entriesOf, length_map, length_range, hcount]
  · simp only [Device.entriesOf, getElem_map, getElem_range]
    exact h.entryAt hs hslot'

end Device.Holds

end Hadris.Part

namespace Hadris.Part

open List
open Hadris.Prog

/-- Runs that take the blocks of areas. -/
def Covers (size : BlockSize) (runs : List Run) (areas : List Region) : Prop :=
  runs.map (Run.region size) = areas.map fun area => blockBytes size area.start area.length

def Device.stored (dev : Device) (runs : List Run) : Device :=
  { dev with image := store dev.blockSize dev.image runs }

section

variable {size : BlockSize} {runs : List Run} {areas : List Region} {run : Run} {area : Region}
  {bytes : List UInt8} {lba : Nat}

theorem covers_nil (size : BlockSize) : Covers size [] [] := rfl

theorem Covers.append {runs' : List Run} {areas' : List Region} (h : Covers size runs areas)
    (h' : Covers size runs' areas') : Covers size (runs ++ runs') (areas ++ areas') := by
  rw [Covers, map_append, map_append, h, h']

theorem Covers.cons (h : run.region size = blockBytes size area.start area.length)
    (hrest : Covers size runs areas) : Covers size (run :: runs) (area :: areas) := by
  rw [Covers, map_cons, map_cons, h, hrest]

theorem padded_region (size : BlockSize) (lba : Nat) (bytes : List UInt8) :
    (Run.mk lba (padded size bytes)).region size =
      blockBytes size lba (blocksFor bytes.length size) := by
  rw [Run.region, blockBytes, whole_padded]

theorem padded_block (lba : Nat) (hpos : 0 < bytes.length) (hle : bytes.length ≤ size.bytes) :
    (padded size bytes).length = size.bytes ∧
      (Run.mk lba (padded size bytes)).region size = blockBytes size lba 1 := by
  have hone := blocksFor_of_le hpos hle
  refine ⟨?_, ?_⟩
  · rw [whole_padded, hone, Nat.one_mul]
  · rw [padded_region, hone]

theorem Covers.of_mem (h : Covers size runs areas) (hrun : run ∈ runs) :
    ∃ area ∈ areas, run.region size = blockBytes size area.start area.length := by
  have hmem := mem_map_of_mem (f := Run.region size) hrun
  rw [h] at hmem
  obtain ⟨area, harea, heq⟩ := mem_map.mp hmem
  exact ⟨area, harea, heq.symm⟩

theorem Covers.apart (h : Covers size runs areas) (hapart : areas.Pairwise Region.Apart) :
    runs.Pairwise fun a b => (a.region size).Apart (b.region size) := by
  refine pairwise_map.mp ?_
  rw [h]
  exact pairwise_map.mpr (hapart.imp blockBytes_apart)

end

namespace Device

variable {dev : Device} {runs : List Run} {areas : List Region} {run : Run} {bytes : List UInt8}
  {lba : Nat}

theorem fits_of_region {area : Region}
    (h : run.region dev.blockSize = blockBytes dev.blockSize area.start area.length)
    (hstop : area.stop ≤ dev.blockCount) : run.Fits dev := by
  have hpos := dev.blockSize.pos
  rw [Run.region, blockBytes, Region.mk.injEq] at h
  obtain ⟨hlba, hlength⟩ := h
  have hdiv : run.bytes.length / dev.blockSize.bytes = area.length := by
    rw [hlength, Nat.mul_div_cancel _ hpos]
  refine ⟨?_, ?_⟩
  · rw [hdiv, hlength]
  · rw [hdiv, Nat.eq_of_mul_eq_mul_right hpos hlba]
    exact hstop

theorem fits_of_covers (h : Covers dev.blockSize runs areas)
    (hstop : ∀ area ∈ areas, area.stop ≤ dev.blockCount) : ∀ run ∈ runs, run.Fits dev := by
  intro run hrun
  obtain ⟨area, harea, hregion⟩ := h.of_mem hrun
  exact fits_of_region hregion (hstop area harea)

theorem stored_kept (h : Covers dev.blockSize runs areas)
    (hapart : ∀ area ∈ areas, (blockRegion lba).Apart area) :
    (dev.stored runs).block lba = dev.block lba := by
  have hkept : slice (store dev.blockSize dev.image runs) (blockBytes dev.blockSize lba 1).start
      (blockBytes dev.blockSize lba 1).length =
        slice dev.image (blockBytes dev.blockSize lba 1).start
          (blockBytes dev.blockSize lba 1).length :=
    slice_store_apart fun run hrun => by
      obtain ⟨area, harea, hregion⟩ := h.of_mem hrun
      rw [hregion]
      exact blockBytes_apart (hapart area harea)
  rw [blockBytes, Nat.one_mul] at hkept
  exact hkept

theorem stored_block (hapart : runs.Pairwise fun a b => (a.region dev.blockSize).Apart
      (b.region dev.blockSize))
    (hmem : ⟨lba, padded dev.blockSize bytes⟩ ∈ runs) (hpos : 0 < bytes.length)
    (hle : bytes.length ≤ dev.blockSize.bytes) :
    (dev.stored runs).block lba = padded dev.blockSize bytes := by
  have hheld := slice_store_mem dev.image hapart hmem
  rw [(padded_block lba hpos hle).1] at hheld
  exact hheld

theorem stored_record (hsize : 512 ≤ dev.blockSize.bytes)
    (hapart : runs.Pairwise fun a b => (a.region dev.blockSize).Apart (b.region dev.blockSize))
    {record : RawMbr} (hmem : ⟨lba, padded dev.blockSize (RawMbr.codec.encode record)⟩ ∈ runs)
    (hdisk : lba < dev.blockCount) : (dev.stored runs).readRecord lba = .ok record := by
  have hlength : (RawMbr.codec.encode record).length = 512 := RawMbr.codec.encode_length record
  have hblock := stored_block hapart hmem (by omega) (by omega)
  have hread : (dev.stored runs).readBlock lba = .ok ((dev.stored runs).block lba) :=
    if_pos hdisk
  rw [readRecord, hread, hblock]
  exact congrArg Except.ok (RawMbr.codec.decode_encode record _)

end Device

namespace Gpt

variable {gpt : Gpt} {dev : Device} {record : RawMbr} {blockCount : Nat}

def copyAreas (gpt : Gpt) (copy : GptCopy) : List Region :=
  [⟨gpt.entriesLba copy, gpt.arrayBlocks⟩, ⟨gpt.headerLba copy, 1⟩]

def areas (gpt : Gpt) : List Region := gpt.copyAreas .backup ++ gpt.copyAreas .primary ++ [⟨0, 1⟩]

def copyRuns (gpt : Gpt) (copy : GptCopy) : List Part.Run :=
  [⟨gpt.entriesLba copy, padded gpt.blockSize gpt.arrayImage⟩,
    ⟨gpt.headerLba copy, padded gpt.blockSize (RawGptHeader.codec.encode (gpt.headerOf copy))⟩]

def allRuns (gpt : Gpt) (record : RawMbr) : List Part.Run :=
  Disk.gptRuns gpt ++ [⟨0, padded gpt.blockSize (RawMbr.codec.encode record)⟩]

theorem gptRuns_eq (gpt : Gpt) :
    Disk.gptRuns gpt = gpt.copyRuns .backup ++ gpt.copyRuns .primary := rfl

theorem record_region {size : BlockSize} (hsize : 512 ≤ size.bytes)
    (lba : Nat) (record : RawMbr) :
    (Part.Run.mk lba (padded size (RawMbr.codec.encode record))).region size =
      blockBytes size lba 1 := by
  have hlength : (RawMbr.codec.encode record).length = 512 := RawMbr.codec.encode_length record
  exact (padded_block _ (by omega) (by omega)).2

theorem Storable.covers_copy (h : gpt.Storable blockCount) (copy : GptCopy) :
    Covers gpt.blockSize (gpt.copyRuns copy) (gpt.copyAreas copy) := by
  have hblock := h.blockSize_ok.1
  have hheader : (RawGptHeader.codec.encode (gpt.headerOf copy)).length = 92 :=
    RawGptHeader.codec.encode_length _
  refine .cons ?_ (.cons (padded_block _ (by omega) (by omega)).2 (covers_nil _))
  rw [padded_region, arrayImage_length h.entrySize]
  rfl

theorem Storable.covers (h : gpt.Storable blockCount) (record : RawMbr) :
    Covers gpt.blockSize (gpt.allRuns record) gpt.areas :=
  ((h.covers_copy .backup).append (h.covers_copy .primary)).append
    (.cons (record_region h.blockSize_ok.1 0 record) (covers_nil _))

theorem Storable.areas_apart (h : gpt.Storable blockCount) : gpt.areas.Pairwise Region.Apart := by
  obtain ⟨hprimary, hstop, hlast, hstop', hbackup⟩ := fits_ok h.fits
  have hfirst := h.first
  simp only [areas, copyAreas, entriesLba, headerLba, cons_append, nil_append, pairwise_cons,
    forall_mem_cons, not_mem_nil, Region.Apart, Region.Before, Region.stop]
  refine ⟨⟨?_, ?_, ?_, ?_, fun _ h => h.elim⟩, ⟨?_, ?_, ?_, fun _ h => h.elim⟩,
    ⟨?_, ?_, fun _ h => h.elim⟩, ⟨?_, fun _ h => h.elim⟩, fun _ h => h.elim,
      List.Pairwise.nil⟩ <;> omega

theorem Storable.areas_onDisk (h : gpt.Storable blockCount) :
    ∀ area ∈ gpt.areas, area.stop ≤ blockCount := by
  obtain ⟨hprimary, hstop, hlast, hstop', hbackup⟩ := fits_ok h.fits
  have hfirst := h.first
  simp only [areas, copyAreas, entriesLba, headerLba, cons_append, nil_append, forall_mem_cons,
    not_mem_nil, Region.stop]
  refine ⟨?_, ?_, ?_, ?_, ?_, fun _ h => h.elim⟩ <;> omega

theorem Storable.usable_apart (h : gpt.Storable blockCount) {lba : Nat}
    (hlba : gpt.usableArea.Has lba) : ∀ area ∈ gpt.areas, (blockRegion lba).Apart area := by
  obtain ⟨hprimary, hstop, hlast, hstop', hbackup⟩ := fits_ok h.fits
  have hfirst := h.first
  simp only [usableArea, Region.Has, Region.stop] at hlba
  simp only [areas, copyAreas, entriesLba, headerLba, cons_append, nil_append, forall_mem_cons,
    not_mem_nil, Region.Apart, Region.Before, Region.stop, blockRegion]
  refine ⟨?_, ?_, ?_, ?_, ?_, fun _ h => h.elim⟩ <;> omega

end Gpt

end Hadris.Part
