import Hadris.Bytes
import Hadris.Directory.Name
import Hadris.Directory.Candidates
import Hadris.Directory.Planned

namespace Hadris

open List

theorem bytesAt_length (bytes : List UInt8) (start count : Nat) :
    (bytesAt bytes start count).length = count := by
  rw [bytesAt, length_map, length_range]

theorem bytesAt_field {before field : List UInt8} {start count : Nat} (rest : List UInt8)
    (hstart : before.length = start) (hcount : field.length = count) :
    bytesAt (before ++ (field ++ rest)) start count = field := by
  rw [← hstart, ← hcount]
  exact (bytesAt_append_add before _ 0 _).trans (bytesAt_zero field rest)

namespace Directory

def attrLongName : UInt8 := 0x0F
def attrLongNameMask : UInt8 := 0x3F
def entryEnd : UInt8 := 0x00
def entryFree : UInt8 := 0xE5

def unitBytes (units : List UInt16) : List UInt8 := units.flatMap fun unit => u16Bytes unit.toNat

def pack (units : List UInt16) : List UInt8 × List UInt8 × List UInt8 :=
  (unitBytes (units.take 5), unitBytes ((units.drop 5).take 6), unitBytes (units.drop 11))

def unpack (name1 name2 name3 : List UInt8) : List UInt16 :=
  (List.range unitsPerEntry).map fun i => UInt16.ofNat (u16At (name1 ++ (name2 ++ name3)) (2 * i))

def LongEntry.encode (entry : LongEntry) : List UInt8 :=
  let (name1, name2, name3) := pack entry.name
  [entry.sequence] ++
    (name1 ++ ([attrLongName, 0, entry.checksum] ++ (name2 ++ ([0, 0] ++ name3))))

/-- The fields of a short entry as its 32 bytes hold them. -/
structure RawDirEntry where
  name : ShortName
  attr : UInt8
  ntCase : UInt8
  createdTenths : UInt8
  createdTime : UInt16
  createdDate : UInt16
  accessedDate : UInt16
  clusterHigh : UInt16
  modifiedTime : UInt16
  modifiedDate : UInt16
  clusterLow : UInt16
  size : UInt32

namespace RawDirEntry

def fields (raw : RawDirEntry) : List UInt8 :=
  [raw.attr, raw.ntCase, raw.createdTenths] ++ u16Bytes raw.createdTime.toNat ++
    u16Bytes raw.createdDate.toNat ++ u16Bytes raw.accessedDate.toNat ++
    u16Bytes raw.clusterHigh.toNat ++ u16Bytes raw.modifiedTime.toNat ++
    u16Bytes raw.modifiedDate.toNat ++ u16Bytes raw.clusterLow.toNat ++ u32Bytes raw.size.toNat

def encode (raw : RawDirEntry) : List UInt8 := raw.name.bytes ++ raw.fields

def decode (raw : List UInt8) : RawDirEntry where
  name := ⟨bytesAt raw 0 11, bytesAt_length raw 0 11⟩
  attr := u8 (byteAt raw 11)
  ntCase := u8 (byteAt raw 12)
  createdTenths := u8 (byteAt raw 13)
  createdTime := UInt16.ofNat (u16At raw 14)
  createdDate := UInt16.ofNat (u16At raw 16)
  accessedDate := UInt16.ofNat (u16At raw 18)
  clusterHigh := UInt16.ofNat (u16At raw 20)
  modifiedTime := UInt16.ofNat (u16At raw 22)
  modifiedDate := UInt16.ofNat (u16At raw 24)
  clusterLow := UInt16.ofNat (u16At raw 26)
  size := UInt32.ofNat (u32At raw 28)

def firstCluster (raw : RawDirEntry) : FatKind → Nat
  | .fat32 => (raw.clusterHigh.toNat <<< 16 ||| raw.clusterLow.toNat) &&& FatKind.fat32.mask
  | _ => raw.clusterLow.toNat

def short (raw : RawDirEntry) (kind : FatKind) : ShortEntry :=
  ⟨raw.name, raw.attr, raw.ntCase, raw.firstCluster kind⟩

end RawDirEntry

def Slot.parse (kind : FatKind) (raw : List UInt8) : Slot :=
  let first := u8 (byteAt raw 0)
  if first = entryEnd then .endMark
  else if first = entryFree then .free
  else if u8 (byteAt raw 11) &&& attrLongNameMask = attrLongName then
    .long {
      sequence := first
      checksum := u8 (byteAt raw 13)
      name := unpack (bytesAt raw 1 10) (bytesAt raw 14 12) (bytesAt raw 28 4) }
  else .short ((RawDirEntry.decode raw).short kind)

@[simp] theorem u8_toNat_self (byte : UInt8) : u8 byte.toNat = byte := UInt8.ofNat_toNat

theorem unitBytes_length (units : List UInt16) : (unitBytes units).length = 2 * units.length := by
  induction units with
  | nil => rfl
  | cons unit rest ih =>
    change (u16Bytes unit.toNat ++ unitBytes rest).length = _
    rw [length_append, ih, u16Bytes_length, length_cons]
    omega

theorem u16At_unitBytes (units : List UInt16) (i : Nat) (h : i < units.length) :
    u16At (unitBytes units) (2 * i) = units[i].toNat := by
  induction units generalizing i with
  | nil => exact absurd h (Nat.not_lt_zero i)
  | cons unit rest ih =>
    change u16At (u16Bytes unit.toNat ++ unitBytes rest) (2 * i) = _
    rcases i with _ | i
    · rw [Nat.mul_zero, u16At_u16Bytes]
      exact Nat.mod_eq_of_lt unit.toNat_lt
    · rw [show 2 * (i + 1) = (u16Bytes unit.toNat).length + 2 * i by simp; omega,
        u16At_append_add, ih i (Nat.lt_of_succ_lt_succ h), getElem_cons_succ]

theorem pack_append (units : List UInt16) :
    (pack units).1 ++ ((pack units).2.1 ++ (pack units).2.2) = unitBytes units := by
  simp only [pack, unitBytes, ← flatMap_append]
  congr 1
  rw [show units.drop 11 = (units.drop 5).drop 6 by rw [drop_drop], take_append_drop,
    take_append_drop]

theorem pack_length {units : List UInt16} (h : units.length = unitsPerEntry) :
    (pack units).1.length = 10 ∧ (pack units).2.1.length = 12 ∧ (pack units).2.2.length = 4 := by
  simp only [pack, unitBytes_length, length_take, length_drop, h, unitsPerEntry]
  decide

theorem unpack_pack {units : List UInt16} (h : units.length = unitsPerEntry) :
    unpack (pack units).1 (pack units).2.1 (pack units).2.2 = units := by
  apply ext_getElem
  · rw [unpack, length_map, length_range, h]
  · intro i hi hi'
    simp only [unpack, getElem_map, getElem_range, pack_append]
    rw [u16At_unitBytes units i hi', UInt16.ofNat_toNat]

theorem LongEntry.parse_encode {entry : LongEntry} (kind : FatKind)
    (h : entry.name.length = unitsPerEntry) (hend : entry.sequence ≠ entryEnd)
    (hfree : entry.sequence ≠ entryFree) : Slot.parse kind entry.encode = .long entry := by
  obtain ⟨h₁, h₂, h₃⟩ := pack_length h
  rcases hpack : pack entry.name with ⟨name1, name2, name3⟩
  simp only [hpack] at h₁ h₂ h₃
  have hencode : entry.encode = [entry.sequence] ++ (name1 ++
      ([attrLongName, 0, entry.checksum] ++ (name2 ++ ([0, 0] ++ name3)))) := by
    rw [LongEntry.encode, hpack]
  have hname1 : bytesAt entry.encode 1 10 = name1 := by
    rw [hencode]
    exact bytesAt_field _ rfl h₁
  have hname2 : bytesAt entry.encode 14 12 = name2 := by
    rw [hencode, ← append_assoc, ← append_assoc]
    exact bytesAt_field _ (by rw [length_append, length_append, h₁]; rfl) h₂
  have hname3 : bytesAt entry.encode 28 4 = name3 := by
    have hsplit : entry.encode = ([entry.sequence] ++ name1 ++
        [attrLongName, 0, entry.checksum] ++ name2 ++ [0, 0]) ++ (name3 ++ []) := by
      rw [hencode, append_nil]
      simp only [append_assoc]
    rw [hsplit]
    exact bytesAt_field [] (by simp [h₁, h₂]) h₃
  have htail : ∀ i, byteAt entry.encode (11 + i) =
      byteAt ([attrLongName, 0, entry.checksum] ++ (name2 ++ ([0, 0] ++ name3))) i := by
    intro i
    have hlength : ([entry.sequence] ++ name1).length = 11 := by simp [h₁]
    rw [hencode, ← append_assoc, ← hlength]
    exact byteAt_append_add _ _ i
  have hfirst : byteAt entry.encode 0 = entry.sequence.toNat := by
    rw [hencode]
    rfl
  have hattr : byteAt entry.encode 11 = attrLongName.toNat := htail 0
  have hsum : byteAt entry.encode 13 = entry.checksum.toNat := htail 2
  have hunits := unpack_pack h
  simp only [hpack] at hunits
  simp only [Slot.parse, hfirst, hattr, hsum, hname1, hname2, hname3, hunits, u8_toNat_self]
  rw [if_neg hend, if_neg hfree, if_pos (by decide)]

namespace RawDirEntry

variable (raw : RawDirEntry)

theorem fields_length : raw.fields.length = 21 := rfl

theorem byteAt_encode (i : Nat) : byteAt raw.encode (11 + i) = byteAt raw.fields i := by
  rw [← raw.name.length_eq]
  exact byteAt_append_add _ _ i

theorem u16At_encode (i : Nat) : u16At raw.encode (11 + i) = u16At raw.fields i := by
  rw [← raw.name.length_eq]
  exact u16At_append_add _ _ i

theorem u32At_encode (i : Nat) : u32At raw.encode (11 + i) = u32At raw.fields i := by
  rw [← raw.name.length_eq]
  exact u32At_append_add _ _ i

theorem name_encode : bytesAt raw.encode 0 11 = raw.name.bytes := by
  rw [encode, ← raw.name.length_eq]
  exact bytesAt_zero _ _

theorem decode_encode : decode raw.encode = raw := by
  have hunit : ∀ n : UInt16, UInt16.ofNat (n.toNat % 65536) = n := fun n => by
    rw [Nat.mod_eq_of_lt n.toNat_lt, UInt16.ofNat_toNat]
  have hword : ∀ n : UInt32, UInt32.ofNat (n.toNat % 4294967296) = n := fun n => by
    rw [Nat.mod_eq_of_lt n.toNat_lt, UInt32.ofNat_toNat]
  have hu16 : ∀ (before : List UInt8) (n : UInt16) (rest : List UInt8),
      u16At (before ++ (u16Bytes n.toNat ++ rest)) before.length = n.toNat % 65536 := by
    intro before n rest
    exact (u16At_append_add before _ 0).trans (u16At_u16Bytes _ _)
  have hu32 : u32At raw.fields 17 = raw.size.toNat % 4294967296 :=
    (u32At_append_add (raw.fields.take 17) (u32Bytes raw.size.toNat) 0).trans
      (u32At_u32Bytes _ [])
  have hfield : ∀ (start : Nat) (n : UInt16) (rest : List UInt8),
      raw.fields = raw.fields.take start ++ (u16Bytes n.toNat ++ rest) → start ≤ 21 →
        u16At raw.fields start = n.toNat % 65536 := by
    intro start n rest heq hstart
    have hlength : (raw.fields.take start).length = start := by
      rw [length_take, fields_length]
      omega
    rw [heq]
    have h := hu16 (raw.fields.take start) n rest
    rwa [hlength] at h
  obtain ⟨name, attr, ntCase, tenths, ctime, cdate, adate, high, mtime, mdate, low, size⟩ := raw
  simp only [decode, RawDirEntry.mk.injEq]
  refine ⟨?_, ?_, ?_, ?_, ?_, ?_, ?_, ?_, ?_, ?_, ?_, ?_⟩
  · rw [ShortName.mk.injEq]
    exact name_encode _
  · rw [byteAt_encode _ 0]
    exact u8_toNat_self _
  · rw [byteAt_encode _ 1]
    exact u8_toNat_self _
  · rw [byteAt_encode _ 2]
    exact u8_toNat_self _
  · rw [u16At_encode _ 3, hfield 3 ctime _ rfl (by decide), hunit]
  · rw [u16At_encode _ 5, hfield 5 cdate _ rfl (by decide), hunit]
  · rw [u16At_encode _ 7, hfield 7 adate _ rfl (by decide), hunit]
  · rw [u16At_encode _ 9, hfield 9 high _ rfl (by decide), hunit]
  · rw [u16At_encode _ 11, hfield 11 mtime _ rfl (by decide), hunit]
  · rw [u16At_encode _ 13, hfield 13 mdate _ rfl (by decide), hunit]
  · rw [u16At_encode _ 15, hfield 15 low _ rfl (by decide), hunit]
  · rw [u32At_encode _ 17, hu32, hword]

theorem parse_encode (kind : FatKind) (hend : raw.name.first ≠ entryEnd)
    (hfree : raw.name.first ≠ entryFree) (hattr : raw.attr &&& attrLongNameMask ≠ attrLongName) :
    Slot.parse kind raw.encode = .short (raw.short kind) := by
  have hfirst : u8 (byteAt raw.encode 0) = raw.name.first := by
    have hlength := raw.name.length_eq
    rw [encode, byteAt_append_of_lt _ (by omega), byteAt, u8_toNat_self, ShortName.first,
      headD_eq_head?_getD, head?_eq_getElem?, getD_eq_getElem?_getD]
  have hattrs : u8 (byteAt raw.encode 11) = raw.attr := by
    rw [byteAt_encode raw 0]
    exact u8_toNat_self _
  simp only [Slot.parse, hfirst, hattrs, decode_encode]
  rw [if_neg hend, if_neg hfree, if_neg hattr]

end RawDirEntry

end Directory

end Hadris

namespace Hadris.Directory

open List

variable {text : Text} {ch : Char}

theorem fromU32_self (ch : Char) : fromU32 ch.toNat = some ch := by
  have hvalid : ch.toNat.isValidChar := ch.valid
  rw [fromU32, dif_pos hvalid]
  rfl

theorem isLow_iff (unit : UInt16) : isLow unit = true ↔ 0xDC00 ≤ unit.toNat ∧
    unit.toNat < 0xE000 :=
  decide_eq_true_iff

theorem utf16Chars_cons {unit : UInt16} (h : ¬(0xD800 ≤ unit.toNat ∧ unit.toNat < 0xDC00))
    (rest : List UInt16) :
    utf16Chars (unit :: rest) = (fromU32 unit.toNat).getD (Char.ofNat 0xFFFD) ::
      utf16Chars rest := by
  rcases rest with _ | ⟨low, rest⟩
  · rw [utf16Chars, utf16Chars]
  · rw [utf16Chars, if_neg fun hpair => h ⟨hpair.1, hpair.2.1⟩]

theorem utf16Chars_charUnits (ch : Char) (rest : List UInt16) :
    utf16Chars (charUnits ch ++ rest) = ch :: utf16Chars rest := by
  have hvalid := char_valid ch
  rw [charUnits]
  split
  · rename_i hlt
    rw [singleton_append, utf16Chars_cons (by rw [toNat_ofNat_unit hlt]; omega),
      toNat_ofNat_unit hlt, fromU32_self, Option.getD_some]
  · have hhigh : (UInt16.ofNat (0xD800 + (ch.toNat - 0x10000) / 0x400)).toNat =
        0xD800 + (ch.toNat - 0x10000) / 0x400 := toNat_ofNat_unit (by omega)
    have hlow : (UInt16.ofNat (0xDC00 + (ch.toNat - 0x10000) % 0x400)).toNat =
        0xDC00 + (ch.toNat - 0x10000) % 0x400 := toNat_ofNat_unit (by omega)
    rw [cons_append, cons_append, nil_append, utf16Chars, if_pos ⟨by omega, by omega,
      (isLow_iff _).mpr (by omega)⟩, hhigh, hlow]
    have hcode : 0x10000 + (0xD800 + (ch.toNat - 0x10000) / 0x400 - 0xD800) * 0x400 +
        (0xDC00 + (ch.toNat - 0x10000) % 0x400 - 0xDC00) = ch.toNat := by omega
    rw [hcode, Char.ofNat_toNat]

theorem utf16Chars_encodeUtf16 (text : Text) : utf16Chars (encodeUtf16 text) = text := by
  induction text with
  | nil => rfl
  | cons ch rest ih =>
    change utf16Chars (charUnits ch ++ encodeUtf16 rest) = _
    rw [utf16Chars_charUnits, ih]

theorem toNat_pair {high low : UInt16} (hhigh : 0xD800 ≤ high.toNat ∧ high.toNat < 0xDC00)
    (hlow : isLow low = true) :
    (Char.ofNat (0x10000 + (high.toNat - 0xD800) * 0x400 + (low.toNat - 0xDC00))).toNat =
      0x10000 + (high.toNat - 0xD800) * 0x400 + (low.toNat - 0xDC00) := by
  rw [isLow_iff] at hlow
  have hvalid : (0x10000 + (high.toNat - 0xD800) * 0x400 + (low.toNat - 0xDC00)).isValidChar := by
    right
    omega
  rw [Char.ofNat, dif_pos hvalid]
  rfl

theorem toNat_single (unit : UInt16) :
    ((fromU32 unit.toNat).getD (Char.ofNat 0xFFFD)).toNat = unit.toNat ∨
      (fromU32 unit.toNat).getD (Char.ofNat 0xFFFD) = Char.ofNat 0xFFFD := by
  cases h : fromU32 unit.toNat with
  | none => exact .inr rfl
  | some ch => exact .inl (fromU32_toNat h)

theorem mem_utf16Chars {units : List UInt16} (h : ch ∈ utf16Chars units) :
    (∃ unit ∈ units, ch.toNat = unit.toNat) ∨ ch = Char.ofNat 0xFFFD ∨ 0x10000 ≤ ch.toNat := by
  induction units using utf16Chars.induct with
  | case1 => exact absurd h not_mem_nil
  | case2 unit =>
    rw [utf16Chars, mem_singleton] at h
    subst h
    rcases toNat_single unit with h | h
    · exact .inl ⟨unit, mem_singleton_self unit, h⟩
    · exact .inr (.inl h)
  | case3 high low rest hpair ih =>
    rw [utf16Chars, if_pos hpair] at h
    rcases mem_cons.mp h with h | h
    · refine .inr (.inr ?_)
      rw [h, toNat_pair ⟨hpair.1, hpair.2.1⟩ hpair.2.2]
      omega
    · rcases ih h with ⟨unit, hunit, h⟩ | h
      · exact .inl ⟨unit, mem_cons_of_mem _ (mem_cons_of_mem _ hunit), h⟩
      · exact .inr h
  | case4 high low rest hpair ih =>
    rw [utf16Chars, if_neg hpair] at h
    rcases mem_cons.mp h with h | h
    · rcases toNat_single high with hsingle | hsingle
      · exact .inl ⟨high, mem_cons_self, by rw [h, hsingle]⟩
      · exact .inr (.inl (h.trans hsingle))
    · rcases ih h with ⟨unit, hunit, h⟩ | h
      · exact .inl ⟨unit, mem_cons_of_mem _ hunit, h⟩
      · exact .inr h

theorem utf8Size_le {ch : Char} (h : ch.toNat < 0x10000) : ch.utf8Size ≤ 3 := by
  have hval : ch.val.toNat < 0x10000 := h
  rw [Char.utf8Size]
  split
  · omega
  · split
    · omega
    · split
      · omega
      · rename_i hlarge
        rw [UInt32.le_iff_toNat_le] at hlarge
        exact absurd (Nat.le_of_lt_succ hval) hlarge

theorem encodeUtf8_cons_length (ch : Char) (rest : Text) :
    (encodeUtf8 (ch :: rest)).length = ch.utf8Size + (encodeUtf8 rest).length := by
  change (String.utf8EncodeChar ch ++ encodeUtf8 rest).length = _
  rw [length_append, String.length_utf8EncodeChar]

theorem encodeUtf8_utf16Chars_length (units : List UInt16) :
    (encodeUtf8 (utf16Chars units)).length ≤ 3 * units.length := by
  have hsingle : ∀ unit : UInt16,
      ((fromU32 unit.toNat).getD (Char.ofNat 0xFFFD)).utf8Size ≤ 3 := by
    intro unit
    refine utf8Size_le ?_
    rcases toNat_single unit with h | h
    · rw [h]
      exact unit.toNat_lt
    · rw [h]
      decide
  induction units using utf16Chars.induct with
  | case1 => exact Nat.zero_le _
  | case2 unit =>
    rw [utf16Chars, encodeUtf8_cons_length]
    exact Nat.add_le_add_right (hsingle unit) 0
  | case3 high low rest hpair ih =>
    rw [utf16Chars, if_pos hpair, encodeUtf8_cons_length, length_cons, length_cons]
    have hsize := Char.utf8Size_le_four
      (Char.ofNat (0x10000 + (high.toNat - 0xD800) * 0x400 + (low.toNat - 0xDC00)))
    omega
  | case4 high low rest hpair ih =>
    rw [utf16Chars, if_neg hpair, encodeUtf8_cons_length, length_cons]
    have hsize := hsingle high
    omega

theorem encodeUtf8_injective : Function.Injective encodeUtf8 := by
  intro a b h
  have hencode : a.utf8Encode = b.utf8Encode := congrArg toByteArray h
  have hdecode := congrArg ByteArray.utf8Decode? hencode
  rw [utf8Decode?_utf8Encode, utf8Decode?_utf8Encode, Option.some.injEq] at hdecode
  exact congrArg Array.toList hdecode

end Hadris.Directory

namespace Hadris.Directory

open List

/-- Why bytes are no name. -/
inductive NameError where
  | empty
  | currentDir
  | parentDir
  | separator
  | nul
  | tooLong
deriving DecidableEq

def validateBytes : List UInt8 → Except NameError Unit
  | [] => .ok ()
  | byte :: rest =>
    if byte = 0x2F then .error .separator
    else if byte = 0 then .error .nul
    else validateBytes rest

def validate (bytes : List UInt8) : Except NameError Unit :=
  if bytes = [] then .error .empty
  else if bytes = [0x2E] then .error .currentDir
  else if bytes = [0x2E, 0x2E] then .error .parentDir
  else validateBytes bytes

namespace NameBuf

def capacity : Nat := 1024

def set (bytes : List UInt8) : Except NameError (List UInt8) := do
  validate bytes
  if bytes.length ≤ capacity then .ok bytes else .error .tooLong

def fill (written : Option (List UInt8)) : Except NameError (List UInt8) :=
  match written with
  | none => .error .tooLong
  | some bytes => do
    validate bytes
    .ok bytes

end NameBuf

def utf16ToUtf8 (units : List UInt16) (room : Nat) : Option (List UInt8) :=
  let bytes := encodeUtf8 (utf16Chars units)
  if bytes.length ≤ room then some bytes else none

def writeShort (entry : ShortEntry) (page : CodePage) : Except ErrorKind (List UInt8) :=
  match NameBuf.set (encodeUtf8 (entry.name.display entry.ntCase page.decode)) with
  | .ok bytes => .ok bytes
  | .error .tooLong => .error .limitExceeded
  | .error _ => .error .corrupt

/-- The name of an entry: the long name when it is a valid name, else the short
name. -/
def writeName (long : Option (List UInt16)) (entry : ShortEntry) (page : CodePage) :
    Except ErrorKind (List UInt8) :=
  match long with
  | none => writeShort entry page
  | some units =>
    match NameBuf.fill (utf16ToUtf8 units NameBuf.capacity) with
    | .ok bytes => .ok bytes
    | .error _ => writeShort entry page

def storedSlots (new : NewName) (raw : RawDirEntry) : List (List UInt8) :=
  (List.range new.slots).map fun index =>
    if index + 1 = new.slots then raw.encode
    else (longEntry new.text (ShortEntry.new raw.name raw.attr).lfnChecksum index).encode

def readNames (kind : FatKind) (page : CodePage) (slots : List (List UInt8)) :
    List (Except ErrorKind (List UInt8)) :=
  (listing 0 .new 0 (slots.map (Slot.parse kind))).map fun loc =>
    writeName loc.long loc.entry page

/-- A short entry a directory may choose for a new name. -/
structure NewName.Chosen (new : NewName) (page : CodePage) (fold : UInt16 → UInt16)
    (raw : RawDirEntry) : Prop where
  name : new.lossless = true ∧ raw.name = Directory.candidate new.text page fold 0 ∨
    new.shortOnly = false ∧ ∃ suffix, 0 < suffix ∧ suffix ≤ 255 ∧
      raw.name = Directory.candidate new.text page fold suffix
  ntCase : raw.ntCase = if new.shortOnly then new.caseBits.getD 0 else 0
  attr : raw.attr &&& attrVolumeId = 0

/-- What fragments of 13 code units hold of a name, each up to its first
terminator or filler. -/
def legible (text : Text) : Text := utf16Chars (kept text 0)

variable {text : Text} {page : CodePage} {fold : UInt16 → UInt16} {new : NewName}
  {raw : RawDirEntry} {entry : ShortEntry}

theorem validateBytes_ok {bytes : List UInt8} :
    validateBytes bytes = .ok () ↔ ∀ byte ∈ bytes, byte ≠ 0x2F ∧ byte ≠ 0 := by
  induction bytes with
  | nil => simp [validateBytes]
  | cons byte rest ih =>
    rw [validateBytes, forall_mem_cons, ← ih]
    split
    · rename_i hslash
      exact iff_of_false (fun h => nomatch h) fun h => absurd hslash h.1.1
    · rename_i hslash
      split
      · rename_i hnul
        exact iff_of_false (fun h => nomatch h) fun h => absurd hnul h.1.2
      · rename_i hnul
        exact ⟨fun h => ⟨⟨hslash, hnul⟩, h⟩, fun h => h.2⟩

theorem mem_encodeUtf8 {byte : UInt8} (hbyte : byte < 0x80) :
    byte ∈ encodeUtf8 text ↔ ∃ ch ∈ text, ch.toNat = byte.toNat := by
  rw [encodeUtf8, mem_flatMap]
  have hlow : byte.toNat < 0x80 := UInt8.lt_iff_toNat_lt.mp hbyte
  refine exists_congr fun ch => and_congr_right fun _ => ?_
  change byte ∈ String.utf8EncodeChar ch ↔ ch.val.toNat = byte.toNat
  have hmax : ch.val.toNat < 0x110000 := by
    have hvalid := char_valid ch
    change ch.val.toNat < 0xD800 ∨ 0xDFFF < ch.val.toNat ∧ ch.val.toNat < 0x110000 at hvalid
    omega
  have hne : ∀ high : Nat, 0x80 ≤ high → high < 0x100 → byte ≠ UInt8.ofNat high := by
    intro high hhigh hlt heq
    have hnat := congrArg UInt8.toNat heq
    rw [UInt8.toNat_ofNat_of_lt' hlt] at hnat
    omega
  rw [String.utf8EncodeChar]
  split
  · rw [mem_singleton, ← UInt8.toNat_inj, UInt8.toNat_ofNat_of_lt' (by change _ < 256; omega)]
    exact eq_comm
  · have hlarge : ch.val.toNat ≠ byte.toNat := by omega
    refine iff_of_false ?_ hlarge
    split
    · simp only [mem_cons, not_mem_nil, or_false, not_or]
      exact ⟨hne _ (by omega) (by omega), hne _ (by omega) (by omega)⟩
    · split
      · simp only [mem_cons, not_mem_nil, or_false, not_or]
        exact ⟨hne _ (by omega) (by omega), hne _ (by omega) (by omega),
          hne _ (by omega) (by omega)⟩
      · simp only [mem_cons, not_mem_nil, or_false, not_or]
        exact ⟨hne _ (by omega) (by omega), hne _ (by omega) (by omega),
          hne _ (by omega) (by omega), hne _ (by omega) (by omega)⟩

theorem validate_encodeUtf8 (text : Text) :
    validate (encodeUtf8 text) = .ok () ↔ checkName text = true := by
  have hnil : encodeUtf8 text = [] ↔ text = [] := encodeUtf8_injective.eq_iff' rfl
  have hdot : encodeUtf8 text = [0x2E] ↔ text = [Char.ofNat 0x2E] :=
    encodeUtf8_injective.eq_iff' rfl
  have hdots : encodeUtf8 text = [0x2E, 0x2E] ↔ text = [Char.ofNat 0x2E, Char.ofNat 0x2E] :=
    encodeUtf8_injective.eq_iff' rfl
  have hbytes : (∀ byte ∈ encodeUtf8 text, byte ≠ 0x2F ∧ byte ≠ 0) ↔
      ∀ ch ∈ text, ch.toNat ≠ 0x2F ∧ ch.toNat ≠ 0 := by
    constructor
    · intro h ch hch
      refine ⟨fun hslash => ?_, fun hnul => ?_⟩
      · exact (h 0x2F ((mem_encodeUtf8 (by decide)).mpr ⟨ch, hch, hslash⟩)).1 rfl
      · exact (h 0 ((mem_encodeUtf8 (by decide)).mpr ⟨ch, hch, hnul⟩)).2 rfl
    · intro h byte hbyte
      refine ⟨?_, ?_⟩
      · rintro rfl
        obtain ⟨ch, hch, hnat⟩ := (mem_encodeUtf8 (by decide)).mp hbyte
        exact (h ch hch).1 hnat
      · rintro rfl
        obtain ⟨ch, hch, hnat⟩ := (mem_encodeUtf8 (by decide)).mp hbyte
        exact (h ch hch).2 hnat
  have hcheck : checkName text = true ↔ text ≠ [] ∧ text ≠ [Char.ofNat 0x2E] ∧
      text ≠ [Char.ofNat 0x2E, Char.ofNat 0x2E] ∧ ∀ ch ∈ text, ch.toNat ≠ 0x2F ∧
        ch.toNat ≠ 0 := by
    simp [checkName, and_assoc]
  rw [hcheck, validate]
  split
  · rename_i h
    exact iff_of_false (fun h => nomatch h) fun hne => absurd (hnil.mp h) hne.1
  · rename_i h₁
    split
    · rename_i h
      exact iff_of_false (fun h => nomatch h) fun hne => absurd (hdot.mp h) hne.2.1
    · rename_i h₂
      split
      · rename_i h
        exact iff_of_false (fun h => nomatch h) fun hne => absurd (hdots.mp h) hne.2.2.1
      · rename_i h₃
        rw [validateBytes_ok, hbytes]
        exact ⟨fun h => ⟨mt hnil.mpr h₁, mt hdot.mpr h₂, mt hdots.mpr h₃, h⟩, fun h => h.2.2.2⟩

end Hadris.Directory
