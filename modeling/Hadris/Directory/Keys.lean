import Hadris.Padding
import Hadris.Directory.Name

namespace Hadris.Directory

open List
open Padding

def folded (fold : UInt16 → UInt16) (text : Text) : List UInt16 := (encodeUtf16 text).map fold

def key (byte : UInt8) : UInt16 := foldAscii byte.toUInt16

theorem foldAscii_eq_iff {unit sep : UInt16} (hsep : sep < 0x41) :
    foldAscii unit = sep ↔ unit = sep := by
  rw [foldAscii]
  split
  · rename_i h
    have hlow : 0x61 ≤ unit.toNat := h.1
    have hlt : sep.toNat < 0x41 := hsep
    have hsub : (unit - 0x20).toNat = unit.toNat - 0x20 :=
      UInt16.toNat_sub_of_le _ _ (UInt16.le_trans (by decide) h.1)
    constructor <;> rintro rfl <;> omega
  · exact Iff.rfl

theorem key_lower (byte : UInt8) : foldAscii (toAsciiLowercase byte).toUInt16 = key byte := by
  have h : ∀ n < 256, foldAscii (toAsciiLowercase (UInt8.ofNat n)).toUInt16 =
      key (UInt8.ofNat n) := by decide +kernel
  have hbyte := h byte.toNat byte.toNat_lt
  rwa [UInt8.ofNat_toNat] at hbyte

theorem key_ne {byte : UInt8} {sep : UInt8} (hsep : sep < 0x41) (h : byte ≠ sep) :
    key byte ≠ sep.toUInt16 := by
  intro hkey
  rw [key, foldAscii_eq_iff hsep] at hkey
  exact h (UInt8.toNat_inj.mp (congrArg UInt16.toNat hkey))

variable {upper : Char → List Char}

theorem foldUnicode_ascii {unit : UInt16} (h : unit < 0x80) :
    foldUnicode upper unit = foldAscii unit := by
  rw [foldUnicode, if_pos h]

theorem cased_lt {byte : UInt8} (h : byte < 0x80) (lower : Bool) :
    (if lower then toAsciiLowercase byte else byte) < 0x80 := by
  have hall : ∀ n < 128, ∀ lower : Bool,
      (if lower then toAsciiLowercase (UInt8.ofNat n) else UInt8.ofNat n) < 0x80 := by decide
  have hbyte := hall byte.toNat h lower
  rwa [UInt8.ofNat_toNat] at hbyte

theorem fold_cased {byte : UInt8} (h : byte < 0x80) (lower : Bool) :
    foldUnicode upper (if lower then toAsciiLowercase byte else byte).toUInt16 = key byte := by
  have hlt : (if lower then toAsciiLowercase byte else byte).toUInt16 < 0x80 := by
    rw [UInt16.lt_iff_toNat_lt, UInt8.toNat_toUInt16]
    exact UInt8.lt_iff_toNat_lt.mp (cased_lt h lower)
  rw [foldUnicode_ascii hlt]
  cases lower with
  | false => rfl
  | true => exact key_lower byte

theorem toNat_char {n : Nat} (h : n < 0x80) : (Char.ofNat n).toNat = n := by
  rw [Char.ofNat, dif_pos (Or.inl (by omega))]
  rfl

namespace ShortName

/-- A byte a made name may hold. -/
def IsNameByte (byte : UInt8) : Prop :=
  0x20 < byte ∧ byte ≠ 0x2E ∧ ¬(0x61 ≤ byte ∧ byte ≤ 0x7A)

instance (byte : UInt8) : Decidable (IsNameByte byte) :=
  inferInstanceAs (Decidable (_ ∧ _))

/-- A name of the given base and extension, as names are made. -/
structure Made (name : ShortName) (base ext : List UInt8) : Prop where
  eq : name = (ofParts base ext).toDisk
  base_le : base.length ≤ 8
  ext_le : ext.length ≤ 3
  bytes : ∀ byte ∈ base ++ ext, IsNameByte byte

variable {name : ShortName} {base ext : List UInt8}

theorem first_ofParts : (ofParts base ext).first = base.headD 0x20 := by
  rcases base with _ | ⟨byte, base⟩ <;> rfl

theorem Made.first_gt (h : name.Made base ext) : 0x20 ≤ (ofParts base ext).first := by
  rw [first_ofParts]
  rcases base with _ | ⟨byte, base⟩
  · exact UInt8.le_refl _
  · exact UInt8.le_of_lt (h.bytes byte (by simp)).1

theorem Made.fromDisk (h : name.Made base ext) : name.fromDisk = ofParts base ext := by
  rw [h.eq, toDisk]
  by_cases hfirst : (ofParts base ext).first = deleted
  · rcases base with _ | ⟨byte, base⟩
    · rw [first_ofParts] at hfirst
      exact absurd hfirst (by decide)
    · obtain rfl : byte = deleted := hfirst
      rfl
  · rw [if_neg hfirst, ShortName.fromDisk, if_neg]
    intro hkanji
    have hgt := h.first_gt
    rw [hkanji] at hgt
    exact absurd hgt (by decide)

theorem Made.first_ne (h : name.Made base ext) : name.first ≠ 0 ∧ name.first ≠ 0x2E := by
  have hbyte : ∀ byte, byte = (ofParts base ext).first → byte ≠ 0 ∧ byte ≠ 0x2E := by
    rintro byte rfl
    refine ⟨fun hzero => absurd (hzero ▸ h.first_gt) (by decide), fun hdot => ?_⟩
    rw [first_ofParts] at hdot
    rcases base with _ | ⟨byte, base⟩
    · exact absurd hdot (by decide)
    · exact (h.bytes byte (by simp)).2.1 hdot
  rw [h.eq, toDisk]
  split
  · have hkanji : ((ofParts base ext).bytes.set 0 kanjiLead).headD 0 = kanjiLead := by
      rcases base with _ | ⟨byte, base⟩ <;> rfl
    rw [first, hkanji]
    exact ⟨by decide, by decide⟩
  · exact hbyte _ rfl

theorem Made.space_notMem (h : name.Made base ext) : 0x20 ∉ base ∧ 0x20 ∉ ext :=
  ⟨fun hmem => absurd (h.bytes _ (mem_append_left _ hmem)).1 (by decide),
    fun hmem => absurd (h.bytes _ (mem_append_right _ hmem)).1 (by decide)⟩

def isPlain (name : ShortName) : Bool := name.first != 0x05 && name.bytes.all (· < 0x80)

theorem Made.ascii (h : name.Made base ext) (hascii : name.isPlain = true) :
    name = ofParts base ext ∧ ∀ byte ∈ base ++ ext, byte < 0x80 := by
  rw [isPlain, Bool.and_eq_true, bne_iff_ne, all_eq_true] at hascii
  have hname : name = ofParts base ext := by
    have hdisk := h.fromDisk
    rwa [ShortName.fromDisk, kanjiLead, if_neg hascii.1] at hdisk
  refine ⟨hname, fun byte hbyte => of_decide_eq_true (hascii.2 byte ?_)⟩
  rw [hname]
  change byte ∈ takeD 8 base 0x20 ++ takeD 3 ext 0x20
  rw [takeD_of_le _ h.base_le, takeD_of_le _ h.ext_le]
  rcases mem_append.mp hbyte with hb | hb
  · exact mem_append_left _ (mem_append_left _ hb)
  · exact mem_append_right _ (mem_append_left _ hb)

theorem Made.isPlain (h : name.Made base ext) (hascii : ∀ byte ∈ base ++ ext, byte < 0x80) :
    name.isPlain = true := by
  have hbytes : ∀ byte ∈ (ofParts base ext).bytes, byte < 0x80 := by
    intro byte hbyte
    change byte ∈ takeD 8 base 0x20 ++ takeD 3 ext 0x20 at hbyte
    rw [takeD_of_le _ h.base_le, takeD_of_le _ h.ext_le] at hbyte
    simp only [mem_append, mem_replicate] at hbyte hascii
    rcases hbyte with (hbyte | hbyte) | (hbyte | hbyte)
    · exact hascii byte (.inl hbyte)
    · rw [hbyte.2]
      decide
    · exact hascii byte (.inr hbyte)
    · rw [hbyte.2]
      decide
  have hfirst : (ofParts base ext).first < 0x80 := by
    rw [first_ofParts]
    rcases base with _ | ⟨byte, base⟩
    · decide
    · exact hascii byte (by simp)
  have hname : name = ofParts base ext := by
    rw [h.eq, toDisk, if_neg]
    exact fun heq => absurd (heq ▸ hfirst) (by decide)
  rw [ShortName.isPlain, hname, Bool.and_eq_true, bne_iff_ne, all_eq_true]
  refine ⟨fun heq => absurd (heq ▸ h.first_gt) (by decide), fun byte hbyte => ?_⟩
  exact decide_eq_true (hbytes byte hbyte)

theorem Made.display_eq (h : name.Made base ext) (ntCase : UInt8) (decode : UInt8 → Char) :
    name.display ntCase decode =
      base.map (shownByte decode (ntCase &&& lowerBase != 0)) ++
        dotted (Char.ofNat 0x2E) (ext.map (shownByte decode (ntCase &&& lowerExt != 0))) := by
  have htake : (ofParts base ext).bytes.take 8 = pad 8 base := take_left' (pad_length ..)
  have hdrop : (ofParts base ext).bytes.drop 8 = pad 3 ext := drop_left' (pad_length ..)
  have hbase : trim (pad 8 base) = base := rdropWhile_takeD h.space_notMem.1 h.base_le
  have hext : trim (pad 3 ext) = ext := rdropWhile_takeD h.space_notMem.2 h.ext_le
  simp only [display, h.fromDisk, htake, hdrop, hbase, hext]
  rcases ext with _ | ⟨byte, ext⟩ <;> rfl

theorem Made.display_length (h : name.Made base ext) (ntCase : UInt8) (decode : UInt8 → Char) :
    (name.display ntCase decode).length ≤ displayChars := by
  have hbase := h.base_le
  have hext := h.ext_le
  rw [h.display_eq, length_append, length_map, dotted, displayChars]
  split <;> simp only [length_nil, length_cons, length_map] <;> omega

theorem units_shownByte {byte : UInt8} (hbyte : byte < 0x80)
    (decode : UInt8 → Char) (lower : Bool) :
    (charUnits (shownByte decode lower byte)).map (foldUnicode upper) = [key byte] := by
  obtain ⟨shown, hshown⟩ : ∃ b, b = if lower then toAsciiLowercase byte else byte := ⟨_, rfl⟩
  have hlt : shown.toNat < 0x80 := UInt8.lt_iff_toNat_lt.mp (hshown ▸ cased_lt hbyte lower)
  have hcast : UInt16.ofNat shown.toNat = shown.toUInt16 := by simp
  rw [shownByte, if_pos hbyte, ← hshown, charUnits, toNat_char hlt, if_pos (by omega),
    map_singleton, hcast, hshown, fold_cased hbyte]

variable (upper) in
theorem folded_map_shown {l : List UInt8} (h : ∀ byte ∈ l, byte < 0x80) (decode : UInt8 → Char)
    (lower : Bool) : folded (foldUnicode upper) (l.map (shownByte decode lower)) = l.map key := by
  induction l with
  | nil => rfl
  | cons byte rest ih =>
    rw [folded, encodeUtf16, map_cons, flatMap_cons, map_append,
      units_shownByte (h byte mem_cons_self)]
    exact congrArg (key byte :: ·) (ih fun b hb => h b (mem_cons_of_mem _ hb))

theorem folded_append (fold : UInt16 → UInt16) (a b : Text) :
    folded fold (a ++ b) = folded fold a ++ folded fold b := by
  rw [folded, encodeUtf16, flatMap_append, map_append]
  rfl

theorem Made.folded_display (h : name.Made base ext) (hascii : ∀ byte ∈ base ++ ext, byte < 0x80)
    (ntCase : UInt8) (decode : UInt8 → Char) :
    folded (foldUnicode upper) (name.display ntCase decode) =
      base.map key ++ dotted 0x2E (ext.map key) := by
  rw [h.display_eq, folded_append,
    folded_map_shown upper fun b hb => hascii b (mem_append_left _ hb)]
  refine congrArg (base.map key ++ ·) ?_
  rcases ext with _ | ⟨byte, ext⟩
  · rfl
  · have hmap := folded_map_shown upper (fun b hb => hascii b
      (mem_append_right _ hb)) decode (ntCase &&& lowerExt != 0)
    change folded _ ([Char.ofNat 0x2E] ++ List.map _ (byte :: ext)) = _
    rw [folded_append, hmap]
    have hunit : folded (foldUnicode upper) [Char.ofNat 0x2E] = [0x2E] := rfl
    rw [hunit]
    rfl

theorem map_key {l : List UInt8} (h : ∀ byte ∈ l, IsNameByte byte) :
    l.map key = l.map UInt8.toUInt16 := by
  refine map_congr_left fun byte hbyte => ?_
  rw [key, foldAscii, if_neg]
  rintro ⟨hlow, hhigh⟩
  rw [UInt16.le_iff_toNat_le, UInt8.toNat_toUInt16] at hlow hhigh
  exact (h byte hbyte).2.2
    ⟨UInt8.le_iff_toNat_le.mpr hlow, UInt8.le_iff_toNat_le.mpr hhigh⟩

theorem toUInt16_injective : Function.Injective UInt8.toUInt16 := by
  intro a b h
  have hnat := congrArg UInt16.toNat h
  rwa [UInt8.toNat_toUInt16, UInt8.toNat_toUInt16, UInt8.toNat_inj] at hnat

theorem Made.eq_of_folded {name' : ShortName} {base' ext' : List UInt8} (h : name.Made base ext)
    (h' : name'.Made base' ext') (hascii : ∀ byte ∈ base ++ ext, byte < 0x80)
    (hascii' : ∀ byte ∈ base' ++ ext', byte < 0x80) {ntCase ntCase' : UInt8}
    {decode : UInt8 → Char} (heq : folded (foldUnicode upper) (name.display ntCase decode) =
      folded (foldUnicode upper) (name'.display ntCase' decode)) : name = name' := by
  have hdot : ∀ {base ext : List UInt8} {name : ShortName}, name.Made base ext →
      (0x2E : UInt16) ∉ base.map key := by
    intro base ext name hmade hmem
    rw [map_key fun byte hbyte => hmade.bytes byte (mem_append_left _ hbyte)] at hmem
    obtain ⟨byte, hbyte, hkey⟩ := mem_map.mp hmem
    exact (hmade.bytes byte (mem_append_left _ hbyte)).2.1
      (toUInt16_injective (hkey.trans (show 0x2E = UInt8.toUInt16 0x2E from rfl)))
  rw [h.folded_display hascii, h'.folded_display hascii', append_dotted_inj (hdot h) (hdot h'),
    map_key fun byte hbyte => h.bytes byte (mem_append_left _ hbyte),
    map_key fun byte hbyte => h.bytes byte (mem_append_right _ hbyte),
    map_key fun byte hbyte => h'.bytes byte (mem_append_left _ hbyte),
    map_key fun byte hbyte => h'.bytes byte (mem_append_right _ hbyte),
    (map_injective_iff.mpr toUInt16_injective).eq_iff,
    (map_injective_iff.mpr toUInt16_injective).eq_iff] at heq
  rw [h.eq, h'.eq, heq.1, heq.2]

end ShortName

def charKey (ch : Char) : UInt16 := foldAscii (UInt16.ofNat ch.toNat)

theorem unit_ascii {ch : Char} (h : isAscii ch) : UInt16.ofNat ch.toNat < 0x80 := by
  rw [isAscii, decide_eq_true_eq] at h
  rw [UInt16.lt_iff_toNat_lt, toNat_ofNat_unit (by omega)]
  exact h

theorem charKey_eq_iff {ch : Char} (h : isAscii ch) {n : Nat} (hn : n < 0x41) :
    charKey ch = UInt16.ofNat n ↔ ch.toNat = n := by
  rw [isAscii, decide_eq_true_eq] at h
  rw [charKey, foldAscii_eq_iff]
  · constructor
    · intro heq
      have hnat := congrArg UInt16.toNat heq
      rwa [toNat_ofNat_unit (by omega), toNat_ofNat_unit (by omega)] at hnat
    · rintro rfl
      rfl
  · rw [UInt16.lt_iff_toNat_lt, toNat_ofNat_unit (by omega)]
    exact hn

theorem folded_ascii {text : Text} (h : ∀ ch ∈ text, isAscii ch) :
    folded (foldUnicode upper) text = text.map charKey := by
  induction text with
  | nil => rfl
  | cons ch rest ih =>
    have hch := h ch mem_cons_self
    rw [folded, encodeUtf16, flatMap_cons, map_append, encodeUtf16_ascii hch,
      map_singleton, foldUnicode_ascii (unit_ascii hch)]
    exact congrArg (charKey ch :: ·) (ih fun c hc => h c (mem_cons_of_mem _ hc))

theorem eq_dot {ch : Char} (h : ShortName.isDot ch) : ch = Char.ofNat 0x2E := by
  rw [← Char.ofNat_toNat ch, eq_of_beq h]

namespace Query

theorem rsplitDot_eq {text base ext : Text} (h : (rsplitDot text).getD (text, []) = (base, ext))
    (hlast : text.getLast?.any ShortName.isDot = false) :
    text = base ++ dotted (Char.ofNat 0x2E) ext := by
  have hwhole : text.rdropWhile (!ShortName.isDot ·) ++ text.rtakeWhile (!ShortName.isDot ·) =
      text := rdropWhile_append_rtakeWhile
  rw [rsplitDot] at h
  split at h
  · cases h
    rw [dotted, if_pos rfl, append_nil]
  · rename_i hne
    cases h
    have hdot := eq_dot (by simpa using rdropWhile_last_not _ _ hne)
    have hext : text.rtakeWhile (!ShortName.isDot ·) ≠ [] := by
      intro hnil
      rw [hnil, append_nil] at hwhole
      rw [← hwhole, getLast?_eq_getLast_of_ne_nil hne, Option.any_some, hdot] at hlast
      cases hlast
    rw [dotted, if_neg hext, ← hdot, ← singleton_append, ← append_assoc,
      dropLast_concat_getLast, hwhole]

theorem rsplitDot_ext {text base ext : Text}
    (h : (rsplitDot text).getD (text, []) = (base, ext)) :
    ∀ ch ∈ ext, ShortName.isDot ch = false := by
  rw [rsplitDot] at h
  split at h
  · cases h
    intro ch hch
    cases hch
  · cases h
    intro ch hch
    simpa using mem_rtakeWhile_imp hch

theorem asciiForm_some {text : Text} {stored : List UInt16}
    (h : asciiForm text (foldUnicode upper) = some stored) :
    ∃ base ext : List UInt16, folded (foldUnicode upper) text = base ++ dotted 0x2E ext ∧
      stored = base.takeD 8 0x20 ++ ext.takeD 3 0x20 ∧ base.length ≤ 8 ∧ ext.length ≤ 3 ∧
        0x2E ∉ base ∧ 0x20 ∉ base ∧ 0x20 ∉ ext ∧ 0x2E ∉ ext := by
  rw [asciiForm] at h
  split at h
  · rename_i hascii
    rw [all_eq_true] at hascii
    obtain ⟨⟨base, ext⟩, hsplit⟩ : ∃ parts, parts = (rsplitDot text).getD (text, []) := ⟨_, rfl⟩
    simp only [← hsplit] at h
    split at h
    · rename_i hform
      simp only [Bool.and_eq_true, Bool.not_eq_true', decide_eq_true_eq, any_eq_false] at hform
      obtain ⟨⟨⟨⟨⟨⟨-, hbase⟩, hext⟩, hdot⟩, hspace⟩, hspace'⟩, hlast⟩ := hform
      have htext := rsplitDot_eq hsplit.symm (by simpa using hlast)
      have hbaseAscii : ∀ ch ∈ base, isAscii ch := fun ch hch =>
        hascii ch (htext ▸ mem_append_left _ hch)
      have hextAscii : ∀ ch ∈ ext, isAscii ch := fun ch hch => by
        refine hascii ch (htext ▸ mem_append_right _ ?_)
        rw [dotted, if_neg (ne_nil_of_mem hch)]
        exact mem_cons_of_mem _ hch
      have hpart : ∀ (width : Nat) (l : Text), (∀ ch ∈ l, isAscii ch) →
          foldedPart (foldUnicode upper) width l = (l.map charKey).takeD width 0x20 := by
        intro width l hl
        rw [foldedPart, foldUnicode_ascii (by decide)]
        refine congrArg (takeD width · 0x20) (map_congr_left fun ch hch => ?_)
        exact foldUnicode_ascii (unit_ascii (hl ch hch))
      refine ⟨base.map charKey, ext.map charKey, ?_, ?_, ?_, ?_, ?_, ?_, ?_, ?_⟩
      · rw [folded_ascii hascii]
        conv_lhs => rw [htext]
        rw [map_append, map_dotted]
        rfl
      · rw [← Option.some.inj h, hpart 8 base hbaseAscii, hpart 3 ext hextAscii]
      · rwa [length_map]
      · rwa [length_map]
      · rintro hmem
        obtain ⟨ch, hch, hkey⟩ := mem_map.mp hmem
        exact hdot ch hch (beq_of_eq ((charKey_eq_iff (hbaseAscii ch hch) (by decide)).mp hkey))
      · rintro hmem
        obtain ⟨ch, hch, hkey⟩ := mem_map.mp hmem
        exact hspace ch hch (beq_of_eq ((charKey_eq_iff (hbaseAscii ch hch) (by decide)).mp hkey))
      · rintro hmem
        obtain ⟨ch, hch, hkey⟩ := mem_map.mp hmem
        exact hspace' ch hch (beq_of_eq ((charKey_eq_iff (hextAscii ch hch) (by decide)).mp hkey))
      · rintro hmem
        obtain ⟨ch, hch, hkey⟩ := mem_map.mp hmem
        have hdot' : ShortName.isDot ch = true :=
          beq_of_eq ((charKey_eq_iff (hextAscii ch hch) (by decide)).mp hkey)
        rw [rsplitDot_ext hsplit.symm ch hch] at hdot'
        cases hdot'
    · cases h
  · cases h

end Query

theorem encodeUtf16_length_le (text : Text) : (encodeUtf16 text).length ≤ 2 * text.length := by
  induction text with
  | nil => exact Nat.le_refl 0
  | cons ch rest ih =>
    have hch : (charUnits ch).length ≤ 2 := by
      rw [charUnits]
      split <;> simp
    change (charUnits ch ++ encodeUtf16 rest).length ≤ _
    rw [length_append, length_cons]
    omega

theorem folded_length (fold : UInt16 → UInt16) (text : Text) :
    (folded fold text).length = (encodeUtf16 text).length := length_map ..

def entryKeys (fold : UInt16 → UInt16) (page : CodePage) (long : Option (List UInt16))
    (entry : ShortEntry) : List (List UInt16) :=
  (long.map (·.map fold)).toList ++ [folded fold (entry.name.display entry.ntCase page.decode)]

theorem mem_entryKeys {fold : UInt16 → UInt16} {page : CodePage} {long : Option (List UInt16)}
    {entry : ShortEntry} {units : List UInt16} : units ∈ entryKeys fold page long entry ↔
      (long.any fun stored => units == stored.map fold) ∨
        units = folded fold (entry.name.display entry.ntCase page.decode) := by
  rw [entryKeys, mem_append, mem_singleton]
  refine or_congr ?_ Iff.rfl
  rcases long with _ | stored
  · simp
  · simp

namespace Query

variable {entry : ShortEntry} {base ext : List UInt8} {page : CodePage}

theorem storedForm_eq (hname : entry.name = ShortName.ofParts base ext)
    (hascii : ∀ byte ∈ base ++ ext, byte < 0x80) :
    storedForm entry (foldUnicode upper) =
      (base.map key).takeD 8 0x20 ++ (ext.map key).takeD 3 0x20 := by
  have hpart : ∀ (width : Nat) (lower : Bool) (l : List UInt8), (∀ byte ∈ l, byte < 0x80) →
      (ShortName.pad width l).map (fun byte => foldUnicode upper
        (if lower then toAsciiLowercase byte else byte).toUInt16) =
      (l.map key).takeD width 0x20 := by
    intro width lower l hl
    rw [ShortName.pad, map_takeD, fold_cased (by decide)]
    exact congrArg (takeD width · _) (map_congr_left fun byte hmem =>
      fold_cased (hl byte hmem) lower)
  have htake : (ShortName.ofParts base ext).bytes.take 8 = ShortName.pad 8 base :=
    take_left' (ShortName.pad_length ..)
  have hdrop : (ShortName.ofParts base ext).bytes.drop 8 = ShortName.pad 3 ext :=
    drop_left' (ShortName.pad_length ..)
  rw [storedForm, hname, htake, hdrop,
    hpart 8 _ base fun b hb => hascii b (mem_append_left _ hb),
    hpart 3 _ ext fun b hb => hascii b (mem_append_right _ hb)]

theorem key_notMem {l : List UInt8} (sep : UInt8) (hsep : sep < 0x41) (h : sep ∉ l) :
    sep.toUInt16 ∉ l.map key := by
  intro hmem
  obtain ⟨byte, hbyte, hkey⟩ := mem_map.mp hmem
  exact key_ne hsep (fun heq => h (heq ▸ hbyte)) hkey

theorem storedForm_beq {text : Text} {stored : List UInt16} (hmade : entry.name.Made base ext)
    (hascii : entry.name.isPlain = true)
    (hform : asciiForm text (foldUnicode upper) = some stored) :
    (storedForm entry (foldUnicode upper) == stored) = true ↔
      folded (foldUnicode upper) text =
        folded (foldUnicode upper) (entry.name.display entry.ntCase page.decode) := by
  obtain ⟨hname, hbytes⟩ := hmade.ascii hascii
  obtain ⟨hspace, hspace'⟩ := hmade.space_notMem
  obtain ⟨qbase, qext, htext, rfl, hblen, helen, hdot, hbspace, hespace, -⟩ :=
    asciiForm_some hform
  have hkbase := key_notMem 0x20 (by decide) hspace
  have hkext := key_notMem 0x20 (by decide) hspace'
  have hkdot : (0x2E : UInt16) ∉ base.map key := key_notMem 0x2E (by decide) fun hmem =>
    (hmade.bytes _ (mem_append_left _ hmem)).2.1 rfl
  have hblen' : (base.map key).length ≤ 8 := by rw [length_map]; exact hmade.base_le
  have helen' : (ext.map key).length ≤ 3 := by rw [length_map]; exact hmade.ext_le
  rw [storedForm_eq hname hbytes, beq_iff_eq, htext, hmade.folded_display hbytes,
    append_dotted_inj hdot hkdot]
  constructor
  · intro h
    obtain ⟨hb, he⟩ := append_inj h (by rw [takeD_length, takeD_length])
    exact ⟨((takeD_inj hkbase hbspace hblen' hblen).mp hb).symm,
      ((takeD_inj hkext hespace helen' helen).mp he).symm⟩
  · rintro ⟨rfl, rfl⟩
    rfl

theorem matches_iff {long : Option (List UInt16)} (hmade : entry.name.Made base ext)
    (hlong : ∀ units, long = some units → units.length ≤ ShortName.maxUnits) (text : Text) :
    (Query.new text (foldUnicode upper)).matches long entry page (foldUnicode upper) = true ↔
      folded (foldUnicode upper) text ∈ entryKeys (foldUnicode upper) page long entry := by
  rw [mem_entryKeys]
  have hdisplay := hmade.display_length entry.ntCase page.decode
  by_cases hlen : ShortName.maxUnits < (encodeUtf16 text).length
  · rw [Query.new, if_pos hlen, Query.matches]
    refine iff_of_false Bool.false_ne_true ?_
    rintro (h | h)
    · obtain ⟨units, hunits, heq⟩ := (Option.any_eq_true ..).mp h
      have hlength := congrArg List.length (eq_of_beq heq)
      rw [folded_length, length_map] at hlength
      have hmax := hlong units hunits
      omega
    · have hlength := congrArg List.length h
      rw [folded_length, folded_length] at hlength
      have hmax := encodeUtf16_length_le (entry.name.display entry.ntCase page.decode)
      rw [ShortName.displayChars] at hdisplay
      rw [ShortName.maxUnits] at hlen
      omega
  · rw [Query.new, if_neg hlen, Query.matches]
    dsimp only
    rw [← folded, ← folded]
    by_cases hnamed : long.any fun stored => folded (foldUnicode upper) text ==
        stored.map (foldUnicode upper)
    · rw [if_pos hnamed]
      exact iff_of_true rfl (.inl hnamed)
    · rw [if_neg hnamed, or_iff_right hnamed]
      by_cases hshort : text.length ≤ ShortName.displayChars
      · rw [if_neg (by simpa using hshort)]
        cases hform : asciiForm text (foldUnicode upper) with
        | none => exact beq_iff_eq
        | some stored =>
          dsimp only
          split
          · rename_i hascii
            exact storedForm_beq hmade hascii hform
          · exact beq_iff_eq
      · rw [if_pos (by simpa using hshort)]
        refine iff_of_false Bool.false_ne_true fun h => hshort ?_
        rw [length_eq_of_folded h]
        exact hdisplay

end Query

end Hadris.Directory
