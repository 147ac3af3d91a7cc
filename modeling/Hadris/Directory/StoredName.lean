import Hadris.Directory.Stored

namespace Hadris.Directory

open List

variable {text : Text} {page : CodePage} {fold : UInt16 → UInt16} {new : NewName}
  {raw : RawDirEntry} {entry : ShortEntry} {checksum : UInt8}

theorem set_ok {bytes written : List UInt8} : NameBuf.set bytes = .ok written ↔
    validate bytes = .ok () ∧ bytes.length ≤ NameBuf.capacity ∧ bytes = written := by
  rw [NameBuf.set, except_bind_ok]
  constructor
  · rintro ⟨⟨⟩, hvalid, h⟩
    split at h
    · rename_i hlen
      cases h
      exact ⟨hvalid, hlen, rfl⟩
    · cases h
  · rintro ⟨hvalid, hlen, rfl⟩
    exact ⟨(), hvalid, if_pos hlen⟩

theorem writeShort_ok {bytes : List UInt8} : writeShort entry page = .ok bytes ↔
    NameBuf.set (encodeUtf8 (entry.name.display entry.ntCase page.decode)) = .ok bytes := by
  rw [writeShort]
  split
  · rename_i written hset
    rw [hset, Except.ok.injEq, Except.ok.injEq]
  · rename_i hset
    rw [hset]
    exact iff_of_false (fun h => nomatch h) (fun h => nomatch h)
  · rename_i hset
    rw [hset]
    exact iff_of_false (fun h => nomatch h) (fun h => nomatch h)

theorem writeShort_eq (hname : checkName text = true)
    (hlen : (encodeUtf8 text).length ≤ NameBuf.capacity) :
    writeShort entry page = .ok (encodeUtf8 text) ↔
      entry.name.display entry.ntCase page.decode = text := by
  rw [writeShort_ok, set_ok]
  constructor
  · rintro ⟨-, -, h⟩
    exact encodeUtf8_injective h
  · intro h
    rw [h]
    exact ⟨(validate_encodeUtf8 text).mpr hname, hlen, rfl⟩

theorem utf8_fits {units : List UInt16} (h : units.length ≤ ShortName.maxUnits) :
    (encodeUtf8 (utf16Chars units)).length ≤ NameBuf.capacity := by
  have hle := encodeUtf8_utf16Chars_length units
  rw [ShortName.maxUnits] at h
  rw [NameBuf.capacity]
  omega

theorem writeName_some {units : List UInt16} (h : units.length ≤ ShortName.maxUnits) :
    writeName (some units) entry page =
      if checkName (utf16Chars units) = true then .ok (encodeUtf8 (utf16Chars units))
      else writeShort entry page := by
  have hwritten : utf16ToUtf8 units NameBuf.capacity = some (encodeUtf8 (utf16Chars units)) :=
    if_pos (utf8_fits h)
  cases hname : checkName (utf16Chars units) with
  | true =>
    have hfill : NameBuf.fill (some (encodeUtf8 (utf16Chars units))) =
        .ok (encodeUtf8 (utf16Chars units)) := by
      rw [NameBuf.fill, (validate_encodeUtf8 _).mpr hname]
      rfl
    simp only [writeName, hwritten, hfill]
    rw [if_pos trivial]
  | false =>
    have hfill : ∃ err, NameBuf.fill (some (encodeUtf8 (utf16Chars units))) = .error err := by
      rw [NameBuf.fill]
      cases hvalid : validate (encodeUtf8 (utf16Chars units)) with
      | error err => exact ⟨err, rfl⟩
      | ok valid =>
        rw [(validate_encodeUtf8 _).mp hvalid] at hname
        cases hname
    obtain ⟨err, hfill⟩ := hfill
    simp only [writeName, hwritten, hfill]
    rw [if_neg Bool.false_ne_true]

theorem checkName_of_valid (h : ShortName.isValidLongName text = true) :
    checkName text = true := by
  simp only [ShortName.isValidLongName, Bool.and_eq_true, Bool.not_eq_true', any_eq_false,
    Bool.or_eq_true, not_or, decide_eq_true_eq] at h
  obtain ⟨⟨⟨⟨hempty, hdot⟩, hdots⟩, -⟩, hchars⟩ := h
  rw [checkName, hempty, hdot, hdots]
  simp only [Bool.not_false, Bool.true_and, Bool.not_eq_true', any_eq_false]
  intro ch hch
  obtain ⟨hcontrol, hforbidden⟩ := hchars ch hch
  simp only [Bool.or_eq_true, beq_iff_eq, not_or]
  refine ⟨fun hslash => hforbidden ?_, by omega⟩
  rw [hslash]
  decide

theorem kept_text {unit : UInt16} {number : Nat} (h : unit ∈ kept text number) : isText unit := by
  obtain ⟨i, -, hunit⟩ := mem_flatMap.mp h
  exact mem_takeWhile_imp hunit

/-- Fragments hold the whole of a name exactly when no character of it stands
for the filler. -/
theorem legible_eq_iff (hvalid : ShortName.isValidLongName text = true) :
    legible text = text ↔ storable text = true := by
  constructor
  · intro h
    rw [storable, all_eq_true]
    intro ch hch
    rw [bne_iff_ne]
    intro hend
    rw [← h] at hch
    rcases mem_utf16Chars hch with ⟨unit, hunit, hnat⟩ | rfl | hlarge
    · have htext := kept_text hunit
      rw [isText, Bool.and_eq_true, bne_iff_ne, bne_iff_ne] at htext
      exact htext.2 (UInt16.toNat_inj.mp (hnat.symm.trans hend))
    · exact absurd hend (by decide)
    · omega
  · intro h
    have htext := isText_encodeUtf16 hvalid h
    rw [legible, kept_eq_drop htext, Nat.zero_mul, drop_zero, utf16Chars_encodeUtf16]

theorem kept_length (text : Text) : (kept text 0).length ≤ (encodeUtf16 text).length := by
  have h := (kept_sublist text 0).length_le
  rwa [Nat.zero_mul, drop_zero] at h

theorem longEntry_length (text : Text) (index : Nat) :
    (longEntry text checksum index).name.length = unitsPerEntry := by
  change List.length (part text (longEntries text - index) ++ _) = _
  rw [length_append, length_take]
  have hle : (part text (longEntries text - index)).length ≤ unitsPerEntry := by
    rw [part, length_take]
    exact Nat.min_le_left ..
  change _ + min (unitsPerEntry - (part text (longEntries text - index)).length) 13 = _
  rw [unitsPerEntry] at hle ⊢
  omega

theorem longEntry_sequence (hlen : (encodeUtf16 text).length ≤ ShortName.maxUnits) {index : Nat}
    (hindex : index < longEntries text) : (longEntry text checksum index).sequence ≠ entryEnd ∧
      (longEntry text checksum index).sequence ≠ entryFree := by
  have hall : ∀ number ≤ 20, 0 < number → ∀ first : Bool,
      (if first then UInt8.ofNat number ||| lastEntry else UInt8.ofNat number) ≠ entryEnd ∧
        (if first then UInt8.ofNat number ||| lastEntry else UInt8.ofNat number) ≠ entryFree := by
    decide
  have hmax : longEntries text - index ≤ 20 := (Nat.sub_le ..).trans (longEntries_le hlen)
  have h := hall _ hmax (Nat.sub_pos_of_lt hindex) (decide (index = 0))
  rw [longEntry]
  simpa using h

theorem parse_storedSlots (kind : FatKind)
    (hlen : (encodeUtf16 new.text).length ≤ ShortName.maxUnits)
    (hraw : Slot.parse kind raw.encode = .short (raw.short kind)) :
    (storedSlots new raw).map (Slot.parse kind) =
      (if new.shortOnly then []
        else (longRun new.text (raw.short kind).lfnChecksum).map Slot.long) ++
          [.short (raw.short kind)] := by
  have hlast : ∀ count, new.slots = count + 1 → (storedSlots new raw).map (Slot.parse kind) =
      (List.range count).map (fun index => Slot.parse kind
        (longEntry new.text (raw.short kind).lfnChecksum index).encode) ++
          [.short (raw.short kind)] := by
    intro count hcount
    rw [storedSlots, hcount, range_succ, map_append, map_append, map_map,
      map_singleton, map_singleton, if_pos rfl, hraw]
    congr 1
    refine map_congr_left fun index hindex => ?_
    have hlt := mem_range.mp hindex
    rw [Function.comp_apply, if_neg (by omega)]
    rfl
  cases hshort : new.shortOnly with
  | true =>
    have hslots : new.slots = 0 + 1 := by rw [NewName.slots, hshort]; rfl
    rw [hlast 0 hslots]
    rfl
  | false =>
    have hslots : new.slots = longEntries new.text + 1 := by rw [NewName.slots, hshort]; rfl
    rw [hlast _ hslots, if_neg Bool.false_ne_true, longRun, map_map]
    congr 1
    refine map_congr_left fun index hindex => ?_
    obtain ⟨hend, hfree⟩ := longEntry_sequence hlen (mem_range.mp hindex)
    exact LongEntry.parse_encode kind (longEntry_length _ _) hend hfree

theorem listing_fragments (parts : List LongEntry) (hvisible : entry.isVisible = true)
    (start slot : Nat) (long : Assembler) :
    (listing start long slot (parts.map Slot.long ++ [.short entry])).map
        (fun loc => (loc.long, loc.entry)) =
      [(((parts.foldl Assembler.push long).finish entry.lfnChecksum).filter (!·.isEmpty),
        entry)] := by
  induction parts generalizing start slot long with
  | nil =>
    rw [map_nil, nil_append, listing, if_pos hvisible]
    rfl
  | cons part rest ih =>
    rw [map_cons, cons_append, listing, ih]
    rfl

theorem ShortName.Made.first_ne_deleted {name : ShortName} {base ext : List UInt8}
    (h : name.Made base ext) : name.first ≠ entryFree := by
  rw [h.eq, toDisk]
  split
  · have hkanji : ((ofParts base ext).bytes.set 0 kanjiLead).headD 0 = kanjiLead := by
      rcases base with _ | ⟨byte, base⟩ <;> rfl
    rw [first, hkanji]
    decide
  · rename_i hfirst
    exact hfirst

theorem NewName.Chosen.made (h : new.Chosen page fold raw)
    (hnew : NewName.new text page fold = .ok new) : ∃ base ext, raw.name.Made base ext := by
  rcases h.name with ⟨hlossless, hname⟩ | ⟨-, suffix, hsuffix, -, hname⟩
  · obtain ⟨base, ext, hmade, -⟩ := NewName.lossless_ascii hnew hlossless
    rw [hname, (NewName.new_ok hnew).1]
    exact ⟨base, ext, hmade⟩
  · obtain ⟨name, base, ext, -, hcandidate, hmade⟩ := candidate_made page new.text hsuffix fold
    rw [hname, hcandidate]
    exact ⟨base, ext, hmade⟩

theorem attr_not_long {attr : UInt8} (h : attr &&& attrVolumeId = 0) :
    attr &&& attrLongNameMask ≠ attrLongName := by
  intro hlong
  have hvolume : attr &&& attrLongNameMask &&& attrVolumeId = attr &&& attrVolumeId := by
    rw [UInt8.and_assoc]
    rfl
  rw [hlong, h] at hvolume
  exact absurd hvolume (by decide)

theorem readNames_storedSlots (kind : FatKind) (hnew : NewName.new text page fold = .ok new)
    (hchosen : new.Chosen page fold raw) :
    readNames kind page (storedSlots new raw) =
      [writeName (if new.shortOnly then none else (some (kept text 0)).filter (!·.isEmpty))
        (raw.short kind) page] := by
  obtain ⟨htext, hlen, hvalid, -⟩ := NewName.new_ok hnew
  obtain ⟨base, ext, hmade⟩ := hchosen.made hnew
  obtain ⟨hfirst, hdot⟩ := hmade.first_ne
  have hvisible : (raw.short kind).isVisible = true := by
    rw [ShortEntry.isVisible, ShortEntry.isLabel, ShortEntry.isDot]
    simp [RawDirEntry.short, hchosen.attr, hdot]
  have hraw := raw.parse_encode kind hfirst hmade.first_ne_deleted (attr_not_long hchosen.attr)
  have hread : ∀ slots : List Slot, (listing 0 .new 0 slots).map
      (fun loc => writeName loc.long loc.entry page) =
        ((listing 0 .new 0 slots).map fun loc => (loc.long, loc.entry)).map
          fun pair => writeName pair.1 pair.2 page := fun slots => by
    rw [map_map]
    rfl
  rw [readNames, parse_storedSlots kind (htext ▸ hlen) hraw, htext, hread]
  cases new.shortOnly with
  | true =>
    have hlist := listing_fragments [] hvisible 0 0 .new
    rw [map_nil, foldl_nil, Assembler.finish_new] at hlist
    rw [if_pos rfl, if_pos rfl, hlist]
    rfl
  | false =>
    rw [if_neg Bool.false_ne_true, if_neg Bool.false_ne_true, listing_fragments _ hvisible,
      push_fragments (ne_nil_of_valid hvalid) hlen, finish_collected]
    rfl

/-- A name stored in a directory comes back exactly when its fragments hold all
of it or its short name, shown in their place, is the name. -/
theorem stored_name_comes_back (kind : FatKind) (hnew : NewName.new text page fold = .ok new)
    (hchosen : new.Chosen page fold raw) :
    readNames kind page (storedSlots new raw) = [.ok (encodeUtf8 text)] ↔
      storable text = true ∨
        checkName (legible text) = false ∧ raw.name.display 0 page.decode = text := by
  obtain ⟨htext, hlen, hvalid, -⟩ := NewName.new_ok hnew
  have hname := checkName_of_valid hvalid
  have hfits : (encodeUtf8 text).length ≤ NameBuf.capacity := by
    have h := utf8_fits hlen
    rwa [utf16Chars_encodeUtf16] at h
  rw [readNames_storedSlots kind hnew hchosen, List.cons.injEq, and_iff_left rfl]
  cases hshort : new.shortOnly with
  | true =>
    have hlossless : new.lossless = true := by
      rw [NewName.shortOnly, Bool.and_eq_true] at hshort
      exact hshort.1
    have hshown := NewName.display_shortOnly hnew hshort
    have hcandidate : raw.name = Directory.candidate text page fold 0 := by
      rcases hchosen.name with h | h
      · rw [h.2, htext]
      · rw [hshort] at h
        cases h.1
    have hcase := hchosen.ntCase
    rw [hshort, if_pos rfl] at hcase
    have hascii := ((NewName.new_ok hnew).2.2.2.2 hlossless).2.1
    have hstorable : storable text = true := by
      rw [storable, all_eq_true]
      intro ch hch
      have hlow := of_decide_eq_true (hascii ch hch)
      rw [bne_iff_ne]
      omega
    refine iff_of_true ?_ (.inl hstorable)
    rw [if_pos rfl, writeName, writeShort_eq hname hfits]
    change raw.name.display raw.ntCase page.decode = text
    rw [hcandidate, hcase, hshown]
  | false =>
    have hcase := hchosen.ntCase
    rw [hshort, if_neg Bool.false_ne_true] at hcase
    have hshown : writeShort (raw.short kind) page = .ok (encodeUtf8 text) ↔
        raw.name.display 0 page.decode = text := by
      rw [writeShort_eq hname hfits, ← hcase]
      rfl
    have hwritten : writeName ((some (kept text 0)).filter (!·.isEmpty)) (raw.short kind) page =
        if checkName (legible text) = true then .ok (encodeUtf8 (legible text))
        else writeShort (raw.short kind) page := by
      cases hempty : (kept text 0).isEmpty with
      | true =>
        have hlegible : legible text = [] := by
          rw [legible, List.isEmpty_iff.mp hempty]
          rfl
        rw [hlegible, Option.filter_some, hempty]
        rfl
      | false =>
        rw [Option.filter_some, hempty]
        exact writeName_some ((kept_length text).trans hlen)
    rw [if_neg Bool.false_ne_true, hwritten]
    split
    · rename_i hlegible
      rw [Except.ok.injEq, encodeUtf8_injective.eq_iff, legible_eq_iff hvalid, hlegible]
      simp
    · rename_i hlegible
      rw [hshown, Bool.not_eq_true] at *
      rw [hlegible]
      constructor
      · exact fun h => .inr ⟨rfl, h⟩
      · rintro (h | h)
        · rw [(legible_eq_iff hvalid).mpr h, hname] at hlegible
          cases hlegible
        · exact h.2

def noPage : CodePage := ⟨fun _ => Char.ofNat 0xFFFD, fun _ => none⟩

def tailEntry (text : Text) : RawDirEntry where
  name := candidate text noPage foldAscii 1
  attr := attrArchive
  ntCase := 0
  createdTenths := 0
  createdTime := 0
  createdDate := 0
  accessedDate := 0
  clusterHigh := 0
  modifiedTime := 0
  modifiedDate := 0
  clusterLow := 0
  size := 0

theorem tailEntry_chosen (htext : new.text = text) (hshort : new.shortOnly = false) :
    new.Chosen noPage foldAscii (tailEntry text) where
  name := .inr ⟨hshort, 1, by decide, by decide, by rw [htext]; rfl⟩
  ntCase := by rw [hshort]; rfl
  attr := by
    have hattr : attrArchive &&& attrVolumeId = 0 := by decide
    exact hattr

def pairText : Text := "abcdefghijkl".toList ++ [Char.ofNat 0x1F600] ++ "xyz".toList

theorem pairText_comes_back : ∃ new, NewName.new pairText noPage foldAscii = .ok new ∧
    readNames .fat32 noPage (storedSlots new (tailEntry pairText)) =
      [.ok (encodeUtf8 pairText)] :=
  ⟨_, rfl, (stored_name_comes_back .fat32 rfl (tailEntry_chosen rfl (by decide))).mpr
    (.inl (by decide))⟩

def fillerText : Text := [Char.ofNat 0x61, Char.ofNat 0xFFFF]

theorem fillerText_cut : ∃ new, NewName.new fillerText noPage foldAscii = .ok new ∧
    new.Chosen noPage foldAscii (tailEntry fillerText) ∧
      readNames .fat32 noPage (storedSlots new (tailEntry fillerText)) = [.ok [0x61]] ∧
        encodeUtf8 fillerText ≠ [0x61] :=
  ⟨_, rfl, tailEntry_chosen rfl (by decide), by decide, by decide⟩

end Hadris.Directory
