import Hadris.Directory.Keys

namespace Hadris

namespace Padding

open List

variable {α β : Type} [DecidableEq α] [DecidableEq β]

theorem takeD_rdropWhile {a : α} {l : List α} {n : Nat} (h : l.length = n) :
    (l.rdropWhile (· == a)).takeD n a = l := by
  have hwhole : l.rdropWhile (· == a) ++ l.rtakeWhile (· == a) = l := rdropWhile_append_rtakeWhile
  have hlength := congrArg List.length hwhole
  have hpads : l.rtakeWhile (· == a) = replicate (l.rtakeWhile (· == a)).length a := by
    apply eq_replicate_of_mem
    intro b hb
    exact eq_of_beq (mem_rtakeWhile_imp (p := (· == a)) hb)
  rw [List.length_append, h] at hlength
  rw [takeD_of_le a (by omega)]
  conv_rhs => rw [← hwhole, hpads]
  congr 2
  omega

theorem eq_takeD_iff {a : α} {l m : List α} {n : Nat} (hl : l.length = n) (hm : a ∉ m)
    (hn : m.length ≤ n) :
    l = m.takeD n a ↔ l.rdropWhile (· == a) = m := by
  constructor
  · rintro rfl
    exact rdropWhile_takeD hm hn
  · rintro rfl
    exact (takeD_rdropWhile hl).symm

theorem map_rdropWhile {f : α → β} {a : α} {b : β} (hf : ∀ x, f x = b ↔ x = a) (l : List α) :
    (l.rdropWhile (· == a)).map f = (l.map f).rdropWhile (· == b) := by
  have hpad : (· == b) ∘ f = (· == a) := by
    funext x
    rw [Function.comp_apply, Bool.eq_iff_iff, beq_iff_eq, beq_iff_eq, hf]
  rw [rdropWhile, rdropWhile, ← map_reverse, dropWhile_map, map_reverse, hpad]

theorem count_dotted_le {sep : α} {m : List α} (hm : sep ∉ m) : (dotted sep m).count sep ≤ 1 := by
  rw [dotted]
  split
  · exact Nat.zero_le _
  · rw [count_cons_self, count_eq_zero.mpr hm]

/-- Two parts around a separator that neither of them holds can be found again in two parts
that may hold it, but where the first of those is the whole. -/
theorem append_dotted_eq_iff {sep : α} {l l' m m' : List α} (hl : sep ∉ l) (hm : sep ∉ m) :
    l' ++ dotted sep m' = l ++ dotted sep m ↔ l' = l ∧ m' = m ∨ sep ∈ l' ∧ m' = [] ∧
      l' = l ++ dotted sep m := by
  constructor
  · intro h
    by_cases hl' : sep ∈ l'
    · have hcount := congrArg (List.count sep) h
      have hone := count_pos_iff.mpr hl'
      have hle := count_dotted_le (m := m) hm
      rw [count_append, count_append, count_eq_zero.mpr hl] at hcount
      have hnil : m' = [] := by
        by_contra hne
        rw [dotted, if_neg hne, count_cons_self] at hcount
        omega
      refine .inr ⟨hl', hnil, ?_⟩
      rw [hnil] at h
      exact (append_nil l').symm.trans h
    · exact .inl ((append_dotted_inj hl' hl).mp h)
  · rintro (⟨rfl, rfl⟩ | ⟨-, rfl, rfl⟩)
    · rfl
    · exact append_nil _

end Padding

namespace Directory

open Padding

def eqFolded (a b : List UInt16) (fold : UInt16 → UInt16) : Bool := a.map fold == b.map fold

def «matches» (query : Text) (long : Option (List UInt16)) (entry : ShortEntry) (page : CodePage)
    (fold : UInt16 → UInt16) : Bool :=
  if long.any fun units => eqFolded (encodeUtf16 query) units fold then true
  else if ShortName.displayChars < query.length then false
  else eqFolded (encodeUtf16 query)
    (encodeUtf16 (entry.name.display entry.ntCase page.decode)) fold

/-- How the case of names is folded: of ASCII letters only, or as Unicode's tables say. -/
inductive FoldMode where
  | ascii
  | unicode
deriving DecidableEq, Repr

def FoldMode.fold (upper : Char → List Char) : FoldMode → UInt16 → UInt16
  | .ascii => foldAscii
  | .unicode => foldUnicode upper

def ShortName.base (name : ShortName) : List UInt8 := trim (name.bytes.take 8)

def ShortName.ext (name : ShortName) : List UInt8 := trim (name.bytes.drop 8)

/-- The long name folds to the query. -/
def Longed (text : Text) (long : Option (List UInt16)) (fold : UInt16 → UInt16) : Prop :=
  ∃ units, long = some units ∧ folded fold text = units.map fold

/-- The query is in 8.3 form, and the stored name, all in ASCII, is that query with its dot in the
base and no extension. -/
structure DotInBase (text : Text) (entry : ShortEntry) (fold : UInt16 → UInt16) : Prop where
  form : (Query.asciiForm text fold).isSome
  plain : entry.name.isPlain = true
  dot : 0x2E ∈ entry.name.base
  ext : entry.name.ext = []
  base : entry.name.base.map (fun byte => fold byte.toUInt16) = folded fold text

theorem foldAscii_eq : foldAscii = foldUnicode fun _ => [] := by
  funext unit
  rw [foldUnicode]
  split
  · rfl
  · have hnot : ¬ (0x61 ≤ unit ∧ unit ≤ 0x7A) := by
      rintro ⟨-, hhigh⟩
      exact ‹¬ unit < 0x80› (UInt16.lt_of_le_of_lt hhigh (by decide))
    rw [foldAscii, if_neg hnot]
    cases fromU32 unit.toNat <;> rfl

variable {upper : Char → List Char} {entry : ShortEntry} {text : Text}

namespace ShortName

variable {name : ShortName}

theorem isPlain_byte (h : name.isPlain = true) : ∀ byte ∈ name.bytes, byte < 0x80 := by
  rw [isPlain, Bool.and_eq_true, List.all_eq_true] at h
  intro byte hbyte
  exact of_decide_eq_true (h.2 byte hbyte)

theorem isPlain_fromDisk (h : name.isPlain = true) : name.fromDisk = name := by
  rw [isPlain, Bool.and_eq_true, bne_iff_ne] at h
  rw [fromDisk, kanjiLead, if_neg h.1]

theorem mem_base {byte : UInt8} (h : byte ∈ name.base) : byte ∈ name.bytes :=
  List.mem_of_mem_take ((List.rdropWhile_prefix (p := (· == 0x20)) _).subset h)

theorem mem_ext {byte : UInt8} (h : byte ∈ name.ext) : byte ∈ name.bytes :=
  List.mem_of_mem_drop ((List.rdropWhile_prefix (p := (· == 0x20)) _).subset h)

theorem display_plain (h : name.isPlain = true) (ntCase : UInt8) (decode : UInt8 → Char) :
    name.display ntCase decode = name.base.map (shownByte decode (ntCase &&& lowerBase != 0)) ++
      dotted (Char.ofNat 0x2E) (name.ext.map (shownByte decode (ntCase &&& lowerExt != 0))) := by
  simp only [display, isPlain_fromDisk h, base, ext]
  generalize trim (name.bytes.drop 8) = ext
  cases ext <;> rfl

theorem folded_display (h : name.isPlain = true) (ntCase : UInt8) (decode : UInt8 → Char) :
    folded (foldUnicode upper) (name.display ntCase decode) = name.base.map key ++ dotted 0x2E
      (name.ext.map key) := by
  have hbytes := isPlain_byte h
  have hext := folded_map_shown upper (fun b hb => hbytes b (mem_ext hb)) decode
    (ntCase &&& lowerExt != 0)
  rw [display_plain h, folded_append, folded_map_shown upper fun b hb => hbytes b (mem_base hb)]
  generalize name.ext = ext at hext
  cases ext with
  | nil => rfl
  | cons byte ext =>
    change _ ++ folded _ ([Char.ofNat 0x2E] ++ List.map _ (byte :: ext)) = _
    rw [folded_append, hext]
    rfl

theorem key_eq_iff {sep : UInt8} (hsep : sep < 0x41) (byte : UInt8) :
    key byte = sep.toUInt16 ↔ byte = sep := by
  rw [key, foldAscii_eq_iff hsep, toUInt16_injective.eq_iff]

theorem map_base : name.base.map key = ((name.bytes.take 8).map key).rdropWhile (· == 0x20) :=
  map_rdropWhile (key_eq_iff (by decide)) _

theorem map_ext : name.ext.map key = ((name.bytes.drop 8).map key).rdropWhile (· == 0x20) :=
  map_rdropWhile (key_eq_iff (by decide)) _

end ShortName

namespace Query

theorem storedForm_plain (h : entry.name.isPlain = true) : storedForm entry (foldUnicode upper) =
    (entry.name.bytes.take 8).map key ++ (entry.name.bytes.drop 8).map key := by
  have hbytes := ShortName.isPlain_byte h
  rw [storedForm]
  congr 1
  · apply List.map_congr_left
    exact fun byte hbyte => fold_cased (hbytes byte (List.mem_of_mem_take hbyte)) _
  · apply List.map_congr_left
    exact fun byte hbyte => fold_cased (hbytes byte (List.mem_of_mem_drop hbyte)) _

theorem shown_iff {stored : List UInt16} (page : CodePage) (h : entry.name.isPlain = true)
    (hform : asciiForm text (foldUnicode upper) = some stored) :
    ((folded (foldUnicode upper) text = folded (foldUnicode upper)
      (entry.name.display entry.ntCase page.decode)) ↔
        storedForm entry (foldUnicode upper) = stored ∨
          DotInBase text entry (foldUnicode upper)) ∧
      (DotInBase text entry (foldUnicode upper) →
        storedForm entry (foldUnicode upper) ≠ stored) := by
  obtain ⟨base, ext, htext, rfl, hbase, hext, hdot, hbspace, hespace, hedot⟩ :=
    asciiForm_some hform
  have hlength := entry.name.length_eq
  have htake : ((entry.name.bytes.take 8).map key).length = 8 := by
    rw [List.length_map, List.length_take, hlength]
    rfl
  have hdrop : ((entry.name.bytes.drop 8).map key).length = 3 := by
    rw [List.length_map, List.length_drop, hlength]
  have hstored : storedForm entry (foldUnicode upper) = base.takeD 8 0x20 ++ ext.takeD 3 0x20 ↔
      entry.name.base.map key = base ∧ entry.name.ext.map key = ext := by
    rw [storedForm_plain h, ShortName.map_base,
      ShortName.map_ext, ← eq_takeD_iff htake hbspace hbase, ← eq_takeD_iff hdrop hespace hext]
    constructor
    · intro heq
      exact List.append_inj heq (by rw [htake, List.takeD_length])
    · rintro ⟨hb, he⟩
      rw [hb, he]
  have hkeys : entry.name.base.map (fun byte => foldUnicode upper byte.toUInt16) =
      entry.name.base.map key := by
    apply List.map_congr_left
    exact fun byte hbyte =>
      fold_cased (ShortName.isPlain_byte h byte (ShortName.mem_base hbyte)) false
  have hsep : 0x2E ∈ entry.name.base.map key ↔ 0x2E ∈ entry.name.base := by
    rw [List.mem_map]
    constructor
    · rintro ⟨byte, hbyte, hkey⟩
      have hdot : byte = 0x2E := (ShortName.key_eq_iff (by decide) byte).mp hkey
      rwa [← hdot]
    · intro hmem
      exact ⟨0x2E, hmem, rfl⟩
  constructor
  · rw [hstored, htext, ShortName.folded_display h, eq_comm, append_dotted_eq_iff hdot hedot,
      hsep, List.map_eq_nil_iff]
    apply or_congr_right
    constructor
    · rintro ⟨hmem, hnil, hwhole⟩
      exact ⟨Option.isSome_of_eq_some hform, h, hmem, hnil, hkeys.trans (hwhole.trans htext.symm)⟩
    · intro hdotted
      exact ⟨hdotted.dot, hdotted.ext, hkeys.symm.trans (hdotted.base.trans htext)⟩
  · intro hdotted
    rw [Ne, hstored]
    rintro ⟨hbase, -⟩
    exact hdot (hbase ▸ hsep.mpr hdotted.dot)

end Query

theorem length_le_units (text : Text) : text.length ≤ (encodeUtf16 text).length := by
  rw [← countP_encodeUtf16]
  exact List.countP_le_length

theorem DotInBase.length_le (h : DotInBase text entry (foldUnicode upper)) :
    text.length ≤ ShortName.displayChars := by
  obtain ⟨stored, hstored⟩ := Option.isSome_iff_exists.mp h.form
  obtain ⟨base, ext, htext, -, hbase, hext, -⟩ := Query.asciiForm_some hstored
  have hlength := congrArg List.length htext
  have hunits := length_le_units text
  have hdotted : (dotted (0x2E : UInt16) ext).length ≤ ext.length + 1 := by
    rw [dotted]
    split
    · exact Nat.zero_le _
    · exact le_rfl
  rw [folded_length, List.length_append] at hlength
  rw [ShortName.displayChars]
  omega

section

variable {fold : UInt16 → UInt16} {long : Option (List UInt16)} {page : CodePage}

theorem longed_iff : (long.any fun units => folded fold text == units.map fold) = true ↔
    Longed text long fold := by
  rw [Option.any_eq_true]
  simp only [beq_iff_eq]
  rfl

theorem matches_of_longed (h : Longed text long fold) :
    «matches» text long entry page fold = true :=
  if_pos (longed_iff.mpr h)

theorem matches_of_not_longed (h : ¬ Longed text long fold) :
    «matches» text long entry page fold =
    if ShortName.displayChars < text.length then false
    else folded fold text == folded fold (entry.name.display entry.ntCase page.decode) :=
  if_neg (mt longed_iff.mp h)

namespace Query

theorem matches_of_overlong (h : ShortName.maxUnits < (encodeUtf16 text).length) :
    (Query.new text fold).matches long entry page fold = false := by
  rw [Query.new, if_pos h, Query.matches]

variable (hlen : ¬ ShortName.maxUnits < (encodeUtf16 text).length)

include hlen

theorem matches_of_longed (h : Longed text long fold) :
    (Query.new text fold).matches long entry page fold = true := by
  rw [Query.new, if_neg hlen]
  exact if_pos (longed_iff.mpr h)

theorem matches_of_long (h : ¬ Longed text long fold)
    (hshort : ShortName.displayChars < text.length) :
    (Query.new text fold).matches long entry page fold = false := by
  rw [Query.new, if_neg hlen]
  exact (if_neg (mt longed_iff.mp h)).trans (if_pos (by simpa using hshort))

theorem matches_of_short (h : ¬ Longed text long fold)
    (hshort : ¬ ShortName.displayChars < text.length) :
    (Query.new text fold).matches long entry page fold =
      if entry.name.isPlain = true then
        (asciiForm text fold).elim
          (folded fold text == folded fold (entry.name.display entry.ntCase page.decode))
          (storedForm entry fold == ·)
      else folded fold text == folded fold (entry.name.display entry.ntCase page.decode) := by
  rw [Query.new, if_neg hlen]
  refine (if_neg (mt longed_iff.mp h)).trans ((if_neg (by simpa using hshort)).trans ?_)
  cases asciiForm text fold with
  | none => exact (ite_self _).symm
  | some ascii => rfl

end Query

end

/-- A prepared query tells as much as matching does, but where the long name that matches is
longer than one can be, and where the stored name alone matches and holds the dot in its base. -/
theorem query_agrees_iff (text : Text) (long : Option (List UInt16))
    (entry : ShortEntry) (page : CodePage) :
    (Query.new text (foldUnicode upper)).matches long entry page (foldUnicode upper) =
        «matches» text long entry page (foldUnicode upper) ↔
      (Longed text long (foldUnicode upper) → (encodeUtf16 text).length ≤ ShortName.maxUnits) ∧
        (DotInBase text entry (foldUnicode upper) → Longed text long (foldUnicode upper)) := by
  have hunits := encodeUtf16_length_le text
  by_cases hlen : ShortName.maxUnits < (encodeUtf16 text).length <;> by_cases hlong :
    Longed text long (foldUnicode upper)
  · rw [Query.matches_of_overlong hlen, matches_of_longed hlong]
    exact iff_of_false Bool.false_ne_true fun h => Nat.not_lt.mpr (h.1 hlong) hlen
  · have hshort : ShortName.displayChars < text.length := by
      rw [ShortName.maxUnits] at hlen
      rw [ShortName.displayChars]
      omega
    rw [Query.matches_of_overlong hlen, matches_of_not_longed hlong, if_pos hshort]
    exact iff_of_true rfl ⟨fun hlong' => absurd hlong' hlong, fun hdot => absurd hdot.length_le
      (Nat.not_le.mpr hshort)⟩
  · rw [Query.matches_of_longed hlen hlong, matches_of_longed hlong]
    exact iff_of_true rfl ⟨fun _ => Nat.le_of_not_lt hlen, fun _ => hlong⟩
  · rw [matches_of_not_longed hlong]
    by_cases hshort : ShortName.displayChars < text.length
    · rw [Query.matches_of_long hlen hlong hshort, if_pos hshort]
      exact iff_of_true rfl ⟨fun hlong' => absurd hlong' hlong, fun hdot => absurd hdot.length_le
        (Nat.not_le.mpr hshort)⟩
    · have hsame (h : ¬ DotInBase text entry (foldUnicode upper)) :
        (Longed text long (foldUnicode upper) →
          (encodeUtf16 text).length ≤ ShortName.maxUnits) ∧
            (DotInBase text entry (foldUnicode upper) → Longed text long (foldUnicode upper)) :=
        ⟨fun hlong' => absurd hlong' hlong, fun hdot => absurd hdot h⟩
      rw [Query.matches_of_short hlen hlong hshort, if_neg hshort]
      split
      · rename_i hplain
        cases hform : Query.asciiForm text (foldUnicode upper) with
        | none => exact iff_of_true rfl (hsame fun hdot => by simpa [hform] using hdot.form)
        | some stored =>
          obtain ⟨hshown, hstored⟩ := Query.shown_iff page hplain hform
          rw [Option.elim_some, Bool.eq_iff_iff, beq_iff_eq, beq_iff_eq, hshown]
          constructor
          · intro hsame
            exact ⟨fun hlong' => absurd hlong' hlong, fun hdot =>
              absurd (hsame.mpr (.inr hdot)) (hstored hdot)⟩
          · rintro ⟨-, hdot⟩
            rw [or_iff_left fun h => hlong (hdot h)]
      · exact iff_of_true rfl (hsame fun hdot => ‹¬ _› hdot.plain)

theorem FoldMode.fold_eq (upper : Char → List Char) (mode : FoldMode) :
    ∃ table, mode.fold upper = foldUnicode table := by
  cases mode with
  | ascii => exact ⟨_, foldAscii_eq⟩
  | unicode => exact ⟨upper, rfl⟩

def dottedEntry : ShortEntry := ShortEntry.new (ShortName.ofParts [0x41, 0x2E, 0x42] []) 0x20

end Directory

open Directory

/-- A prepared query tells as much as matching does, however case is folded, but where the long
name that matches is longer than one can be, and where the stored name alone matches and holds
the dot in its base. -/
theorem query_matches_iff (upper : Char → List Char) (mode : FoldMode) (text : Text)
    (long : Option (List UInt16)) (entry : ShortEntry) (page : CodePage) :
    (Query.new text (mode.fold upper)).matches long entry page (mode.fold upper) =
        «matches» text long entry page (mode.fold upper) ↔
      (Longed text long (mode.fold upper) → (encodeUtf16 text).length ≤ ShortName.maxUnits) ∧
        (DotInBase text entry (mode.fold upper) → Longed text long (mode.fold upper)) := by
  obtain ⟨table, htable⟩ := mode.fold_eq upper
  rw [htable]
  exact query_agrees_iff text long entry page

/-- The name `A.B` that is shown of such an entry does not find it. -/
theorem query_matches_fails : ¬ ∀ (upper : Char → List Char) (mode : FoldMode) (text : Text)
    (long : Option (List UInt16))
    (entry : ShortEntry) (page : CodePage),
    (Query.new text (mode.fold upper)).matches long entry page (mode.fold upper) =
      «matches» text long entry page (mode.fold upper) := by
  intro hall
  have hsame := hall (fun ch => [ch.toUpper]) .unicode ['A', '.', 'B'] none dottedEntry
    ⟨fun _ => '?', fun _ => none⟩
  revert hsame
  decide

end Hadris

namespace Hadris

namespace Directory

open List

def nameHash (units : List UInt16) : UInt64 :=
  units.foldl (fun hash unit => (hash ^^^ unit.toUInt64) * 0x100000001b3) 0xcbf29ce484222325

def Query.fingerprint (query : Query) : Option UInt64 := query.units.map nameHash

def shortFingerprint (upper : Char → List Char) (entry : ShortEntry) (page : CodePage) : UInt64 :=
  nameHash (folded (foldUnicode upper) (entry.name.display entry.ntCase page.decode))

/-- What the index of a directory keeps of an entry. -/
structure IndexedName where
  entry : ShortEntry
  long : Option (List UInt16)
  longHash : Option UInt64
  shortHash : UInt64

namespace IndexedName

def record (upper : Char → List Char) (page : CodePage) (long : Option (List UInt16))
    (entry : ShortEntry) : IndexedName where
  entry := entry
  long := long
  longHash := long.map fun units => nameHash (units.map (foldUnicode upper))
  shortHash := shortFingerprint upper entry page

def passes (cached : IndexedName) (hash : UInt64) : Bool :=
  cached.longHash == some hash || cached.shortHash == hash

def find (upper : Char → List Char) (page : CodePage) (query : Query)
    (entries : List IndexedName) : Option IndexedName :=
  match query.fingerprint with
  | none => none
  | some hash => entries.find? fun cached => cached.passes hash &&
      query.matches cached.long cached.entry page (foldUnicode upper)

end IndexedName

variable {upper : Char → List Char} {text : Text} {long : Option (List UInt16)}
  {entry : ShortEntry} {page : CodePage}

namespace Query

theorem fingerprint_new (h : ¬ ShortName.maxUnits < (encodeUtf16 text).length) :
    (Query.new text (foldUnicode upper)).fingerprint =
      some (nameHash (folded (foldUnicode upper) text)) := by
  rw [Query.new, if_neg h]
  rfl

theorem folded_of_matches (hlen : ¬ ShortName.maxUnits < (encodeUtf16 text).length)
    (h : (Query.new text (foldUnicode upper)).matches long entry page
      (foldUnicode upper) = true) :
    Longed text long (foldUnicode upper) ∨
      folded (foldUnicode upper) text = folded (foldUnicode upper)
        (entry.name.display entry.ntCase page.decode) := by
  apply or_iff_not_imp_left.mpr
  intro hlong
  have hshort : ¬ ShortName.displayChars < text.length := by
    intro hover
    rw [matches_of_long hlen hlong hover] at h
    exact Bool.false_ne_true h
  rw [matches_of_short hlen hlong hshort] at h
  split at h
  · rename_i hplain
    cases hform : asciiForm text (foldUnicode upper) with
    | none =>
      rw [hform] at h
      exact eq_of_beq h
    | some stored =>
      rw [hform] at h
      exact (shown_iff page hplain hform).1.mpr (.inl (eq_of_beq h))
  · exact eq_of_beq h

theorem fingerprint_of_matches
    (h : (Query.new text (foldUnicode upper)).matches long entry page
      (foldUnicode upper) = true) :
    ∃ hash, (Query.new text (foldUnicode upper)).fingerprint = some hash ∧
      (IndexedName.record upper page long entry).passes hash = true := by
  by_cases hlen : ShortName.maxUnits < (encodeUtf16 text).length
  · rw [matches_of_overlong hlen] at h
    exact absurd h Bool.false_ne_true
  · refine ⟨_, fingerprint_new hlen, ?_⟩
    rw [IndexedName.passes, Bool.or_eq_true, beq_iff_eq, beq_iff_eq]
    apply Or.imp _ _ (folded_of_matches hlen h)
    · rintro ⟨units, rfl, hunits⟩
      rw [hunits]
      rfl
    · intro hshown
      rw [hshown]
      rfl

end Query

theorem IndexedName.find_eq (page : CodePage)
    (entries : List (Option (List UInt16) × ShortEntry)) :
    (IndexedName.find upper page (Query.new text (foldUnicode upper))
        (entries.map fun found => IndexedName.record upper page found.1 found.2)) =
      (entries.find? fun found => (Query.new text (foldUnicode upper)).matches found.1 found.2
        page (foldUnicode upper)).map
        fun found => IndexedName.record upper page found.1 found.2 := by
  rw [IndexedName.find]
  cases hash : (Query.new text (foldUnicode upper)).fingerprint with
  | none =>
    refine Eq.symm (Option.map_eq_none_iff.mpr (find?_eq_none.mpr ?_))
    rintro ⟨long, entry⟩ - hmatches
    obtain ⟨other, hother, -⟩ := Query.fingerprint_of_matches hmatches
    simp [hash] at hother
  | some value =>
    change find? _ (List.map _ entries) = _
    rw [find?_map]
    congr 2
    funext found
    rw [Function.comp_apply, Bool.eq_iff_iff, Bool.and_eq_true]
    refine and_iff_right_of_imp fun hmatches => ?_
    obtain ⟨other, hother, hpasses⟩ := Query.fingerprint_of_matches hmatches
    obtain rfl := Option.some.inj (hash.symm.trans hother)
    exact hpasses

end Directory

open Directory

/-- The fingerprint of a query is recorded of each entry that the query names, as that of the long
or of the short name, and so a lookup that compares only where a fingerprint
agrees misses no entry. -/
theorem fingerprints_complete (upper : Char → List Char) (text : Text) (page : CodePage) :
    (∀ (long : Option (List UInt16)) (entry : ShortEntry),
      (Query.new text (foldUnicode upper)).matches long entry page (foldUnicode upper) = true →
        ∃ hash, (Query.new text (foldUnicode upper)).fingerprint = some hash ∧
          ((IndexedName.record upper page long entry).longHash = some hash ∨
            (IndexedName.record upper page long entry).shortHash = hash)) ∧
      ∀ entries : List (Option (List UInt16) × ShortEntry),
        IndexedName.find upper page (Query.new text (foldUnicode upper))
            (entries.map fun found => IndexedName.record upper page found.1 found.2) =
          (entries.find? fun found =>
            (Query.new text (foldUnicode upper)).matches found.1 found.2 page
              (foldUnicode upper)).map
              fun found => IndexedName.record upper page found.1 found.2 := by
  refine ⟨fun long entry h => ?_, IndexedName.find_eq page⟩
  obtain ⟨hash, hhash, hpasses⟩ := Query.fingerprint_of_matches h
  rw [IndexedName.passes, Bool.or_eq_true, beq_iff_eq, beq_iff_eq] at hpasses
  exact ⟨hash, hhash, hpasses⟩

/-- The entry stored as `AB`, asked for as `ab`. -/
theorem fingerprints_complete_sample :
    ∃ hash, (Query.new ['a', 'b'] (foldUnicode fun ch => [ch.toUpper])).fingerprint = some hash ∧
      ((IndexedName.record (fun ch => [ch.toUpper]) ⟨fun _ => '?', fun _ => none⟩ none
          (ShortEntry.new (ShortName.ofParts [0x41, 0x42] []) 0x20)).longHash = some hash ∨
        (IndexedName.record (fun ch => [ch.toUpper]) ⟨fun _ => '?', fun _ => none⟩ none
          (ShortEntry.new (ShortName.ofParts [0x41, 0x42] []) 0x20)).shortHash = hash) :=
  (fingerprints_complete (fun ch => [ch.toUpper]) ['a', 'b'] ⟨fun _ => '?', fun _ => none⟩).1 none
    (ShortEntry.new (ShortName.ofParts [0x41, 0x42] []) 0x20) (by decide)

end Hadris
