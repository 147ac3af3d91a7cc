import Mathlib.Data.List.GetD
import Hadris.Directory.Keys

namespace Hadris.Directory

open List
open Padding

namespace ShortName

example : processChar (fun _ => none) (Char.ofNat 0x2B) = 0x5F := by decide +kernel

theorem processChar_ascii {ch : Char} (h : isAscii ch) (encode : Char → Option UInt8) :
    processChar encode ch < 0x80 ∧
      (processChar encode ch ≠ 0 → IsNameByte (processChar encode ch)) := by
  have hall : ∀ n < 128, processChar (fun _ => none) (Char.ofNat n) < 0x80 ∧
      (processChar (fun _ => none) (Char.ofNat n) ≠ 0 →
        IsNameByte (processChar (fun _ => none) (Char.ofNat n))) := by decide +kernel
  have heq : processChar encode ch = processChar (fun _ => none) ch := by
    have hneg : ¬(!isAscii ch) = true := by simpa using h
    rw [processChar, if_neg hneg, processChar, if_neg hneg]
  have hch := hall ch.toNat (of_decide_eq_true h)
  rwa [Char.ofNat_toNat, ← heq] at hch

theorem processChar_isNameByte (encode : Char → Option UInt8) (ch : Char)
    (h : processChar encode ch ≠ 0) : IsNameByte (processChar encode ch) := by
  cases hascii : isAscii ch with
  | true => exact (processChar_ascii hascii encode).2 h
  | false =>
    rw [processChar, if_pos (by rw [hascii]; rfl)]
    cases encode ch with
    | none => decide
    | some byte =>
      dsimp only
      split
      · rename_i hhigh
        refine ⟨UInt8.lt_of_lt_of_le (by decide) hhigh, ?_, fun hlower => ?_⟩
        · rintro rfl
          exact absurd hhigh (by decide)
        · exact absurd (UInt8.le_trans hhigh hlower.2) (by decide)
      · decide

theorem fill_isNameByte (encode : Char → Option UInt8) (limit : Nat) (text : Text) :
    ∀ byte ∈ fill encode limit text, IsNameByte byte := by
  induction text generalizing limit with
  | nil => cases limit <;> exact fun _ h => nomatch h
  | cons ch rest ih =>
    cases limit with
    | zero => exact fun _ h => nomatch h
    | succ limit =>
      rw [fill]
      split
      · exact ih _
      · rename_i hbyte
        intro byte hmem
        rcases mem_cons.mp hmem with rfl | hmem
        · exact processChar_isNameByte encode ch hbyte
        · exact ih _ byte hmem

theorem fill_length_le (encode : Char → Option UInt8) (limit : Nat) (text : Text) :
    (fill encode limit text).length ≤ limit := by
  induction text generalizing limit with
  | nil => cases limit <;> exact Nat.zero_le _
  | cons ch rest ih =>
    cases limit with
    | zero => exact Nat.le_refl 0
    | succ limit =>
      rw [fill]
      split
      · exact ih _
      · rw [length_cons]
        exact Nat.succ_le_succ (ih _)

theorem fill_ascii {encode : Char → Option UInt8} {text : Text} (h : ∀ ch ∈ text, isAscii ch)
    (limit : Nat) : ∀ byte ∈ fill encode limit text, byte < 0x80 := by
  induction text generalizing limit with
  | nil => cases limit <;> exact fun _ h => nomatch h
  | cons ch rest ih =>
    have hrest := ih fun c hc => h c (mem_cons_of_mem _ hc)
    cases limit with
    | zero => exact fun _ h => nomatch h
    | succ limit =>
      rw [fill]
      split
      · exact hrest _
      · intro byte hmem
        rcases mem_cons.mp hmem with rfl | hmem
        · exact (processChar_ascii (h ch mem_cons_self) encode).1
        · exact hrest _ byte hmem

theorem nibble_isNameByte (value : UInt16) (shift : Nat) : IsNameByte (nibble value shift) := by
  have hall : ∀ d < 16, IsNameByte (if UInt8.ofNat d < 10 then 0x30 + UInt8.ofNat d
      else 0x41 + UInt8.ofNat d - 10) := by decide
  have hdigit : (value >>> UInt16.ofNat shift &&& 0xF).toUInt8.toNat < 16 := by
    rw [UInt16.toNat_toUInt8, UInt16.toNat_and]
    refine (Nat.mod_le _ _).trans_lt (Nat.lt_of_le_of_lt Nat.and_le_right (by decide))
  have hnibble := hall _ hdigit
  rwa [UInt8.ofNat_toNat] at hnibble

theorem tail_isNameByte (name : Text) {suffix : Nat} (h : 0 < suffix) :
    ∀ byte ∈ tail name suffix, IsNameByte byte := by
  rw [tail]
  split
  · rename_i hle
    have hall : ∀ suffix < 5, IsNameByte (0x30 + UInt8.ofNat suffix) := by decide
    simp only [mem_cons, not_mem_nil, or_false]
    rintro byte (rfl | rfl)
    · decide
    · exact hall suffix (by omega)
  · have hall : ∀ digit < 9, IsNameByte (0x31 + UInt8.ofNat digit) := by decide
    simp only [mem_cons, not_mem_nil, or_false]
    rintro byte (rfl | rfl | rfl | rfl | rfl | rfl)
    · exact nibble_isNameByte _ _
    · exact nibble_isNameByte _ _
    · exact nibble_isNameByte _ _
    · exact nibble_isNameByte _ _
    · decide
    · exact hall _ (Nat.mod_lt _ (by decide))

theorem tail_length (name : Text) (suffix : Nat) :
    (tail name suffix).length ≤ 8 ∧ tail name suffix ≠ [] := by
  rw [tail]
  split <;> exact ⟨by simp, by simp⟩

theorem parts_spec (name : Text) (suffix : Nat) (encode : Char → Option UInt8) :
    (parts name suffix encode).1.length ≤ 8 ∧ (parts name suffix encode).2.length ≤ 3 ∧
      (∀ byte ∈ (parts name suffix encode).1 ++ (parts name suffix encode).2, IsNameByte byte) ∧
      (0 < suffix → (parts name suffix encode).1 ≠ []) := by
  rw [parts]
  dsimp only
  generalize (if ((splitExt name).1.all (fun ch => isDot ch || isSpace ch) &&
    !(splitExt name).2.isEmpty) = true then ((splitExt name).2, [])
      else ((splitExt name).1, (splitExt name).2)) = pair
  obtain ⟨base, ext⟩ := pair
  obtain ⟨htail, hne⟩ := tail_length name suffix
  have hext := fill_length_le encode 3 ext
  dsimp only
  split
  · rename_i hsuffix
    have hbytes : ∀ byte ∈ (fill encode 6 base).take (8 - (tail name suffix).length) ++
        tail name suffix, IsNameByte byte := by
      intro byte hmem
      rcases mem_append.mp hmem with hmem | hmem
      · exact fill_isNameByte encode 6 base byte (mem_of_mem_take hmem)
      · exact tail_isNameByte name hsuffix byte hmem
    refine ⟨?_, hext, fun byte hmem => ?_, fun _ => by simp [hne]⟩
    · rw [length_append, length_take]
      omega
    · rcases mem_append.mp hmem with hmem | hmem
      · exact hbytes byte hmem
      · exact fill_isNameByte encode 3 ext byte hmem
  · rename_i hsuffix
    refine ⟨fill_length_le encode 8 base, hext, fun byte hmem => ?_, fun h => absurd h hsuffix⟩
    rcases mem_append.mp hmem with hmem | hmem
    · exact fill_isNameByte encode 8 base byte hmem
    · exact fill_isNameByte encode 3 ext byte hmem

theorem parts_ascii {name : Text} (h : ∀ ch ∈ name, isAscii ch) (encode : Char → Option UInt8) :
    ∀ byte ∈ (parts name 0 encode).1 ++ (parts name 0 encode).2, byte < 0x80 := by
  have hsplit : (∀ ch ∈ (splitExt name).1, isAscii ch) ∧
      ∀ ch ∈ (splitExt name).2, isAscii ch := by
    rw [splitExt]
    split
    · exact ⟨h, fun _ h => nomatch h⟩
    · exact ⟨fun ch hch => h ch (List.IsPrefix.mem (dropLast_subset _ hch)
        (List.rdropWhile_prefix _ _)), fun ch hch => h ch (List.IsSuffix.mem hch
        (rtakeWhile_suffix _ _))⟩
  rw [parts]
  dsimp only
  obtain ⟨pair, hpair⟩ : ∃ pair : Text × Text, pair = if ((splitExt name).1.all fun ch =>
      isDot ch || isSpace ch) && !(splitExt name).2.isEmpty
    then ((splitExt name).2, []) else ((splitExt name).1, (splitExt name).2) := ⟨_, rfl⟩
  have hascii : (∀ ch ∈ pair.1, isAscii ch) ∧ ∀ ch ∈ pair.2, isAscii ch := by
    rw [hpair]
    split
    · exact ⟨hsplit.2, fun _ h => nomatch h⟩
    · exact hsplit
  rw [← hpair]
  intro byte hmem
  rcases mem_append.mp hmem with hmem | hmem
  · exact fill_ascii hascii.1 8 byte hmem
  · exact fill_ascii hascii.2 3 byte hmem

theorem generate_eq (name : Text) (suffix : Nat) (encode : Char → Option UInt8) :
    generate name suffix encode =
      if (parts name suffix encode).1.isEmpty && (parts name suffix encode).2.isEmpty then none
      else some (ofParts (parts name suffix encode).1 (parts name suffix encode).2) := rfl

theorem Made.of_parts {name : Text} {suffix : Nat} {encode : Char → Option UInt8} :
    (ofParts (parts name suffix encode).1 (parts name suffix encode).2).toDisk.Made
      (parts name suffix encode).1 (parts name suffix encode).2 where
  eq := rfl
  base_le := (parts_spec name suffix encode).1
  ext_le := (parts_spec name suffix encode).2.1
  bytes := (parts_spec name suffix encode).2.2.1

end ShortName

variable {upper : Char → List Char} {page : CodePage} {text : Text} {new : NewName}

variable (page text) in
theorem candidate_made {suffix : Nat} (h : 0 < suffix) (fold : UInt16 → UInt16) :
    ∃ name base ext, shortName text suffix page fold = some name ∧
      candidate text page fold suffix = name.toDisk ∧ name.toDisk.Made base ext := by
  have hne := (ShortName.parts_spec text suffix fun ch => page.encode (foldChar fold ch)).2.2.2 h
  have hgen : shortName text suffix page fold = some (ShortName.ofParts
      (ShortName.parts text suffix fun ch => page.encode (foldChar fold ch)).1
      (ShortName.parts text suffix fun ch => page.encode (foldChar fold ch)).2) := by
    rw [shortName, ShortName.generate_eq, if_neg]
    rw [Bool.and_eq_true, List.isEmpty_iff, List.isEmpty_iff]
    exact fun h => hne h.1
  refine ⟨_, _, _, hgen, ?_, ShortName.Made.of_parts⟩
  rw [candidate, hgen]
  rfl

theorem folded_map_upperChar (h : ∀ ch ∈ text, isAscii ch) :
    folded (foldUnicode upper) (text.map upperChar) = folded (foldUnicode upper) text := by
  have hall : ∀ n < 128, isAscii (upperChar (Char.ofNat n)) ∧
      charKey (upperChar (Char.ofNat n)) = charKey (Char.ofNat n) := by decide
  have hch : ∀ ch ∈ text, isAscii (upperChar ch) ∧ charKey (upperChar ch) = charKey ch := by
    intro ch hmem
    have h := hall ch.toNat (of_decide_eq_true (h ch hmem))
    rwa [Char.ofNat_toNat] at h
  rw [folded_ascii h, folded_ascii, map_map]
  · exact map_congr_left fun c hc => (hch c hc).2
  · intro c hc
    obtain ⟨ch, hmem, rfl⟩ := mem_map.mp hc
    exact (hch ch hmem).1

namespace NewName

theorem slots_pos (new : NewName) : 0 < new.slots := by
  rw [slots]
  split
  · exact Nat.one_pos
  · exact Nat.succ_pos _

theorem new_ok {fold : UInt16 → UInt16} (h : NewName.new text page fold = .ok new) :
    new.text = text ∧ (encodeUtf16 text).length ≤ ShortName.maxUnits ∧
      ShortName.isValidLongName text ∧
      (∀ bit < candidateCount, new.candidate bit = Directory.candidate text page fold bit) ∧
      (new.lossless → (Directory.candidate text page fold 0).first ≠ 0 ∧
        (∀ ch ∈ text, isAscii ch) ∧
        text.map upperChar = (Directory.candidate text page fold 0).display 0 page.decode) := by
  rw [NewName.new] at h
  split at h
  · cases h
  · rename_i hlen
    split at h
    · cases h
    · rename_i hvalid
      cases h
      rw [Bool.or_eq_true, not_or, Bool.not_eq_true', Bool.not_eq_false] at hvalid
      refine ⟨rfl, Nat.not_lt.mp hlen, hvalid.1, fun bit hbit => ?_, fun hlossless => ?_⟩
      · rw [NewName.candidate, getD_eq_getElem _ _ (by simpa using hbit), getElem_map,
          getElem_range]
      · simp only [Bool.and_eq_true, bne_iff_ne, all_eq_true, beq_iff_eq] at hlossless
        exact ⟨hlossless.1.1, hlossless.1.2, hlossless.2⟩

theorem new_caseBits {fold : UInt16 → UInt16} (h : NewName.new text page fold = .ok new) :
    new.caseBits = ShortName.caseBits text := by
  rw [NewName.new] at h
  split at h
  · cases h
  · split at h
    · cases h
    · cases h
      rfl

theorem new_last {fold : UInt16 → UInt16} (h : NewName.new text page fold = .ok new) :
    text.getLast?.any ShortName.isDot = false := by
  rw [NewName.new] at h
  split at h
  · cases h
  · split at h
    · cases h
    · rename_i hvalid
      rw [Bool.or_eq_true, not_or, Bool.not_eq_true] at hvalid
      cases hlast : text.getLast? with
      | none => rfl
      | some ch =>
        have hdot := hvalid.2
        rw [hlast, Option.any_some, Bool.not_eq_true, Bool.or_eq_false_iff] at hdot
        exact hdot.1

theorem lossless_ascii {fold : UInt16 → UInt16} (h : NewName.new text page fold = .ok new)
    (hlossless : new.lossless) : ∃ base ext,
      (Directory.candidate text page fold 0).Made base ext ∧
      ∀ byte ∈ base ++ ext, byte < 0x80 := by
  obtain ⟨hfirst, hascii, -⟩ := (new_ok h).2.2.2.2 hlossless
  refine ⟨_, _, ?_, ShortName.parts_ascii hascii fun ch => page.encode (foldChar fold ch)⟩
  rw [Directory.candidate, shortName, ShortName.generate_eq] at hfirst ⊢
  split at hfirst
  · exact absurd rfl hfirst
  · rename_i hne
    rw [if_neg hne]
    exact ShortName.Made.of_parts

theorem lossless_made (h : NewName.new text page (foldUnicode upper) = .ok new)
    (hlossless : new.lossless) : ∃ base ext, (new.candidate 0).Made base ext ∧
      (∀ byte ∈ base ++ ext, byte < 0x80) ∧
      ∀ ntCase, folded (foldUnicode upper) ((new.candidate 0).display ntCase page.decode) =
        folded (foldUnicode upper) text := by
  obtain ⟨-, -, -, hcandidate, hbasis⟩ := new_ok h
  obtain ⟨-, hascii, htext⟩ := hbasis hlossless
  rw [hcandidate 0 (by decide)]
  obtain ⟨base, ext, hmade, hbytes⟩ := lossless_ascii h hlossless
  refine ⟨base, ext, hmade, hbytes, fun ntCase => ?_⟩
  rw [hmade.folded_display hbytes, ← hmade.folded_display hbytes 0 page.decode, ← htext,
    folded_map_upperChar hascii]

end NewName

end Hadris.Directory

namespace Hadris.Directory

open List
open Padding

variable {text part : Text} {decode : UInt8 → Char} {lower : Bool}

namespace ShortName

def keepsCase (lower : Bool) (ch : Char) : Bool :=
  isAscii ch && !isDot ch && if lower then !decide (0x41 ≤ ch.toNat ∧ ch.toNat ≤ 0x5A)
    else !decide (0x61 ≤ ch.toNat ∧ ch.toNat ≤ 0x7A)

theorem keepsCase_of_partIsLower (h : partIsLower part = some lower) :
    ∀ ch ∈ part, keepsCase lower ch := by
  rw [partIsLower] at h
  dsimp only at h
  split at h
  · cases h
  · rename_i hall
    split at h
    · cases h
    · rename_i hmixed
      rw [Option.some.injEq] at h
      rw [Bool.not_eq_true, Bool.not_eq_false', all_eq_true] at hall
      rw [h] at hmixed
      intro ch hch
      have hallowed := hall ch hch
      rw [Bool.and_eq_true] at hallowed
      have hdot : isDot ch = false := by
        rw [Bool.eq_false_iff]
        intro hdot
        rw [eq_dot hdot] at hallowed
        exact absurd hallowed.2 (by decide)
      rw [keepsCase, hallowed.1, hdot]
      cases lower with
      | true =>
        rw [Bool.true_and, Bool.not_eq_true, any_eq_false] at hmixed
        have hupper := hmixed ch hch
        change (!decide _) = true
        rw [Bool.not_eq_true', ← Bool.not_eq_true]
        exact hupper
      | false =>
        have hlower := any_eq_false.mp h ch hch
        change (!decide _) = true
        rw [Bool.not_eq_true', ← Bool.not_eq_true]
        exact hlower

example : upperChar (Char.ofNat 0x61) = Char.ofNat 0x41 := by decide +kernel

theorem shownByte_eq {ch : Char} {byte : UInt8} (hkeeps : keepsCase lower ch)
    (hbyte : byte < 0x80)
    (hshown : upperChar ch = shownByte decode false byte) : shownByte decode lower byte = ch := by
  have hall : ∀ lower : Bool, ∀ n < 128, keepsCase lower (Char.ofNat n) →
      toAsciiUppercase (UInt8.ofNat n) < 0x80 ∧
        Char.ofNat (if lower then toAsciiLowercase (toAsciiUppercase (UInt8.ofNat n))
          else toAsciiUppercase (UInt8.ofNat n)).toNat = Char.ofNat n := by decide +kernel
  have hascii : isAscii ch := by
    rw [keepsCase, Bool.and_eq_true, Bool.and_eq_true] at hkeeps
    exact hkeeps.1.1
  have hch := hall lower ch.toNat (of_decide_eq_true hascii)
  rw [Char.ofNat_toNat] at hch
  obtain ⟨hlt, hch⟩ := hch hkeeps
  have heq : byte = toAsciiUppercase (UInt8.ofNat ch.toNat) := by
    rw [upperChar, if_pos hascii, shownByte, if_pos hbyte] at hshown
    have hnat := congrArg Char.toNat hshown
    rw [if_neg Bool.false_ne_true, toNat_char (UInt8.lt_iff_toNat_lt.mp hlt),
      toNat_char (UInt8.lt_iff_toNat_lt.mp hbyte)] at hnat
    exact (UInt8.toNat_inj.mp hnat).symm
  rw [shownByte, if_pos hbyte, heq, hch]

theorem map_shownByte {bytes : List UInt8} (hkeeps : ∀ ch ∈ part, keepsCase lower ch)
    (hbytes : ∀ byte ∈ bytes, byte < 0x80)
    (hshown : part.map upperChar = bytes.map (shownByte decode false)) :
    bytes.map (shownByte decode lower) = part := by
  induction part generalizing bytes with
  | nil =>
    rw [map_nil, eq_comm, map_eq_nil_iff] at hshown
    rw [hshown, map_nil]
  | cons ch rest ih =>
    rcases bytes with _ | ⟨byte, bytes⟩
    · cases hshown
    · rw [map_cons, map_cons, List.cons.injEq] at hshown
      rw [map_cons, shownByte_eq (hkeeps ch mem_cons_self)
        (hbytes byte mem_cons_self) hshown.1,
        ih (fun c hc => hkeeps c (mem_cons_of_mem _ hc))
          (fun b hb => hbytes b (mem_cons_of_mem _ hb)) hshown.2]

theorem splitExt_eq (hlast : text.getLast?.any isDot = false) :
    text = (splitExt text).1 ++ dotted (Char.ofNat 0x2E) (splitExt text).2 := by
  rw [splitExt]
  split
  · rw [dotted, if_pos rfl, append_nil]
  · rename_i hne
    refine Query.rsplitDot_eq ?_ hlast
    rw [Query.rsplitDot, if_neg, Option.getD_some]
    intro hnil
    rw [hnil] at hne
    exact hne rfl

theorem caseBits_some {bits : UInt8} (h : caseBits text = some bits) :
    ∃ base ext : Bool, partIsLower (splitExt text).1 = some base ∧
      partIsLower (splitExt text).2 = some ext ∧
        bits = (if base then lowerBase else 0) ||| (if ext then lowerExt else 0) := by
  rw [caseBits] at h
  dsimp only at h
  split at h
  · cases h
  · split at h
    · cases h
    · cases hbase : partIsLower (splitExt text).1 with
      | none =>
        rw [hbase] at h
        cases h
      | some base =>
        cases hext : partIsLower (splitExt text).2 with
        | none =>
          rw [hbase, hext] at h
          cases h
        | some ext =>
          rw [hbase, hext] at h
          exact ⟨base, ext, rfl, rfl, (Option.some.inj h).symm⟩

end ShortName

open ShortName

theorem upperChar_dot {ch : Char} (h : isDot ch = false) (hascii : isAscii ch) :
    upperChar ch ≠ Char.ofNat 0x2E := by
  have hall : ∀ n < 128, isDot (Char.ofNat n) = false →
      upperChar (Char.ofNat n) ≠ Char.ofNat 0x2E := by decide +kernel
  have hch := hall ch.toNat (of_decide_eq_true hascii)
  rw [Char.ofNat_toNat] at hch
  exact hch h

theorem NewName.display_shortOnly {page : CodePage} {fold : UInt16 → UInt16} {new : NewName}
    (hnew : NewName.new text page fold = .ok new) (hshort : new.shortOnly = true) :
    (Directory.candidate text page fold 0).display (new.caseBits.getD 0) page.decode = text := by
  rw [NewName.shortOnly, Bool.and_eq_true, Option.isSome_iff_exists] at hshort
  obtain ⟨hlossless, bits, hbits⟩ := hshort
  obtain ⟨base, ext, hmade, hbytes⟩ := lossless_ascii hnew hlossless
  obtain ⟨-, hascii, hshown⟩ := (new_ok hnew).2.2.2.2 hlossless
  have hcase : ShortName.caseBits text = some bits := by
    rw [← hbits, new_caseBits hnew]
  obtain ⟨baseLower, extLower, hbase, hext, rfl⟩ := caseBits_some hcase
  have hkeepsBase := keepsCase_of_partIsLower hbase
  have hkeepsExt := keepsCase_of_partIsLower hext
  have hsplit := splitExt_eq (new_last hnew)
  have hparts : (splitExt text).1.map upperChar ++
      dotted (Char.ofNat 0x2E) ((splitExt text).2.map upperChar) =
        base.map (shownByte page.decode false) ++
          dotted (Char.ofNat 0x2E) (ext.map (shownByte page.decode false)) := by
    have hdotted := map_dotted upperChar (Char.ofNat 0x2E) (splitExt text).2
    have hdot : upperChar (Char.ofNat 0x2E) = Char.ofNat 0x2E := by decide
    rw [hdot] at hdotted
    rw [← hdotted, ← map_append, ← hsplit, hshown, hmade.display_eq]
    rfl
  have hdotBase : Char.ofNat 0x2E ∉ (splitExt text).1.map upperChar := by
    intro hmem
    obtain ⟨ch, hch, heq⟩ := mem_map.mp hmem
    have hkeeps := hkeepsBase ch hch
    rw [keepsCase, Bool.and_eq_true, Bool.and_eq_true, Bool.not_eq_true'] at hkeeps
    exact upperChar_dot hkeeps.1.2 hkeeps.1.1 heq
  have hdotBytes : Char.ofNat 0x2E ∉ base.map (shownByte page.decode false) := by
    intro hmem
    obtain ⟨byte, hbyte, heq⟩ := mem_map.mp hmem
    have hlt := hbytes byte (mem_append_left _ hbyte)
    rw [shownByte, if_pos hlt, if_neg Bool.false_ne_true] at heq
    have hnat := congrArg Char.toNat heq
    rw [toNat_char (UInt8.lt_iff_toNat_lt.mp hlt)] at hnat
    exact (hmade.bytes byte (mem_append_left _ hbyte)).2.1 (UInt8.toNat_inj.mp hnat)
  obtain ⟨hbaseMap, hextMap⟩ := (append_dotted_inj hdotBase hdotBytes).mp hparts
  have hlowerBase :
      (((if baseLower then lowerBase else 0) ||| (if extLower then lowerExt else 0)) &&&
        lowerBase != 0) = baseLower := by
    cases baseLower <;> cases extLower <;> rfl
  have hlowerExt :
      (((if baseLower then lowerBase else 0) ||| (if extLower then lowerExt else 0)) &&&
        lowerExt != 0) = extLower := by
    cases baseLower <;> cases extLower <;> rfl
  rw [hbits, Option.getD_some, hmade.display_eq, hlowerBase, hlowerExt,
    map_shownByte hkeepsBase (fun b hb => hbytes b (mem_append_left _ hb)) hbaseMap,
    map_shownByte hkeepsExt (fun b hb => hbytes b (mem_append_right _ hb)) hextMap]
  exact hsplit.symm

end Hadris.Directory
