import Hadris.Bytes
import Hadris.Directory.Stored
import Hadris.Meta

namespace Hadris.Udf

open List
open Hadris.Directory

/-- What exactly went wrong in a read, beyond the kind of the error. -/
inductive Detail where
  | partition
  | icb
  | allocationDescriptor
  | fileIdentifier
  | pathComponent
  | outsideImage
deriving DecidableEq, Repr

namespace Detail

def number : Detail → Nat
  | partition => 7
  | icb => 9
  | allocationDescriptor => 10
  | fileIdentifier => 11
  | pathComponent => 12
  | outsideImage => 13

def description : Detail → String
  | partition => "a partition reference or extent is out of bounds"
  | icb => "invalid file entry"
  | allocationDescriptor => "invalid allocation descriptors"
  | fileIdentifier => "invalid file identifier descriptor"
  | pathComponent => "invalid symbolic link path components"
  | outsideImage => "a structure lies outside the device"

def error (detail : Detail) (kind : ErrorKind) : Error :=
  (Error.new kind detail.description).withDetail ⟨"hadris-udf", detail.number⟩

def corrupt (detail : Detail) : Error := detail.error .corrupt

end Detail

/-! Compressed Unicode and d-strings. -/

def isLatin (ch : Char) : Bool := decide (ch.toNat ≤ 0xFF)

def bigEndian (unit : UInt16) : List UInt8 :=
  [UInt8.ofNat (unit.toNat / 256), UInt8.ofNat (unit.toNat % 256)]

def encodeCs0 (text : Text) : List UInt8 :=
  if text.all isLatin then 8 :: text.map fun ch => UInt8.ofNat ch.toNat
  else 16 :: (encodeUtf16 text).flatMap bigEndian

def units : List UInt8 → List UInt16
  | high :: low :: rest => UInt16.ofNat (high.toNat * 256 + low.toNat) :: units rest
  | _ => []

def push (room : Nat) (out : List UInt8) (ch : Char) : Option (List UInt8) :=
  if out.length + (String.utf8EncodeChar ch).length ≤ room then
    some (out ++ String.utf8EncodeChar ch)
  else none

def decodeCs0 (raw : List UInt8) (room : Nat) : Option (List UInt8) :=
  match raw with
  | [] => none
  | id :: content =>
    if id = 8 ∨ id = 254 then (content.map fun byte => Char.ofNat byte.toNat).foldlM
      (push room) []
    else if id = 16 ∨ id = 255 then (utf16Chars (units content)).foldlM (push room) []
    else none

def decodeDstring (field : List UInt8) (room : Nat) : List UInt8 :=
  match field.getLast? with
  | none => []
  | some len =>
    let body := field.dropLast
    if len.toNat < 2 ∨ body.length < len.toNat then []
    else (decodeCs0 (body.take len.toNat) room).getD []

def charBytes (wide : Bool) (ch : Char) : List UInt8 :=
  if wide then (charUnits ch).flatMap bigEndian else [UInt8.ofNat ch.toNat]

/-- The bytes of the characters up to the first that `room` does not hold, and
whether there is one. -/
def fillDstring (wide : Bool) (room : Nat) : Text → List UInt8 → List UInt8 × Bool
  | [], encoded => (encoded, false)
  | ch :: rest, encoded =>
    if room < encoded.length + (charBytes wide ch).length then (encoded, true)
    else fillDstring wide room rest (encoded ++ charBytes wide ch)

def writeDstring (width : Nat) (text : Text) : List UInt8 × Bool :=
  if text = [] ∨ width < 2 then (replicate width 0, false)
  else
    let wide := !text.all isLatin
    let (encoded, cut) := fillDstring wide (width - 2) text []
    ((if wide then 16 else 8) :: encoded ++ replicate (width - 2 - encoded.length) 0 ++
      [UInt8.ofNat (encoded.length + 1)], cut)

/-! Symbolic links. -/

def slash : Char := '/'

def fromUtf8 (bytes : List UInt8) : Option Text :=
  bytes.toByteArray.utf8Decode?.map Array.toList

def pathComponent (part : Text) : Option (List UInt8) :=
  if part = ['.'] then some [4, 0, 0, 0]
  else if part = ['.', '.'] then some [3, 0, 0, 0]
  else
    let encoded := encodeCs0 part
    if encoded.length < 256 then some ([5, UInt8.ofNat encoded.length, 0, 0] ++ encoded) else none

def pathComponents : List Text → Option (List UInt8)
  | [] => some []
  | part :: rest => do
    let component ← pathComponent part
    let components ← pathComponents rest
    some (component ++ components)

def pathParts (text : Text) : List Text := (text.splitOn slash).filter (· ≠ [])

def encodeSymlink (target : List UInt8) : Option (List UInt8) := do
  let text ← fromUtf8 target
  let components ← pathComponents (pathParts text)
  some ((if text.head? = some slash then [1, 0, 0, 0] else []) ++ components)

def pushPart (room : Nat) (out bytes : List UInt8) : Except Error (List UInt8) :=
  let out := if out = [] ∨ out.getLast? = some 0x2F then out else out ++ [0x2F]
  if out.length + bytes.length ≤ room then .ok (out ++ bytes)
  else .error (Error.ofKind .limitExceeded)

def readPart (room : Nat) (out : List UInt8) (kind : UInt8) (ident : List UInt8) :
    Except Error (List UInt8) :=
  if kind = 1 ∨ kind = 2 then
    if room = 0 then .error (Error.ofKind .limitExceeded) else .ok [0x2F]
  else if kind = 3 then pushPart room out [0x2E, 0x2E]
  else if kind = 4 then pushPart room out [0x2E]
  else if kind = 5 then
    match (decodeCs0 ident 1024).filter (· ≠ []) with
    | some name => pushPart room out name
    | none => .error (Detail.corrupt .pathComponent)
  else .error (Detail.corrupt .pathComponent)

def linkTargetFrom (room : Nat) (data out : List UInt8) : Except Error (List UInt8) :=
  match data with
  | [] => .ok out
  | kind :: len :: _ :: _ :: rest =>
    if rest.length < len.toNat then .error (Detail.corrupt .pathComponent)
    else do
      let out ← readPart room out kind (rest.take len.toNat)
      linkTargetFrom room (rest.drop len.toNat) out
  | _ => .error (Detail.corrupt .pathComponent)
termination_by data.length
decreasing_by
  simp only [length_drop, length_cons]
  omega

def linkTarget (room : Nat) (data : List UInt8) : Except Error (List UInt8) :=
  linkTargetFrom room data []

/-! Reading back what was written. -/

section

variable {text : Text} {room width : Nat} {out : List UInt8} {wide : Bool}

theorem units_bigEndian (unit : UInt16) (rest : List UInt8) :
    units (bigEndian unit ++ rest) = unit :: units rest := by
  have hlt : unit.toNat < 2 ^ 16 := unit.toNat_lt
  change UInt16.ofNat ((UInt8.ofNat (unit.toNat / 256)).toNat * 256 +
    (UInt8.ofNat (unit.toNat % 256)).toNat) :: units rest = _
  rw [UInt8.toNat_ofNat_of_lt' (by change _ < 256; omega),
    UInt8.toNat_ofNat_of_lt' (by change _ < 256; omega), Nat.div_add_mod', UInt16.ofNat_toNat]

theorem units_flatMap (all : List UInt16) : units (all.flatMap bigEndian) = all := by
  induction all with
  | nil => rfl
  | cons unit rest ih =>
    rw [flatMap_cons, units_bigEndian, ih]

theorem foldlM_push (h : out.length ≤ room) : text.foldlM (push room) out =
    if out.length + (encodeUtf8 text).length ≤ room then some (out ++ encodeUtf8 text)
      else none := by
  induction text generalizing out with
  | nil =>
    rw [encodeUtf8, flatMap_nil, length_nil, Nat.add_zero, if_pos h, append_nil]
    rfl
  | cons ch rest ih =>
    have hlen : (encodeUtf8 (ch :: rest)).length =
        (String.utf8EncodeChar ch).length + (encodeUtf8 rest).length := length_append
    rw [foldlM_cons, push, hlen]
    split
    · rename_i hfits
      change rest.foldlM (push room) (out ++ String.utf8EncodeChar ch) = _
      rw [ih (by rwa [length_append]), length_append, Nat.add_assoc, append_assoc]
      rfl
    · rename_i hfull
      rw [if_neg (by omega)]
      rfl

def encodeAs (wide : Bool) (text : Text) : List UInt8 :=
  (if wide then 16 else 8) :: text.flatMap (charBytes wide)

theorem flatMap_charBytes (text : Text) :
    text.flatMap (charBytes true) = (encodeUtf16 text).flatMap bigEndian := by
  rw [encodeUtf16, flatMap_assoc]
  rfl

theorem encodeCs0_eq (text : Text) : encodeCs0 text = encodeAs (!text.all isLatin) text := by
  rw [encodeCs0, encodeAs]
  cases text.all isLatin with
  | true =>
    rw [if_pos rfl]
    exact congrArg (List.cons 8) map_eq_flatMap
  | false =>
    rw [if_neg Bool.false_ne_true, Bool.not_false, flatMap_charBytes]
    rfl

theorem char_latin {ch : Char} (h : isLatin ch = true) :
    Char.ofNat (UInt8.ofNat ch.toNat).toNat = ch := by
  rw [UInt8.toNat_ofNat_of_lt' (Nat.lt_succ_of_le (of_decide_eq_true h)), Char.ofNat_toNat]

theorem decodeCs0_encodeAs (h : wide = true ∨ text.all isLatin = true) :
    decodeCs0 (encodeAs wide text) room =
      if (encodeUtf8 text).length ≤ room then some (encodeUtf8 text) else none := by
  have hpush := @foldlM_push text room [] (Nat.zero_le room)
  rw [length_nil, Nat.zero_add, nil_append] at hpush
  cases wide with
  | true =>
    change (utf16Chars (units (text.flatMap (charBytes true)))).foldlM (push room) [] = _
    rw [flatMap_charBytes, units_flatMap, utf16Chars_encodeUtf16, hpush]
  | false =>
    have hlatin := h.resolve_left Bool.false_ne_true
    have hchars : (text.flatMap (charBytes false)).map (fun byte => Char.ofNat byte.toNat) =
        text := by
      change (text.flatMap fun ch => [UInt8.ofNat ch.toNat]).map _ = _
      rw [← map_eq_flatMap, map_map]
      refine (map_congr_left fun ch hch => ?_).trans (map_id text)
      exact char_latin (all_eq_true.mp hlatin ch hch)
    change ((text.flatMap (charBytes false)).map _).foldlM (push room) [] = _
    rw [hchars, hpush]

theorem decodeCs0_encodeCs0 (text : Text) (room : Nat) :
    decodeCs0 (encodeCs0 text) room =
      if (encodeUtf8 text).length ≤ room then some (encodeUtf8 text) else none := by
  rw [encodeCs0_eq]
  apply decodeCs0_encodeAs
  cases text.all isLatin with
  | true => exact .inr rfl
  | false => exact .inl rfl

/-! The longest part of a text that a d-string field holds. -/

/-- Whether a field of `width` bytes holds a part of a text whose characters take
16 bits when `wide`. -/
def Fits (wide : Bool) (width : Nat) (part : Text) : Prop :=
  part = [] ∨ (encodeAs wide part).length + 1 ≤ width

structure LongestFit (wide : Bool) (width : Nat) (text kept : Text) : Prop where
  isPrefix : kept <+: text
  fits : Fits wide width kept
  longest : ∀ part, part <+: text → Fits wide width part → part.length ≤ kept.length

theorem fillDstring_spec (wide : Bool) (room : Nat) (text : Text) (encoded : List UInt8)
    (h : encoded.length ≤ room) : ∃ kept rest cut, text = kept ++ rest ∧
      fillDstring wide room text encoded = (encoded ++ kept.flatMap (charBytes wide), cut) ∧
        encoded.length + (kept.flatMap (charBytes wide)).length ≤ room ∧
          ∀ ch others, rest = ch :: others →
            room < encoded.length + ((kept ++ [ch]).flatMap (charBytes wide)).length := by
  induction text generalizing encoded with
  | nil =>
    refine ⟨[], [], false, rfl, ?_, h, ?_⟩
    · rw [flatMap_nil, append_nil]
      rfl
    · intro ch others hrest
      exact absurd hrest (cons_ne_nil ch others).symm
  | cons ch rest ih =>
    rw [fillDstring]
    split
    · rename_i hfull
      refine ⟨[], ch :: rest, true, rfl, ?_, h, ?_⟩
      · rw [flatMap_nil, append_nil]
      · intro ch' others hrest
        obtain ⟨rfl, rfl⟩ := List.cons.inj hrest
        simpa using hfull
    · rename_i hfits
      obtain ⟨kept, rest', cut, rfl, hfill, hlen, hnext⟩ :=
        ih (encoded ++ charBytes wide ch) (by rw [length_append]; omega)
      rw [length_append] at hlen
      refine ⟨ch :: kept, rest', cut, rfl, ?_, ?_, ?_⟩
      · rw [hfill, flatMap_cons, append_assoc]
      · rw [flatMap_cons, length_append]
        omega
      · intro ch' others hrest
        have hmore := hnext ch' others hrest
        rw [length_append] at hmore
        rw [cons_append, flatMap_cons, length_append]
        omega

theorem length_encodeAs (wide : Bool) (text : Text) :
    (encodeAs wide text).length = (text.flatMap (charBytes wide)).length + 1 := length_cons

theorem length_flatMap_le {wide : Bool} {a b : Text} (h : a <+: b) :
    (a.flatMap (charBytes wide)).length ≤ (b.flatMap (charBytes wide)).length := by
  obtain ⟨rest, rfl⟩ := h
  rw [flatMap_append, length_append]
  exact Nat.le_add_right _ _

theorem charBytes_ne_nil (wide : Bool) (ch : Char) : 0 < (charBytes wide ch).length := by
  cases wide with
  | false => exact Nat.one_pos
  | true =>
    change 0 < ((charUnits ch).flatMap bigEndian).length
    rw [charUnits]
    split
    · exact Nat.two_pos
    · exact Nat.zero_lt_succ 3

theorem decodeDstring_concat (body : List UInt8) (len : UInt8) (room : Nat) :
    decodeDstring (body ++ [len]) room =
      if len.toNat < 2 ∨ body.length < len.toNat then []
      else (decodeCs0 (body.take len.toNat) room).getD [] := by
  rw [decodeDstring, getLast?_concat, dropLast_concat]

theorem decodeDstring_zeros (width room : Nat) : decodeDstring (replicate width 0) room = [] := by
  cases width with
  | zero => rfl
  | succ width =>
    rw [replicate_succ', decodeDstring_concat]
    exact if_pos (.inl Nat.zero_lt_two)

theorem decodeDstring_writeDstring (text : Text) (h : width ≤ 256) :
    ∃ kept, LongestFit (!text.all isLatin) width text kept ∧
      ∀ room, (encodeUtf8 kept).length ≤ room →
      decodeDstring (writeDstring width text).1 room = encodeUtf8 kept := by
  generalize hwide : (!text.all isLatin) = wide
  by_cases hnone : text = [] ∨ width < 2
  · refine ⟨[], ⟨List.nil_prefix, .inl rfl, fun part hpart hfits => ?_⟩, fun room _ => ?_⟩
    · rcases hfits with rfl | hfits
      · exact le_rfl
      · rw [length_encodeAs] at hfits
        rcases hnone with rfl | hnarrow
        · exact hpart.length_le
        · omega
    · rw [writeDstring, if_pos hnone]
      exact decodeDstring_zeros width room
  · have hwidth : 2 ≤ width := Nat.le_of_not_lt fun hlt => hnone (.inr hlt)
    obtain ⟨kept, rest, cut, htext, hfill, hlen, hnext⟩ :=
      fillDstring_spec wide (width - 2) text [] (Nat.zero_le _)
    rw [length_nil, Nat.zero_add] at hlen
    have hinit : kept <+: text := ⟨rest, htext.symm⟩
    refine ⟨kept, ⟨hinit, ?_, fun part hpart hfits => ?_⟩, fun room hroom => ?_⟩
    · right
      rw [length_encodeAs]
      omega
    · -- a longer part would hold the first character that was cut
      by_contra hlonger
      rcases rest with _ | ⟨ch, others⟩
      · rw [append_nil] at htext
        exact hlonger (htext ▸ hpart.length_le)
      · have hmore := hnext ch others rfl
        have hcut : kept ++ [ch] <+: part := by
          refine prefix_of_prefix_length_le ⟨others, ?_⟩ hpart ?_
          · rw [append_assoc, htext]
            rfl
          · rw [length_append]
            exact Nat.lt_of_not_le hlonger
        have hle := @length_flatMap_le wide _ _ hcut
        rcases hfits with rfl | hfits
        · exact hlonger (Nat.zero_le _)
        · rw [length_encodeAs] at hfits
          rw [length_nil, Nat.zero_add] at hmore
          omega
    · rw [writeDstring, if_neg hnone]
      simp only [hwide, hfill, nil_append]
      rw [decodeDstring_concat, UInt8.toNat_ofNat_of_lt' (by change _ < 256; omega)]
      rcases kept with _ | ⟨ch, others⟩
      · rw [if_pos (.inl (by rw [flatMap_nil]; exact Nat.one_lt_two))]
        rfl
      · have hpos : 0 < ((ch :: others).flatMap (charBytes wide)).length := by
          rw [flatMap_cons, length_append]
          exact Nat.add_pos_left (charBytes_ne_nil wide ch) _
        rw [if_neg, take_append_of_le_length, take_of_length_le]
        · change (decodeCs0 (encodeAs wide (ch :: others)) room).getD [] = _
          rw [decodeCs0_encodeAs, if_pos hroom, Option.getD_some]
          rw [← hwide]
          cases hall : text.all isLatin with
          | true =>
            right
            exact all_eq_true.mpr fun c hc => all_eq_true.mp hall c (hinit.subset hc)
          | false => exact .inl rfl
        · exact (length_encodeAs wide (ch :: others)).le
        · exact (length_encodeAs wide (ch :: others)).ge
        · rw [length_append, length_cons]
          omega

end

/-! The target of a symbolic link. -/

/-- `text` with every run of slashes made one, and none at its end; `pending` says
that slashes stand right before it. -/
def tidyFrom (pending : Bool) : Text → Text
  | [] => []
  | ch :: rest =>
    if ch = slash then tidyFrom true rest
    else (if pending then [slash, ch] else [ch]) ++ tidyFrom false rest

def tidy (text : Text) : Text :=
  (if text.head? = some slash then [slash] else []) ++ tidyFrom false (text.dropWhile (· = slash))

section

variable {text : Text} {room : Nat} {out data : List UInt8} {part : Text}

def slashed (parts : List Text) : Text := (parts.filter (· ≠ [])).flatMap (slash :: ·)

theorem splitOn_slash (text : Text) :
    (slash :: text).splitOn slash = [] :: text.splitOn slash := by
  rw [splitOn, splitOnP_cons_eq_if_modifyHead, if_pos (beq_self_eq_true slash)]
  rfl

theorem splitOn_other {ch : Char} (h : ch ≠ slash) (text : Text) :
    (ch :: text).splitOn slash = (text.splitOn slash).modifyHead (List.cons ch) := by
  rw [splitOn, splitOnP_cons_eq_if_modifyHead, if_neg (fun heq => h (beq_iff_eq.mp heq))]
  rfl

theorem tidyFrom_splitOn (text : Text) : tidyFrom true text = slashed (text.splitOn slash) ∧
    ∃ first rest, text.splitOn slash = first :: rest ∧
    tidyFrom false text = first ++ slashed rest := by
  induction text with
  | nil => exact ⟨rfl, [], [], rfl, rfl⟩
  | cons ch others ih =>
    obtain ⟨hpending, first, rest, hsplit, hplain⟩ := ih
    by_cases hslash : ch = slash
    · have hskip : slashed ([] :: others.splitOn slash) = slashed (others.splitOn slash) := rfl
      subst hslash
      rw [splitOn_slash]
      refine ⟨?_, [], others.splitOn slash, rfl, ?_⟩
      · rw [tidyFrom, if_pos rfl, hpending, hskip]
      · rw [tidyFrom, if_pos rfl, hpending, nil_append]
    · rw [splitOn_other hslash, hsplit]
      refine ⟨?_, ch :: first, rest, rfl, ?_⟩
      · rw [tidyFrom, if_neg hslash, hplain]
        rfl
      · rw [tidyFrom, if_neg hslash, hplain]
        rfl

theorem pathParts_dropWhile (text : Text) :
    pathParts (text.dropWhile (· = slash)) = pathParts text := by
  induction text with
  | nil => rfl
  | cons ch rest ih =>
    by_cases hslash : ch = slash
    · rw [dropWhile_cons_of_pos (by simpa using hslash), ih, hslash, pathParts, pathParts,
        splitOn_slash]
      rfl
    · rw [dropWhile_cons_of_neg (by simpa using hslash)]

def joinParts : List Text → Text
  | [] => []
  | part :: rest => part ++ rest.flatMap (slash :: ·)

theorem tidy_eq (text : Text) :
    tidy text = (if text.head? = some slash then [slash] else []) ++ joinParts
      (pathParts text) := by
  rw [tidy, ← pathParts_dropWhile]
  congr 1
  have hhead := head?_dropWhile_not (· = slash) text
  generalize text.dropWhile (· = slash) = others at hhead
  obtain ⟨first, rest, hsplit, hplain⟩ := (tidyFrom_splitOn others).2
  rcases others with _ | ⟨ch, others⟩
  · rfl
  · have hne : ch ≠ slash := by simpa using hhead
    have hfirst : first ≠ [] := by
      rintro rfl
      rw [splitOn_other hne] at hsplit
      obtain ⟨part, parts, hparts⟩ := exists_cons_of_ne_nil
        (splitOnP_ne_nil (· == slash) others)
      rw [splitOn, hparts] at hsplit
      exact absurd (List.cons.inj hsplit).1 (cons_ne_nil ch part)
    rw [hplain, pathParts, hsplit, filter_cons_of_pos (by simpa using hfirst)]
    rfl

theorem not_mem_splitOn (text : Text) : ∀ part ∈ text.splitOn slash, slash ∉ part := by
  induction text with
  | nil =>
    intro part hpart
    rw [mem_singleton.mp hpart]
    exact not_mem_nil
  | cons ch rest ih =>
    by_cases hslash : ch = slash
    · rw [hslash, splitOn_slash]
      intro part hpart
      rcases mem_cons.mp hpart with rfl | hpart
      · exact not_mem_nil
      · exact ih part hpart
    · obtain ⟨first, others, hsplit⟩ := exists_cons_of_ne_nil
        (splitOnP_ne_nil (· == slash) rest)
      have hrest : rest.splitOn slash = first :: others := hsplit
      rw [hrest] at ih
      rw [splitOn_other hslash, hrest]
      intro part hpart
      rcases mem_cons.mp hpart with rfl | hpart
      · exact not_mem_cons_of_ne_of_not_mem (Ne.symm hslash) (ih first mem_cons_self)
      · exact ih part (mem_cons_of_mem _ hpart)

theorem mem_pathParts (h : part ∈ pathParts text) : part ≠ [] ∧ slash ∉ part := by
  obtain ⟨hmem, hne⟩ := mem_filter.mp h
  exact ⟨of_decide_eq_true hne, not_mem_splitOn text part hmem⟩

theorem fromUtf8_some {bytes : List UInt8} (h : fromUtf8 bytes = some text) :
    bytes = encodeUtf8 text := by
  obtain ⟨chars, hdecode, rfl⟩ := Option.map_eq_some_iff.mp h
  have hsome : bytes.toByteArray.utf8Decode?.isSome = true := by rw [hdecode]; rfl
  have hencode := @ByteArray.utf8Encode_get_utf8Decode? bytes.toByteArray hsome
  simp only [hdecode, Option.get_some] at hencode
  exact (toByteArray_inj.mp hencode).symm

theorem fromUtf8_encodeUtf8 (text : Text) : fromUtf8 (encodeUtf8 text) = some text :=
  congrArg (Option.map Array.toList) utf8Decode?_utf8Encode

theorem encodeUtf8_append (a b : Text) : encodeUtf8 (a ++ b) = encodeUtf8 a ++ encodeUtf8 b :=
  flatMap_append

theorem encodeUtf8_ne_nil (h : part ≠ []) : encodeUtf8 part ≠ [] :=
  fun hnil => h (encodeUtf8_injective hnil)

theorem encodeUtf8_length_le (text : Text) : (encodeUtf8 text).length ≤ 4 * text.length := by
  induction text with
  | nil => exact Nat.zero_le _
  | cons ch rest ih =>
    have hsize := ch.utf8Size_le_four
    rw [encodeUtf8_cons_length, length_cons]
    omega

theorem length_le_encodeAs (wide : Bool) (text : Text) :
    text.length < (encodeAs wide text).length := by
  rw [length_encodeAs]
  induction text with
  | nil => exact Nat.one_pos
  | cons ch rest ih =>
    have hpos := charBytes_ne_nil wide ch
    rw [flatMap_cons, length_append, length_cons]
    omega

theorem readPart_name (hne : part ≠ []) (h : (encodeCs0 part).length < 256) :
    readPart room out 5 (encodeCs0 part) = pushPart room out (encodeUtf8 part) := by
  have hlength := length_le_encodeAs (!part.all isLatin) part
  have hbytes := encodeUtf8_length_le part
  rw [← encodeCs0_eq] at hlength
  rw [readPart, if_neg (by decide), if_neg (by decide), if_neg (by decide), if_pos rfl,
    decodeCs0_encodeCs0, if_pos (by omega), Option.filter_some,
    if_pos (decide_eq_true (encodeUtf8_ne_nil hne))]

theorem linkTargetFrom_component {kind len a b : UInt8} {ident rest : List UInt8}
    (h : len.toNat = ident.length) :
    linkTargetFrom room (kind :: len :: a :: b :: (ident ++ rest)) out =
      (readPart room out kind ident).bind (linkTargetFrom room rest) := by
  rw [linkTargetFrom, h, if_neg (by rw [length_append]; omega), take_left, drop_left]
  rfl

theorem linkTargetFrom_part (hne : part ≠ []) (h : pathComponent part = some data)
    (rest : List UInt8) :
    linkTargetFrom room (data ++ rest) out =
      (pushPart room out (encodeUtf8 part)).bind (linkTargetFrom room rest) := by
  rw [pathComponent] at h
  split at h
  · rename_i hself
    rw [← Option.some.inj h, hself]
    exact @linkTargetFrom_component room out 4 0 0 0 [] rest rfl
  · split at h
    · rename_i hparent
      rw [← Option.some.inj h, hparent]
      exact @linkTargetFrom_component room out 3 0 0 0 [] rest rfl
    · simp only at h
      split at h
      · rename_i hlen
        rw [← Option.some.inj h, ← readPart_name hne hlen]
        exact linkTargetFrom_component (UInt8.toNat_ofNat_of_lt' hlen)
      · cases h

theorem not_mem_encodeUtf8 (h : slash ∉ part) : 0x2F ∉ encodeUtf8 part := by
  intro hmem
  obtain ⟨ch, hch, hnat⟩ := (mem_encodeUtf8 (by decide)).mp hmem
  have heq : ch = slash := Char.toNat_inj.mp hnat
  exact h (heq ▸ hch)

/-- A path that is not empty and does not end with a slash. -/
def Ended (out : List UInt8) : Prop := out ≠ [] ∧ out.getLast? ≠ some 0x2F

theorem ended_append (out : List UInt8) (hne : part ≠ []) (h : slash ∉ part) :
    Ended (out ++ encodeUtf8 part) := by
  have hpart := encodeUtf8_ne_nil hne
  refine ⟨append_ne_nil_of_right_ne_nil _ hpart, fun hlast => ?_⟩
  rw [getLast?_append_of_ne_nil _ hpart] at hlast
  exact not_mem_encodeUtf8 h (mem_of_getLast? hlast)

def slashedBytes (parts : List Text) : List UInt8 :=
  parts.flatMap fun part => 0x2F :: encodeUtf8 part

theorem encodeUtf8_flatMap (parts : List Text) :
    encodeUtf8 (parts.flatMap (slash :: ·)) = slashedBytes parts := by
  rw [encodeUtf8, flatMap_assoc]
  rfl

theorem linkTargetFrom_rest {parts : List Text} (h : pathComponents parts = some data)
    (hparts : ∀ part ∈ parts, part ≠ [] ∧ slash ∉ part) (hout : Ended out)
    (hroom : (out ++ slashedBytes parts).length ≤ room) :
    linkTargetFrom room data out = .ok (out ++ slashedBytes parts) := by
  induction parts generalizing data out with
  | nil =>
    rw [← Option.some.inj h, linkTargetFrom, slashedBytes, flatMap_nil, append_nil]
  | cons part rest ih =>
    obtain ⟨component, hcomponent, h⟩ := Option.bind_eq_some_iff.mp h
    obtain ⟨components, hcomponents, h⟩ := Option.bind_eq_some_iff.mp h
    obtain ⟨hpart, hrest⟩ := forall_mem_cons.mp hparts
    have hsplit : out ++ slashedBytes (part :: rest) =
        (out ++ [0x2F] ++ encodeUtf8 part) ++ slashedBytes rest := by
      simp only [slashedBytes, flatMap_cons, append_assoc, cons_append, nil_append]
    have hpush : pushPart room out (encodeUtf8 part) =
        .ok (out ++ [0x2F] ++ encodeUtf8 part) := by
      rw [hsplit, length_append] at hroom
      rw [pushPart, if_neg (not_or.mpr hout), if_pos]
      rw [length_append] at hroom
      omega
    rw [← Option.some.inj h, linkTargetFrom_part hpart.1 hcomponent, hpush, hsplit]
    exact ih hcomponents hrest (ended_append _ hpart.1 hpart.2) (hsplit ▸ hroom)

theorem linkTargetFrom_parts {parts : List Text} (h : pathComponents parts = some data)
    (hparts : ∀ part ∈ parts, part ≠ [] ∧ slash ∉ part)
    (hout : out = [] ∨ out.getLast? = some 0x2F)
    (hroom : (out ++ encodeUtf8 (joinParts parts)).length ≤ room) :
    linkTargetFrom room data out = .ok (out ++ encodeUtf8 (joinParts parts)) := by
  cases parts with
  | nil =>
    rw [← Option.some.inj h, linkTargetFrom]
    exact congrArg Except.ok (append_nil out).symm
  | cons part rest =>
    obtain ⟨component, hcomponent, h⟩ := Option.bind_eq_some_iff.mp h
    obtain ⟨components, hcomponents, h⟩ := Option.bind_eq_some_iff.mp h
    obtain ⟨hpart, hrest⟩ := forall_mem_cons.mp hparts
    have hsplit : out ++ encodeUtf8 (joinParts (part :: rest)) =
        (out ++ encodeUtf8 part) ++ slashedBytes rest := by
      rw [joinParts, encodeUtf8_append, encodeUtf8_flatMap, append_assoc]
    rw [hsplit] at hroom ⊢
    have hpush : pushPart room out (encodeUtf8 part) = .ok (out ++ encodeUtf8 part) := by
      rw [length_append, length_append] at hroom
      rw [pushPart, if_pos hout, if_pos (by omega)]
    rw [← Option.some.inj h, linkTargetFrom_part hpart.1 hcomponent, hpush]
    exact linkTargetFrom_rest hcomponents hrest (ended_append _ hpart.1 hpart.2) hroom

theorem linkTarget_encodeSymlink {target : List UInt8} (h : encodeSymlink target = some data) :
    ∃ text, target = encodeUtf8 text ∧ ∀ room, (encodeUtf8 (tidy text)).length ≤ room →
      linkTarget room data = .ok (encodeUtf8 (tidy text)) := by
  obtain ⟨text, htext, h⟩ := Option.bind_eq_some_iff.mp h
  obtain ⟨components, hcomponents, h⟩ := Option.bind_eq_some_iff.mp h
  have hdata := Option.some.inj h
  refine ⟨text, fromUtf8_some htext, fun room hroom => ?_⟩
  rw [tidy_eq, encodeUtf8_append] at hroom ⊢
  rw [← hdata, linkTarget]
  by_cases hroot : text.head? = some slash
  · rw [if_pos hroot] at hroom ⊢
    have hfirst : readPart room [] 1 [] = .ok [0x2F] := by
      rw [readPart, if_pos (.inl rfl), if_neg]
      intro hzero
      rw [hzero, length_append] at hroom
      exact absurd hroom (by change ¬ 1 + _ ≤ 0; omega)
    have hcomponent := @linkTargetFrom_component room [] 1 0 0 0 [] components rfl
    rw [if_pos hroot]
    refine (hcomponent.trans (congrArg (Except.bind · _) hfirst)).trans ?_
    exact linkTargetFrom_parts hcomponents (fun _ => mem_pathParts) (.inr rfl) hroom
  · rw [if_neg hroot] at hroom ⊢
    rw [if_neg hroot]
    exact linkTargetFrom_parts hcomponents (fun _ => mem_pathParts) (.inl rfl) hroom

end

/-- What is read back of texts, of d-strings and of the targets of symbolic links. -/
theorem texts_readBack :
    (∀ text room, (encodeUtf8 text).length ≤ room →
      decodeCs0 (encodeCs0 text) room = some (encodeUtf8 text)) ∧
    (∀ text width, width ≤ 256 → ∃ kept, LongestFit (!text.all isLatin) width text kept ∧
      ∀ room, (encodeUtf8 kept).length ≤ room →
        decodeDstring (writeDstring width text).1 room = encodeUtf8 kept) ∧
    ∀ target data, encodeSymlink target = some data → ∃ text, target = encodeUtf8 text ∧
      ∀ room, (encodeUtf8 (tidy text)).length ≤ room →
        linkTarget room data = .ok (encodeUtf8 (tidy text)) := by
  refine ⟨fun text room hroom => ?_, fun text width hwidth =>
    decodeDstring_writeDstring text hwidth, fun target data h => linkTarget_encodeSymlink h⟩
  rw [decodeCs0_encodeCs0, if_pos hroom]

def sampleText : Text := ['/', 'a', '/', '/', '文', '/']

theorem texts_readBack_sample :
    decodeCs0 (encodeCs0 sampleText) 8 = some (encodeUtf8 sampleText) ∧
      (∃ kept, LongestFit (!sampleText.all isLatin) 9 sampleText kept ∧
        ∀ room, (encodeUtf8 kept).length ≤ room →
          decodeDstring (writeDstring 9 sampleText).1 room = encodeUtf8 kept) ∧
      ∃ text, encodeUtf8 sampleText = encodeUtf8 text ∧
      ∀ room, (encodeUtf8 (tidy text)).length ≤ room →
        linkTarget room [1, 0, 0, 0, 5, 2, 0, 0, 8, 97, 5, 3, 0, 0, 16, 0x65, 0x87] =
          .ok (encodeUtf8 (tidy text)) := by
  refine ⟨texts_readBack.1 _ _ (by decide +kernel), texts_readBack.2.1 _ _ (by decide),
    texts_readBack.2.2 _ _ ?_⟩
  rw [encodeSymlink, fromUtf8_encodeUtf8]
  decide

/-- A later character makes the characters before it wide, and the length of a field
of more than 256 bytes does not fit its last byte. -/
theorem longer_part_fits :
    decodeDstring (writeDstring 6 ['a', 'b', 'c', '文']).1 64 = encodeUtf8 ['a', 'b'] ∧
      writeDstring 6 ['a', 'b', 'c'] = ([8, 97, 98, 99, 0, 4], false) ∧
      decodeDstring (writeDstring 6 ['a', 'b', 'c']).1 64 = encodeUtf8 ['a', 'b', 'c'] ∧
      (writeDstring 300 (replicate 280 'a')).2 = false ∧
      decodeDstring (writeDstring 300 (replicate 280 'a')).1 512 = replicate 24 97 := by
  decide +kernel

end Hadris.Udf
