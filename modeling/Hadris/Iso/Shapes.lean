import Hadris.Numbered
import Hadris.Directory.Name

namespace Hadris.Iso

open Hadris.Directory (Text encodeUtf8)

inductive IsoLevel where
  | l1
  | l2
  | l3
deriving DecidableEq

inductive NameCase where
  | upper
  | preserve
deriving DecidableEq

/-- The identifier rules of one tree. -/
inductive Rules where
  | primary (level : IsoLevel) (nameCase : NameCase)
  | enhanced
  | joliet
deriving DecidableEq

abbrev Identifier := List UInt8

def jolietMaxChars : Nat := 64

def dot : UInt8 := 0x2E

def underscore : UInt8 := 0x5F

def version : Identifier := [0x3B, 0x31]

def convertChar (nameCase : NameCase) (c : Char) : UInt8 :=
  if nameCase = .upper ∧ c.isLower then (c.toNat - 0x20).toUInt8
  else if c.isAlphanum ∨ c = '_' then c.toNat.toUInt8
  else underscore

def pushConverted (part : Text) (nameCase : NameCase) (max : Nat) : Identifier :=
  (part.take max).map (convertChar nameCase)

def convertL1 (name : Text) (nameCase : NameCase) : Identifier :=
  match rsplitOnce '.' name with
  | some (base, ext) =>
    pushConverted base nameCase 8 ++ dot :: (pushConverted ext nameCase 3 ++ version)
  | none => pushConverted name nameCase 8 ++ dot :: version

def convertLong (name : Text) (nameCase : NameCase) (max : Nat) (separator : Bool) : Identifier :=
  match rsplitOnce '.' name with
  | some (base, ext) =>
    let extLen := min ext.length (max - 2)
    pushConverted base nameCase (max - 1 - extLen) ++ dot :: pushConverted ext nameCase extLen
  | none => pushConverted name nameCase max ++ if separator then [dot] else []

def convertL2 (name : Text) (nameCase : NameCase) : Identifier :=
  convertLong name nameCase 30 true ++ version

def enhancedMax : Nat := 207

def cut : Text → Nat → Text
  | [], _ => []
  | c :: rest, max => if c.utf8Size ≤ max then c :: cut rest (max - c.utf8Size) else []

def convertL3 (name : Text) : Identifier :=
  let name := name.map fun c => if c = Char.ofNat 0 then '_' else c
  if (encodeUtf8 name).length ≤ enhancedMax then encodeUtf8 name
  else match rsplitOnce '.' name with
    | some (base, ext) =>
      if (encodeUtf8 ext).length + 1 < enhancedMax then
        encodeUtf8 (cut base (enhancedMax - 1 - (encodeUtf8 ext).length)) ++ dot :: encodeUtf8 ext
      else encodeUtf8 (cut name enhancedMax)
    | none => encodeUtf8 (cut name enhancedMax)

def jolietForbidden (c : Char) : Bool :=
  c.toNat ≤ 0x1F || ['*', '/', ':', ';', '?', Char.ofNat 0x5C].contains c

def unitBytes (unit : Nat) : List UInt8 := [(unit / 256).toUInt8, unit.toUInt8]

/-- A Joliet identifier: what lies outside the Basic Multilingual Plane and what
Joliet forbids becomes `_`. -/
def convertJoliet (name : Text) : Identifier :=
  (name.take jolietMaxChars).flatMap fun c =>
    unitBytes (if c.toNat ≤ 0xFFFF ∧ ¬jolietForbidden c then c.toNat else underscore.toNat)

namespace Rules

def file : Rules → Text → Identifier
  | primary .l1 nameCase, name => convertL1 name nameCase
  | primary .l2 nameCase, name => convertL2 name nameCase
  | primary .l3 nameCase, name => convertL2 name nameCase
  | enhanced, name => convertL3 name
  | joliet, name => convertJoliet name

def directory : Rules → Text → Identifier
  | primary .l1 nameCase, name => pushConverted name nameCase 8
  | primary .l2 nameCase, name => pushConverted name nameCase 31
  | primary .l3 nameCase, name => pushConverted name nameCase 31
  | enhanced, name => convertL3 name
  | joliet, name => convertJoliet name

end Rules

def suffix (n : Nat) : List UInt8 :=
  underscore :: (Nat.toDigits 10 n).map fun digit => digit.toNat.toUInt8

def stripVersion (id : Identifier) : Option Identifier :=
  if version.isSuffixOf id then some (id.take (id.length - version.length)) else none

def splitExt (id : Identifier) : Identifier × Identifier :=
  match rsplitOnce dot id with
  | some (base, ext) => (base, dot :: ext)
  | none => (id, [])

def cutBack (base : Identifier) : Nat → Nat
  | 0 => 0
  | end' + 1 =>
    if end' + 1 < base.length ∧ base.getD (end' + 1) 0 &&& 0xC0 = 0x80 then cutBack base end'
    else end' + 1

def maxTotal (rules : Rules) (ext ending : Identifier) : Nat :=
  match rules with
  | .primary .l1 _ => 8
  | .primary .l2 _ => 30 - ext.length
  | .primary .l3 _ => 30 - ext.length
  | .enhanced => enhancedMax - (ext.length + ending.length)
  | .joliet => enhancedMax - (ext.length + ending.length)

def isoParts (name : Identifier) : (Identifier × Identifier) × Identifier :=
  match stripVersion name with
  | some base => (splitExt base, version)
  | none => (splitExt name, [])

def isoDedup (name : Identifier) (suffix : List UInt8) (rules : Rules) : Identifier :=
  let ((base, ext), ending) := isoParts name
  let maxBase := maxTotal rules ext ending - suffix.length
  base.take (cutBack base (min base.length maxBase)) ++ suffix ++ ext ++ ending

def jolietDot : Identifier → Option Nat
  | high :: low :: rest =>
    match jolietDot rest with
    | some at' => some (at' + 2)
    | none => if high = 0 ∧ low = dot then some 0 else none
  | _ => none

def jolietParts (name : Identifier) : Identifier × Identifier :=
  match jolietDot name with
  | some at' => (name.take at', name.drop at')
  | none => (name, [])

def jolietDedup (name : Identifier) (suffix : List UInt8) : Identifier :=
  let suffix := suffix.flatMap fun byte => [0, byte]
  let (base, ext) := jolietParts name
  let limit := 2 * jolietMaxChars
  let ext := ext.take (min ext.length (limit - suffix.length))
  let maxBase := limit - (ext.length + suffix.length)
  base.take (min base.length maxBase / 2 * 2) ++ suffix ++ ext

def Rules.dedup (rules : Rules) (name : Identifier) (n : Nat) : Identifier :=
  match rules with
  | joliet => jolietDedup name (suffix n)
  | primary level nameCase => isoDedup name (suffix n) (primary level nameCase)
  | enhanced => isoDedup name (suffix n) enhanced

end Hadris.Iso

namespace Hadris.Iso

open List

open Hadris.Directory (Text encodeUtf8)

variable {nameCase : NameCase} {level : IsoLevel} {rules : Rules} {id base ext : Identifier}
  {n m : Nat}

def isDChar (byte : UInt8) : Bool :=
  0x30 ≤ byte && byte ≤ 0x39 || 0x41 ≤ byte && byte ≤ 0x5A || 0x61 ≤ byte && byte ≤ 0x7A ||
    byte == underscore

/-- Every byte is a letter, a digit or `_`. -/
def DChars (id : Identifier) : Prop := ∀ byte ∈ id, isDChar byte = true

theorem isDChar_iff (byte : UInt8) : isDChar byte = true ↔
    48 ≤ byte.toNat ∧ byte.toNat ≤ 57 ∨ 65 ≤ byte.toNat ∧ byte.toNat ≤ 90 ∨
      97 ≤ byte.toNat ∧ byte.toNat ≤ 122 ∨
      byte.toNat = 95 := by
  simp only [isDChar, Bool.or_eq_true, Bool.and_eq_true, decide_eq_true_eq, beq_iff_eq,
    or_assoc, ← UInt8.toNat_inj]
  exact Iff.rfl

theorem isDChar_of_range (n : Nat) (hn : n < 256)
    (h : 48 ≤ n ∧ n ≤ 57 ∨ 65 ≤ n ∧ n ≤ 90 ∨ 97 ≤ n ∧ n ≤ 122 ∨ n = 95) :
    isDChar n.toUInt8 = true := by
  rwa [isDChar_iff, show n.toUInt8.toNat = n from UInt8.toNat_ofNat_of_lt' hn]

theorem isLower_iff (c : Char) : c.isLower = true ↔ 97 ≤ c.toNat ∧ c.toNat ≤ 122 := by
  have hbool : c.isLower = (decide (97 ≤ c.val) && decide (c.val ≤ 122)) := rfl
  rw [hbool, Bool.and_eq_true, decide_eq_true_eq, decide_eq_true_eq]
  exact Iff.rfl

theorem isAlphanum_iff (c : Char) : c.isAlphanum = true ↔
    65 ≤ c.toNat ∧ c.toNat ≤ 90 ∨ 97 ≤ c.toNat ∧ c.toNat ≤ 122 ∨ 48 ≤ c.toNat ∧ c.toNat ≤ 57 := by
  have hbool : c.isAlphanum = (decide (65 ≤ c.val ∧ c.val ≤ 90) || c.isLower ||
      (decide (48 ≤ c.val) && decide (c.val ≤ 57))) := rfl
  rw [hbool, Bool.or_eq_true, Bool.or_eq_true, isLower_iff, or_assoc, Bool.and_eq_true,
    decide_eq_true_eq, decide_eq_true_eq, decide_eq_true_eq]
  exact Iff.rfl

theorem isDChar_convertChar (nameCase : NameCase) (c : Char) :
    isDChar (convertChar nameCase c) = true := by
  rw [convertChar]
  split
  · rename_i hlower
    have hrange := (isLower_iff c).mp hlower.2
    exact isDChar_of_range _ (by omega) (by omega)
  · split
    · rename_i hkept
      rcases hkept with halpha | rfl
      · have hrange := (isAlphanum_iff c).mp halpha
        exact isDChar_of_range _ (by omega) (by omega)
      · rfl
    · rfl

theorem all_pushConverted (part : Text) (nameCase : NameCase) (max : Nat) :
    DChars (pushConverted part nameCase max) := by
  intro byte hbyte
  obtain ⟨c, -, rfl⟩ := mem_map.mp hbyte
  exact isDChar_convertChar nameCase c

theorem length_pushConverted (part : Text) (nameCase : NameCase) (max : Nat) :
    (pushConverted part nameCase max).length = min max part.length := by
  rw [pushConverted, length_map, length_take]

theorem stripVersion_append (id : Identifier) : stripVersion (id ++ version) = some id := by
  rw [stripVersion, if_pos (isSuffixOf_iff_suffix.mpr (suffix_append id version)), length_append,
    Nat.add_sub_cancel, take_left]

theorem stripVersion_some (h : stripVersion id = some base) : id = base ++ version := by
  rw [stripVersion] at h
  split at h
  · rename_i hsuffix
    obtain ⟨front, rfl⟩ := isSuffixOf_iff_suffix.mp hsuffix
    rw [length_append, Nat.add_sub_cancel, take_left] at h
    rw [Option.some.inj h]
  · cases h

theorem stripVersion_dchars (h : DChars id) : stripVersion id = none := by
  rw [stripVersion, if_neg fun hsuffix => ?_]
  obtain ⟨front, rfl⟩ := isSuffixOf_iff_suffix.mp hsuffix
  have hsemicolon := h 0x3B (mem_append_right _ mem_cons_self)
  exact absurd hsemicolon (by decide)

theorem dot_notMem (h : DChars id) : dot ∉ id :=
  fun hmem => absurd (h dot hmem) (by decide)

theorem splitExt_append (h : dot ∉ ext) : splitExt (base ++ dot :: ext) = (base, dot :: ext) := by
  rw [splitExt, rsplitOnce_append h]

theorem splitExt_dchars (h : dot ∉ id) : splitExt id = (id, []) := by
  rw [splitExt, rsplitOnce_of_notMem h]

theorem splitExt_eq (id : Identifier) : (splitExt id).1 ++ (splitExt id).2 = id := by
  rw [splitExt]
  split
  · rename_i base ext hsplit
    exact (rsplitOnce_some hsplit).1.symm
  · exact append_nil id

def Rules.within (rules : Rules) (id : Identifier) : Bool :=
  match rules with
  | .enhanced => id.length ≤ enhancedMax
  | .joliet => id.length ≤ 2 * jolietMaxChars
  | .primary level _ =>
    match stripVersion id with
    | none => if level = .l1 then id.length ≤ 8 else id.length ≤ 31
    | some name =>
      let ext := (splitExt name).2.length - 1
      if level = .l1 then (splitExt name).1.length ≤ 8 && ext ≤ 3
      else (splitExt name).1.length + ext ≤ 30

def Rules.room (rules : Rules) (id : Identifier) : Nat :=
  match rules with
  | .joliet => jolietMaxChars
  | .enhanced =>
    match stripVersion id with
    | none => enhancedMax - (splitExt id).2.length
    | some name => enhancedMax - ((splitExt name).2.length + version.length)
  | .primary level _ =>
    if level = .l1 then 8
    else match stripVersion id with
      | none => 31
      | some name => 31 - (splitExt name).2.length

theorem within_file (hext : DChars ext) :
    (Rules.primary level nameCase).within (base ++ dot :: (ext ++ version)) =
      if level = .l1 then base.length ≤ 8 && ext.length ≤ 3
        else decide (base.length + ext.length ≤ 30) := by
  have hstrip : stripVersion (base ++ dot :: (ext ++ version)) = some (base ++ dot :: ext) := by
    rw [← cons_append, ← append_assoc, stripVersion_append]
  rw [Rules.within, hstrip]
  dsimp only
  rw [splitExt_append (dot_notMem hext), length_cons, Nat.add_sub_cancel]

theorem within_directory (hbase : DChars base) :
    (Rules.primary level nameCase).within base = if level = .l1 then decide (base.length ≤ 8)
      else decide (base.length ≤ 31) := by
  rw [Rules.within, stripVersion_dchars hbase]

theorem all_nil : DChars ([] : Identifier) := fun _ h => absurd h not_mem_nil

theorem file_shaped (level : IsoLevel) (nameCase : NameCase) (name : Text) :
    ∃ base ext, (Rules.primary level nameCase).file name = base ++ dot :: (ext ++ version) ∧
      DChars base ∧ DChars ext ∧
      if level = .l1 then base.length ≤ 8 ∧ ext.length ≤ 3
        else base.length + ext.length ≤ 30 := by
  have hl1 : ∃ base ext, convertL1 name nameCase = base ++ dot :: (ext ++ version) ∧
      DChars base ∧ DChars ext ∧
      base.length ≤ 8 ∧ ext.length ≤ 3 := by
    rw [convertL1]
    split
    · rename_i base ext _
      refine ⟨_, _, rfl, all_pushConverted _ _ _, all_pushConverted _ _ _, ?_⟩
      rw [length_pushConverted, length_pushConverted]
      omega
    · refine ⟨_, [], rfl, all_pushConverted _ _ _, all_nil, ?_, Nat.zero_le _⟩
      rw [length_pushConverted]
      omega
  have hl2 : ∃ base ext, convertL2 name nameCase = base ++ dot :: (ext ++ version) ∧
      DChars base ∧ DChars ext ∧
      base.length + ext.length ≤ 30 := by
    rw [convertL2, convertLong]
    split
    · rename_i base ext _
      refine ⟨_, _, append_assoc .., all_pushConverted _ _ _, all_pushConverted _ _ _, ?_⟩
      rw [length_pushConverted, length_pushConverted]
      omega
    · rw [if_pos rfl, append_assoc]
      refine ⟨_, [], rfl, all_pushConverted _ _ _, all_nil, ?_⟩
      rw [length_pushConverted, length_nil]
      omega
  cases level with
  | l1 => exact hl1
  | l2 => exact hl2
  | l3 => exact hl2

theorem directory_shaped (level : IsoLevel) (nameCase : NameCase) (name : Text) :
    DChars ((Rules.primary level nameCase).directory name) ∧
      if level = .l1 then ((Rules.primary level nameCase).directory name).length ≤ 8
      else ((Rules.primary level nameCase).directory name).length ≤ 31 := by
  cases level <;> refine ⟨all_pushConverted _ _ _, ?_⟩ <;>
    refine (length_pushConverted ..).trans_le ?_ <;> omega

theorem length_cut (text : Text) (max : Nat) : (encodeUtf8 (cut text max)).length ≤ max := by
  induction text generalizing max with
  | nil => exact Nat.zero_le _
  | cons c rest ih =>
    rw [cut]
    split
    · rename_i hfits
      have hrest := ih (max - c.utf8Size)
      rw [encodeUtf8, flatMap_cons, length_append, String.length_utf8EncodeChar]
      change _ + (encodeUtf8 _).length ≤ _
      omega
    · exact Nat.zero_le _

theorem length_convertL3 (name : Text) : (convertL3 name).length ≤ enhancedMax := by
  rw [convertL3]
  split
  · assumption
  · split
    · split
      · rename_i base ext _ hext
        have hbase := length_cut base (enhancedMax - 1 - (encodeUtf8 ext).length)
        rw [length_append, length_cons]
        omega
      · exact length_cut ..
    · exact length_cut ..

theorem length_flatMap_two {α β : Type} {f : α → List β} (hf : ∀ a, (f a).length = 2)
    (l : List α) :
    (l.flatMap f).length = 2 * l.length := by
  induction l with
  | nil => rfl
  | cons a rest ih =>
    rw [flatMap_cons, length_append, ih, hf, length_cons]
    omega

theorem length_convertJoliet (name : Text) :
    (convertJoliet name).length = 2 * min jolietMaxChars name.length := by
  rw [convertJoliet, length_flatMap_two (fun _ => rfl), length_take]

theorem within_of_mapped (rules : Rules) (name : Text) :
    rules.within (rules.file name) = true ∧ rules.within (rules.directory name) = true := by
  cases rules with
  | enhanced =>
    exact ⟨decide_eq_true (length_convertL3 name), decide_eq_true (length_convertL3 name)⟩
  | joliet =>
    have hlength : (convertJoliet name).length ≤ 2 * jolietMaxChars := by
      rw [length_convertJoliet]
      omega
    exact ⟨decide_eq_true hlength, decide_eq_true hlength⟩
  | primary level nameCase =>
    obtain ⟨base, ext, hfile, hbase, hext, hfits⟩ := file_shaped level nameCase name
    obtain ⟨hdirectory, hlength⟩ := directory_shaped level nameCase name
    rw [hfile, within_file hext, within_directory hdirectory]
    constructor
    · split
      · rename_i hlevel
        rw [if_pos hlevel] at hfits
        rw [Bool.and_eq_true, decide_eq_true_eq, decide_eq_true_eq]
        exact hfits
      · rename_i hlevel
        rw [if_neg hlevel] at hfits
        exact decide_eq_true hfits
    · split
      · rename_i hlevel
        rw [if_pos hlevel] at hlength
        exact decide_eq_true hlength
      · rename_i hlevel
        rw [if_neg hlevel] at hlength
        exact decide_eq_true hlength

end Hadris.Iso
