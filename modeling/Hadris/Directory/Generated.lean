import Hadris.Directory.Candidates

namespace Hadris

namespace Directory

open List
open Padding

namespace ShortName

def badNameBytes : List UInt8 :=
  [0x22, 0x2A, 0x2B, 0x2C, 0x2E, 0x2F, 0x3A, 0x3B, 0x3C, 0x3D, 0x3E, 0x3F, 0x5B,
    0x5C, 0x5D, 0x7C, 0x7F]

def badName (name : ShortName) : Bool :=
  name.first == 0x20 || name.bytes.zipIdx.any fun at' =>
    decide (at'.1 < 0x20) && !(at'.2 == 0 && at'.1 == 0x05) ||
      decide (0x61 ≤ at'.1 ∧ at'.1 ≤ 0x7A) ||
      badNameBytes.contains at'.1

/-- A byte that stands for a character of a generated name. -/
def IsShown (byte : UInt8) : Prop :=
  0x80 ≤ byte ∨ 0x41 ≤ byte ∧ byte ≤ 0x5A ∨ 0x30 ≤ byte ∧ byte ≤ 0x39 ∨ byte ∈ allowedSymbols

instance (byte : UInt8) : Decidable (IsShown byte) := inferInstanceAs (Decidable (_ ∨ _))

set_option maxRecDepth 4000 in
theorem isShown_fine {byte : UInt8} (h : IsShown byte) :
    ¬ byte < 0x20 ∧ byte ≠ 0x20 ∧ ¬ (0x61 ≤ byte ∧ byte ≤ 0x7A) ∧
      badNameBytes.contains byte = false := by
  have hbad : ∀ bad ∈ badNameBytes, ¬ IsShown bad := by decide
  have hsymbols : ∀ symbol ∈ allowedSymbols, 32 < symbol.toNat ∧
    (symbol.toNat < 97 ∨ 122 < symbol.toNat) := by decide
  have hrange : 32 < byte.toNat ∧ (byte.toNat < 97 ∨ 122 < byte.toNat) := by
    rcases h with hhigh | ⟨hlow, hhigh⟩ | ⟨hlow, hhigh⟩ | hmem
    · change 128 ≤ byte.toNat at hhigh
      omega
    · change 65 ≤ byte.toNat at hlow
      change byte.toNat ≤ 90 at hhigh
      omega
    · change 48 ≤ byte.toNat at hlow
      change byte.toNat ≤ 57 at hhigh
      omega
    · exact hsymbols byte hmem
  refine ⟨Nat.not_lt_of_gt hrange.1, ?_, fun ⟨hlow, hhigh⟩ => ?_, ?_⟩
  · rintro rfl
    exact Nat.lt_irrefl _ hrange.1
  · exact hrange.2.elim (Nat.not_lt_of_ge hlow) (Nat.not_lt_of_ge hhigh)
  · rw [← Bool.not_eq_true, contains_iff_mem]
    exact fun hmem => hbad byte hmem h

theorem processChar_of_ascii {ch : Char} (h : isAscii ch = true) (encode : Char → Option UInt8) :
    processChar encode ch = processChar (fun _ => none) ch := by
  have hneg : ¬ (!isAscii ch) = true := by simpa using h
  rw [processChar, if_neg hneg, processChar, if_neg hneg]

theorem processChar_shown (encode : Char → Option UInt8) (ch : Char) :
    IsShown (processChar encode ch) ∨ processChar encode ch = 0 ∧
      (isDot ch || isSpace ch) = true := by
  cases hascii : isAscii ch with
  | true =>
    have hall : ∀ n < 128, IsShown (processChar (fun _ => none) (Char.ofNat n)) ∨
        processChar (fun _ => none) (Char.ofNat n) = 0 ∧
          (isDot (Char.ofNat n) || isSpace (Char.ofNat n)) = true := by
      decide
    have hch := hall ch.toNat (of_decide_eq_true hascii)
    rwa [Char.ofNat_toNat, ← processChar_of_ascii hascii encode] at hch
  | false =>
    apply Or.inl
    rw [processChar, if_pos (by rw [hascii]; rfl)]
    cases encode ch with
    | none => decide
    | some byte =>
      dsimp only
      split
      · exact .inl ‹_›
      · decide

theorem mem_fill {encode : Char → Option UInt8} {limit : Nat} {text : Text} {byte : UInt8}
    (h : byte ∈ fill encode limit text) :
    ∃ ch ∈ text, byte = processChar encode ch ∧ byte ≠ 0 := by
  induction text generalizing limit with
  | nil => cases limit <;> cases h
  | cons ch rest ih =>
    cases limit with
    | zero => cases h
    | succ limit =>
      rw [fill] at h
      split at h
      · obtain ⟨other, hother, hbyte⟩ := ih h
        exact ⟨other, mem_cons_of_mem _ hother, hbyte⟩
      · obtain rfl | hmem := mem_cons.mp h
        · exact ⟨ch, mem_cons_self, rfl, ‹_›⟩
        · obtain ⟨other, hother, hbyte⟩ := ih hmem
          exact ⟨other, mem_cons_of_mem _ hother, hbyte⟩

theorem fill_shown {encode : Char → Option UInt8} {limit : Nat} {text : Text} {byte : UInt8}
    (h : byte ∈ fill encode limit text) :
    IsShown byte := by
  obtain ⟨ch, -, rfl, hne⟩ := mem_fill h
  exact (processChar_shown encode ch).resolve_right fun hzero => hne hzero.1

theorem fill_eq_nil {encode : Char → Option UInt8} {limit : Nat} {text : Text}
    (h : fill encode (limit + 1) text = []) :
    (text.all fun ch => isDot ch || isSpace ch) = true := by
  induction text with
  | nil => rfl
  | cons ch rest ih =>
    rw [fill] at h
    split at h
    · rename_i hzero
      rw [all_cons, ih h, Bool.and_true]
      refine ((processChar_shown encode ch).resolve_left fun hshown => ?_).2
      rw [hzero] at hshown
      revert hshown
      decide
    · cases h

theorem nibble_shown (value : UInt16) (shift : Nat) : IsShown (nibble value shift) := by
  have hall : ∀ d < 16, IsShown (if UInt8.ofNat d < 10 then 0x30 + UInt8.ofNat d
    else 0x41 + UInt8.ofNat d - 10) := by decide
  have hdigit : (value >>> UInt16.ofNat shift &&& 0xF).toUInt8.toNat < 16 := by
    rw [UInt16.toNat_toUInt8, UInt16.toNat_and]
    exact (Nat.mod_le _ _).trans_lt (Nat.lt_of_le_of_lt Nat.and_le_right (by decide))
  have hnibble := hall _ hdigit
  rwa [UInt8.ofNat_toNat] at hnibble

theorem tail_shown (text : Text) {suffix : Nat} (h : 0 < suffix) :
    ∀ byte ∈ tail text suffix, IsShown byte := by
  rw [tail]
  split
  · rename_i hle
    have hall : ∀ suffix < 5, IsShown (0x30 + UInt8.ofNat suffix) := by decide
    simp only [mem_cons, not_mem_nil, or_false]
    rintro byte (rfl | rfl)
    · decide
    · exact hall suffix (by omega)
  · have hall : ∀ digit < 9, IsShown (0x31 + UInt8.ofNat digit) := by decide
    simp only [mem_cons, not_mem_nil, or_false]
    rintro byte (rfl | rfl | rfl | rfl | rfl | rfl)
    · exact nibble_shown _ _
    · exact nibble_shown _ _
    · exact nibble_shown _ _
    · exact nibble_shown _ _
    · decide
    · exact hall _ (Nat.mod_lt _ (by decide))

def basis (text : Text) : Text × Text :=
  if (splitExt text).1.all (fun ch => isDot ch || isSpace ch) && !(splitExt text).2.isEmpty
    then ((splitExt text).2, [])
  else splitExt text

def stem (text : Text) (suffix : Nat) (encode : Char → Option UInt8) : List UInt8 :=
  (fill encode 6 (basis text).1).take (8 - (tail text suffix).length)

theorem parts_eq (text : Text) (suffix : Nat) (encode : Char → Option UInt8) :
    parts text suffix encode =
    (if 0 < suffix then stem text suffix encode ++ tail text suffix
      else fill encode 8 (basis text).1,
      fill encode 3 (basis text).2) := by
  rw [parts, stem, basis]
  dsimp only
  split <;> split <;> rfl

theorem parts_shown {text : Text} {suffix : Nat} {encode : Char → Option UInt8} {byte : UInt8}
    (h : byte ∈ (parts text suffix encode).1 ++ (parts text suffix encode).2) : IsShown byte := by
  rw [parts_eq, mem_append] at h
  obtain h | h := h
  · dsimp only at h
    split at h
    · obtain h | h := mem_append.mp h
      · exact fill_shown (mem_of_mem_take h)
      · exact tail_shown text ‹_› byte h
    · exact fill_shown h
  · exact fill_shown h

theorem base_ne_nil {text : Text} {suffix : Nat} {encode : Char → Option UInt8} {name : ShortName}
    (h : generate text suffix encode = some name) : (parts text suffix encode).1 ≠ [] := by
  obtain rfl | hsuffix := Nat.eq_zero_or_pos suffix
  · intro hnil
    have hext : (parts text 0 encode).2 = [] := by
      rw [parts_eq] at hnil ⊢
      dsimp only at hnil ⊢
      rw [if_neg (Nat.lt_irrefl 0)] at hnil
      have hall := fill_eq_nil hnil
      rw [basis] at hall ⊢
      split
      · rfl
      · rename_i hkeep
        rw [if_neg hkeep] at hall
        rw [hall, Bool.true_and, Bool.not_eq_true, Bool.not_eq_false', List.isEmpty_iff] at hkeep
        rw [hkeep]
        rfl
    rw [generate_eq, hnil, hext] at h
    cases h
  · exact (parts_spec text suffix encode).2.2.2 hsuffix

theorem generate_some {text : Text} {suffix : Nat} {encode : Char → Option UInt8}
    {name : ShortName}
    (h : generate text suffix encode = some name) :
    name = ofParts (parts text suffix encode).1 (parts text suffix encode).2 := by
  rw [generate_eq] at h
  split at h
  · cases h
  · exact (Option.some.inj h).symm

theorem mem_ofParts {base ext : List UInt8} {byte : UInt8} (hbase : base.length ≤ 8)
    (hext : ext.length ≤ 3)
    (h : byte ∈ (ofParts base ext).bytes) : byte ∈ base ++ ext ∨ byte = 0x20 := by
  change byte ∈ takeD 8 base 0x20 ++ takeD 3 ext 0x20 at h
  rw [takeD_of_le _ hbase, takeD_of_le _ hext] at h
  simp only [mem_append, mem_replicate] at h ⊢
  tauto

theorem badName_eq_false {name : ShortName} (hfirst : name.first ≠ 0x20)
    (h : ∀ byte i, name.bytes[i]? = some byte → IsShown byte ∨ byte = 0x20 ∨ i = 0 ∧
      byte = 0x05) : badName name = false := by
  rw [badName, Bool.or_eq_false_iff, beq_eq_false_iff_ne]
  refine ⟨hfirst, any_eq_false.mpr ?_⟩
  rintro ⟨byte, i⟩ hmem
  rw [mem_zipIdx_iff_getElem?] at hmem
  obtain hshown | rfl | ⟨rfl, rfl⟩ := h byte i hmem
  · obtain ⟨hcontrol, -, hsmall, hbad⟩ := isShown_fine hshown
    rw [Bool.not_eq_true, hbad, Bool.or_false, decide_eq_false hcontrol, decide_eq_false hsmall]
    rfl
  · exact Bool.false_ne_true
  · exact Bool.false_ne_true

theorem getElem?_set_zero {l : List UInt8} {b byte : UInt8} {i : Nat}
    (h : (l.set 0 b)[i]? = some byte) :
    byte ∈ l ∨ i = 0 ∧ byte = b := by
  obtain rfl | hi := Nat.eq_zero_or_pos i
  · cases l with
    | nil => cases h
    | cons first rest => exact .inr ⟨rfl, (Option.some.inj h).symm⟩
  · rw [getElem?_set_ne (Nat.ne_of_lt hi)] at h
    exact .inl (mem_of_getElem? h)

theorem badName_generate {text : Text} {suffix : Nat} {encode : Char → Option UInt8}
    {name : ShortName}
    (h : generate text suffix encode = some name) : badName name.toDisk = false := by
  have hne := base_ne_nil h
  obtain ⟨hbase, hext, -⟩ := parts_spec text suffix encode
  have hmem {byte : UInt8} (hbyte : byte ∈ name.bytes) : IsShown byte ∨ byte = 0x20 := by
    rw [generate_some h] at hbyte
    exact (mem_ofParts hbase hext hbyte).imp_left parts_shown
  have hfirst : name.first ≠ 0x20 := by
    rw [generate_some h, first_ofParts]
    cases hparts : (parts text suffix encode).1 with
    | nil => exact absurd hparts hne
    | cons byte rest =>
      have hshown : IsShown byte := parts_shown (by rw [hparts]; exact mem_cons_self)
      exact (isShown_fine hshown).2.1
  rw [toDisk]
  split
  · apply badName_eq_false
    · have hkanji (l : List UInt8) (hl : l ≠ []) : (l.set 0 kanjiLead).headD 0 = kanjiLead := by
        cases l with
        | nil => exact absurd rfl hl
        | cons => rfl
      have hbytes : name.bytes ≠ [] := by
        intro hnil
        exact absurd ((congrArg List.length hnil).symm.trans name.length_eq) (by decide)
      rw [first, hkanji _ hbytes]
      decide
    · intro byte i hbyte
      obtain hin | hzero := getElem?_set_zero hbyte
      · exact (hmem hin).imp_right .inl
      · exact .inr (.inr hzero)
  · apply badName_eq_false hfirst
    intro byte i hbyte
    exact (hmem (mem_of_getElem? hbyte)).imp_right .inl

theorem toDisk_generate_inj {text : Text} {s s' : Nat} {encode : Char → Option UInt8}
    {name name' : ShortName}
    (h : generate text s encode = some name) (h' : generate text s' encode = some name')
    (heq : name.toDisk = name'.toDisk) :
    name = name' := by
  rw [generate_some h, generate_some h'] at heq ⊢
  have hback := congrArg fromDisk heq
  rwa [Made.of_parts.fromDisk, Made.of_parts.fromDisk] at hback

theorem ofParts_inj {base base' ext : List UInt8} (hbase : base.length ≤ 8)
    (hbase' : base'.length ≤ 8)
    (hspace : 0x20 ∉ base) (hspace' : 0x20 ∉ base') (h : ofParts base ext = ofParts base' ext) :
    base = base' := by
  have hbytes := congrArg ShortName.bytes h
  have hpad := (append_inj hbytes (by rw [pad_length, pad_length])).1
  rw [← rdropWhile_takeD hspace hbase, ← rdropWhile_takeD hspace' hbase']
  exact congrArg (rdropWhile (· == 0x20)) hpad

def digits (value : UInt16) : List UInt8 :=
  [nibble value 12, nibble value 8, nibble value 4, nibble value 0]

theorem nibble_inj {value value' : UInt16} {shift : Nat}
    (h : nibble value shift = nibble value' shift) :
    value >>> UInt16.ofNat shift &&& 0xF = value' >>> UInt16.ofNat shift &&& 0xF := by
  have hall : ∀ d < 16, ∀ e < 16,
    (if UInt8.ofNat d < 10 then 0x30 + UInt8.ofNat d else 0x41 + UInt8.ofNat d - 10) =
      (if UInt8.ofNat e < 10 then 0x30 + UInt8.ofNat e else 0x41 + UInt8.ofNat e - 10) →
        d = e := by decide
  have hlt (value : UInt16) : (value &&& 0xF).toNat < 16 := by
    rw [UInt16.toNat_and]
    exact Nat.lt_of_le_of_lt Nat.and_le_right (by decide)
  have hdigit (value : UInt16) : (value &&& 0xF).toUInt8 = UInt8.ofNat
    (value &&& 0xF).toNat := rfl
  rw [nibble, nibble, hdigit, hdigit] at h
  exact UInt16.toNat_inj.mp (hall _ (hlt _) _ (hlt _) h)

theorem digits_inj {value value' : UInt16} (h : digits value = digits value') :
    value = value' := by
  simp only [digits, List.cons.injEq, and_true] at h
  obtain ⟨h12, h8, h4, h0⟩ := h
  have hnat {shift : Nat} (hshift : shift < 16) (h : nibble value shift = nibble value' shift) :
      value.toNat / 2 ^ shift % 16 = value'.toNat / 2 ^ shift % 16 := by
    have hsame := congrArg UInt16.toNat (nibble_inj h)
    have hmod : shift % 2 ^ 16 % 16 = shift := by omega
    simp only [UInt16.toNat_and, UInt16.toNat_shiftRight, UInt16.toNat_ofNat', hmod,
      Nat.shiftRight_eq_div_pow] at hsame
    have hmask (n : Nat) : n &&& (15 : UInt16).toNat = n % 16 :=
      Nat.and_two_pow_sub_one_eq_mod n 4
    rwa [hmask, hmask] at hsame
  have h12' := hnat (by decide) h12
  have h8' := hnat (by decide) h8
  have h4' := hnat (by decide) h4
  have h0' := hnat (by decide) h0
  have hlt := value.toNat_lt
  have hlt' := value'.toNat_lt
  apply UInt16.toNat_inj.mp
  omega

theorem hash_inj (text : Text) {n n' : Nat} (hn : n < 65536) (hn' : n' < 65536)
    (h : hash text n = hash text n') : n = n' := by
  have hstep (a b c : UInt16) (h : a * 37 + c = b * 37 + c) : a = b := by
    have hmul : a * 37 = b * 37 := by
      rw [← UInt16.add_sub_cancel (a * 37) c, h, UInt16.add_sub_cancel]
    have hinv (a : UInt16) : a * 37 * 7085 = a := by
      rw [UInt16.mul_assoc]
      exact UInt16.mul_one a
    rw [← hinv a, ← hinv b, hmul]
  have hfold (bytes : List UInt8) : ∀ a b : UInt16,
      bytes.foldl (fun hash byte => hash * 37 + byte.toUInt16) a =
        bytes.foldl (fun hash byte => hash * 37 + byte.toUInt16) b → a = b := by
    induction bytes with
    | nil => exact fun _ _ h => h
    | cons byte rest ih => exact fun a b h => hstep _ _ _ (ih _ _ h)
  have hnat := congrArg UInt16.toNat (hfold _ _ _ h)
  rwa [UInt16.toNat_ofNat_of_lt' hn, UInt16.toNat_ofNat_of_lt' hn'] at hnat

theorem tail_low (text : Text) {suffix : Nat} (h : suffix ≤ 4) :
    tail text suffix = [0x7E, 0x30 + UInt8.ofNat suffix] := by
  rw [tail, if_pos h]

theorem tail_high (text : Text) {suffix : Nat} (h : 4 < suffix) :
    tail text suffix = digits (hash text ((suffix - 5) / 9)) ++
      [0x7E, 0x31 + UInt8.ofNat ((suffix - 5) % 9)] := by
  rw [tail, if_neg (Nat.not_le.mpr h)]
  rfl

section

variable {text : Text} {encode : Char → Option UInt8} {s s' : Nat}

theorem base_low (hpos : 0 < s) (h : s ≤ 4) :
    (parts text s encode).1 = fill encode 6 (basis text).1 ++ [0x7E, 0x30 + UInt8.ofNat s] := by
  rw [parts_eq]
  dsimp only
  rw [if_pos hpos, stem, tail_low text h]
  congr 1
  exact take_of_length_le (fill_length_le encode 6 _)

theorem base_high (h : 4 < s) : (parts text s encode).1 = (fill encode 6 (basis text).1).take 2 ++
    (digits (hash text ((s - 5) / 9)) ++ [0x7E, 0x31 + UInt8.ofNat ((s - 5) % 9)]) := by
  rw [parts_eq]
  dsimp only
  rw [if_pos (by omega), stem, tail_high text h]
  rfl

theorem generate_inj (hs : 0 < s) (hs' : 0 < s') :
    generate text s encode = generate text s' encode ↔
      (parts text s encode).1 = (parts text s' encode).1 := by
  have hsome {s : Nat} (hs : 0 < s) : generate text s encode =
      some (ofParts (parts text s encode).1 (parts text s encode).2) := by
    rw [generate_eq, if_neg]
    rw [Bool.and_eq_true, List.isEmpty_iff]
    exact fun h => (parts_spec text s encode).2.2.2 hs h.1
  have hspace {s : Nat} : 0x20 ∉ (parts text s encode).1 := fun hmem =>
    (isShown_fine (parts_shown (mem_append_left _ hmem))).2.1 rfl
  have hext : (parts text s encode).2 = (parts text s' encode).2 := by
    rw [parts_eq, parts_eq]
  rw [hsome hs, hsome hs', Option.some.injEq, hext]
  constructor
  · exact ofParts_inj (parts_spec text s encode).1 (parts_spec text s' encode).1 hspace hspace
  · intro h
    rw [h]

/-- The tails `~1` to `~4` give different names, and so do the hashed ones; one of the first gives
the name of a hashed one when both end in the same digit and the hash is what the characters
before the tail end in. -/
theorem generate_eq_iff (hpos : 0 < s) (hlt : s < s') (hle : s' ≤ 255) :
    generate text s encode = generate text s' encode ↔ s ≤ 4 ∧ 4 < s' ∧ s = 1 + (s' - 5) % 9 ∧
      fill encode 6 (basis text).1 = (fill encode 6 (basis text).1).take 2 ++
        digits (hash text ((s' - 5) / 9)) := by
  rw [generate_inj hpos (hpos.trans hlt)]
  by_cases hlow : s ≤ 4
  · rw [base_low hpos hlow]
    by_cases hlow' : s' ≤ 4
    · rw [base_low (hpos.trans hlt) hlow']
      have hdigit : ∀ a < 5, ∀ b < 5, (0x30 + UInt8.ofNat a = 0x30 + UInt8.ofNat b) →
        a = b := by decide
      apply iff_of_false
      · intro h
        have htail := append_cancel_left h
        rw [List.cons.injEq, List.cons.injEq] at htail
        exact Nat.ne_of_lt hlt (hdigit s (by omega) s' (by omega) htail.2.1)
      · exact fun h => absurd h.2.1 (by omega)
    · have hdigit : ∀ a < 5, ∀ b < 9, (0x30 + UInt8.ofNat a = 0x31 + UInt8.ofNat b) ↔
        a = 1 + b := by decide
      rw [base_high (by omega), ← append_assoc, and_iff_right hlow,
        and_iff_right (by omega), and_comm]
      constructor
      · intro h
        obtain ⟨hstem, htail⟩ := append_inj' h rfl
        rw [List.cons.injEq, List.cons.injEq] at htail
        exact ⟨hstem, (hdigit s (by omega) _ (Nat.mod_lt _ (by decide))).mp htail.2.1⟩
      · rintro ⟨hstem, hs⟩
        rw [(hdigit s (by omega) _ (Nat.mod_lt _ (by decide))).mpr hs, ← hstem]
  · have hdigit : ∀ a < 9, ∀ b < 9, (0x31 + UInt8.ofNat a = 0x31 + UInt8.ofNat b) →
      a = b := by decide
    rw [base_high (by omega), base_high (by omega)]
    apply iff_of_false
    · intro h
      obtain ⟨hhash, htail⟩ := append_inj (append_cancel_left h) rfl
      rw [List.cons.injEq, List.cons.injEq] at htail
      have hmod := hdigit _ (Nat.mod_lt _ (by decide)) _ (Nat.mod_lt _ (by decide)) htail.2.1
      have hdiv := hash_inj text (by omega) (by omega) (digits_inj hhash)
      omega
    · exact fun h => hlow h.1

end

theorem processChar_allowed {part : Text} {lower : Bool} (h : partIsLower part = some lower)
    {ch : Char} (hch : ch ∈ part) (encode : Char → Option UInt8) :
    processChar encode ch ≠ 0 ∧ processChar encode ch < 0x80 ∧
      upperChar ch = Char.ofNat (processChar encode ch).toNat := by
  rw [partIsLower] at h
  dsimp only at h
  split at h
  · cases h
  · rename_i hallowed
    rw [Bool.not_eq_true, Bool.not_eq_false', all_eq_true] at hallowed
    have hone := hallowed ch hch
    rw [Bool.and_eq_true] at hone
    have hall : ∀ n < 128, (decide (0x41 ≤ toAsciiUppercase (UInt8.ofNat (Char.ofNat n).toNat) ∧
        toAsciiUppercase (UInt8.ofNat (Char.ofNat n).toNat) ≤ 0x5A ∨
          0x30 ≤ toAsciiUppercase (UInt8.ofNat (Char.ofNat n).toNat) ∧
          toAsciiUppercase (UInt8.ofNat (Char.ofNat n).toNat) ≤ 0x39) ||
            allowedSymbols.contains (toAsciiUppercase (UInt8.ofNat (Char.ofNat n).toNat))) =
              true →
        processChar (fun _ => none) (Char.ofNat n) ≠ 0 ∧
          processChar (fun _ => none) (Char.ofNat n) < 0x80 ∧
          upperChar (Char.ofNat n) = Char.ofNat
            (processChar (fun _ => none) (Char.ofNat n)).toNat := by decide
    have hthis := hall ch.toNat (of_decide_eq_true hone.1)
    rw [Char.ofNat_toNat, ← processChar_of_ascii hone.1 encode] at hthis
    exact hthis hone.2

theorem fill_allowed {encode : Char → Option UInt8} {part : Text} {limit : Nat}
    (hlen : part.length ≤ limit)
    (h : ∀ ch ∈ part, processChar encode ch ≠ 0) :
    fill encode limit part = part.map (processChar encode) := by
  induction part generalizing limit with
  | nil => cases limit <;> rfl
  | cons ch rest ih =>
    cases limit with
    | zero => exact absurd hlen (Nat.not_succ_le_zero _)
    | succ limit =>
      rw [fill, if_neg (h ch mem_cons_self), map_cons,
        ih (Nat.le_of_succ_le_succ hlen) fun c hc => h c (mem_cons_of_mem _ hc)]

theorem processChar_eq_zero {ch : Char} (h : (isDot ch || isSpace ch) = true)
    (encode : Char → Option UInt8) :
    processChar encode ch = 0 := by
  rw [Bool.or_eq_true, isDot, isSpace, beq_iff_eq, beq_iff_eq] at h
  rw [← Char.ofNat_toNat ch]
  obtain h | h := h <;> rw [h] <;> rfl

theorem caseBits_lengths {text : Text} {bits : UInt8} (h : caseBits text = some bits) :
    (splitExt text).1 ≠ [] ∧ (splitExt text).1.length ≤ 8 ∧ (splitExt text).2.length ≤ 3 := by
  rw [caseBits] at h
  dsimp only at h
  split at h
  · cases h
  · rename_i hlengths
    simp only [Bool.or_eq_true, decide_eq_true_eq, not_or, Nat.not_lt,
      List.isEmpty_iff] at hlengths
    exact ⟨hlengths.1.1, hlengths.1.2, hlengths.2⟩

variable {text part : Text} {lower : Bool}

theorem map_shown_fill (h : partIsLower part = some lower) (encode : Char → Option UInt8)
    (decode : UInt8 → Char) :
    (part.map (processChar encode)).map (shownByte decode lower) = part := by
  apply map_shownByte (keepsCase_of_partIsLower h)
  · intro byte hbyte
    obtain ⟨ch, hch, rfl⟩ := mem_map.mp hbyte
    exact (processChar_allowed h hch encode).2.1
  · rw [map_map]
    apply map_congr_left
    intro ch hch
    obtain ⟨-, hlt, hupper⟩ := processChar_allowed h hch encode
    rw [hupper, Function.comp_apply, shownByte, if_pos hlt]
    rfl

theorem display_caseBits {bits : UInt8} (hlast : text.getLast?.any isDot = false)
    (h : caseBits text = some bits) (encode : Char → Option UInt8) (decode : UInt8 → Char) :
    ∃ name, generate text 0 encode = some name ∧ name.toDisk.display bits decode = text := by
  obtain ⟨baseLower, extLower, hbase, hext, rfl⟩ := caseBits_some h
  obtain ⟨hne, hbaseLen, hextLen⟩ := caseBits_lengths h
  have hbasis : basis text = splitExt text := by
    rw [basis, if_neg]
    intro hall
    rw [Bool.and_eq_true, all_eq_true] at hall
    obtain ⟨ch, hch⟩ := exists_mem_of_ne_nil _ hne
    exact (processChar_allowed hbase hch encode).1 (processChar_eq_zero (hall.1 ch hch) encode)
  have hparts : parts text 0 encode =
      ((splitExt text).1.map (processChar encode),
        (splitExt text).2.map (processChar encode)) := by
    rw [parts_eq, if_neg (Nat.lt_irrefl 0), hbasis, fill_allowed hbaseLen fun ch hch =>
      (processChar_allowed hbase hch encode).1,
      fill_allowed hextLen fun ch hch => (processChar_allowed hext hch encode).1]
  have hmade : (ofParts (parts text 0 encode).1 (parts text 0 encode).2).toDisk.Made _ _ :=
    Made.of_parts
  refine ⟨ofParts (parts text 0 encode).1 (parts text 0 encode).2, ?_, ?_⟩
  · rw [generate_eq, if_neg]
    rw [hparts, Bool.and_eq_true, List.isEmpty_iff, map_eq_nil_iff]
    exact fun hnil => hne hnil.1
  · have hlowerBase :
        (((if baseLower then lowerBase else 0) ||| (if extLower then lowerExt else 0)) &&&
          lowerBase != 0) =
          baseLower := by
      cases baseLower <;> cases extLower <;> rfl
    have hlowerExt :
        (((if baseLower then lowerBase else 0) ||| (if extLower then lowerExt else 0)) &&&
          lowerExt != 0) =
          extLower := by
      cases baseLower <;> cases extLower <;> rfl
    rw [hmade.display_eq, hlowerBase, hlowerExt, hparts, map_shown_fill hbase,
      map_shown_fill hext]
    exact (splitExt_eq hlast).symm

end ShortName

theorem candidate_eq {page : CodePage} {text : Text} {fold : UInt16 → UInt16}
    {suffix : Nat} {name : ShortName}
    (h : shortName text suffix page fold = some name) :
    candidate text page fold suffix = name.toDisk := by
  rw [candidate, h]
  rfl

/-- The characters of `text` that go before a numeric tail end in the digits hashed
for the tail `suffix`. -/
def EndsHashed (text : Text) (page : CodePage) (fold : UInt16 → UInt16) (suffix : Nat) : Prop :=
  ShortName.fill (fun ch => page.encode (foldChar fold ch)) 6 (ShortName.basis text).1 =
    (ShortName.fill (fun ch => page.encode (foldChar fold ch)) 6 (ShortName.basis text).1).take
      2 ++
      ShortName.digits (ShortName.hash text ((suffix - 5) / 9))

theorem candidate_eq_iff {page : CodePage} {text : Text} {fold : UInt16 → UInt16} {s s' : Nat}
    (hpos : 0 < s) (hlt : s < s')
    (hle : s' ≤ 255) : candidate text page fold s = candidate text page fold s' ↔
      s ≤ 4 ∧ 4 < s' ∧ s = 1 + (s' - 5) % 9 ∧ EndsHashed text page fold s' := by
  rw [EndsHashed, ← ShortName.generate_eq_iff hpos hlt hle]
  obtain ⟨name, -, -, hname, hcandidate, -⟩ := candidate_made page text hpos fold
  obtain ⟨name', -, -, hname', hcandidate', -⟩ := candidate_made page text (hpos.trans hlt) fold
  rw [hcandidate, hcandidate']
  rw [shortName] at hname hname'
  rw [hname, hname', Option.some.injEq]
  constructor
  · exact ShortName.toDisk_generate_inj hname hname'
  · exact congrArg ShortName.toDisk

end Directory

open Directory

/-- No short name generated is one that a check calls bad, as it is stored. Those of two numeric
tails differ, but for one of the first four and a hashed one of the same digit whose hash the
characters before the tail end in. A name accepted whose case the case bits tell is shown as it
was given when it is stored by these alone. -/
theorem short_names_hold :
    (∀ (text : Text) (page : CodePage) (fold : UInt16 → UInt16) (suffix : Nat) (name : ShortName),
      shortName text suffix page fold = some name → name.toDisk.badName = false) ∧
    (∀ (text : Text) (page : CodePage) (fold : UInt16 → UInt16) (s s' : Nat), 0 < s → s < s' →
      s' ≤ 255 →
      (candidate text page fold s = candidate text page fold s' ↔
        s ≤ 4 ∧ 4 < s' ∧ s = 1 + (s' - 5) % 9 ∧ EndsHashed text page fold s')) ∧
    ∀ (text : Text) (page : CodePage) (fold : UInt16 → UInt16) (new : NewName) (bits : UInt8),
      NewName.new text page fold = .ok new → new.caseBits = some bits →
        (candidate text page fold 0).display bits page.decode = text := by
  refine ⟨fun text page fold suffix name h => ShortName.badName_generate h,
    fun text page fold s s' hpos hlt hle => candidate_eq_iff hpos hlt hle, ?_⟩
  intro text page fold new bits hnew hbits
  rw [NewName.new_caseBits hnew] at hbits
  obtain ⟨name, hname, hshown⟩ := ShortName.display_caseBits (NewName.new_last hnew) hbits
    (fun ch => page.encode (foldChar fold ch)) page.decode
  rw [candidate_eq hname]
  exact hshown

def asciiPage : CodePage := ⟨fun _ => '?', fun _ => none⟩

/-- What is stored of the names `notes.txt` and `long name.txt`. -/
theorem short_names_hold_sample :
    (candidate "long name.txt".toList asciiPage id 1).badName = false ∧
      candidate "long name.txt".toList asciiPage id 1 ≠
        candidate "long name.txt".toList asciiPage id 5 ∧
      (candidate "notes.txt".toList asciiPage id 0).display 0x18 asciiPage.decode =
        "notes.txt".toList := by
  obtain ⟨name, hname⟩ : ∃ name, shortName "long name.txt".toList 1 asciiPage id = some name :=
    Option.isSome_iff_exists.mp (by decide)
  obtain ⟨new, hnew⟩ : ∃ new, NewName.new "notes.txt".toList asciiPage id = .ok new := ⟨_, by rfl⟩
  refine ⟨?_, ?_, ?_⟩
  · rw [candidate_eq hname]
    exact short_names_hold.1 _ asciiPage id 1 name hname
  · rw [Ne, short_names_hold.2.1 _ asciiPage id 1 5 (by decide) (by decide) (by decide)]
    rintro ⟨-, -, -, hhashed⟩
    revert hhashed
    rw [EndsHashed]
    decide
  · refine short_names_hold.2.2 _ asciiPage id new 0x18 hnew ?_
    rw [NewName.new_caseBits hnew]
    decide

/-- The tail `~1` and the first hashed one give `abC44Anotes.txt` the same name. -/
theorem short_names_hold_fails :
    ¬ ∀ (text : Text) (page : CodePage) (fold : UInt16 → UInt16) (new : NewName),
    NewName.new text page fold = .ok new → ∀ s s' : Nat, 0 < s → s < s' → s' ≤ 255 →
      candidate text page fold s ≠ candidate text page fold s' := by
  intro hall
  obtain ⟨new, hnew⟩ : ∃ new, NewName.new "abC44Anotes.txt".toList asciiPage id = .ok new :=
    ⟨_, by rfl⟩
  refine hall _ asciiPage id new hnew 1 5 (by decide) (by decide) (by decide) ?_
  decide

end Hadris
