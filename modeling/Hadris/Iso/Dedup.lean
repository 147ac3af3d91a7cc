import Hadris.Iso.Shapes

namespace Hadris.Iso

open List

variable {nameCase : NameCase} {level : IsoLevel} {rules : Rules} {id base ext name : Identifier}
  {n m : Nat}

def digits (n : Nat) : List UInt8 := (Nat.toDigits 10 n).map fun digit => digit.toNat.toUInt8

theorem suffix_eq (n : Nat) : suffix n = underscore :: digits n := rfl

theorem digit_range {digit : Char} (h : digit ∈ Nat.toDigits 10 n) :
    48 ≤ digit.toNat ∧ digit.toNat ≤ 57 := by
  have hdigit := Nat.isDigit_of_mem_toDigits (by decide) (by decide) h
  rw [Char.isDigit, Bool.and_eq_true, decide_eq_true_eq, decide_eq_true_eq] at hdigit
  exact hdigit

theorem digits_injective (h : digits n = digits m) : n = m := by
  have hread : ∀ k, (digits k).map (fun byte => Char.ofNat byte.toNat) = Nat.toDigits 10 k := by
    intro k
    rw [digits, map_map, map_congr_left (g := id) fun digit hdigit => ?_, map_id]
    have hrange := digit_range hdigit
    have hsmall : digit.toNat.toUInt8.toNat = digit.toNat :=
      UInt8.toNat_ofNat_of_lt' (by change _ < 256; omega)
    rw [Function.comp_apply, hsmall, Char.ofNat_toNat]
    rfl
  have htoDigits := congrArg (List.map fun byte => Char.ofNat byte.toNat) h
  rw [hread, hread] at htoDigits
  have hvalue := congrArg (Nat.ofDigitChars 10 · 0) htoDigits
  rwa [Nat.ofDigitChars_ten_toDigits, Nat.ofDigitChars_ten_toDigits] at hvalue

theorem isDChar_digits : ∀ byte ∈ digits n, isDChar byte = true ∧ byte ≠ underscore := by
  intro byte hbyte
  obtain ⟨digit, hdigit, rfl⟩ := mem_map.mp hbyte
  have hrange := digit_range hdigit
  have hsmall : digit.toNat.toUInt8.toNat = digit.toNat :=
    UInt8.toNat_ofNat_of_lt' (by change _ < 256; omega)
  refine ⟨isDChar_of_range _ (by omega) (.inl hrange), fun h => ?_⟩
  rw [h] at hsmall
  change 95 = _ at hsmall
  omega

theorem not_continuation {byte : UInt8} (h : isDChar byte = true) : ¬ byte &&& 0xC0 = 0x80 := by
  intro hand
  have hle : (byte &&& 0xC0).toNat ≤ byte.toNat := by
    rw [UInt8.toNat_and]
    exact Nat.and_le_left
  rw [hand] at hle
  change 128 ≤ _ at hle
  have hrange := (isDChar_iff byte).mp h
  omega

theorem dchars_suffix (n : Nat) : DChars (suffix n) := by
  intro byte hbyte
  rcases mem_cons.mp hbyte with rfl | hbyte
  · rfl
  · exact (isDChar_digits byte hbyte).1

theorem length_suffix_mono (h : n ≤ m) : (suffix n).length ≤ (suffix m).length := by
  have hpos : 0 < (Nat.toDigits 10 m).length := Nat.length_toDigits_pos
  have hm := (Nat.length_toDigits_le_iff (b := 10) (n := m) (by decide) hpos).mp (Nat.le_refl _)
  have hn := (Nat.length_toDigits_le_iff (b := 10) (n := n) (by decide) hpos).mpr (h.trans_lt hm)
  rw [suffix_eq, suffix_eq, digits, digits, length_cons, length_cons, length_map, length_map]
  omega

theorem suffix_inj {a b : List UInt8} (h : a ++ suffix n = b ++ suffix m) : n = m := by
  have hsplit : ∀ (a : List UInt8) n, rsplitOnce underscore (a ++ suffix n) =
      some (a, digits n) := by
    intro a n
    rw [suffix_eq, rsplitOnce_append fun hmem => (isDChar_digits _ hmem).2 rfl]
  have heq := congrArg (rsplitOnce underscore) h
  rw [hsplit, hsplit] at heq
  exact digits_injective (Prod.mk.inj (Option.some.inj heq)).2

theorem isoDedup_eq (name : Identifier) (suffix : List UInt8) (rules : Rules) :
    isoDedup name suffix rules = (isoParts name).1.1.take (cutBack (isoParts name).1.1
        (min (isoParts name).1.1.length
          (maxTotal rules (isoParts name).1.2 (isoParts name).2 - suffix.length))) ++ suffix ++
      (isoParts name).1.2 ++ (isoParts name).2 := rfl

theorem isoDedup_injective (name : Identifier) (rules : Rules) :
    Function.Injective fun n => isoDedup name (suffix n) rules := by
  intro n m h
  dsimp only at h
  rw [isoDedup_eq, isoDedup_eq] at h
  exact suffix_inj (append_cancel_right (append_cancel_right h))

def units : Identifier → List (UInt8 × UInt8)
  | high :: low :: rest => (high, low) :: units rest
  | _ => []

def unitDot : UInt8 × UInt8 := (0, dot)

theorem eq_of_short {l : Identifier} (hl : ∀ high low rest, l = high :: low :: rest → False) :
    l = [] ∨ ∃ byte, l = [byte] := by
  rcases l with _ | ⟨byte, _ | ⟨low, rest⟩⟩
  · exact .inl rfl
  · exact .inr ⟨byte, rfl⟩
  · exact absurd rfl (hl byte low rest)

theorem units_append (h : base.length % 2 = 0) :
    units (base ++ ext) = units base ++ units ext := by
  induction base using units.induct with
  | case1 high low rest ih =>
    rw [cons_append, cons_append, units, units, ih, cons_append]
    rw [length_cons, length_cons] at h
    omega
  | case2 l hl =>
    rcases eq_of_short hl with rfl | ⟨byte, rfl⟩
    · rfl
    · cases h

theorem units_take_subset (name : Identifier) (k : Nat) : units (name.take k) ⊆ units name := by
  induction name using units.induct generalizing k with
  | case1 high low rest ih =>
    rcases k with _ | _ | k
    · exact nil_subset _
    · exact nil_subset _
    · rw [take_succ_cons, take_succ_cons, units, units]
      exact cons_subset_cons _ (ih k)
  | case2 l hl =>
    rcases eq_of_short hl with rfl | ⟨byte, rfl⟩
    · rw [take_nil]
      exact nil_subset _
    · rcases k with _ | k
      · exact nil_subset _
      · rw [take_succ_cons, take_nil]
        exact List.Subset.refl _

theorem jolietDot_none (h : jolietDot name = none) : unitDot ∉ units name := by
  induction name using units.induct with
  | case1 high low rest ih =>
    rw [jolietDot] at h
    split at h
    · cases h
    · rename_i hrest
      split at h
      · cases h
      · rename_i hne
        rw [units, mem_cons, not_or]
        exact ⟨fun heq => hne (Prod.mk.inj heq.symm), ih hrest⟩
  | case2 l hl =>
    rcases eq_of_short hl with rfl | ⟨byte, rfl⟩ <;> exact not_mem_nil

theorem jolietDot_some {at' : Nat} (h : jolietDot name = some at') :
    ∃ rest, name.drop at' = 0 :: dot :: rest ∧ unitDot ∉ units rest := by
  induction name using units.induct generalizing at' with
  | case1 high low rest ih =>
    rw [jolietDot] at h
    split at h
    · rename_i at'' hrest
      cases h
      exact ih hrest
    · rename_i hrest
      split at h
      · rename_i hdot
        cases h
        obtain ⟨rfl, rfl⟩ := hdot
        exact ⟨rest, rfl, jolietDot_none hrest⟩
      · cases h
  | case2 l hl =>
    rcases eq_of_short hl with rfl | ⟨byte, rfl⟩ <;> cases h

def wide (suffix : List UInt8) : Identifier := suffix.flatMap fun byte => [0, byte]

theorem length_wide (suffix : List UInt8) : (wide suffix).length = 2 * suffix.length :=
  length_flatMap_two (fun _ => rfl) suffix

theorem units_wide (suffix : List UInt8) :
    units (wide suffix) = suffix.map fun byte => (0, byte) := by
  induction suffix with
  | nil => rfl
  | cons byte rest ih => exact congrArg ((0, byte) :: ·) ih

theorem unitDot_notMem_wide (n : Nat) : unitDot ∉ units (wide (suffix n)) := by
  rw [units_wide]
  intro hmem
  obtain ⟨byte, hbyte, heq⟩ := mem_map.mp hmem
  exact dot_notMem (dchars_suffix n) ((Prod.mk.inj heq).2 ▸ hbyte)

def stem (l : List (UInt8 × UInt8)) : List (UInt8 × UInt8) :=
  match rsplitOnce unitDot l with
  | some (base, _) => base
  | none => l

theorem stem_of_notMem {l : List (UInt8 × UInt8)} (h : unitDot ∉ l) : stem l = l := by
  rw [stem, rsplitOnce_of_notMem h]

theorem stem_append {l rest : List (UInt8 × UInt8)} (h : unitDot ∉ rest) :
    stem (l ++ unitDot :: rest) = l := by
  rw [stem, rsplitOnce_append h]

def jolietExt (name : Identifier) (suffix : List UInt8) : Identifier :=
  (jolietParts name).2.take
    (min (jolietParts name).2.length (2 * jolietMaxChars - (wide suffix).length))

def jolietBase (name : Identifier) (suffix : List UInt8) : Identifier :=
  (jolietParts name).1.take (min (jolietParts name).1.length
    (2 * jolietMaxChars - ((jolietExt name suffix).length + (wide suffix).length)) / 2 * 2)

theorem jolietDedup_eq (name : Identifier) (suffix : List UInt8) :
    jolietDedup name suffix = jolietBase name suffix ++ wide suffix ++
      jolietExt name suffix := rfl

theorem length_jolietBase (name : Identifier) (suffix : List UInt8) :
    (jolietBase name suffix).length % 2 = 0 ∧ (jolietBase name suffix).length ≤
      2 * jolietMaxChars - ((jolietExt name suffix).length + (wide suffix).length) := by
  rw [jolietBase, length_take]
  omega

theorem length_jolietExt (name : Identifier) (suffix : List UInt8) :
    (jolietExt name suffix).length = min (jolietParts name).2.length
      (2 * jolietMaxChars - (wide suffix).length) := by
  rw [jolietExt, length_take]
  omega

theorem stem_jolietDedup (name : Identifier) (n : Nat) :
    stem (units (jolietDedup name (suffix n))) =
      units (jolietBase name (suffix n)) ++ units (wide (suffix n)) := by
  obtain ⟨heven, hle⟩ := length_jolietBase name (suffix n)
  have hwide := length_wide (suffix n)
  have hunits : units (jolietDedup name (suffix n)) =
      units (jolietBase name (suffix n)) ++ units (wide (suffix n)) ++
        units (jolietExt name (suffix n)) := by
    rw [jolietDedup_eq, units_append (by rw [length_append]; omega), units_append heven]
  rw [hunits]
  cases hdot : jolietDot name with
  | none =>
    have hparts : jolietParts name = (name, []) := by rw [jolietParts, hdot]
    have hext : jolietExt name (suffix n) = [] := by rw [jolietExt, hparts, take_nil]
    have hnil : units ([] : Identifier) = [] := rfl
    rw [hext, hnil, append_nil, stem_of_notMem]
    rw [mem_append, not_or]
    refine ⟨fun hmem => jolietDot_none hdot ?_, unitDot_notMem_wide n⟩
    rw [jolietBase, hparts] at hmem
    exact units_take_subset _ _ hmem
  | some at' =>
    obtain ⟨rest, hrest, hno⟩ := jolietDot_some hdot
    have hparts : (jolietParts name).2 = 0 :: dot :: rest := by rw [jolietParts, hdot, ← hrest]
    have hlength := length_jolietExt name (suffix n)
    rw [hparts, length_cons, length_cons] at hlength
    rcases hk : (jolietExt name (suffix n)).length with _ | _ | k
    · have hnil : jolietBase name (suffix n) = [] := eq_nil_of_length_eq_zero (by omega)
      have hext : jolietExt name (suffix n) = [] := eq_nil_of_length_eq_zero hk
      have hunits : units ([] : Identifier) = [] := rfl
      rw [hnil, hext, hunits, nil_append, append_nil, stem_of_notMem (unitDot_notMem_wide n)]
    · omega
    · have hext : jolietExt name (suffix n) = 0 :: dot :: rest.take k := by
        rw [jolietExt, hparts, length_cons, length_cons, ← hlength, hk]
        rfl
      rw [hext, units]
      exact stem_append fun hmem => hno (units_take_subset _ _ hmem)

theorem jolietDedup_injective (name : Identifier) :
    Function.Injective fun n => jolietDedup name (suffix n) := by
  intro n m h
  have hsplit : ∀ k, rsplitOnce (0, underscore) (stem (units (jolietDedup name (suffix k)))) =
      some (units (jolietBase name (suffix k)), (digits k).map fun byte => (0, byte)) := by
    intro k
    rw [stem_jolietDedup, units_wide, suffix_eq, map_cons, rsplitOnce_append fun hmem => ?_]
    obtain ⟨byte, hbyte, heq⟩ := mem_map.mp hmem
    exact (isDChar_digits byte hbyte).2 (Prod.mk.inj heq).2
  have heq := congrArg (fun id => rsplitOnce (0, underscore) (stem (units id))) h
  dsimp only at heq
  rw [hsplit, hsplit] at heq
  have hdigits := (Prod.mk.inj (Option.some.inj heq)).2
  exact digits_injective (map_injective_iff.mpr (fun _ _ heq => (Prod.mk.inj heq).2) hdigits)

theorem dedup_injective (rules : Rules) (name : Identifier) :
    Function.Injective (rules.dedup name) := by
  cases rules with
  | joliet => exact jolietDedup_injective name
  | primary level nameCase => exact isoDedup_injective name _
  | enhanced => exact isoDedup_injective name _

/-- A name is mapped to `id`, as a file's or a directory's. -/
def Mapped (rules : Rules) (id : Identifier) : Prop :=
  ∃ name, id = rules.file name ∨ id = rules.directory name

theorem cutBack_le (base : Identifier) (n : Nat) : cutBack base n ≤ n := by
  induction n with
  | zero => exact Nat.le_refl _
  | succ n ih =>
    rw [cutBack]
    split
    · exact Nat.le_succ_of_le ih
    · exact Nat.le_refl _

theorem cutBack_dchars (h : DChars base) (n : Nat) : cutBack base n = n := by
  cases n with
  | zero => rfl
  | succ n =>
    rw [cutBack, if_neg]
    rintro ⟨hlt, hbyte⟩
    have hmem : base.getD (n + 1) 0 ∈ base := by
      rw [getD_eq_getElem?_getD, getElem?_eq_getElem hlt]
      exact getElem_mem hlt
    exact not_continuation (h _ hmem) hbyte

theorem isoParts_file (hext : DChars ext) :
    isoParts (base ++ dot :: (ext ++ version)) = ((base, dot :: ext), version) := by
  have hstrip : stripVersion (base ++ dot :: (ext ++ version)) = some (base ++ dot :: ext) := by
    rw [← cons_append, ← append_assoc, stripVersion_append]
  rw [isoParts, hstrip]
  dsimp only
  rw [splitExt_append (dot_notMem hext)]

theorem isoParts_directory (hbase : DChars base) : isoParts base = ((base, []), []) := by
  rw [isoParts, stripVersion_dchars hbase]
  dsimp only
  rw [splitExt_dchars (dot_notMem hbase)]

def numbered (base : Identifier) (total n : Nat) : Identifier :=
  base.take (min base.length (total - (suffix n).length)) ++ suffix n

theorem dchars_numbered (h : DChars base) (total n : Nat) : DChars (numbered base total n) := by
  intro byte hbyte
  rcases mem_append.mp hbyte with hbase | hsuffix
  · exact h byte (mem_of_mem_take hbase)
  · exact dchars_suffix n byte hsuffix

theorem length_numbered (base : Identifier) (total n : Nat) :
    (numbered base total n).length = min base.length (total - (suffix n).length) +
      (suffix n).length := by
  rw [numbered, length_append, length_take]
  omega

theorem dedup_file (hbase : DChars base) (hext : DChars ext) (n : Nat) :
    (Rules.primary level nameCase).dedup (base ++ dot :: (ext ++ version)) n =
      numbered base (maxTotal (.primary level nameCase) (dot :: ext) version) n ++ dot ::
        (ext ++ version) := by
  change isoDedup _ _ _ = _
  rw [isoDedup_eq, isoParts_file hext]
  dsimp only
  rw [cutBack_dchars hbase, numbered]
  simp only [append_assoc, cons_append]

theorem dedup_directory (hbase : DChars base) (n : Nat) :
    (Rules.primary level nameCase).dedup base n =
      numbered base (maxTotal (.primary level nameCase) [] []) n := by
  change isoDedup _ _ _ = _
  rw [isoDedup_eq, isoParts_directory hbase]
  dsimp only
  rw [cutBack_dchars hbase, numbered, append_nil, append_nil]

theorem isoParts_eq (id : Identifier) :
    (isoParts id).1.1 ++ (isoParts id).1.2 ++ (isoParts id).2 = id := by
  rw [isoParts]
  split
  · rename_i base hstrip
    dsimp only
    rw [splitExt_eq, stripVersion_some hstrip]
  · dsimp only
    rw [splitExt_eq, append_nil]

theorem room_enhanced (id : Identifier) :
    Rules.enhanced.room id = enhancedMax -
      ((isoParts id).1.2.length + (isoParts id).2.length) := by
  rw [Rules.room, isoParts]
  cases stripVersion id <;> rfl

theorem enhanced_within_iff (h : id.length ≤ enhancedMax) (n : Nat) :
    (isoDedup id (suffix n) .enhanced).length ≤ enhancedMax ↔
      (suffix n).length ≤ Rules.enhanced.room id := by
  have hparts := congrArg List.length (isoParts_eq id)
  have hcut := cutBack_le (isoParts id).1.1 (min (isoParts id).1.1.length
    (enhancedMax - ((isoParts id).1.2.length + (isoParts id).2.length) - (suffix n).length))
  rw [length_append, length_append] at hparts
  rw [isoDedup_eq, room_enhanced]
  change (List.take (cutBack _ (min _ (enhancedMax - _ - _))) _ ++ _ ++ _ ++ _).length ≤ _ ↔ _
  rw [length_append, length_append, length_append, length_take]
  omega

theorem length_jolietDedup (name : Identifier) (suffix : List UInt8) :
    (jolietDedup name suffix).length ≤ max (2 * jolietMaxChars) (2 * suffix.length) ∧
      2 * suffix.length ≤ (jolietDedup name suffix).length := by
  have hbase := (length_jolietBase name suffix).2
  have hext := length_jolietExt name suffix
  have hwide := length_wide suffix
  rw [jolietDedup_eq, length_append, length_append]
  omega

theorem within_file_iff (hext : DChars ext) :
    (Rules.primary level nameCase).within (base ++ dot :: (ext ++ version)) = true ↔
      if level = .l1 then base.length ≤ 8 ∧ ext.length ≤ 3
        else base.length + ext.length ≤ 30 := by
  rw [within_file hext]
  split
  · rw [Bool.and_eq_true, decide_eq_true_eq, decide_eq_true_eq]
  · exact decide_eq_true_iff

theorem within_directory_iff (hbase : DChars base) :
    (Rules.primary level nameCase).within base = true ↔
      if level = .l1 then base.length ≤ 8 else base.length ≤ 31 := by
  rw [within_directory hbase]
  split <;> exact decide_eq_true_iff

theorem length_dot (ext : Identifier) : (dot :: ext).length = ext.length + 1 := rfl

theorem dedup_within_iff (h : Mapped rules id) (n : Nat) :
    rules.within (rules.dedup id n) = true ↔ (suffix n).length ≤ rules.room id := by
  obtain ⟨name, h⟩ := h
  have hwithin := within_of_mapped rules name
  cases rules with
  | enhanced =>
    have hlength : id.length ≤ enhancedMax := by
      rcases h with rfl | rfl
      · exact of_decide_eq_true hwithin.1
      · exact of_decide_eq_true hwithin.2
    exact decide_eq_true_iff.trans (enhanced_within_iff hlength n)
  | joliet =>
    have hlength := length_jolietDedup id (suffix n)
    refine decide_eq_true_iff.trans ?_
    change (jolietDedup id (suffix n)).length ≤ _ ↔ (suffix n).length ≤ jolietMaxChars
    omega
  | primary level nameCase =>
    rcases h with rfl | rfl
    · obtain ⟨base, ext, hfile, hbase, hext, hfits⟩ := file_shaped level nameCase name
      have hstrip : stripVersion (base ++ dot :: (ext ++ version)) =
          some (base ++ dot :: ext) := by
        rw [← cons_append, ← append_assoc, stripVersion_append]
      have hdot := length_dot ext
      rw [hfile, dedup_file hbase hext, within_file_iff hext, length_numbered, Rules.room, hstrip]
      dsimp only
      rw [splitExt_append (dot_notMem hext)]
      cases level <;> simp only [maxTotal, reduceIte, reduceCtorEq, hdot] at hfits ⊢ <;> omega
    · obtain ⟨hdirectory, hfits⟩ := directory_shaped level nameCase name
      have hnil : ([] : Identifier).length = 0 := rfl
      rw [dedup_directory hdirectory, within_directory_iff (dchars_numbered hdirectory _ n),
        length_numbered, Rules.room, stripVersion_dchars hdirectory]
      cases level <;> simp only [maxTotal, reduceIte, reduceCtorEq, hnil] at hfits ⊢ <;> omega

theorem room_mono (h : n ≤ m) (hroom : (suffix m).length ≤ rules.room id) :
    (suffix n).length ≤ rules.room id :=
  (length_suffix_mono h).trans hroom

theorem underscore_mem_dedup (rules : Rules) (id : Identifier) (n : Nat) :
    underscore ∈ rules.dedup id n := by
  have hsuffix : underscore ∈ suffix n := mem_cons_self
  have hiso : ∀ rules, underscore ∈ isoDedup id (suffix n) rules := by
    intro rules
    rw [isoDedup_eq]
    exact mem_append_left _ (mem_append_left _ (mem_append_right _ hsuffix))
  cases rules with
  | joliet =>
    change underscore ∈ jolietDedup id (suffix n)
    rw [jolietDedup_eq]
    refine mem_append_left _ (mem_append_right _ ?_)
    exact mem_flatMap.mpr ⟨underscore, hsuffix, mem_cons_of_mem _ mem_cons_self⟩
  | primary level nameCase => exact hiso _
  | enhanced => exact hiso _

end Hadris.Iso
