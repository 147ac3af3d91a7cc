import Hadris.Iso.Records
import Hadris.Directory.Stored

namespace Hadris.Iso

open List
open Hadris.Directory (Text encodeUtf8)

variable {rules : Rules} {fuel : Nat} {seen : List Identifier} {current : Option Identifier}
  {records out : List PendingRecord} {id name : Identifier}

theorem isSpecial_iff : isSpecial name = true ↔ name = [0] ∨ name = [1] := decide_eq_true_iff

theorem not_isSpecial_of_mem (h : underscore ∈ name) : isSpecial name = false := by
  rw [Bool.eq_false_iff]
  intro hspecial
  rcases isSpecial_iff.mp hspecial with rfl | rfl <;> exact absurd h (by decide)

theorem unique_closed {P : Identifier → Prop} (hclosed : ∀ id n, P id → P (rules.dedup id n))
    (hid : P id) (h : unique rules fuel seen id = some name) : P name := by
  rw [unique] at h
  split at h
  · obtain ⟨n, -, rfl, -, -⟩ := firstFree_some h
    exact hclosed id n hid
  · cases h
    exact hid

theorem unique_notMem (h : unique rules fuel seen id = some name) : name ∉ seen := by
  rw [unique] at h
  split at h
  · obtain ⟨n, -, -, hfree, -⟩ := firstFree_some h
    exact hfree
  · rename_i hnot
    cases h
    exact hnot

theorem unique_exists (hfuel : seen.length < fuel) (id : Identifier) :
    ∃ name, unique rules fuel seen id = some name := by
  rw [unique]
  split
  · exact firstFree_exists (dedup_injective rules id) hfuel
  · exact ⟨id, rfl⟩

theorem not_isSpecial_dedup (id : Identifier) (n : Nat) : isSpecial (rules.dedup id n) = false :=
  not_isSpecial_of_mem (underscore_mem_dedup rules id n)

theorem dedup_exists (hfuel : seen.length + records.length < fuel) :
    ∃ out, dedup rules fuel seen current records = some out := by
  induction records generalizing seen current with
  | nil =>
    rw [dedup.eq_def]
    exact ⟨[], rfl⟩
  | cons record rest ih =>
    rw [length_cons] at hfuel
    have hstep : ∀ current, ∃ out, dedup rules fuel seen current rest = some out :=
      fun current => ih (by omega)
    cases current with
    | some name =>
      obtain ⟨out, hout⟩ := hstep (if record.isNotFinal then some name else none)
      rw [dedup, hout]
      exact ⟨_, rfl⟩
    | none =>
      rw [dedup]
      split
      · obtain ⟨out, hout⟩ := hstep none
        rw [hout]
        exact ⟨_, rfl⟩
      · obtain ⟨name, hname⟩ : ∃ name, unique rules fuel seen record.name = some name :=
          unique_exists (by omega) record.name
        rw [hname]
        obtain ⟨out, hout⟩ : ∃ out, dedup rules fuel (name :: seen)
            (if record.isNotFinal then some name else none) rest = some out :=
          ih (by rw [length_cons]; omega)
        exact ⟨_, by rw [Option.bind_eq_bind, Option.bind_some, hout]; rfl⟩

variable {record : PendingRecord}

theorem dedup_follower (h : dedup rules fuel seen (some name) (record :: records) = some out) :
    ∃ rest, dedup rules fuel seen (if record.isNotFinal then some name else none) records =
      some rest ∧
      out = { record with name } :: rest := by
  rw [dedup] at h
  obtain ⟨rest, hrest, h⟩ := Option.bind_eq_some_iff.mp h
  exact ⟨rest, hrest, (Option.some.inj h).symm⟩

theorem dedup_special (hspecial : isSpecial record.name = true)
    (h : dedup rules fuel seen none (record :: records) = some out) :
    ∃ rest, dedup rules fuel seen none records = some rest ∧ out = record :: rest := by
  rw [dedup, if_pos hspecial] at h
  obtain ⟨rest, hrest, h⟩ := Option.bind_eq_some_iff.mp h
  exact ⟨rest, hrest, (Option.some.inj h).symm⟩

theorem dedup_leader (hspecial : isSpecial record.name = false)
    (h : dedup rules fuel seen none (record :: records) = some out) :
    ∃ name rest, unique rules fuel seen record.name = some name ∧
      dedup rules fuel (name :: seen) (if record.isNotFinal then some name else none) records =
        some rest ∧
      out = { record with name } :: rest := by
  rw [dedup, if_neg (Bool.eq_false_iff.mp hspecial)] at h
  obtain ⟨name, hname, h⟩ := Option.bind_eq_some_iff.mp h
  obtain ⟨rest, hrest, h⟩ := Option.bind_eq_some_iff.mp h
  exact ⟨name, rest, hname, hrest, (Option.some.inj h).symm⟩

/-- What suffixes keep holds of all identifiers when it holds of those the names are
mapped to. -/
theorem dedup_closed {P : Identifier → Prop} (hclosed : ∀ id n, P id → P (rules.dedup id n))
    (hcurrent : ∀ name, current = some name → P name) (hrecords : ∀ r ∈ records, P r.name)
    (h : dedup rules fuel seen current records = some out) : ∀ r ∈ out, P r.name := by
  induction records generalizing seen current out with
  | nil =>
    rw [dedup.eq_def] at h
    cases h
    intro r hr
    exact absurd hr not_mem_nil
  | cons record rest ih =>
    have hhead := hrecords record mem_cons_self
    have htail : ∀ r ∈ rest, P r.name := fun r hr => hrecords r (mem_cons_of_mem _ hr)
    have hnext : ∀ name, P name → ∀ next, (if record.isNotFinal then some name else none) =
        some next → P next := by
      intro name hname next hnext
      rw [Option.ite_none_right_eq_some] at hnext
      exact Option.some.inj hnext.2 ▸ hname
    cases current with
    | some name =>
      obtain ⟨more, hmore, rfl⟩ := dedup_follower h
      have hname := hcurrent name rfl
      exact forall_mem_cons.mpr ⟨hname, ih (hnext name hname) htail hmore⟩
    | none =>
      cases hspecial : isSpecial record.name with
      | true =>
        obtain ⟨more, hmore, rfl⟩ := dedup_special hspecial h
        exact forall_mem_cons.mpr ⟨hhead, ih (fun _ heq => by cases heq) htail hmore⟩
      | false =>
        obtain ⟨name, more, hunique, hmore, rfl⟩ := dedup_leader hspecial h
        have hname := unique_closed hclosed hhead hunique
        exact forall_mem_cons.mpr ⟨hname, ih (hnext name hname) htail hmore⟩

/-- The records of one file follow each other, with one identifier and one system use
area, and only the last is its last. -/
def Clones (a b : PendingRecord) : Prop :=
  a.isNotFinal = true → b.name = a.name ∧ b.split = a.split

theorem mem_dedup_of_special (hclones : records.IsChain Clones)
    (hcurrent : current.isSome → ∀ r ∈ records.head?, isSpecial r.name = false)
    (h : dedup rules fuel seen current records = some out) :
    ∀ r ∈ records, isSpecial r.name = true → r ∈ out := by
  induction records generalizing seen current out with
  | nil =>
    intro r hr
    exact absurd hr not_mem_nil
  | cons record rest ih =>
    have htail : rest.IsChain Clones := hclones.of_cons
    have hnext : ∀ name : Identifier, isSpecial record.name = false →
        (if record.isNotFinal then some name else none).isSome → ∀ r ∈ rest.head?,
          isSpecial r.name = false := by
      intro name hspecial hsome r hr
      have hnotFinal : record.isNotFinal = true := by
        by_contra hfinal
        rw [if_neg hfinal] at hsome
        cases hsome
      cases rest with
      | nil => cases hr
      | cons next more =>
        cases hr
        rw [((isChain_cons_cons.mp hclones).1 hnotFinal).1]
        exact hspecial
    rw [forall_mem_cons]
    cases current with
    | some name =>
      obtain ⟨more, hmore, rfl⟩ := dedup_follower h
      have hspecial := hcurrent rfl record rfl
      refine ⟨fun h => absurd (hspecial.symm.trans h) Bool.false_ne_true, fun r hr hr' => ?_⟩
      exact mem_cons_of_mem _ (ih htail (hnext name hspecial) hmore r hr hr')
    | none =>
      cases hspecial : isSpecial record.name with
      | true =>
        obtain ⟨more, hmore, rfl⟩ := dedup_special hspecial h
        refine ⟨fun _ => mem_cons_self, fun r hr hr' => ?_⟩
        exact mem_cons_of_mem _ (ih htail (fun hsome => by cases hsome) hmore r hr hr')
      | false =>
        obtain ⟨name, more, -, hmore, rfl⟩ := dedup_leader hspecial h
        refine ⟨fun h => absurd h Bool.false_ne_true, fun r hr hr' => ?_⟩
        exact mem_cons_of_mem _ (ih htail (hnext name hspecial) hmore r hr hr')

/-- `good` holds at each step of the loop that names a file or a directory: of the
identifiers given before it and of its first record. -/
def EachStep (rules : Rules) (fuel : Nat) (good : List Identifier → PendingRecord → Prop) :
    List Identifier → Option Identifier → List PendingRecord → Prop
  | _, _, [] => True
  | seen, some name, record :: rest =>
    EachStep rules fuel good seen (if record.isNotFinal then some name else none) rest
  | seen, none, record :: rest =>
    if isSpecial record.name then EachStep rules fuel good seen none rest
    else good seen record ∧ ∀ name, unique rules fuel seen record.name = some name →
      EachStep rules fuel good (name :: seen) (if record.isNotFinal then some name else none) rest

/-- A property of identifier and system use area holds of all records when it holds
of those named at each step. -/
theorem dedup_all_iff {ok : Identifier → SplitSu → Prop}
    {good : List Identifier → PendingRecord → Prop}
    (hgood : ∀ seen name, ∀ r ∈ records, isSpecial r.name = false →
      unique rules fuel seen r.name = some name →
      (good seen r ↔ ok name r.split))
    (hspecial : ∀ r ∈ records, isSpecial r.name = true → ok r.name r.split)
    (hclones : records.IsChain Clones) (split : SplitSu)
    (hcurrent : ∀ name, current = some name → ok name split ∧
      ∀ r ∈ records.head?, r.split = split)
    (h : dedup rules fuel seen current records = some out) :
    (∀ r ∈ out, ok r.name r.split) ↔ EachStep rules fuel good seen current records := by
  induction records generalizing seen current out split with
  | nil =>
    rw [dedup.eq_def] at h
    cases h
    rw [EachStep]
    exact iff_of_true (fun r hr => absurd hr not_mem_nil) trivial
  | cons record rest ih =>
    have hrest := fun {seen current out} split hcurrent => @ih seen current out
      (fun seen name r hr => hgood seen name r (mem_cons_of_mem _ hr))
      (fun r hr => hspecial r (mem_cons_of_mem _ hr)) hclones.of_cons split hcurrent
    have hnext : ∀ name, ok name record.split →
        ∀ next, (if record.isNotFinal then some name else none) = some next →
          ok next record.split ∧ ∀ r ∈ rest.head?, r.split = record.split := by
      intro name hok next hnext
      rw [Option.ite_none_right_eq_some] at hnext
      refine ⟨Option.some.inj hnext.2 ▸ hok, fun r hr => ?_⟩
      cases rest with
      | nil => cases hr
      | cons next more =>
        cases hr
        exact ((isChain_cons_cons.mp hclones).1 hnext.1).2
    cases current with
    | some name =>
      obtain ⟨more, hmore, rfl⟩ := dedup_follower h
      obtain ⟨hok, hsplit⟩ := hcurrent name rfl
      rw [← hsplit record rfl] at hok
      rw [forall_mem_cons, EachStep, ← hrest _ (hnext name hok) hmore]
      exact and_iff_right hok
    | none =>
      cases hname : isSpecial record.name with
      | true =>
        obtain ⟨more, hmore, rfl⟩ := dedup_special hname h
        rw [forall_mem_cons, EachStep, if_pos hname,
          ← hrest split (fun _ heq => by cases heq) hmore]
        exact and_iff_right (hspecial record mem_cons_self hname)
      | false =>
        obtain ⟨name, more, hunique, hmore, rfl⟩ := dedup_leader hname h
        have hstep := hgood seen name record mem_cons_self hname hunique
        rw [forall_mem_cons, EachStep, if_neg (Bool.eq_false_iff.mp hname), hstep]
        refine and_congr_right fun hok => ?_
        rw [hrest _ (hnext name hok) hmore]
        constructor
        · intro hmore name' hunique'
          rw [hunique] at hunique'
          exact Option.some.inj hunique' ▸ hmore
        · exact fun hall => hall name hunique

/-- The records with one identifier are those of one file or directory. -/
def Distinct (records : List PendingRecord) : Prop :=
  ∀ name, ∀ r ∈ (records.filter (·.name = name)).dropLast, r.isNotFinal = true

theorem filter_cons_name (record : PendingRecord) (records : List PendingRecord)
    (name : Identifier) :
    (record :: records).filter (·.name = name) =
      if record.name = name then record :: records.filter (·.name = name)
        else records.filter (·.name = name) := by
  rw [filter_cons]
  split <;> rename_i hname
  · rw [if_pos (of_decide_eq_true hname)]
  · rw [if_neg fun heq => hname (decide_eq_true heq)]

theorem dropLast_cons_all {P : PendingRecord → Prop} (h : P record)
    (hrest : ∀ r ∈ records.dropLast, P r) :
    ∀ r ∈ (record :: records).dropLast, P r := by
  cases records with
  | nil => exact fun r hr => absurd hr not_mem_nil
  | cons next more => exact forall_mem_cons.mpr ⟨h, hrest⟩

theorem dedup_distinct (hseen : ∀ name, current = some name → name ∈ seen)
    (hspecial : ∀ r ∈ records, isSpecial r.name = false)
    (h : dedup rules fuel seen current records = some out) :
    ∀ name, (∀ r ∈ (out.filter (·.name = name)).dropLast, r.isNotFinal = true) ∧
      (current ≠ some name → name ∈ seen → out.filter (·.name = name) = []) := by
  induction records generalizing seen current out with
  | nil =>
    rw [dedup.eq_def] at h
    cases h
    exact fun name => ⟨fun r hr => absurd hr not_mem_nil, fun _ _ => rfl⟩
  | cons record rest ih =>
    have htail : ∀ r ∈ rest, isSpecial r.name = false :=
      fun r hr => hspecial r (mem_cons_of_mem _ hr)
    have hput : ∀ seen given more, given ∈ seen →
        dedup rules fuel seen (if record.isNotFinal then some given else none) rest = some more →
        ∀ name, (∀ r ∈ (({ record with name := given } :: more).filter (·.name = name)).dropLast,
            r.isNotFinal = true) ∧
          (given ≠ name → name ∈ seen →
            ({ record with name := given } :: more).filter (·.name = name) = []) := by
      intro seen given more hgiven hmore name
      have hnext : ∀ next, (if record.isNotFinal then some given else none) = some next →
          next ∈ seen := by
        intro next hnext
        rw [Option.ite_none_right_eq_some] at hnext
        exact Option.some.inj hnext.2 ▸ hgiven
      obtain ⟨hlast, hnone⟩ := ih hnext htail hmore name
      rw [filter_cons_name]
      split
      · rename_i heq
        dsimp only at heq
        subst heq
        refine ⟨?_, fun hne => absurd rfl hne⟩
        cases hfinal : record.isNotFinal with
        | true => exact dropLast_cons_all hfinal hlast
        | false =>
          rw [hfinal] at hnone
          rw [hnone (fun h => by cases h) hgiven]
          exact fun r hr => absurd hr not_mem_nil
      · rename_i hne
        dsimp only at hne
        refine ⟨hlast, fun _ hmem => hnone (fun hcurrent => ?_) hmem⟩
        rw [Option.ite_none_right_eq_some] at hcurrent
        exact hne (Option.some.inj hcurrent.2)
    intro name
    cases current with
    | some given =>
      obtain ⟨more, hmore, rfl⟩ := dedup_follower h
      obtain ⟨hlast, hnone⟩ := hput seen given more (hseen given rfl) hmore name
      exact ⟨hlast, fun hne => hnone fun heq => hne (congrArg some heq)⟩
    | none =>
      obtain ⟨given, more, hunique, hmore, rfl⟩ := dedup_leader (hspecial record mem_cons_self) h
      obtain ⟨hlast, hnone⟩ := hput (given :: seen) given more mem_cons_self hmore name
      refine ⟨hlast, fun _ hmem => hnone ?_ (mem_cons_of_mem _ hmem)⟩
      rintro rfl
      exact unique_notMem hunique hmem

end Hadris.Iso

namespace Hadris.Iso

open List
open Hadris.Directory (Text encodeUtf8 encodeUtf8_injective)

variable {rules : Rules} {fuel : Nat} {name : Identifier} {base ext more other : Identifier}
  {text : Text}

section Reserved

def nul : Char := Char.ofNat 0

def reservedName : Text := [Char.ofNat 1]

theorem cut_singleton {c : Char} {max : Nat} (h : cut text max = [c]) (hmax : 8 ≤ max) :
    text = [c] := by
  cases text with
  | nil => cases h
  | cons head rest =>
    have hsize := Char.utf8Size_le_four head
    rw [cut, if_pos (by omega)] at h
    obtain ⟨rfl, hrest⟩ := List.cons.inj h
    cases rest with
    | nil => rfl
    | cons next rest =>
      have hnext := Char.utf8Size_le_four next
      rw [cut, if_pos (by omega)] at hrest
      cases hrest

/-- The identifier of a name in the enhanced tree is one character only where the
name is. -/
theorem convertL3_singleton {c : Char} {byte : UInt8} (hc : encodeUtf8 [c] = [byte])
    (hbyte : byte ≠ dot)
    (h : convertL3 text = [byte]) : ∃ c', text = [c'] ∧ c = if c' = nul then '_' else c' := by
  rw [← hc] at h
  have hmap : text.map (fun c => if c = nul then '_' else c) = [c] →
      ∃ c', text = [c'] ∧ c = if c' = nul then '_' else c' := by
    intro hmap
    obtain ⟨c', rfl, hc'⟩ := map_eq_singleton_iff.mp hmap
    exact ⟨c', rfl, hc'.symm⟩
  have hcut : encodeUtf8 (cut (text.map fun c => if c = nul then '_' else c) enhancedMax) =
    encodeUtf8 [c] →
      ∃ c', text = [c'] ∧ c = if c' = nul then '_' else c' :=
    fun hcut => hmap (cut_singleton (encodeUtf8_injective hcut) (by decide))
  rw [convertL3] at h
  split at h
  · exact hmap (encodeUtf8_injective h)
  · split at h
    · split at h
      · rw [hc] at h
        have hmem : dot ∈ [byte] := h ▸ mem_append_right _ mem_cons_self
        exact absurd (mem_singleton.mp hmem).symm hbyte
      · exact hcut h
    · exact hcut h

theorem isSpecial_convertL3 : isSpecial (convertL3 text) = true ↔ text = reservedName := by
  rw [isSpecial_iff]
  constructor
  · rintro (h | h)
    · obtain ⟨c, rfl, hc⟩ := convertL3_singleton (c := nul) (by decide) (by decide) h
      split at hc
      · exact absurd hc (by decide)
      · rename_i hne
        exact absurd hc.symm hne
    · obtain ⟨c, rfl, hc⟩ := convertL3_singleton (c := Char.ofNat 1) (by decide) (by decide) h
      split at hc
      · exact absurd hc (by decide)
      · rw [reservedName, hc]
  · rintro rfl
    exact .inr (by decide)

theorem not_isSpecial_dchars (h : DChars name) : isSpecial name = false := by
  rw [Bool.eq_false_iff]
  intro hspecial
  rcases isSpecial_iff.mp hspecial with rfl | rfl <;> exact absurd (h _ mem_cons_self) (by decide)

theorem not_isSpecial_of_even (h : name.length % 2 = 0) : isSpecial name = false := by
  rw [Bool.eq_false_iff]
  intro hspecial
  rcases isSpecial_iff.mp hspecial with rfl | rfl <;> exact absurd h (by decide)

theorem not_isSpecial_joliet (text : Text) : isSpecial (convertJoliet text) = false := by
  apply not_isSpecial_of_even
  rw [length_convertJoliet]
  omega

/-- A name is mapped to the identifier of another record only where it is a control
character that the enhanced tree keeps. -/
theorem isSpecial_mapped (rules : Rules) (text : Text) :
    (isSpecial (rules.file text) = true ↔ rules = .enhanced ∧ text = reservedName) ∧
      (isSpecial (rules.directory text) = true ↔ rules = .enhanced ∧ text = reservedName) := by
  cases rules with
  | enhanced => exact ⟨isSpecial_convertL3.trans (and_iff_right rfl).symm,
      isSpecial_convertL3.trans (and_iff_right rfl).symm⟩
  | joliet =>
    have hnot : isSpecial (convertJoliet text) = true ↔ Rules.joliet = .enhanced ∧
        text = reservedName := by
      refine iff_of_false (fun h => ?_) fun h => by cases h.1
      exact Bool.false_ne_true ((not_isSpecial_joliet text).symm.trans h)
    exact ⟨hnot, hnot⟩
  | primary level nameCase =>
    constructor
    · obtain ⟨base, ext, hfile, -⟩ := file_shaped level nameCase text
      refine iff_of_false (fun h => ?_) fun h => by cases h.1
      have hlength : (base ++ dot :: (ext ++ version)).length = 1 := by
        rw [← hfile]
        rcases isSpecial_iff.mp h with heq | heq <;> rw [heq] <;> rfl
      rw [length_append, length_cons, length_append] at hlength
      change base.length + (ext.length + 2 + 1) = 1 at hlength
      omega
    · obtain ⟨hdirectory, -⟩ := directory_shaped level nameCase text
      refine iff_of_false (fun h => ?_) fun h => by cases h.1
      exact Bool.false_ne_true ((not_isSpecial_dchars hdirectory).symm.trans h)

end Reserved

section Order

variable {a b : List UInt8} {filler byte : UInt8}

/-- `a` comes before `b` or is the same, the shorter one filled up. -/
def PadLe (filler : UInt8) (a b : List UInt8) : Prop :=
  a ++ replicate (b.length - a.length) filler ≤ b ++ replicate (a.length - b.length) filler

theorem padLe_cons_cons {c : UInt8} : PadLe filler (byte :: a) (c :: b) ↔ byte < c ∨ byte = c ∧
    PadLe filler a b := by
  rw [PadLe, length_cons, length_cons, Nat.succ_sub_succ, Nat.succ_sub_succ, cons_append,
    cons_append, cons_le_cons_iff]
  rfl

theorem padLe_nil (h : ∀ byte ∈ b, filler ≤ byte) : PadLe filler [] b := by
  rw [PadLe, length_nil, Nat.zero_sub, Nat.sub_zero, replicate_zero, append_nil, nil_append]
  induction b with
  | nil => exact List.le_refl _
  | cons byte rest ih =>
    rw [length_cons, replicate_succ, cons_le_cons_iff]
    have hrest := ih fun byte hbyte => h byte (mem_cons_of_mem _ hbyte)
    rcases UInt8.le_iff_lt_or_eq.mp (h byte mem_cons_self) with hlt | heq
    · exact .inl hlt
    · exact .inr ⟨heq, hrest⟩

theorem not_padLe_nil (h : filler < byte) : ¬PadLe filler (byte :: a) [] := by
  rw [PadLe, length_nil, Nat.zero_sub, Nat.sub_zero, replicate_zero, append_nil, nil_append,
    length_cons, replicate_succ, cons_le_cons_iff]
  rintro (hlt | ⟨heq, -⟩)
  · exact UInt8.lt_asymm h hlt
  · exact UInt8.ne_of_lt h heq.symm

theorem padLe_iff (ha : ∀ byte ∈ a, filler < byte) (hb : ∀ byte ∈ b, filler < byte) : PadLe
    filler a b ↔ a ≤ b := by
  induction a generalizing b with
  | nil => exact iff_of_true (padLe_nil fun byte hbyte =>
    UInt8.le_of_lt (hb byte hbyte)) (nil_le b)
  | cons byte rest ih =>
    cases b with
    | nil =>
      refine iff_of_false (not_padLe_nil (ha byte mem_cons_self)) ?_
      rw [le_nil]
      exact cons_ne_nil _ _
    | cons c more =>
      rw [padLe_cons_cons, cons_le_cons_iff,
        ih (fun byte hbyte => ha byte (mem_cons_of_mem _ hbyte))
        fun byte hbyte => hb byte (mem_cons_of_mem _ hbyte)]

theorem padLe_of_le (h : a ≤ b) : PadLe 0 a b := by
  induction a generalizing b with
  | nil => exact padLe_nil fun byte _ => UInt8.le_iff_toNat_le.mpr (Nat.zero_le _)
  | cons byte rest ih =>
    cases b with
    | nil =>
      rw [le_nil] at h
      cases h
    | cons c more =>
      rw [cons_le_cons_iff] at h
      rw [padLe_cons_cons]
      exact h.imp_right (And.imp_right ih)

def space : UInt8 := 0x20

def semicolon : UInt8 := 0x3B

def fileName (id : Identifier) : Identifier := (isoParts id).1.1

def extension (id : Identifier) : Identifier := (isoParts id).1.2.tail

/-- The order of the standard: by file name and then by extension, filled up with
spaces, in the primary tree; by identifier, filled up with zeros, in the others. -/
def Rules.InOrder (rules : Rules) (a b : Identifier) : Prop :=
  match rules with
  | .primary _ _ => PadLe space (fileName a) (fileName b) ∧
      (PadLe space (fileName b) (fileName a) → PadLe space (extension a) (extension b))
  | .enhanced => PadLe 0 a b
  | .joliet => PadLe 0 a b

/-- `a` has the file name of the file `b`, and its extension goes on where that of
`b` ends with a byte that sorts before the version's `;`. -/
def Rules.Continues (rules : Rules) (a b : Identifier) : Prop :=
  match rules with
  | .primary _ _ => (isoParts b).2 = version ∧ fileName a = fileName b ∧
      ∃ byte rest, extension a = extension b ++ byte :: rest ∧ byte < semicolon
  | .enhanced => False
  | .joliet => False

/-- An identifier of the primary tree. -/
def Shaped (id : Identifier) : Prop :=
  ∃ base, DChars base ∧ (id = base ∨ ∃ ext, DChars ext ∧ id = base ++ dot :: (ext ++ version))

theorem dchar_lt {byte : UInt8} (h : isDChar byte = true) :
    space < byte ∧ dot < byte ∧ byte ≠ semicolon := by
  have hrange := (isDChar_iff byte).mp h
  refine ⟨show 32 < byte.toNat by omega, show 46 < byte.toNat by omega, ?_⟩
  rintro rfl
  exact absurd h (by decide)

theorem padLe_dchars (ha : DChars a) (hb : DChars b) : PadLe space a b ↔ a ≤ b :=
  padLe_iff (fun byte hbyte => (dchar_lt (ha byte hbyte)).1) fun byte hbyte =>
    (dchar_lt (hb byte hbyte)).1

theorem not_cons_le_nil (byte : UInt8) (a : List UInt8) : ¬byte :: a ≤ [] := by
  rw [le_nil]
  exact cons_ne_nil _ _

theorem le_of_append_le {s t : List UInt8} (ha : DChars a) (hb : DChars b)
    (ht : ∀ byte ∈ t.head?, byte = dot) (h : a ++ s ≤ b ++ t) : a ≤ b ∧ (a = b → s ≤ t) := by
  induction a generalizing b with
  | nil =>
    refine ⟨nil_le b, ?_⟩
    rintro rfl
    exact h
  | cons byte rest ih =>
    have hbyte := dchar_lt (ha byte mem_cons_self)
    cases b with
    | nil =>
      cases t with
      | nil => exact absurd h (not_cons_le_nil _ _)
      | cons c t =>
        have hdot := ht c rfl
        subst hdot
        rw [cons_append, nil_append, cons_le_cons_iff] at h
        rcases h with hlt | ⟨rfl, -⟩
        · exact absurd hlt (UInt8.lt_asymm hbyte.2.1)
        · exact absurd hbyte.2.1 (UInt8.lt_irrefl _)
    | cons c more =>
      rw [cons_append, cons_append, cons_le_cons_iff] at h
      rw [cons_le_cons_iff]
      rcases h with hlt | ⟨rfl, h⟩
      · refine ⟨.inl hlt, fun heq => ?_⟩
        exact absurd (List.cons.inj heq).1 (UInt8.ne_of_lt hlt)
      · obtain ⟨hle, htail⟩ := ih (fun byte hbyte => ha byte (mem_cons_of_mem _ hbyte))
          (fun byte hbyte => hb byte (mem_cons_of_mem _ hbyte)) h
        exact ⟨.inr ⟨rfl, hle⟩, fun heq => htail (List.cons.inj heq).2⟩

/-- Extensions before a version are out of order where one goes on with a byte below
its `;`. -/
theorem extension_le_iff (ha : DChars a) (h : a ++ version ≤ b ++ version) :
    a ≤ b ↔ ¬∃ byte rest, a = b ++ byte :: rest ∧ byte < semicolon := by
  induction a generalizing b with
  | nil =>
    refine iff_of_true (nil_le b) ?_
    rintro ⟨byte, rest, heq, -⟩
    exact absurd heq.symm (append_ne_nil_of_right_ne_nil _ (cons_ne_nil _ _))
  | cons byte rest ih =>
    cases b with
    | nil =>
      have hlt : byte < semicolon := by
        rw [cons_append, nil_append, version, cons_le_cons_iff] at h
        rcases h with hlt | ⟨heq, -⟩
        · exact hlt
        · exact absurd heq (dchar_lt (ha byte mem_cons_self)).2.2
      exact iff_of_false (not_cons_le_nil _ _) fun hnot => hnot ⟨byte, rest, rfl, hlt⟩
    | cons c more =>
      rw [cons_append, cons_append, cons_le_cons_iff] at h
      rw [cons_le_cons_iff]
      rcases h with hlt | ⟨rfl, h⟩
      · refine iff_of_true (.inl hlt) ?_
        rintro ⟨d, tail, heq, -⟩
        exact absurd (List.cons.inj heq).1 (UInt8.ne_of_lt hlt)
      · have hrest := ih (fun byte hbyte => ha byte (mem_cons_of_mem _ hbyte)) h
        have hle : byte < byte ∨ byte = byte ∧ rest ≤ more ↔ rest ≤ more := by
          refine ⟨fun h => ?_, fun h => .inr ⟨rfl, h⟩⟩
          rcases h with hlt | ⟨-, hle⟩
          · exact absurd hlt (UInt8.lt_irrefl _)
          · exact hle
        rw [hle, hrest]
        refine not_congr (exists₂_congr fun d tail => and_congr_left' ?_)
        rw [cons_append, List.cons.injEq]
        exact (and_iff_right rfl).symm

theorem Shaped.parts (h : Shaped name) : ∃ tail, name = fileName name ++ tail ∧
    DChars (fileName name) ∧
    DChars (extension name) ∧ (tail = [] ∧ extension name = [] ∧ (isoParts name).2 = [] ∨
      tail = dot :: (extension name ++ version) ∧ (isoParts name).2 = version) := by
  obtain ⟨base, hbase, rfl | ⟨ext, hext, rfl⟩⟩ := h
  · have hparts := isoParts_directory hbase
    refine ⟨[], ?_, ?_, ?_, .inl ⟨rfl, ?_, ?_⟩⟩ <;>
      simp only [fileName, extension, hparts, append_nil, tail_nil]
    · exact hbase
    · exact all_nil
  · have hparts : isoParts (base ++ dot :: (ext ++ version)) = ((base, dot :: ext), version) :=
      isoParts_file hext
    refine ⟨dot :: (ext ++ version), ?_, ?_, ?_, .inr ⟨?_, ?_⟩⟩ <;>
      simp only [fileName, extension, hparts, tail_cons]
    · exact hbase
    · exact hext

theorem shaped_mapped {level : IsoLevel} {nameCase : NameCase}
    (h : Mapped (.primary level nameCase) name) : Shaped name := by
  obtain ⟨text, rfl | rfl⟩ := h
  · obtain ⟨base, ext, hfile, hbase, hext, -⟩ := file_shaped level nameCase text
    exact ⟨base, hbase, .inr ⟨ext, hext, hfile⟩⟩
  · exact ⟨_, (directory_shaped level nameCase text).1, .inl rfl⟩

theorem shaped_dedup {level : IsoLevel} {nameCase : NameCase} (h : Shaped name) (n : Nat) :
    Shaped ((Rules.primary level nameCase).dedup name n) := by
  obtain ⟨base, hbase, rfl | ⟨ext, hext, rfl⟩⟩ := h
  · exact ⟨_, dchars_numbered hbase _ n, .inl (dedup_directory hbase n)⟩
  · exact ⟨_, dchars_numbered hbase _ n, .inr ⟨ext, hext, dedup_file hbase hext n⟩⟩

/-- Identifiers in the order of their bytes are in that of the standard but where one
extension continues the other. -/
theorem inOrder_iff (hshaped : ∀ level nameCase, rules = .primary level nameCase → Shaped a ∧
      Shaped b) (h : a ≤ b) :
    rules.InOrder a b ↔ ¬rules.Continues a b := by
  cases rules with
  | enhanced => exact iff_of_true (padLe_of_le h) not_false
  | joliet => exact iff_of_true (padLe_of_le h) not_false
  | primary level nameCase =>
    obtain ⟨ha, hb⟩ := hshaped level nameCase rfl
    obtain ⟨s, has, hname, hext, hs⟩ := ha.parts
    obtain ⟨t, hbt, hname', hext', ht⟩ := hb.parts
    have hhead : ∀ byte ∈ t.head?, byte = dot := by
      rcases ht with ⟨rfl, -⟩ | ⟨rfl, -⟩
      · exact fun byte hbyte => by cases hbyte
      · exact fun byte hbyte => by cases hbyte; rfl
    rw [has, hbt] at h
    obtain ⟨hle, htails⟩ := le_of_append_le hname hname' hhead h
    change PadLe _ _ _ ∧ (PadLe _ _ _ → PadLe _ _ _) ↔ ¬(_ ∧ _)
    rw [padLe_dchars hname hname', padLe_dchars hname' hname, padLe_dchars hext hext',
      and_iff_right hle, not_and, not_and]
    have hsame : fileName b ≤ fileName a ↔ fileName a = fileName b :=
      ⟨fun hge => List.le_antisymm hle hge, fun heq => heq ▸ List.le_refl _⟩
    rw [hsame]
    rcases hs with ⟨rfl, hnil, -⟩ | ⟨rfl, -⟩
    · rw [hnil]
      refine iff_of_true (fun _ => nil_le _) ?_
      rintro - - ⟨byte, rest, heq, -⟩
      exact absurd heq.symm (append_ne_nil_of_right_ne_nil _ (cons_ne_nil _ _))
    · rcases ht with ⟨rfl, -, hversion⟩ | ⟨rfl, hversion⟩
      · refine iff_of_true (fun heq => absurd (htails heq) (not_cons_le_nil _ _)) ?_
        rw [hversion]
        exact fun h => by cases h
      · rw [hversion, forall_prop_of_true rfl]
        refine imp_congr_right fun heq => ?_
        have hst := htails heq
        rw [cons_le_cons_iff] at hst
        rcases hst with hlt | ⟨-, hst⟩
        · exact absurd hlt (UInt8.lt_irrefl _)
        · exact extension_le_iff hext hst

theorem lt_of_continues {level : IsoLevel} {nameCase : NameCase} (ha : Shaped a) (hb : Shaped b)
    (h : (Rules.primary level nameCase).Continues a b) : a ≤ b ∧ a ≠ b := by
  obtain ⟨hversion, hname, byte, rest, hext, hlt⟩ := h
  obtain ⟨s, has, -, -, hs⟩ := ha.parts
  obtain ⟨t, hbt, -, -, ht⟩ := hb.parts
  constructor
  · rcases ht with ⟨-, -, hnone⟩ | ⟨rfl, -⟩
    · rw [hnone] at hversion
      cases hversion
    rcases hs with ⟨-, hnil, -⟩ | ⟨rfl, -⟩
    · rw [hnil] at hext
      exact absurd hext.symm (append_ne_nil_of_right_ne_nil _ (cons_ne_nil _ _))
    rw [has, hbt, hname, hext]
    refine append_left_le (cons_le_cons_iff.mpr (.inr ⟨rfl, ?_⟩))
    rw [append_assoc]
    exact append_left_le (cons_le_cons_iff.mpr (.inl hlt))
  · rintro rfl
    exact absurd (congrArg List.length hext) (by rw [length_append, length_cons]; omega)

end Order

end Hadris.Iso
