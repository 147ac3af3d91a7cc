import Hadris.Iso.Legal
import Mathlib.Data.List.Chain

namespace Hadris.Iso

open List
open Hadris.Directory (Text)

variable {p : Planner} {rules : Rules} {fuel dir ti : Nat} {name : Identifier}
  {records kids named out : List PendingRecord}

theorem isNotFinal_of_flags {record : PendingRecord}
    (h : record.flags = 0 ∨ record.flags = FileFlags.directory) :
    record.isNotFinal = false := by
  rw [PendingRecord.isNotFinal]
  rcases h with h | h <;> rw [h] <;> decide

/-- The last record is the last of its file. -/
def Ends (records : List PendingRecord) : Prop := ∀ r ∈ records.getLast?, r.isNotFinal = false

theorem isChain_append {more : List PendingRecord} (h : records.IsChain Clones)
    (hends : Ends records) (hmore : more.IsChain Clones) : (records ++ more).IsChain Clones := by
  refine h.append hmore fun r hr s _ hnotFinal => ?_
  exact absurd hnotFinal (Bool.eq_false_iff.mp (hends r hr))

theorem ends_append {more : List PendingRecord} (h : Ends records) (hmore : Ends more) :
    Ends (records ++ more) := by
  intro r hr
  rw [getLast?_append] at hr
  cases hlast : more.getLast? with
  | none =>
    rw [hlast] at hr
    exact h r hr
  | some last =>
    rw [hlast] at hr
    cases hr
    exact hmore _ hlast

theorem isChain_of_final (h : ∀ r ∈ records, r.isNotFinal = false) :
    records.IsChain Clones ∧ Ends records := by
  constructor
  · induction records with
    | nil => exact isChain_nil
    | cons record rest ih =>
      cases rest with
      | nil => exact isChain_singleton _
      | cons next more =>
        refine isChain_cons_cons.mpr ⟨fun hnotFinal => ?_, ih fun r hr =>
          h r (mem_cons_of_mem _ hr)⟩
        exact absurd hnotFinal (Bool.eq_false_iff.mp (h record mem_cons_self))
  · exact fun r hr => h r (mem_of_getLast? hr)

namespace Planner

theorem extentRecords_spec {split : SplitSu} {time : DirDateTime} {extents : List (Nat × Nat)}
    (hextents : extents ≠ []) (h : extentRecords name split time extents = .ok records) :
    (∀ r ∈ records, r.name = name ∧ r.split = split) ∧ records.IsChain Clones ∧
      Ends records ∧ records ≠ [] := by
  induction extents generalizing records with
  | nil => exact absurd rfl hextents
  | cons extent rest ih =>
    obtain ⟨block, len⟩ := extent
    rw [extentRecords] at h
    split at h
    · cases h
    obtain ⟨more, hmore, h⟩ := except_bind_ok.mp h
    cases h
    cases rest with
    | nil =>
      cases hmore
      refine ⟨fun r hr => ?_, isChain_singleton _, fun r hr => ?_, cons_ne_nil _ _⟩
      · rw [mem_singleton.mp hr]
        exact ⟨rfl, rfl⟩
      · rw [getLast?_singleton] at hr
        cases hr
        exact isNotFinal_of_flags (.inl (by dsimp only; exact if_pos rfl))
    | cons next rest =>
      obtain ⟨hall, hchain, hends, hne⟩ := ih (cons_ne_nil _ _) hmore
      obtain ⟨first, more, rfl⟩ := exists_cons_of_ne_nil hne
      refine ⟨forall_mem_cons.mpr ⟨⟨rfl, rfl⟩, hall⟩, ?_, ?_, cons_ne_nil _ _⟩
      · exact isChain_cons_cons.mpr ⟨fun _ => hall first mem_cons_self, hchain⟩
      · intro r hr
        rw [getLast?_cons_cons] at hr
        exact hends r hr

theorem fileExtents_ne_nil (file : PFile) : p.fileExtents file ≠ [] := by
  have hdefault : ∀ extents : List (Nat × Nat),
      (if extents = [] then [(0, 0)] else extents) ≠ [] := by
    intro extents
    split
    · exact cons_ne_nil _ _
    · assumption
  exact hdefault _

theorem child_isNotFinal (child : Nat) (placeholder : Bool) :
    (p.child ti child placeholder).isNotFinal = false := by
  refine isNotFinal_of_flags ?_
  rw [Planner.child]
  cases placeholder with
  | true => exact .inl rfl
  | false => exact .inr rfl

/-- The identifier that `text` is mapped to is that of one of `records`. -/
def Names (rules : Rules) (text : Text) (record : PendingRecord) : Prop :=
  record.name = rules.file text ∨ record.name = rules.directory text

/-- What a tree puts in the system use area of a record. -/
def Fitted (p : Planner) (ti : Nat) (record : PendingRecord) : Prop :=
  ∃ entries, record.split = p.splitIn ti record.name.length entries

/-- Records of files: those of one file follow each other, and each has its name. -/
structure Gathers (p : Planner) (ti : Nat) (texts : List Text) (records : List PendingRecord) :
    Prop where
  chain : records.IsChain Clones
  ends : Ends records
  named : ∀ r ∈ records, ∃ text ∈ texts, Names (p.trees ti).2 text r
  shown : ∀ text ∈ texts, ∃ r ∈ records, Names (p.trees ti).2 text r
  fitted : ∀ r ∈ records, Fitted p ti r

theorem Gathers.append {texts more : List Text} {others : List PendingRecord}
    (h : Gathers p ti texts records)
    (hmore : Gathers p ti more others) : Gathers p ti (texts ++ more) (records ++ others) where
  chain := isChain_append h.chain h.ends hmore.chain
  ends := ends_append h.ends hmore.ends
  named r hr := by
    rcases mem_append.mp hr with hr | hr
    · obtain ⟨text, htext, hname⟩ := h.named r hr
      exact ⟨text, mem_append_left _ htext, hname⟩
    · obtain ⟨text, htext, hname⟩ := hmore.named r hr
      exact ⟨text, mem_append_right _ htext, hname⟩
  shown text htext := by
    rcases mem_append.mp htext with htext | htext
    · obtain ⟨r, hr, hname⟩ := h.shown text htext
      exact ⟨r, mem_append_left _ hr, hname⟩
    · obtain ⟨r, hr, hname⟩ := hmore.shown text htext
      exact ⟨r, mem_append_right _ hr, hname⟩
  fitted r hr := by
    rcases mem_append.mp hr with hr | hr
    · exact h.fitted r hr
    · exact hmore.fitted r hr

theorem gathers_nil : Gathers p ti [] [] where
  chain := isChain_nil
  ends := fun r hr => by cases hr
  named r hr := absurd hr not_mem_nil
  shown text htext := absurd htext not_mem_nil
  fitted r hr := absurd hr not_mem_nil

theorem gathers_children (children : List Nat) (placeholder : Bool) :
    Gathers p ti (children.map (p.childText ti · placeholder))
      (children.map (p.child ti · placeholder)) where
  chain :=
    (isChain_of_final (forall_mem_map.mpr fun child _ => child_isNotFinal child placeholder)).1
  ends :=
    (isChain_of_final (forall_mem_map.mpr fun child _ => child_isNotFinal child placeholder)).2
  named := forall_mem_map.mpr fun _ hchild => ⟨_, mem_map_of_mem hchild, .inr rfl⟩
  shown := forall_mem_map.mpr fun _ hchild => ⟨_, mem_map_of_mem hchild, .inr rfl⟩
  fitted := forall_mem_map.mpr fun child _ => ⟨p.childEntries ti child placeholder, rfl⟩

theorem gathers_file {file : Nat} (h : p.appendFile ti file = .ok records) :
    Gathers p ti (if p.shows ti file then [(p.files file).name] else []) records := by
  rw [appendFile] at h
  cases hshows : p.shows ti file with
  | false =>
    rw [hshows, if_pos (by decide)] at h
    cases h
    exact gathers_nil
  | true =>
    rw [hshows, if_neg (by decide)] at h
    obtain ⟨hall, hchain, hends, hne⟩ := extentRecords_spec (fileExtents_ne_nil _) h
    have hname : ∀ r ∈ records, Names (p.trees ti).2 (p.files file).name r :=
      fun r hr => .inl (hall r hr).1
    obtain ⟨first, rest, rfl⟩ := exists_cons_of_ne_nil hne
    exact {
      chain := hchain
      ends := hends
      named := fun r hr => ⟨_, mem_cons_self, hname r hr⟩
      shown := forall_mem_singleton.mpr ⟨first, mem_cons_self, hname first mem_cons_self⟩
      fitted := fun r hr => ⟨p.fileEntries (p.files file), by rw [(hall r hr).1, (hall r hr).2]⟩ }

theorem gathers_files {files : List Nat} (h : p.appendFiles ti files = .ok records) :
    Gathers p ti ((files.filter (p.shows ti)).map fun file => (p.files file).name) records := by
  induction files generalizing records with
  | nil =>
    cases h
    exact gathers_nil
  | cons file rest ih =>
    rw [appendFiles] at h
    obtain ⟨first, hfirst, h⟩ := except_bind_ok.mp h
    obtain ⟨more, hmore, h⟩ := except_bind_ok.mp h
    cases h
    have hgathers := (gathers_file hfirst).append (ih hmore)
    rw [filter_cons]
    split at hgathers
    · rename_i hshows
      rw [if_pos hshows]
      exact hgathers
    · rename_i hshows
      rw [if_neg hshows]
      exact hgathers

theorem gathers_of_children (h : p.children dir ti = .ok kids) :
    Gathers p ti (p.texts dir ti) kids := by
  rw [children] at h
  obtain ⟨files, hfiles, h⟩ := except_bind_ok.mp h
  cases h
  exact ((gathers_children _ false).append (gathers_children _ true)).append
    (gathers_files hfiles)

end Planner

section Sorted

variable {a b : PendingRecord}

instance : Std.Total Before where
  total a b := by
    rcases Nat.lt_trichotomy (rank a.name) (rank b.name) with hlt | heq | hlt
    · exact .inl (.inl hlt)
    · exact (List.le_total a.name b.name).imp (fun h => .inr ⟨heq, h⟩) fun h => .inr ⟨heq.symm, h⟩
    · exact .inr (.inl hlt)

instance : IsTrans PendingRecord Before where
  trans a b c := by
    rintro (hab | ⟨hab, hab'⟩) (hbc | ⟨hbc, hbc'⟩)
    · exact .inl (hab.trans hbc)
    · exact .inl (hbc ▸ hab)
    · exact .inl (hab ▸ hbc)
    · exact .inr ⟨hab.trans hbc, List.le_trans hab' hbc'⟩

theorem rank_eq_two (h : isSpecial name = false) : rank name = 2 := by
  rw [Bool.eq_false_iff, Ne, isSpecial_iff, not_or] at h
  rw [rank, if_neg h.1, if_neg h.2]

theorem rank_pos (h : name ≠ [0]) : 1 ≤ rank name := by
  rw [rank, if_neg h]
  split <;> decide

theorem before_iff (ha : isSpecial a.name = false) (hb : isSpecial b.name = false) :
    Before a b ↔ a.name ≤ b.name := by
  rw [Before, rank_eq_two ha, rank_eq_two hb]
  exact ⟨fun h => h.elim (fun hlt => absurd hlt (Nat.lt_irrefl _)) And.right,
    fun h => .inr ⟨rfl, h⟩⟩

theorem before_self (h : a.name = [0]) (b : PendingRecord) : Before a b := by
  have hrank : rank a.name = 0 := by rw [h]; rfl
  by_cases hb : b.name = [0]
  · exact .inr ⟨by rw [hrank, hb]; rfl, by rw [h, hb]; exact List.le_refl _⟩
  · exact .inl (by rw [hrank]; exact rank_pos hb)

theorem before_parent (h : a.name = [1]) (hb : b.name ≠ [0]) : Before a b := by
  have hrank : rank a.name = 1 := by rw [h]; rfl
  rcases (rank_pos hb).lt_or_eq with hlt | heq
  · exact .inl (by rw [hrank]; exact hlt)
  · refine .inr ⟨hrank.trans heq, ?_⟩
    have hone : b.name = [1] := by
      by_contra hne
      rw [rank, if_neg hb, if_neg hne] at heq
      exact absurd heq (by decide)
    rw [h, hone]
    exact List.le_refl _

theorem filter_insertionSort (records : List PendingRecord) (name : Identifier) :
    (records.insertionSort Before).filter (·.name = name) = records.filter (·.name = name) := by
  have hsorted : (records.filter (·.name = name)).Pairwise Before := by
    refine pairwise_of_forall_mem_list fun a ha b hb => ?_
    have ha := of_decide_eq_true (mem_filter.mp ha).2
    have hb := of_decide_eq_true (mem_filter.mp hb).2
    exact .inr ⟨by rw [ha, hb], by rw [ha, hb]; exact List.le_refl _⟩
  have hsublist := (sublist_insertionSort hsorted filter_sublist).filter (·.name = name)
  rw [filter_filter] at hsublist
  simp only [Bool.and_self] at hsublist
  exact (hsublist.eq_of_length ((perm_insertionSort Before records).filter _).length_eq.symm).symm

end Sorted

/-- What the standard asks of the identifiers of a directory. -/
structure Legal (rules : Rules) (records : List PendingRecord) : Prop where
  first : (records.take 2).map (·.name) = [[0], [1]]
  reserved : ∀ r ∈ records.drop 2, isSpecial r.name = false
  distinct : Distinct records
  within : ∀ r ∈ records.drop 2, rules.within r.name = true
  ordered : (records.drop 2).Pairwise fun a b => rules.InOrder a.name b.name

/-- Where an identifier is taken, a number that is not is short enough for its suffix
to fit. -/
def HasRoom (rules : Rules) (seen : List Identifier) (record : PendingRecord) : Prop :=
  record.name ∈ seen → ∃ n, 1 ≤ n ∧ (suffix n).length ≤ rules.room record.name ∧
    rules.dedup record.name n ∉ seen

theorem hasRoom_iff {seen : List Identifier} {record : PendingRecord}
    (hmapped : Mapped rules record.name)
    (h : unique rules fuel seen record.name = some name) :
    HasRoom rules seen record ↔ rules.within name = true := by
  rw [unique] at h
  split at h
  · rename_i hseen
    obtain ⟨m, hm, rfl, hfree, -⟩ := firstFree_some h
    have hmono : ∀ i j, i ≤ j → (suffix j).length ≤ rules.room record.name →
        (suffix i).length ≤ rules.room record.name := fun _ _ hle => room_mono hle
    have hbest := firstFree_best hmono h
    rw [HasRoom, forall_prop_of_true hseen, hbest, dedup_within_iff hmapped]
    constructor
    · rintro ⟨k, -, hroom, heq, -⟩
      exact dedup_injective rules record.name heq ▸ hroom
    · exact fun hroom => ⟨m, hm, hroom, rfl, hfree⟩
  · rename_i hseen
    cases h
    refine iff_of_true (fun hmem => absurd hmem hseen) ?_
    obtain ⟨text, h | h⟩ := hmapped <;> rw [h]
    · exact (within_of_mapped rules text).1
    · exact (within_of_mapped rules text).2

theorem distinct_sorted {self parent : PendingRecord} (hself : self.name = [0])
    (hparent : parent.name = [1])
    (hnone : ∀ r ∈ kids, isSpecial r.name = false)
    (hnone' : ∀ r ∈ named, isSpecial r.name = false)
    (hnamed : dedup rules fuel [] none kids = some named) :
    Distinct (self :: parent :: named.insertionSort Before) := by
  intro name
  have hspecial : isSpecial name = true → named.filter (·.name = name) = [] := by
    intro hspecial
    rw [filter_eq_nil_iff]
    intro r hr heq
    have heq := of_decide_eq_true heq
    exact Bool.false_ne_true ((hnone' r hr).symm.trans (heq ▸ hspecial))
  rw [filter_cons_name, filter_cons_name, filter_insertionSort, hself, hparent]
  by_cases hzero : [0] = name
  · rw [if_pos hzero, if_neg (by rw [← hzero]; decide),
      hspecial (isSpecial_iff.mpr (.inl hzero.symm))]
    exact fun r hr => absurd hr not_mem_nil
  · rw [if_neg hzero]
    by_cases hone : [1] = name
    · rw [if_pos hone, hspecial (isSpecial_iff.mpr (.inr hone.symm))]
      exact fun r hr => absurd hr not_mem_nil
    · rw [if_neg hone]
      exact (dedup_distinct (fun _ heq => by cases heq) hnone hnamed name).1

/-- Sorted records are in the order of the standard where no extension continues
another. -/
theorem ordered_iff (hnone : ∀ r ∈ named, isSpecial r.name = false)
    (hshaped : ∀ level nameCase, rules = .primary level nameCase → ∀ r ∈ named, Shaped r.name) :
    ((named.insertionSort Before).Pairwise fun a b => rules.InOrder a.name b.name) ↔
      ∀ a ∈ named, ∀ b ∈ named, ¬rules.Continues a.name b.name := by
  have hmem : ∀ {r}, r ∈ named.insertionSort Before ↔ r ∈ named :=
    fun {r} => mem_insertionSort Before
  have hinOrder : ∀ a ∈ named, ∀ b ∈ named, Before a b →
      (rules.InOrder a.name b.name ↔ ¬rules.Continues a.name b.name) := by
    intro a ha b hb hbefore
    exact inOrder_iff (fun level nameCase hrules =>
      ⟨hshaped level nameCase hrules a ha, hshaped level nameCase hrules b hb⟩)
      ((before_iff (hnone a ha) (hnone b hb)).mp hbefore)
  have hsorted := pairwise_insertionSort Before named
  constructor
  · intro hordered a ha b hb hcontinues
    cases rules with
    | enhanced => exact hcontinues
    | joliet => exact hcontinues
    | primary level nameCase =>
      obtain ⟨hle, hne⟩ := lt_of_continues (hshaped _ _ rfl a ha)
        (hshaped _ _ rfl b hb) hcontinues
      have hboth := (hsorted.and hordered).imp fun {a b} h => (Or.inl h : _ ∨
        Before b a ∧ (Rules.primary level nameCase).InOrder b.name a.name)
      have : Std.Symm fun a b => Before a b ∧
        (Rules.primary level nameCase).InOrder a.name b.name ∨
          Before b a ∧ (Rules.primary level nameCase).InOrder b.name a.name :=
            ⟨fun _ _ h => h.symm⟩
      rcases hboth.forall (hmem.mpr ha) (hmem.mpr hb)
        (fun heq => hne (heq ▸ rfl)) with ⟨hbefore, hin⟩ | ⟨hbefore, -⟩
      · exact (hinOrder a ha b hb hbefore).mp hin hcontinues
      · exact hne (List.le_antisymm hle ((before_iff (hnone b hb) (hnone a ha)).mp hbefore))
  · intro hnot
    refine hsorted.imp_of_mem fun {a b} ha hb hbefore => ?_
    exact (hinOrder a (hmem.mp ha) b (hmem.mp hb) hbefore).mpr
      (hnot a (hmem.mp ha) b (hmem.mp hb))

namespace Planner

theorem isSpecial_names {text : Text} {record : PendingRecord} (h : Names rules text record) :
    isSpecial record.name = true ↔ rules = .enhanced ∧ text = reservedName := by
  rcases h with h | h <;> rw [h]
  · exact (isSpecial_mapped rules text).1
  · exact (isSpecial_mapped rules text).2

/-- The records have the identifier of another record where the enhanced tree has the
reserved name. -/
theorem special_iff {texts : List Text} (h : Gathers p ti texts kids) :
    (∀ r ∈ kids, isSpecial r.name = false) ↔
      ¬((p.trees ti).2 = .enhanced ∧ reservedName ∈ texts) := by
  constructor
  · rintro hnone ⟨hrules, hmem⟩
    obtain ⟨r, hr, hname⟩ := h.shown _ hmem
    have hspecial := (isSpecial_names hname).mpr ⟨hrules, rfl⟩
    exact Bool.false_ne_true ((hnone r hr).symm.trans hspecial)
  · intro hnot r hr
    rw [Bool.eq_false_iff]
    intro hspecial
    obtain ⟨text, htext, hname⟩ := h.named r hr
    obtain ⟨hrules, rfl⟩ := (isSpecial_names hname).mp hspecial
    exact hnot ⟨hrules, htext⟩

theorem name_ne_zero {texts : List Text} (h : Gathers p ti texts kids) :
    ∀ r ∈ kids, r.name ≠ [0] := by
  intro r hr heq
  obtain ⟨text, -, hname⟩ := h.named r hr
  obtain ⟨hrules, rfl⟩ := (isSpecial_names hname).mp (isSpecial_iff.mpr (.inl heq))
  rw [Names, hrules, heq] at hname
  rcases hname with hname | hname <;> exact absurd hname (by decide)

theorem dedup_gathered {named : List PendingRecord}
    (hnamed : dedup (p.trees ti).2 fuel [] none kids = some named) :
    dedup (p.trees ti).2 fuel [] none (p.special ti dir false :: p.special ti dir true :: kids) =
      some (p.special ti dir false :: p.special ti dir true :: named) := by
  have hself : isSpecial (p.special ti dir false).name = true := by rfl
  have hparent : isSpecial (p.special ti dir true).name = true := by rfl
  rw [dedup, if_pos hself, dedup, if_pos hparent, hnamed]
  rfl

/-- The records of a directory are those of itself and of its parent and the others
sorted. -/
theorem records_eq (h : p.children dir ti = .ok kids)
    (hnamed : dedup (p.trees ti).2 fuel [] none kids = some named) :
    p.records fuel dir ti =
      .ok (some (p.special ti dir false :: p.special ti dir true ::
        named.insertionSort Before)) := by
  have hgathers := gathers_of_children h
  have hclosed : ∀ (id : Identifier) n, id ≠ [0] → (p.trees ti).2.dedup id n ≠ [0] := by
    intro id n _ heq
    exact absurd (heq ▸ underscore_mem_dedup (p.trees ti).2 id n) (by decide)
  have hne := dedup_closed hclosed (fun _ heq => by cases heq) (name_ne_zero hgathers) hnamed
  rw [records, h]
  change Except.ok (Option.map _ (dedup _ _ _ _ _)) = _
  rw [dedup_gathered hnamed, Option.map_some]
  have hparent : (p.special ti dir true :: named).insertionSort Before =
      p.special ti dir true :: named.insertionSort Before :=
    insertionSort_cons_of_forall_rel _ fun r hr => before_parent rfl (hne r hr)
  rw [insertionSort_cons_of_forall_rel _ fun r _ => before_self rfl r, hparent]

theorem mapped_of_gathers {texts : List Text} (h : Gathers p ti texts kids) :
    ∀ r ∈ kids, Mapped (p.trees ti).2 r.name := by
  intro r hr
  obtain ⟨text, -, hname⟩ := h.named r hr
  exact ⟨text, hname⟩

theorem special_named_iff {texts : List Text} (h : Gathers p ti texts kids)
    (hnamed : dedup (p.trees ti).2 fuel [] none kids = some named) :
    (∀ r ∈ named, isSpecial r.name = false) ↔
      ¬((p.trees ti).2 = .enhanced ∧ reservedName ∈ texts) := by
  rw [← special_iff h]
  constructor
  · intro hnone r hr
    rw [Bool.eq_false_iff]
    intro hspecial
    have hmem := mem_dedup_of_special h.chain (fun hsome => by cases hsome) hnamed r hr hspecial
    exact Bool.false_ne_true ((hnone r hmem).symm.trans hspecial)
  · intro hnone
    have hclosed : ∀ id n, isSpecial id = false → isSpecial ((p.trees ti).2.dedup id n) = false :=
      fun id n _ => not_isSpecial_dedup id n
    exact dedup_closed hclosed (fun _ heq => by cases heq) hnone hnamed

theorem within_iff {texts : List Text} (h : Gathers p ti texts kids)
    (hnone : ∀ r ∈ kids, isSpecial r.name = false)
    (hnamed : dedup (p.trees ti).2 fuel [] none kids = some named) :
    (∀ r ∈ named, (p.trees ti).2.within r.name = true) ↔
      EachStep (p.trees ti).2 fuel (HasRoom (p.trees ti).2) [] none kids := by
  have hmapped := mapped_of_gathers h
  refine @dedup_all_iff _ _ _ _ _ _ (fun name _ => (p.trees ti).2.within name = true) _
    ?_ ?_ h.chain .empty
    (fun _ heq => by cases heq) hnamed
  · exact fun seen name r hr _ hunique => hasRoom_iff (hmapped r hr) hunique
  · exact fun r hr hspecial => absurd ((hnone r hr).symm.trans hspecial) Bool.false_ne_true

theorem shaped_named {texts : List Text} {level : IsoLevel} {nameCase : NameCase}
    (h : Gathers p ti texts kids) (hrules : (p.trees ti).2 = .primary level nameCase)
    (hnamed : dedup (p.trees ti).2 fuel [] none kids = some named) :
    ∀ r ∈ named, Shaped r.name := by
  have hmapped := mapped_of_gathers h
  rw [hrules] at hmapped hnamed
  exact dedup_closed (fun _ n hshaped => shaped_dedup hshaped n) (fun _ heq => by cases heq)
    (fun r hr => shaped_mapped (hmapped r hr)) hnamed

/-- Suffixes keep the records apart, and the identifiers are legal where each clash
finds a number with room, no name is the reserved one and no extension continues another. -/
theorem records_legal_iff (h : p.children dir ti = .ok kids) (hfuel : kids.length < fuel) :
    ∃ named, dedup (p.trees ti).2 fuel [] none kids = some named ∧
      ∃ out, p.records fuel dir ti = .ok (some out) ∧
        (Legal (p.trees ti).2 out ↔
          EachStep (p.trees ti).2 fuel (HasRoom (p.trees ti).2) [] none kids ∧
            ¬((p.trees ti).2 = .enhanced ∧ reservedName ∈ p.texts dir ti) ∧
              ∀ a ∈ named, ∀ b ∈ named, ¬(p.trees ti).2.Continues a.name b.name) := by
  have hgathers := gathers_of_children h
  obtain ⟨named, hnamed⟩ : ∃ named, dedup (p.trees ti).2 fuel [] none kids = some named :=
    dedup_exists (by rw [length_nil]; omega)
  refine ⟨named, hnamed, _, records_eq h hnamed, ?_⟩
  have hmem : ∀ {r}, r ∈ named.insertionSort Before ↔ r ∈ named :=
    fun {r} => mem_insertionSort Before
  have hspecial := special_named_iff hgathers hnamed
  have hshaped : ∀ level nameCase, (p.trees ti).2 = .primary level nameCase →
    ∀ r ∈ named, Shaped r.name :=
    fun level nameCase hrules => shaped_named hgathers hrules hnamed
  constructor
  · intro hlegal
    have hnone : ∀ r ∈ named, isSpecial r.name = false :=
      fun r hr => hlegal.reserved r (hmem.mpr hr)
    have hreserved := hspecial.mp hnone
    refine ⟨?_, hreserved, (ordered_iff hnone hshaped).mp hlegal.ordered⟩
    exact (within_iff hgathers ((special_iff hgathers).mpr hreserved) hnamed).mp
      fun r hr => hlegal.within r (hmem.mpr hr)
  · rintro ⟨hroom, hreserved, hcontinues⟩
    have hkids := (special_iff hgathers).mpr hreserved
    have hnone := hspecial.mpr hreserved
    exact {
      first := rfl
      reserved := fun r hr => hnone r (hmem.mp hr)
      distinct := distinct_sorted rfl rfl hkids hnone hnamed
      within := fun r hr => (within_iff hgathers hkids hnamed).mpr hroom r (hmem.mp hr)
      ordered := (ordered_iff hnone hshaped).mpr hcontinues }

def noTime : DirDateTime := ⟨0, 0, 0, 0, 0, 0, 0⟩

def flat (kind : TreeKind) (rules : Rules) (names : List Text) : Planner where
  preserve := ⟨false, false, false⟩
  now := noTime
  dirs _ := {
    name := [], raw := [], isoName := [], attrs := ⟨none, none, none, none, none⟩,
      parent := 0, dirs := [],
    files := List.range names.length, movedTo := none, placeholders := [],
    physical := [], serial := 1 }
  files file := ⟨names.getD file [], [], [], .data file 0, ⟨none, none, none, none, none⟩, 1⟩
  trees _ := (kind, rules)
  rockRidge := false
  rrMoved := none
  serials _ := none
  targets _ := none
  extents _ := []
  dirRefs _ := none

def flatRecord (name : Identifier) : PendingRecord := ⟨name, .empty, (0, 0), 0, noTime⟩

def upperOne : Rules := .primary .l1 .upper

def continued : List Text := ["a.t".toList, "a.t1".toList]

/-- Names of one identifier. -/
def clashing : List Text := ["a.t".toList, "A.T".toList, "a.T".toList]

def control : List Text := [reservedName]

def allExtension : List Text :=
  [replicate 1 '.' ++ replicate 206 'b', replicate 1 '.' ++ replicate 206 'b' ++ ['c']]

theorem records_legal_iff_sample :
    ∃ named, dedup upperOne 4 [] none ((clashing.map upperOne.file).map flatRecord) = some named ∧
      ∃ out, (flat .primary upperOne clashing).records 4 0 0 = .ok (some out) ∧
        (Legal upperOne out ↔
          EachStep upperOne 4 (HasRoom upperOne) [] none
            ((clashing.map upperOne.file).map flatRecord) ∧
            ¬(upperOne = .enhanced ∧ reservedName ∈ (flat .primary upperOne clashing).texts 0 0) ∧
              ∀ a ∈ named, ∀ b ∈ named, ¬upperOne.Continues a.name b.name) :=
  records_legal_iff (p := flat .primary upperOne clashing) rfl (by decide)

theorem not_legal_continued :
    ∃ out, (flat .primary upperOne continued).records 3 0 0 = .ok (some out) ∧
      ¬Legal upperOne out := by
  refine ⟨_, rfl, fun h => ?_⟩
  have hpair := (pairwise_cons.mp h.ordered).1 (flatRecord (upperOne.file "a.t".toList))
    (by decide)
  exact absurd (hpair.2 (by unfold PadLe; decide)) (by unfold PadLe; decide)

theorem not_legal_control :
    ∃ out, (flat .enhanced .enhanced control).records 2 0 0 = .ok (some out) ∧
      ¬Legal .enhanced out :=
  ⟨_, rfl, fun h => absurd h.reserved (by decide)⟩

theorem not_legal_allExtension :
    ∃ out, (flat .enhanced .enhanced allExtension).records 3 0 0 = .ok (some out) ∧
      ¬Legal .enhanced out := by
  have hlong : ((flat .enhanced .enhanced allExtension).records 3 0 0).toOption.any
      (fun out => out.any fun out => (out.drop 2).any fun r => !Rules.enhanced.within r.name) =
        true := by
    decide +kernel
  rcases hrecords : (flat .enhanced .enhanced allExtension).records 3 0 0 with e | (_ | out) <;>
    rw [hrecords] at hlong
  · cases hlong
  · cases hlong
  · refine ⟨out, rfl, fun h => ?_⟩
    obtain ⟨r, hr, hlong⟩ := any_eq_true.mp hlong
    rw [h.within r hr] at hlong
    cases hlong

/-- Extensions that continue each other are sorted the wrong way round, a control
character gets the identifier of the parent, and a suffix makes an identifier too long. -/
theorem records_illegal :
    (∃ out, (flat .primary upperOne continued).records 3 0 0 = .ok (some out) ∧
      ¬Legal upperOne out) ∧
      (∃ out, (flat .enhanced .enhanced control).records 2 0 0 = .ok (some out) ∧
        ¬Legal .enhanced out) ∧
        ∃ out, (flat .enhanced .enhanced allExtension).records 3 0 0 = .ok (some out) ∧
        ¬Legal .enhanced out :=
  ⟨not_legal_continued, not_legal_control, not_legal_allExtension⟩

end Planner

end Hadris.Iso
