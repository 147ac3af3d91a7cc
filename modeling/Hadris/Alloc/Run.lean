import Hadris.Alloc.Idle
import Mathlib.Data.List.Chain

namespace Hadris

open List

namespace Medium

variable {m : Medium} {tbl tbl' : Nat → Nat → Nat} {members chain : List Nat} {c : Nat}

/-- `tbl'` is `tbl` with the clusters of `chain` linked in this order and ended, in all
FAT copies written. -/
structure Relinks (m : Medium) (tbl tbl' : Nat → Nat → Nat) (chain : List Nat) : Prop where
  order : ∀ step < m.geo.copies, (chain ++ [m.geo.kind.endOfChain]).IsChain fun a b =>
    tbl' step a = b
  others : ∀ step < m.geo.copies, ∀ c, c ∉ chain → tbl' step c = tbl step c

theorem endOfChain_and_mask (kind : FatKind) :
    kind.endOfChain &&& kind.mask = kind.endOfChain := by
  cases kind <;> decide

theorem cluster_and_mask (hc : m.geo.IsCluster c) : c &&& m.geo.kind.mask = c :=
  FatKind.cluster_and_mask m.valid.maxCluster.2 hc.2

theorem rel_headD {R : Nat → Nat → Prop} {a d : Nat} {l : List Nat}
    (h : (a :: (l ++ [d])).IsChain R) : R a (l.headD d) := by
  cases l with
  | nil => exact (isChain_cons_cons.mp h).1
  | cons b l => exact (isChain_cons_cons.mp h).1

theorem isChain_of_valueOf {f : Nat → Nat} (hnodup : members.Nodup) {value : Nat}
    (h : ∀ c ∈ members, f c = View.valueOf true members value c) :
    (value :: members).IsChain fun a b => f b = a := by
  induction members generalizing value with
  | nil => exact .singleton value
  | cons x rest ih =>
    rw [nodup_cons] at hnodup
    refine isChain_cons_cons.mpr ⟨?_, ih hnodup.2 fun c hc => ?_⟩
    · rw [h x mem_cons_self, View.valueOf, if_neg hnodup.1]
    · rw [h c (mem_cons_of_mem x hc), View.valueOf, if_pos hc, if_pos rfl]

end Medium

namespace Vol

open Borrow (getState onIo reading setState setHeld)
open Device (Faulty)
open Medium (Is Relinks)
open Prog (Triple)
open View (overlaid Idle)

variable {m : Medium} {A : Outcome Stop → Prop} {rest : Nat → UInt8} {v : View}
  {tbl tbl' : Nat → Nat → Nat}
variable {from_ lo n last top left head : Nat} {tail : Option Nat} {linked : Bool}

theorem frees_congr (h : ∀ i, lo ≤ i → i < lo + n → (tbl 0 (cyclicAt (total m) from_ i) = 0 ↔
    tbl' 0 (cyclicAt (total m) from_ i) = 0)) : frees m tbl from_ lo n =
      frees m tbl' from_ lo n := by
  induction n generalizing lo with
  | zero => rfl
  | succ n ih =>
    have hfirst := h lo le_rfl (by omega)
    rw [frees_succ, frees_succ, ih fun i hi hi' => h i (by omega) (by omega)]
    simp only [hfirst]

def linkedTail (linked : Bool) (tail : Option Nat) : List Nat :=
  if linked then tail.toList else []

/-- How far an allocation has come that links the free clusters up to step `last` of a
search: those from step `top` on are the chain at `head`, to which the tail may be linked
when they are all. -/
structure Linking (m : Medium) (tbl : Nat → Nat → Nat) (from_ last : Nat) (tail : Option Nat)
    (top left head : Nat) (linked : Bool) (v : View) : Prop where
  idle : v.Idle
  top_le : top ≤ last + 1
  count : left = (frees m tbl from_ 0 top).length
  start : head = (frees m tbl from_ top (last + 1 - top)).headD m.geo.kind.endOfChain
  relinks : Relinks m tbl v.tbl (linkedTail linked tail ++ frees m tbl from_ top (last + 1 - top))
  done : linked = true → left = 0 ∧ tail ≠ none

theorem headD_frees_mem (h : frees m tbl from_ lo n ≠ []) (d : Nat) :
    (frees m tbl from_ lo n).headD d ∈ frees m tbl from_ lo n := by
  rcases hl : frees m tbl from_ lo n with _ | ⟨x, l⟩
  · exact absurd hl h
  · exact mem_cons_self

theorem endOfChain_not_cluster : ¬ m.geo.IsCluster m.geo.kind.endOfChain := fun hc =>
  absurd (hc.2.trans_lt m.valid.maxCluster.2) (by cases m.geo.kind <;> decide)

theorem endOfChain_ne_zero (kind : FatKind) : kind.endOfChain ≠ 0 := by
  cases kind <;> decide

section

variable (hfrom : from_ < total m) (hlast : last < total m)
  (htail : ∀ t, tail = some t → m.geo.IsCluster t ∧ tbl 0 t ≠ 0)

include hfrom hlast in
theorem head_ne_zero (hle : lo ≤ last + 1) :
    (frees m tbl from_ lo (last + 1 - lo)).headD m.geo.kind.endOfChain ≠ 0 := by
  by_cases hnil : frees m tbl from_ lo (last + 1 - lo) = []
  · rw [hnil]
    exact endOfChain_ne_zero _
  · have hfree := free_of_mem_frees hfrom (by omega) (headD_frees_mem hnil m.geo.kind.endOfChain)
    have := hfree.1.1
    rw [firstDataCluster] at this
    omega

include hfrom hlast htail in
theorem Linking.below (h : Linking m tbl from_ last tail top left head linked v)
    {i : Nat} (hi : i < top) :
    v.tbl 0 (cyclicAt (total m) from_ i) = 0 ↔ tbl 0 (cyclicAt (total m) from_ i) = 0 := by
  have hpos := Geometry.copies_pos m.valid
  have htop := h.top_le
  have hout : cyclicAt (total m) from_ i ∉ frees m tbl from_ top (last + 1 - top) := by
    intro hmem
    obtain ⟨⟨j, hj, hj', heq⟩, -⟩ := mem_frees.mp hmem
    have := cyclicAt_inj (by omega) (by omega) heq
    omega
  by_cases hlinked : cyclicAt (total m) from_ i ∈ linkedTail linked tail
  · rw [linkedTail] at hlinked
    split at hlinked
    · rename_i hyes
      have ht := Option.mem_toList.mp hlinked
      refine iff_of_false ?_ (htail _ ht).2
      have horder := h.relinks.order 0 hpos
      rw [linkedTail, if_pos hyes, Option.mem_def.mp ht, Option.toList_some, singleton_append,
        cons_append] at horder
      rw [Medium.rel_headD horder]
      exact head_ne_zero hfrom hlast htop
    · cases hlinked
  · rw [h.relinks.others 0 hpos _ fun hmem => (mem_append.mp hmem).elim hlinked hout]

theorem Linking.above (h : Linking m tbl from_ last tail (top + 1) left head linked v)
    (hle : lo ≤ top) :
    frees m tbl from_ lo (last + 1 - lo) = frees m tbl from_ lo (top + 1 - lo) ++
      frees m tbl from_ (top + 1) (last + 1 - (top + 1)) := by
  have htop := h.top_le
  have hsplit := frees_append m tbl from_ lo (top + 1 - lo) (last + 1 - (top + 1))
  rwa [show lo + (top + 1 - lo) = top +
    1 by omega, show top + 1 - lo + (last + 1 - (top + 1)) = last + 1 - lo by omega]
    at hsplit

theorem Linking.remaining (h : Linking m tbl from_ last tail (top + 1) left head linked v)
    (hle : lo ≤ top) :
    left = (frees m tbl from_ 0 lo).length + (frees m tbl from_ lo (top + 1 - lo)).length := by
  have hsplit := frees_append m tbl from_ 0 lo (top + 1 - lo)
  rw [Nat.zero_add, show lo + (top + 1 - lo) = top + 1 by omega] at hsplit
  rw [h.count, hsplit, length_append]

include hfrom hlast htail in
theorem Linking.same (h : Linking m tbl from_ last tail (top + 1) left head linked v)
    (hle : lo ≤ top) :
    frees m v.tbl from_ lo (top + 1 - lo) = frees m tbl from_ lo (top + 1 - lo) :=
  frees_congr fun i _ hi => h.below hfrom hlast htail (by omega)

include hfrom hlast htail in
theorem Linking.skip (h : Linking m tbl from_ last tail (top + 1) left head linked v)
    (hle : lo ≤ top)
    (hnone : frees m v.tbl from_ lo (top + 1 - lo) = []) :
    Linking m tbl from_ last tail lo left head linked v := by
  rw [h.same hfrom hlast htail hle] at hnone
  have habove := h.above hle
  rw [hnone, nil_append] at habove
  have htop := h.top_le
  refine ⟨h.idle, by omega, ?_, by rw [habove]; exact h.start,
    by rw [habove]; exact h.relinks, h.done⟩
  rw [h.remaining hle, hnone, length_nil, Nat.add_zero]

include hfrom hlast htail in
theorem Linking.link (h : Linking m tbl from_ last tail (top + 1) left head linked v)
    (hle : lo ≤ top) (link : Option Nat)
    (head' : Nat) (v' : View) (hsome : frees m tbl from_ lo (top + 1 - lo) ≠ [])
    (hlink : ∀ t, link = some t → tail = some t ∧
      left = (frees m tbl from_ lo (top + 1 - lo)).length)
    (hidle : v'.Idle) (hhead : head' = (frees m tbl from_ lo (top + 1 - lo)).headD head)
    (horder : ∀ step < m.geo.copies,
      (link.toList ++ frees m tbl from_ lo (top + 1 - lo) ++ [head]).IsChain
      fun a b => v'.tbl step a = b)
    (hothers : ∀ step < m.geo.copies, ∀ c, c ∉ link.toList ++
      frees m tbl from_ lo (top + 1 - lo) →
      v'.tbl step c = v.tbl step c) :
    Linking m tbl from_ last tail lo (left - (frees m tbl from_ lo (top + 1 - lo)).length) head'
      (linked || link.isSome) v' := by
  have habove := h.above hle
  have hrest := h.remaining hle
  have hpos : 0 < (frees m tbl from_ lo (top + 1 - lo)).length := length_pos_iff.mpr hsome
  have hunlinked : linked = false := by
    cases linked with
    | false => rfl
    | true =>
      have := (h.done rfl).1
      omega
  have hrelinks := h.relinks
  rw [hunlinked, linkedTail, if_neg Bool.false_ne_true, nil_append] at hrelinks
  have htop := h.top_le
  have hnext : linkedTail (linked || link.isSome) tail = link.toList := by
    rw [hunlinked, Bool.false_or, linkedTail]
    cases link with
    | none => rfl
    | some t => rw [(hlink t rfl).1, Option.isSome_some, if_pos rfl]
  have habsent (a : Nat) (ha : a ∈ frees m tbl from_ (top + 1) (last + 1 - (top + 1)) ++
      [m.geo.kind.endOfChain])
        (hmem : a ∈ link.toList ++ frees m tbl from_ lo (top + 1 - lo)) : False := by
    have hcluster : m.geo.IsCluster a := by
      rcases mem_append.mp hmem with hmem | hmem
      · exact (htail a (hlink a (Option.mem_toList.mp hmem)).1).1
      · exact (free_of_mem_frees hfrom (by omega) hmem).1
    rcases mem_append.mp ha with ha | ha
    · rcases mem_append.mp hmem with hmem | hmem
      · exact (htail a (hlink a (Option.mem_toList.mp hmem)).1).2 (mem_frees.mp ha).2
      · have hnodup : (frees m tbl from_ lo (last + 1 - lo)).Nodup := nodup_frees (by omega)
        rw [habove, nodup_append] at hnodup
        exact hnodup.2.2 a hmem a ha rfl
    · rw [mem_singleton.mp ha] at hcluster
      exact endOfChain_not_cluster hcluster
  refine ⟨hidle, by omega, by omega, ?_, ?_, fun hyes => ?_⟩
  · rw [habove, hhead, h.start]
    rcases hl : frees m tbl from_ lo (top + 1 - lo) with _ | ⟨x, l⟩
    · exact absurd hl hsome
    · rfl
  · rw [hnext, habove, ← append_assoc]
    refine ⟨fun step hstep => ?_, fun step hstep c hc => ?_⟩
    · -- the chain so far is not touched
      have hkept :
          (frees m tbl from_ (top + 1) (last + 1 - (top + 1)) ++ [m.geo.kind.endOfChain]).IsChain
            fun a b => v'.tbl step a = b := by
        refine (hrelinks.order step hstep).imp_of_mem_imp fun a b ha _ hab => ?_
        rw [hothers step hstep a fun hmem => ?_]
        · exact hab
        · exact habsent a ha hmem
      rcases hl : frees m tbl from_ (top + 1) (last + 1 - (top + 1)) with _ | ⟨x, l⟩
      · rw [h.start, hl] at horder
        rw [append_nil]
        exact horder step hstep
      · rw [h.start, hl] at horder
        rw [hl] at hkept
        rw [append_assoc, cons_append]
        exact isChain_split.mpr ⟨horder step hstep, hkept⟩
    · rw [mem_append, not_or] at hc
      rw [hothers step hstep c hc.1, hrelinks.others step hstep c hc.2]
  · rw [hunlinked, Bool.false_or] at hyes
    obtain ⟨t, ht⟩ := Option.isSome_iff_exists.mp hyes
    obtain ⟨htail, hcount⟩ := hlink t ht
    exact ⟨by omega, by rw [htail]; exact Option.some_ne_none t⟩

include hfrom hlast in
theorem Linking.head_masked (h : Linking m tbl from_ last tail top left head linked v) :
    head &&& m.geo.kind.mask = head := by
  have htop := h.top_le
  rw [h.start]
  by_cases hnil : frees m tbl from_ top (last + 1 - top) = []
  · rw [hnil]
    exact Medium.endOfChain_and_mask _
  · exact Medium.cluster_and_mask
      (free_of_mem_frees hfrom (by omega) (headD_frees_mem hnil m.geo.kind.endOfChain)).1

include hfrom hlast htail in
theorem Linking.single (h : Linking m tbl from_ last tail (top + 1) left head linked v)
    (hzero : v.tbl 0 (cyclicAt (total m) from_ top) = 0) {v' : View} (hidle : v'.Idle)
    (htbl : v'.tbl = overlaid m.geo.copies [cyclicAt (total m) from_ top]
      (fun _ => head &&& m.geo.kind.mask) v.tbl) :
    Linking m tbl from_ last tail top (left - 1) (cyclicAt (total m) from_ top) linked v' := by
  have hone : frees m tbl from_ top (top + 1 - top) = [cyclicAt (total m) from_ top] := by
    rw [← h.same hfrom hlast htail le_rfl, Nat.add_sub_cancel_left, frees_succ, if_pos hzero]
    rfl
  have hlinked := h.link hfrom hlast htail le_rfl none (cyclicAt (total m) from_ top) v'
    (by rw [hone]; exact cons_ne_nil _ _)
    (fun t ht => absurd ht (Option.some_ne_none t).symm) hidle (by rw [hone]; rfl)
      (fun step hstep => ?_) fun step hstep c hc => ?_
  · rw [hone] at hlinked
    simpa using hlinked
  · rw [hone]
    refine isChain_pair.mpr ?_
    rw [htbl, View.overlaid_mem hstep (mem_singleton_self _), h.head_masked hfrom hlast]
  · rw [hone, Option.toList_none, nil_append] at hc
    rw [htbl, View.overlaid_not_mem hc]

include hfrom hlast htail in
/-- A group of free clusters is linked before the chain, and the tail with it when it is the
last and shares a block with it. -/
theorem Linking.group {group : ClusterGroup} {link : Option Nat}
    (h : Linking m tbl from_ last tail (top + 1) left head linked v)
    (htop : top < total m) (hgather : Gathering m v.tbl from_ lo top group)
    (hne : group.members ≠ [])
    (hlink : ∀ t, link = some t → tail = some t ∧ left = group.count)
    {v' : View} (hidle : v'.Idle)
    (htbl : v'.tbl = overlaid m.geo.copies (Fat.groupEntries group link)
      (View.groupValue m group (some head) link) v.tbl) :
    Linking m tbl from_ last tail lo (left - group.count) group.lowest
      (linked || link.isSome) v' := by
  have hmembers := hgather.members
  rw [h.same hfrom hlast htail hgather.lo_le] at hmembers
  have hcluster (c : Nat) (hc : c ∈ group.members) := (hgather.free hfrom htop hc).1
  have hsome : frees m tbl from_ lo (top + 1 - lo) ≠ [] := by
    rintro hnil
    rw [hnil] at hmembers
    exact hne hmembers
  have hcount : group.count = (frees m tbl from_ lo (top + 1 - lo)).length := by
    rw [ClusterGroup.count, hmembers, length_reverse]
  have hlowest : group.lowest = (frees m tbl from_ lo (top + 1 - lo)).headD head := by
    rw [ClusterGroup.lowest, hmembers, getLastD_eq_getLast?, getLast?_reverse,
      headD_eq_head?_getD]
    rcases hl : frees m tbl from_ lo (top + 1 - lo) with _ | ⟨x, l⟩
    · exact absurd hl hsome
    · rfl
  have hmem (c : Nat) : c ∈ Fat.groupEntries group link ↔
      c ∈ link.toList ++ frees m tbl from_ lo (top + 1 - lo) := by
    rw [Fat.groupEntries, hmembers, mem_append, mem_append, mem_reverse, or_comm]
  have hout (t : Nat) (ht : t ∈ link.toList) : t ∉ group.members := by
    intro hin
    rw [hmembers, mem_reverse, mem_frees] at hin
    exact (htail t (hlink t (Option.mem_toList.mp ht)).1).2 hin.2
  rw [hcount]
  refine h.link hfrom hlast htail hgather.lo_le link group.lowest v' hsome
    (fun t ht => ⟨(hlink t ht).1, hcount ▸ (hlink t ht).2⟩) hidle hlowest
      (fun step hstep => ?_) fun step hstep c hc => ?_
  · -- the members are linked upwards, and the highest to the head
    have hvalue (c : Nat) (hc : c ∈ group.members) :
        v'.tbl step c = View.valueOf true group.members head c := by
      have hnot : c ∉ link.toList := fun ht => hout c ht hc
      have hin : c ∈ Fat.groupEntries group link := mem_append_left _ hc
      rw [htbl, View.overlaid_mem hstep hin, View.groupValue, if_neg hnot]
      rcases View.valueOf_mem group.members head c with hvalue | hvalue
      · exact Medium.cluster_and_mask (hcluster _ hvalue)
      · exact hvalue.symm ▸ h.head_masked hfrom hlast
    have hchain := Medium.isChain_of_valueOf (hgather.descending.imp fun h => h.ne') hvalue
    rw [← isChain_reverse, hmembers, reverse_cons, reverse_reverse] at hchain
    cases link with
    | none => exact hchain
    | some t =>
      rw [Option.toList_some, singleton_append, cons_append]
      have ht : v'.tbl step t = group.lowest := by
        have hin : t ∈ Fat.groupEntries group (some t) := mem_append_right _ (by simp)
        rw [htbl, View.overlaid_mem hstep hin, View.groupValue, if_pos (by simp)]
        exact Medium.cluster_and_mask (hcluster _ (Fat.lowest_mem hne))
      rw [hlowest] at ht
      rcases hl : frees m tbl from_ lo (top + 1 - lo) with _ | ⟨x, l⟩
      · exact absurd hl hsome
      · rw [hl] at ht hchain
        exact isChain_cons_cons.mpr ⟨ht, hchain⟩
  · rw [← hmem] at hc
    rw [htbl, View.overlaid_not_mem hc]

include hfrom htail in
theorem fits_of_gathering {group : ClusterGroup} {link : Option Nat} (hbs : 0 < m.blockSize)
    (htop : top < total m)
    (hgather : Gathering m tbl' from_ lo top group) (hne : group.members ≠ [])
    (hlink : ∀ t, link = some t → tail = some t ∧ m.SameBlock t group.lowest) :
    (∀ c ∈ Fat.groupEntries group link, m.geo.IsCluster c) ∧ ∀ j < m.geo.copies,
      Fat.Fits m group link j := by
  have hentries (c : Nat) (hc : c ∈ Fat.groupEntries group link) : m.geo.IsCluster c ∧
      m.SameBlock c group.lowest := by
    rcases mem_append.mp hc with hc | hc
    · exact ⟨(hgather.free hfrom htop hc).1, hgather.sameBlock hc (Fat.lowest_mem hne)⟩
    · have ht := hlink c (Option.mem_toList.mp hc)
      exact ⟨(htail c ht.1).1, ht.2⟩
  exact ⟨fun c hc => (hentries c hc).1, fun j hj => Medium.fits_of_sameBlock hbs
    (fun c hc => (hentries c hc).2) hj⟩

theorem Linking.holding (h : Linking m tbl from_ last tail top left head linked v)
    (f : Held → Held) :
    Linking m tbl from_ last tail top left head linked (v.holding f) :=
  ⟨h.idle.holding f, h.top_le, h.count, h.start, h.relinks, h.done⟩

include hfrom hlast htail in
theorem idle_linkGroups (hno : ¬ Faulty A)
    (h : Linking m tbl from_ last tail top left head linked v) (fuel : Nat)
    (hfuel : top ≤ fuel) :
    Triple (m.At A rest v) (linkGroups (total m) from_ tail fuel top left head linked)
      (fun r => m.Is A rest fun v => ∃ left, Linking m tbl from_ last tail 0 left r.1 r.2 v)
        fun _ _ => False := by
  have htop := h.top_le
  refine at_linkGroups (P := Linking m tbl from_ last tail) hfrom tail
    (fun _ hfaulty _ => hno hfaulty)
    (fun hP hle hnone => hP.skip hfrom hlast htail hle hnone)
    (fun {top left head linked v} htop hP _ hzero => ?_)
    (fun {lo top left head linked v group link} htop hP hgather hne hlink => ?_) fuel top left
      head linked hfuel (by omega) v h
  · refine (idle_set hno (hP.idle.holding _) _ _).weaken
      (fun _ _ hvol => hvol.2.mono fun v' hv' => ?_)
      fun _ _ hvol => hvol.1 (isCluster_cyclicAt hfrom htop)
    exact (hP.single hfrom hlast htail hzero hv'.1 hv'.2.2).holding _
  · refine Triple.of_forall fun vol₀ hat₀ => Triple.pre ?_ fun vol heq =>
      show m.At A rest _ vol from heq ▸ hat₀
    obtain ⟨hentries, hfits⟩ := fits_of_gathering hfrom htail (Medium.at_pos hat₀) htop
      hgather hne fun t ht =>
      ⟨((hlink t).mp ht).1, ((hlink t).mp ht).2.2⟩
    refine (idle_patch hno (hP.idle.holding _) (some head) hne hentries hfits).weaken
      (fun _ _ hvol => hvol.mono fun v' hv' => ?_)
      fun _ _ h => h
    exact (hP.group hfrom hlast htail htop hgather hne
      (fun t ht => ⟨((hlink t).mp ht).1, ((hlink t).mp ht).2.1⟩) hv'.1
      hv'.2.2).holding _

end

def firstFree (m : Medium) (count : Nat) (v : View) : List Nat :=
  (frees m v.tbl v.hint 0 (total m)).take count

/-- An allocation of `count` clusters that succeeds links the first free ones after `tail`. -/
def Taken (m : Medium) (A : Outcome Stop → Prop) (rest : Nat → UInt8) (count : Nat)
    (tail : Option Nat) (v : View) (head : Nat) (vol : Vol) : Prop :=
  count ≤ m.geo.freeCount (v.tbl 0) ∧ head = (firstFree m count v).headD 0 ∧
    m.Is A rest (fun v' => v'.Idle ∧ Relinks m v.tbl v'.tbl (tail.toList ++ firstFree m count v))
      vol

/-- One that fails finds fewer clusters free, and changes no entry. -/
def NotTaken (m : Medium) (A : Outcome Stop → Prop) (rest : Nat → UInt8) (count : Nat) (v : View)
    (e : Stop) (vol : Vol) : Prop :=
  m.geo.freeCount (v.tbl 0) < count ∧ e = .ofKind .noSpace ∧
    m.Is A rest (fun v' => v'.Idle ∧ v'.tbl = v.tbl) vol

/-- What the driver knows to be full is. -/
def FullRight (m : Medium) (v : View) : Prop := v.fat.full = true → m.geo.freeCount (v.tbl 0) = 0

theorem idle_findFree (hno : ¬ Faulty A) (hv : v.Idle) (hfull : FullRight m v) :
    Triple (m.At A rest v) findFree
    (fun c vol => (1 ≤ m.geo.freeCount (v.tbl 0) ∧ Free m v.tbl c ∧ firstFree m 1 v = [c]) ∧
      m.At A rest v vol)
    (NotTaken m A rest 1 v) := by
  intro vol hat
  have hlt := hint_lt (v := v) hat.geo
  have hlength : (frees m v.tbl v.hint 0 (total m)).length = m.geo.freeCount (v.tbl 0) :=
    length_frees hlt
  refine at_findFree.weaken (fun c _ h => ?_) (fun e _ h => ?_) vol hat
  · refine ⟨?_, h.2⟩
    rcases hl : frees m v.tbl v.hint 0 (total m) with _ | ⟨x, l⟩
    · have hfound := h.1.2
      rw [hl] at hfound
      cases hfound
    · have hfound := h.1.2
      rw [hl, head?_cons, Option.some.injEq] at hfound
      subst hfound
      refine ⟨?_, free_of_mem_frees hlt (Nat.zero_add _).le
        (by rw [hl]; exact mem_cons_self), by rw [firstFree, hl]; rfl⟩
      rw [← hlength, hl, length_cons]
      omega
  · rcases h with ⟨hfaulty, -⟩ | ⟨he, ⟨hyes, hat⟩ | ⟨-, hfew, hat⟩⟩
    · exact absurd hfaulty hno
    · exact ⟨by rw [hfull hyes]; exact Nat.one_pos, he, v, ⟨hv, rfl⟩, hat⟩
    · exact ⟨hlength ▸ hfew, he, v.counted _, ⟨⟨hv.split, hv.unmirrored⟩, rfl⟩, hat⟩

theorem relinks_single {c : Nat}
    (htbl : tbl' = overlaid m.geo.copies [c]
      (fun _ => m.geo.kind.endOfChain &&& m.geo.kind.mask) tbl) :
    Relinks m tbl tbl' [c] := by
  refine ⟨fun step hstep => isChain_pair.mpr ?_, fun step _ c' hc => ?_⟩
  · rw [htbl, View.overlaid_mem hstep (mem_singleton_self c), Medium.endOfChain_and_mask]
  · rw [htbl, View.overlaid_not_mem hc]

theorem is_setNextFree {P : View → Prop} (hP : ∀ v c, P v → P (v.searched c)) (c : Nat)
    {E : Stop → Vol → Prop} :
    Triple (m.Is A rest P) (setNextFree c) (fun _ => m.Is A rest P) E := by
  refine Medium.is_intro fun v hv => ?_
  have hset : Triple (m.At A rest v) (setNextFree c) (fun _ => m.At A rest (v.searched c)) E :=
    Medium.at_setState (fun hgeo => hgeo) fun dirty info => ⟨dirty, info, rfl⟩
  exact hset.post fun _ _ hat => ⟨v.searched c, hP v c hv, hat⟩

theorem is_setInfoDirty {P : View → Prop} {E : Stop → Vol → Prop} :
    Triple (m.Is A rest P) (setState fun fat => { fat with infoDirty := true })
      (fun _ => m.Is A rest P) E :=
  Medium.is_intro fun v hv =>
    (Medium.at_setState (fun hgeo => hgeo) fun dirty _ => ⟨dirty, true, rfl⟩).post
    fun _ _ hat => ⟨v, hv, hat⟩

theorem taken_searched {chain : List Nat} (v' : View) (c : Nat)
    (h : v'.Idle ∧ Relinks m tbl v'.tbl chain) :
    (v'.searched c).Idle ∧ Relinks m tbl (v'.searched c).tbl chain :=
  ⟨⟨h.1.split, h.1.unmirrored⟩, h.2⟩

theorem idle_allocate (hno : ¬ Faulty A) (hv : v.Idle) (hfull : FullRight m v) :
    Triple (m.At A rest v) allocate (Taken m A rest 1 none v) (NotTaken m A rest 1 v) := by
  refine Triple.bind (idle_findFree hno hv hfull) fun c =>
    Triple.assume fun ⟨hcount, hfree, hfirst⟩ => ?_
  refine Triple.bind (Medium.at_setHeld _) fun _ => Medium.at_getState fun dirty info => ?_
  intro vol hat
  have hmarked : (v.fat.marked dirty info).geo = m.geo := hat.geo
  refine Triple.bind (Q := fun _ => m.Is A rest fun v' => v'.Idle ∧ Relinks m v.tbl v'.tbl [c])
    ((idle_set hno (hv.holding _) c _).weaken
      (fun _ _ h => h.2.mono fun v' hv' => ⟨hv'.1, relinks_single ?_⟩) fun _ _ h =>
      absurd hfree.1 h.1) (fun _ => ?_) vol hat
  · rw [hv'.2.2]
    exact congrArg (fun geo : Geometry => overlaid m.geo.copies [c]
      (fun _ => geo.kind.endOfChain &&& m.geo.kind.mask) v.tbl) hmarked
  · refine Triple.bind (is_setNextFree taken_searched c) fun _ =>
      Triple.bind is_setInfoDirty fun _ => Triple.pure fun vol h => ?_
    exact ⟨hcount, by rw [hfirst]; rfl, by rwa [hfirst]⟩

theorem relinks_cons {chain : List Nat} {t : Nat} (h : Relinks m tbl tbl' chain)
    (ht : m.geo.IsCluster t) (hout : t ∉ chain)
    (hne : chain ≠ []) (hhead : head = chain.headD 0)
    (hmasked : head &&& m.geo.kind.mask = head) :
    Relinks m tbl (overlaid m.geo.copies [t] (fun _ => head &&& m.geo.kind.mask) tbl')
      (t :: chain) := by
  refine ⟨fun step hstep => ?_, fun step hstep c hc => ?_⟩
  · have hkept : (chain ++ [m.geo.kind.endOfChain]).IsChain fun a b =>
        overlaid m.geo.copies [t] (fun _ => head &&& m.geo.kind.mask) tbl' step a = b := by
      refine (h.order step hstep).imp_of_mem_imp fun a b ha _ hab => ?_
      rw [View.overlaid_not_mem]
      · exact hab
      · rw [mem_singleton]
        rintro rfl
        rcases mem_append.mp ha with ha | ha
        · exact hout ha
        · rw [mem_singleton.mp ha] at ht
          exact endOfChain_not_cluster ht
    have hself : overlaid m.geo.copies [t] (fun _ => head &&& m.geo.kind.mask) tbl' step t =
        head := by
      rw [View.overlaid_mem hstep (mem_singleton_self t), hmasked]
    rw [cons_append]
    cases chain with
    | nil => exact absurd rfl hne
    | cons x l => exact isChain_cons_cons.mpr ⟨hself.trans hhead, hkept⟩
  · rw [mem_cons, not_or] at hc
    rw [View.overlaid_not_mem (by rw [mem_singleton]; exact hc.1), h.others step hstep c hc.2]

theorem idle_allocateRunInner (hno : ¬ Faulty A) (hv : v.Idle)
    (hfull : FullRight m v) (count : Nat)
    (htail : ∀ t, tail = some t → m.geo.IsCluster t ∧ v.tbl 0 t ≠ 0 ∧ 1 < count) :
    Triple (m.At A rest v) (allocateRunInner count tail) (Taken m A rest count tail v)
      (NotTaken m A rest count v) := by
  refine Triple.ite (fun hfew => ?_) fun hmany => ?_
  · obtain rfl : tail = none := by
      cases tail with
      | none => rfl
      | some t => exact absurd (htail t rfl).2.2 (not_lt.mpr hfew)
    refine Triple.bind (Q := Taken m A rest count none v)
      (Triple.ite (fun hzero => ?_) fun hone => ?_) fun first =>
      Triple.bind (Triple.pure fun _ h => h) fun _ => Triple.pure fun _ h => h
    · subst hzero
      exact Triple.pure fun vol hat =>
        ⟨Nat.zero_le _, rfl, v, ⟨hv, fun _ _ => .singleton _, fun _ _ _ _ => rfl⟩, hat⟩
    · obtain rfl : count = 1 := by omega
      exact idle_allocate hno hv hfull
  intro vol hat
  have hlt := hint_lt (v := v) hat.geo
  have hlength : (frees m v.tbl v.hint 0 (total m)).length = m.geo.freeCount (v.tbl 0) :=
    length_frees hlt
  refine Medium.at_getState (fun dirty info => ?_) vol hat
  have hmarked : (v.fat.marked dirty info).geo = m.geo := hat.geo
  refine Triple.ite (fun hyes => Triple.fail fun _ hat => ⟨?_, rfl, v, ⟨hv, rfl⟩, hat⟩)
    fun hnot => ?_
  · rw [hfull hyes]
    omega
  rw [hmarked, total_eq]
  refine Triple.bind (Q := fun r vol => Scanned m v.tbl v.hint count 0 (total m) 0 r ∧
    m.At A rest v vol)
    ((Medium.at_reads
      (shown_scanFree hmarked hlt (total m) 0 0 (Nat.zero_add _).le (by omega))).weaken
      (fun _ _ h => h) fun _ _ h => absurd h.1 hno) fun r => Triple.assume fun hscan => ?_
  rcases r with ⟨found, _ | last⟩
  · rw [Scanned, Nat.zero_add, hlength] at hscan
    exact (at_counted found not_not.mp).weaken (fun _ _ h => h) fun _ _ h =>
      ⟨hscan.1 ▸ hscan.2, h.1, v.counted found, ⟨⟨hv.split, hv.unmirrored⟩, rfl⟩, h.2⟩
  · rw [Scanned, Nat.zero_add, Nat.zero_add, Nat.sub_zero] at hscan
    obtain ⟨-, hlast, -, hcount⟩ := hscan
    have hsplit := frees_append m v.tbl v.hint 0 (last + 1) (total m - (last + 1))
    rw [Nat.zero_add, show last + 1 + (total m - (last + 1)) = total m by omega] at hsplit
    have hfirst : firstFree m count v = frees m v.tbl v.hint 0 (last + 1) := by
      rw [firstFree, hsplit, take_left' hcount]
    have hle : count ≤ m.geo.freeCount (v.tbl 0) := by
      rw [← hlength, hsplit, length_append, hcount]
      omega
    have hused (t : Nat) (ht : tail = some t) : m.geo.IsCluster t ∧ v.tbl 0 t ≠ 0 :=
      ⟨(htail t ht).1, (htail t ht).2.1⟩
    have hstart : Linking m v.tbl v.hint last tail
        (last + 1) count m.geo.kind.endOfChain false v := by
      refine ⟨hv, le_rfl, hcount.symm, ?_, ?_, fun h => absurd h Bool.false_ne_true⟩
      · rw [Nat.sub_self]
        rfl
      · rw [Nat.sub_self]
        exact ⟨fun _ _ => .singleton _, fun _ _ _ _ => rfl⟩
    refine Triple.bind
      ((idle_linkGroups hlt hlast hused hno hstart (last + 1) le_rfl).weaken (fun _ _ h => h)
      fun _ _ h => h.elim) fun r => ?_
    obtain ⟨head, linked⟩ := r
    have hlinked (v' : View)
        (hv' : ∃ left, Linking m v.tbl v.hint last tail 0 left head linked v') :
          v'.Idle ∧ head = (firstFree m count v).headD 0 ∧ head &&& m.geo.kind.mask = head ∧
            Relinks m v.tbl v'.tbl (linkedTail linked tail ++ firstFree m count v) := by
      obtain ⟨left, hlinking⟩ := hv'
      have hhead := hlinking.start
      have hrelinks := hlinking.relinks
      rw [Nat.sub_zero, ← hfirst] at hhead hrelinks
      refine ⟨hlinking.idle, ?_, hlinking.head_masked hlt hlast, hrelinks⟩
      rw [hhead]
      rcases hl : firstFree m count v with _ | ⟨x, l⟩
      · rw [hfirst] at hl
        rw [hl] at hcount
        exact absurd hcount (by rw [length_nil]; omega)
      · rfl
    refine Triple.bind
      (Q := fun _ => m.Is A rest fun v' => head = (firstFree m count v).headD 0 ∧ v'.Idle ∧
      Relinks m v.tbl v'.tbl (tail.toList ++ firstFree m count v)) ?_ fun _ =>
        Triple.bind (is_setNextFree (fun v' c h =>
        ⟨h.1, taken_searched v' c h.2⟩) _) fun _ => Triple.pure fun vol h => ?_
    · refine Medium.is_intro fun v' hv' => ?_
      obtain ⟨hidle, hhead, hmasked, hrelinks⟩ := hlinked v' hv'
      cases hdone : tail.filter fun _ => !linked with
      | none =>
        refine Triple.pure fun _ hat => ⟨v', ⟨hhead, hidle, ?_⟩, hat⟩
        have hall : linkedTail linked tail = tail.toList := by
          cases tail with
          | none => cases linked <;> rfl
          | some t =>
            cases linked with
            | true => rfl
            | false => cases hdone
        rwa [hall] at hrelinks
      | some t =>
        rw [Option.filter_eq_some_iff, Bool.not_eq_true'] at hdone
        obtain ⟨ht, hnone⟩ := hdone
        rw [hnone, linkedTail, if_neg Bool.false_ne_true, nil_append] at hrelinks
        refine (idle_set hno hidle t head).weaken
          (fun _ _ h => h.2.mono fun v'' hv'' => ⟨hhead, hv''.1, ?_⟩)
          fun _ _ h => absurd (hused t ht).1 h.1
        rw [ht, hv''.2.2, Option.toList_some, singleton_append]
        refine relinks_cons hrelinks (hused t ht).1 ?_ ?_ hhead hmasked
        · rw [hfirst]
          exact fun hin => (hused t ht).2 (mem_frees.mp hin).2
        · rintro hnil
          rw [hfirst] at hnil
          rw [hnil] at hcount
          exact absurd hcount (by rw [length_nil]; omega)
    · obtain ⟨v', ⟨hhead, hdone⟩, hat⟩ := h
      exact ⟨hle, hhead, v', hdone, hat⟩

theorem single_members (c : Nat) : ((ClusterGroup.new c).add c).members = [c] :=
  ClusterGroup.add_below
    (ClusterGroup.spans_iff.mpr ⟨le_rfl, Nat.lt_add_of_pos_right (by decide)⟩)
    fun _ hc => absurd hc not_mem_nil

theorem single_lowest (c : Nat) : ((ClusterGroup.new c).add c).lowest = c := by
  rw [ClusterGroup.lowest, single_members]
  rfl

theorem single_entries (t c : Nat) :
    Fat.groupEntries ((ClusterGroup.new c).add c) (some t) = [c, t] := by
  rw [Fat.groupEntries, single_members]
  rfl

theorem relinks_pair {t c : Nat} (hc : m.geo.IsCluster c) (hne : t ≠ c) :
    Relinks m tbl (overlaid m.geo.copies (Fat.groupEntries ((ClusterGroup.new c).add c) (some t))
      (View.groupValue m ((ClusterGroup.new c).add c) (some m.geo.kind.endOfChain) (some t)) tbl)
        [t, c] := by
  rw [single_entries]
  refine ⟨fun step hstep => ?_, fun step hstep x hx => View.overlaid_not_mem
    (fun hin => hx ?_) step⟩
  · refine isChain_cons_cons.mpr ⟨?_, isChain_pair.mpr ?_⟩
    · rw [View.overlaid_mem hstep (by simp), View.groupValue, if_pos (by simp), single_lowest,
        Medium.cluster_and_mask hc]
    · rw [View.overlaid_mem hstep (by simp), View.groupValue, if_neg (by simpa using hne.symm),
        single_members, View.valueOf,
        if_neg not_mem_nil, Option.getD_some, Medium.endOfChain_and_mask]
  · rw [mem_pair] at hin ⊢
    exact hin.symm

theorem fits_pair {t c : Nat} (hbs : 0 < m.blockSize) (ht : m.geo.IsCluster t)
    (hc : m.geo.IsCluster c) (hblock : m.SameBlock t c) :
    (∀ x ∈ Fat.groupEntries ((ClusterGroup.new c).add c) (some t), m.geo.IsCluster x) ∧
      ∀ j < m.geo.copies, Fat.Fits m ((ClusterGroup.new c).add c) (some t) j := by
  refine ⟨fun x hx => ?_, fun j hj => Medium.fits_of_sameBlock hbs (fun x hx => ?_) hj⟩
  · rw [single_entries, mem_pair] at hx
    rcases hx with rfl | rfl
    · exact hc
    · exact ht
  · rw [single_entries, mem_pair] at hx
    rw [single_lowest]
    rcases hx with rfl | rfl
    · exact hblock.symm.trans hblock
    · exact hblock

theorem idle_linkAfter (hno : ¬ Faulty A) (hv : v.Idle) {t c : Nat} {share : Bool}
    (ht : m.geo.IsCluster t) (hc : m.geo.IsCluster c)
    (hne : t ≠ c) (hshare : share = true → m.SameBlock t c) :
    Triple (m.At A rest v) (linkAfter share t c m.geo.kind.endOfChain)
      (fun _ => m.Is A rest fun v' => v'.Idle ∧ Relinks m v.tbl v'.tbl [t, c]) fun _ _ =>
        False := by
  refine Triple.ite (fun hyes => ?_) fun _ => ?_
  · refine Triple.of_forall fun vol₀ hat₀ => Triple.pre ?_ fun vol heq =>
      show m.At A rest _ vol from heq ▸ hat₀
    obtain ⟨hentries, hfits⟩ := fits_pair (Medium.at_pos hat₀) ht hc (hshare hyes)
    refine (idle_patch hno hv (some m.geo.kind.endOfChain)
      (by rw [single_members]; exact cons_ne_nil _ _) hentries
      hfits).weaken (fun _ _ h => h.mono fun v' hv' => ⟨hv'.1, ?_⟩) fun _ _ h => h
    rw [hv'.2.2]
    exact relinks_pair hc hne
  · refine Triple.bind (Q := fun _ => m.Is A rest fun v' => v'.Idle ∧ Relinks m v.tbl v'.tbl [c])
      ((idle_set hno hv c _).weaken
        (fun _ _ h => h.2.mono fun v' hv' => ⟨hv'.1, relinks_single hv'.2.2⟩) fun _ _ h =>
        h.1 hc) fun _ => Medium.is_intro fun v' hv' => ?_
    refine (idle_set hno hv'.1 t c).weaken (fun _ _ h => h.2.mono fun v'' hv'' => ⟨hv''.1, ?_⟩)
      fun _ _ h => h.1 ht
    rw [hv''.2.2]
    exact relinks_cons hv'.2 ht (by rwa [mem_singleton]) (cons_ne_nil _ _) rfl
      (Medium.cluster_and_mask hc)

theorem idle_allocateRunAfter (hno : ¬ Faulty A) (hv : v.Idle) (hfull : FullRight m v)
    (hheld : v.held = some Held.none)
    {t : Nat} (ht : m.geo.IsCluster t) (hend : Fat.link m v.tbl t = .ok none) {count : Nat}
    (hcount : count ≠ 0) :
    Triple (m.At A rest v) (allocateRunAfter t count) (Taken m A rest count (some t) v)
      (NotTaken m A rest count v) := by
  have hused := Medium.ne_zero_of_link hend
  have hread {α : Type} {f : Option Nat → Prog Vol Stop α} {Q : α → Vol → Prop}
      {E : Stop → Vol → Prop}
        (h : Triple (m.At A rest v) (f none) Q E) :
        Triple (m.At A rest v) ((reading fun fat => fat.next t) >>= f) Q E := by
    refine Triple.bind (Q := fun next vol => next = none ∧ m.At A rest v vol)
      ((at_reading fun fat hgeo => Fat.shown_next hgeo t).weaken
        (fun next _ h => ⟨?_, h.2⟩) fun _ _ h => ?_)
        fun next => Triple.assume fun hnext => hnext ▸ h
    · have heq := h.1.2.symm.trans hend
      cases heq
      rfl
    · rcases h.1 with hfaulty | hout | ⟨err, herr⟩
      · exact absurd hfaulty hno
      · exact absurd ht hout
      · have heq := herr.symm.trans hend
        cases heq
  have hgets {α : Type} {f : Option Held → Prog Vol Stop α} {Q : α → Vol → Prop}
      {E : Stop → Vol → Prop}
        (h : Triple (m.At A rest v) (f (some Held.none)) Q E) :
        Triple (m.At A rest v) ((Prog.gets fun vol : Vol => vol.held) >>= f) Q E := by
    refine Triple.bind (Q := fun held vol => held = some Held.none ∧ m.At A rest v vol)
      (Triple.gets fun vol hat => ⟨hat.held.trans hheld, hat⟩) fun held =>
        Triple.assume fun heq => heq ▸ h
  refine Triple.ite (fun hone => ?_) fun hone => ?_
  · subst hone
    refine hgets (Triple.ite (fun h => absurd rfl h) fun _ => hread ?_)
    refine Triple.bind (idle_findFree hno hv hfull) fun c =>
      Triple.assume fun ⟨hle, hfree, hfirst⟩ => ?_
    refine Triple.bind (Medium.at_setHeld _) fun _ => Medium.at_getState fun dirty info =>
      Medium.at_size fun hbs => ?_
    intro vol hat
    have hmarked : (v.fat.marked dirty info).geo = m.geo := hat.geo
    have hne : t ≠ c := fun heq => hused (heq ▸ hfree.2)
    refine Triple.bind (Q := fun _ => m.Is A rest fun v' => v'.Idle ∧
      Relinks m v.tbl v'.tbl [t, c]) ?_ (fun _ => ?_) vol hat
    · rw [hmarked]
      exact (idle_linkAfter hno (hv.holding _) ht hfree.1 hne fun h =>
        (Medium.sameFatBlock_iff hmarked hbs).mp h).weaken
        (fun _ _ h => h) fun _ _ h => h.elim
    · refine Triple.bind (is_setNextFree taken_searched c) fun _ =>
        Triple.bind is_setInfoDirty fun _ =>
        Triple.pure fun vol h => ?_
      exact ⟨hle, by rw [hfirst]; rfl, by rwa [hfirst]⟩
  · refine hgets (Triple.ite (fun h => absurd h (by simp [hcount])) fun _ => hread ?_)
    refine idle_allocateRunInner hno hv hfull count fun t' ht' => ?_
    cases ht'
    exact ⟨ht, hused, by omega⟩

end Vol

end Hadris

namespace Hadris

open List

/-- A driver between calls, none of which left anything to be completed. -/
structure Vol.Idle (vol : Vol) : Prop where
  valid : vol.state.geo.Valid
  fits : vol.state.geo.dataEnd ≤ vol.io.dev.size
  buffer : Io.Coherent vol.io
  split : vol.state.split = none
  unmirrored : vol.state.unmirrored = none

theorem Vol.Idle.medium {A : Outcome Stop → Prop} {vol : Vol} (h : vol.Idle)
    (hA : ∀ o ∈ vol.io.dev.script, A o) :
    ∃ m : Medium, m.geo = vol.state.geo ∧
      m.At A vol.io.dev.bytes ⟨m.geo.value vol.io.dev.bytes, vol.state, vol.held⟩ vol :=
  ⟨⟨vol.state.geo, vol.io.dev.blockSize, vol.io.dev.blockCount, h.valid, h.fits⟩, rfl,
    ⟨vol.io.dev.bytes, ⟨fun _ _ => rfl, fun _ _ _ _ => rfl, fun _ _ _ _ => rfl⟩, h.buffer,
      rfl, rfl, rfl, hA⟩, rfl,
    ⟨vol.state.dirty, vol.state.infoDirty, rfl⟩, rfl⟩

theorem Opened.idle {io : Io} {vol : Vol} (h : Opened io vol) : vol.Idle := by
  obtain ⟨m, hgeo, hat⟩ := h.medium (A := fun _ => True) fun _ _ => trivial
  obtain ⟨img, -, hio⟩ := hat.io
  refine ⟨hgeo ▸ m.valid, ?_, hio.1, h.mounted.2.1.split, h.mounted.2.1.unmirrored⟩
  rw [Device.size, hio.2.blockSize, hio.2.blockCount, ← hgeo]
  exact m.fits

namespace Geometry

variable {geo : Geometry} {rest img : Nat → UInt8} {tbl : Nat → Nat → Nat}

/-- `img'` is `img` with the clusters of `chain` linked in this order and ended, in all
FAT copies written: every other entry is the same, and so are the bits FAT32 reserves and
all bytes that are no part of these entries and hold no clean bit. -/
structure Relinked (geo : Geometry) (img img' : Nat → UInt8) (chain : List Nat) : Prop where
  order : ∀ step < geo.copies, (chain ++ [geo.kind.endOfChain]).IsChain fun a b =>
    geo.value img' step a = b
  others : ∀ step < geo.copies, ∀ c, geo.IsCluster c → c ∉ chain →
    geo.value img' step c = geo.value img step c
  high : ∀ step < geo.copies, ∀ c, geo.IsCluster c →
    geo.entry img' step c / (geo.kind.mask + 1) = geo.entry img step c / (geo.kind.mask + 1)
  outside : ∀ a, geo.Outside a → img' a = img a

def freeFrom (geo : Geometry) (img : Nat → UInt8) (start : Nat) : List Nat :=
  ((List.range (geo.maxCluster - 1)).map (Vol.cyclicAt (geo.maxCluster - 1) start)).filter
    fun c => geo.value img 0 c = 0

end Geometry

namespace Vol

open Device (Faulty)
open Medium (Relinks)
open Prog (Triple)

/-- What an allocation of `count` clusters after `tail` comes to: where fewer are free it
says so and changes no entry, else the first free ones from the hint on are linked, in this
order. -/
structure Allocates (vol : Vol) (count : Nat) (tail : Option Nat) (r : Except Stop Nat × Vol) :
    Prop where
  noSpace : r.1 = .error (.ofKind .noSpace) ↔
    vol.state.geo.freeCount (vol.state.geo.value vol.io.dev.bytes 0) < count
  unchanged : r.1 = .error (.ofKind .noSpace) →
    vol.state.geo.Relinked vol.io.dev.bytes r.2.io.dev.bytes []
  linked : r.1 ≠ .error (.ofKind .noSpace) →
    let chain :=
      (vol.state.geo.freeFrom vol.io.dev.bytes
        (clampCluster vol.state vol.state.nextFree - firstDataCluster)).take count
    r.1 = .ok (chain.headD 0) ∧ vol.state.geo.Relinked vol.io.dev.bytes r.2.io.dev.bytes
      (tail.toList ++ chain)

variable {m : Medium} {A : Outcome Stop → Prop} {vol : Vol} {img : Nat → UInt8} {v : View}
  {chain : List Nat} {count : Nat}
variable {tail : Option Nat}

theorem isChain_concat_imp {R S : Nat → Nat → Prop} {l : List Nat} {d : Nat}
    (h : (l ++ [d]).IsChain R) (himp : ∀ a ∈ l, ∀ b, R a b → S a b) : (l ++ [d]).IsChain S := by
  rw [List.isChain_append] at h ⊢
  refine ⟨h.1.imp_of_mem_imp fun a b ha _ => himp a ha b, .singleton d, fun a ha b hb =>
    himp a ?_ b (h.2.2 a ha b hb)⟩
  exact mem_of_mem_getLast? ha

theorem relinked_of_at {v' : View} (hat : m.At A img v' vol)
    (hchain : ∀ c ∈ chain, m.geo.IsCluster c)
    (h : Relinks m (m.geo.value img) v'.tbl chain) :
    m.geo.Relinked img vol.io.dev.bytes chain := by
  obtain ⟨img', hshows, hio⟩ := hat.io
  rw [hio.2.bytes]
  refine ⟨fun step hstep => ?_, fun step hstep c hc hout => ?_, hshows.high, hshows.outside⟩
  · refine isChain_concat_imp (h.order step hstep) fun a ha b hab => ?_
    rw [hshows.inside step hstep a (hchain a ha), hab]
  · rw [hshows.inside step hstep c hc, h.others step hstep c hout]

theorem firstFree_eq : firstFree m count v = ((((List.range (m.geo.maxCluster - 1)).map
    (cyclicAt (m.geo.maxCluster - 1) v.hint)).filter fun c => v.tbl 0 c = 0).take count) := by
  rw [firstFree, frees, total, range_eq_range']

theorem allocates_of_triple {x : Prog Vol Stop Nat} (hgeo : m.geo = vol.state.geo)
    (hat : m.At A vol.io.dev.bytes ⟨m.geo.value vol.io.dev.bytes, vol.state, vol.held⟩ vol)
    (htail : ∀ t ∈ tail, m.geo.IsCluster t)
    (h : Triple (m.At A vol.io.dev.bytes ⟨m.geo.value vol.io.dev.bytes, vol.state, vol.held⟩) x
      (Taken m A vol.io.dev.bytes count tail ⟨m.geo.value vol.io.dev.bytes, vol.state, vol.held⟩)
      (NotTaken m A vol.io.dev.bytes count ⟨m.geo.value vol.io.dev.bytes, vol.state, vol.held⟩)) :
    vol.Allocates count tail (x.run vol) := by
  have hrun := h vol hat
  have hlt := hint_lt (v := ⟨m.geo.value vol.io.dev.bytes, vol.state, vol.held⟩) hat.geo
  rcases hres : x.run vol with ⟨e | head, vol'⟩ <;> rw [hres] at hrun
  · obtain ⟨hfew, rfl, v', hv', hat'⟩ := hrun
    rw [hgeo] at hfew
    refine ⟨⟨fun _ => hfew, fun _ => rfl⟩, fun _ => ?_, fun hne => absurd rfl hne⟩
    rw [← hgeo]
    exact relinked_of_at hat' (fun c hc => absurd hc not_mem_nil)
      ⟨fun _ _ => .singleton _, fun step _ c _ => by rw [hv'.2]⟩
  · obtain ⟨hmany, rfl, v', ⟨-, hlinks⟩, hat'⟩ := hrun
    rw [hgeo] at hmany
    have hchain : firstFree m count ⟨m.geo.value vol.io.dev.bytes, vol.state, vol.held⟩ =
        (vol.state.geo.freeFrom vol.io.dev.bytes
          (clampCluster vol.state vol.state.nextFree - firstDataCluster)).take count := by
      rw [firstFree_eq, hgeo]
      rfl
    have hcluster : ∀ c ∈ tail.toList ++ firstFree m count
        ⟨m.geo.value vol.io.dev.bytes, vol.state, vol.held⟩,
          m.geo.IsCluster c := by
      intro c hc
      rcases mem_append.mp hc with htail' | hfree
      · exact htail c (Option.mem_toList.mp htail')
      · exact (free_of_mem_frees hlt (Nat.zero_add _).le (mem_of_mem_take hfree)).1
    have hrelinked := relinked_of_at hat' hcluster hlinks
    rw [hchain, hgeo] at hrelinked
    refine ⟨⟨nofun, fun hfew => absurd hfew (not_lt.mpr hmany)⟩, nofun, fun _ => ⟨?_, hrelinked⟩⟩
    rw [hchain]

end Vol

theorem not_faulty_done : ¬ Device.Faulty fun o : Outcome Stop => o = .done := by
  rintro ⟨e, landed, hA⟩
  cases hA

/-- Allocation of clusters without a failing device call: `allocate_run` and
`allocate_run_after` link the first free clusters from the hint on, `count` of them, in the
order found, or find that fewer are free and change no entry. What a failed call left to be
completed has been completed, and a driver that knows no cluster to be free is right. -/
theorem allocation_exact {vol : Vol} (h : vol.Idle) (hdone : ∀ o ∈ vol.io.dev.script, o = .done)
    (hfull : vol.state.full = true →
      vol.state.geo.freeCount (vol.state.geo.value vol.io.dev.bytes 0) = 0) (count : Nat) :
    vol.Allocates count none ((Vol.allocateRun count).run vol) ∧
      ∀ tail, vol.held = some Held.none → vol.state.geo.IsCluster tail →
        vol.state.geo.kind.next (vol.state.geo.value vol.io.dev.bytes 0 tail)
          vol.state.geo.maxCluster = .ok none →
        count ≠ 0 → vol.Allocates count (some tail)
          ((Vol.allocateRunAfter tail count).run vol) := by
  obtain ⟨m, hgeo, hat⟩ := h.medium hdone
  have hno := not_faulty_done
  have hidle : View.Idle ⟨m.geo.value vol.io.dev.bytes, vol.state, vol.held⟩ :=
    ⟨h.split, h.unmirrored⟩
  have hright : Vol.FullRight m ⟨m.geo.value vol.io.dev.bytes, vol.state, vol.held⟩ := by
    rw [Vol.FullRight, hgeo]
    exact hfull
  refine ⟨Vol.allocates_of_triple hgeo hat (fun t ht => by cases ht)
    (Vol.idle_allocateRunInner hno hidle hright count fun t ht => by cases ht),
      fun tail hheld htail hend hcount => ?_⟩
  rw [← hgeo] at htail hend
  refine Vol.allocates_of_triple hgeo hat (fun t ht => ?_)
    (Vol.idle_allocateRunAfter hno hidle hright hheld htail hend hcount)
  cases ht
  exact htail

/-- A volume of 10 clusters, of which the first is the tail of a chain, and the clusters
after it are linked to it. -/
@[irreducible] def sampleTailed : Io :=
  sampleIo 13 [(12, 2), (13, 1), (14, 1), (16, 1), (17, 16), (19, 13), (22, 1), (510, 0x55),
    (511, 0xAA), (515, 0xF8), (516, 0x0F)]

@[irreducible] def sampleVolTailed : Vol :=
  { sampleVol sampleTailed sampleGeo12 false with held := some Held.none }

theorem opened_tailed : Opened sampleTailed sampleVolTailed := by
  have h : Opened sampleTailed (sampleVol sampleTailed sampleGeo12 false) := by
    unfold sampleTailed
    exact opened_sample (by decide +kernel)
  unfold sampleVolTailed
  exact ⟨h.fresh, h.length, h.log, h.mount⟩

theorem allocation_exact_sample :
    sampleVolTailed.Allocates 3 none ((Vol.allocateRun 3).run sampleVolTailed) ∧
    sampleVolTailed.Allocates 4 (some 2) ((Vol.allocateRunAfter 2 4).run sampleVolTailed) := by
  have hscript : sampleVolTailed.io.dev.script = [] := by decide +kernel
  have h := allocation_exact opened_tailed.idle (fun o ho => by rw [hscript] at ho; cases ho)
    (fun hfull => absurd hfull (by decide +kernel))
  exact ⟨(h 3).1, (h 4).2 2 (by decide +kernel) ⟨by decide, by decide +kernel⟩
    (by decide +kernel) (by decide)⟩

end Hadris
