import Mathlib.Data.List.Find
import Hadris.Directory.Room

namespace Hadris.Directory.Volume

open List

variable {cfg : Config} {wanted : Wanted} {scan final : Scan} {slots : List Slot} {slot : Nat}
  {short name : ShortName} {stored : List ShortName}

def storedNames (skip : Skip) : Nat → List Slot → List ShortName
  | _, [] => []
  | _, .endMark :: _ => []
  | slot, .short entry :: rest =>
    if skip.covers slot || entry.isLabel then storedNames skip (slot + 1) rest
    else entry.name :: storedNames skip (slot + 1) rest
  | slot, .free :: rest => storedNames skip (slot + 1) rest
  | slot, .long _ :: rest => storedNames skip (slot + 1) rest

def numbered (cfg : Config) (text : Text) : List ShortName :=
  (range' 1 255).map (candidate text cfg.page (fold cfg))

def freeTail (cfg : Config) (text : Text) (stored : List ShortName) : Option ShortName :=
  (numbered cfg text).find? (!stored.contains ·)

def needsTail (new : NewName) (stored : List ShortName) : Bool :=
  !(new.lossless && !stored.contains (new.candidate 0))

theorem storedNames_tail {tail : List Slot} {skip : Skip} (hmark : Slot.endMark ∉ slots)
    (hend : ∀ slot ∈ tail.head?, slot = .endMark) (slot : Nat) :
    storedNames skip slot (slots ++ tail) = storedNames skip slot slots := by
  induction slots generalizing slot with
  | nil =>
    cases tail with
    | nil => rfl
    | cons first rest =>
      obtain rfl := hend first rfl
      rfl
  | cons first rest ih =>
    have ih := ih (fun hmem => hmark (mem_cons_of_mem _ hmem)) (slot + 1)
    cases first with
    | endMark => exact absurd mem_cons_self hmark
    | free => exact ih
    | long part => exact ih
    | short entry => rw [cons_append, storedNames, storedNames, ih]

theorem shortTaken_iff (skip : Skip) (name : ShortName) :
    shortTaken skip name slot slots = true ↔ name ∈ storedNames skip slot slots := by
  induction slots generalizing slot with
  | nil => exact iff_of_false Bool.false_ne_true not_mem_nil
  | cons first rest ih =>
    cases first with
    | endMark => exact iff_of_false Bool.false_ne_true not_mem_nil
    | free => exact ih
    | long part => exact ih
    | short entry =>
      rw [shortTaken, storedNames, Bool.or_eq_true, ih]
      cases hskip : (skip.covers slot || entry.isLabel) with
      | true =>
        rw [if_pos rfl]
        refine or_iff_right fun h => ?_
        simp only [Bool.and_eq_true, Bool.not_eq_true'] at h
        rw [h.1.2, h.2] at hskip
        cases hskip
      | false =>
        obtain ⟨hcovers, hlabel⟩ := (Bool.or_eq_false_iff ..).mp hskip
        rw [hcovers, hlabel, Bool.not_false, Bool.and_true, Bool.and_true,
          if_neg Bool.false_ne_true, mem_cons, beq_iff_eq, eq_comm (a := name)]

/-- A slot of a dense directory with the short names `names`. -/
def Known (names : List ShortName) (slot : Slot) : Prop :=
  ∃ entry, slot = .short entry ∧
    (entry.isLabel = true ∨ entry.name.isPlain = true ∧ entry.name ∈ names)

theorem insert_subset (names : List ShortName) (name : ShortName) :
    names ⊆ AppendIndex.insert names name ∧ name ∈ AppendIndex.insert names name := by
  rw [AppendIndex.insert]
  split
  · rename_i h
    exact ⟨List.Subset.refl _, contains_iff_mem.mp h⟩
  · exact ⟨subset_cons_self .., mem_cons_self⟩

namespace Scan

theorem noteName_some {entry : ShortEntry} {names names' : List ShortName}
    (h : noteName cfg entry names = some names') :
    names ⊆ names' ∧
      (entry.isLabel = true ∨ entry.name.isPlain = true ∧ entry.name ∈ names') := by
  rw [noteName] at h
  split at h
  · rename_i hlabel
    cases h
    exact ⟨List.Subset.refl _, .inl hlabel⟩
  · split at h
    · cases h
    · rename_i hplain
      split at h
      · cases h
      · cases h
        obtain ⟨hsubset, hmem⟩ := insert_subset names entry.name
        refine ⟨hsubset, .inr ⟨?_, hmem⟩⟩
        simp only [Bool.or_eq_true, not_or, Bool.not_eq_true, Bool.not_eq_false'] at hplain
        rw [ShortName.isPlain, bne, hplain.1.1, hplain.1.2]
        rfl

theorem Scanned.taken_iff (h : Scanned cfg wanted slots scan final) (bit : Nat) :
    final.taken bit = true ↔ scan.taken bit = true ∨ bit < candidateCount ∧
      wanted.new.candidate bit ∈ storedNames wanted.skip scan.slot slots := by
  induction h with
  | nil => exact (or_iff_left fun h => not_mem_nil h.2).symm
  | @cons first rest scan scan' final free hended hslot looked _ ih =>
    rw [track_taken, track_slot, looked.slot_eq] at ih
    rw [ih]
    cases looked with
    | reused _ _ hrun =>
      cases first with
      | endMark => exact absurd rfl hslot
      | free => exact Iff.rfl
      | long part => exact Iff.rfl
      | short entry =>
        have hcovers : (wanted.skip.covers scan.slot || entry.isLabel) = true := by
          rw [Skip.covers, hrun, Bool.or_true, Bool.true_or]
        rw [storedNames, if_pos hcovers]
    | ended _ _ _ hended' =>
      rw [hended] at hended'
      cases hended'
    | endMark => exact absurd rfl hslot
    | free => exact Iff.rfl
    | long => exact Iff.rfl
    | skipped entry scan _ hskip =>
      rw [storedNames, if_pos (by rwa [Bool.or_eq_true])]
    | other entry scan _ hskip =>
      rw [storedNames, if_neg (by rw [hskip.1, hskip.2]; exact Bool.false_ne_true)]
      simp only [Bool.or_eq_true, Bool.and_eq_true, decide_eq_true_eq, beq_iff_eq, mem_cons]
      rw [or_assoc, ← and_or_left, eq_comm (a := entry.name)]

theorem Scanned.fresh (h : Scanned cfg wanted slots scan final)
    (hcheck : wanted.checkExists = true)
    (hskip : wanted.skip = .none) {tail : List Slot} (hend : ∀ slot ∈ tail.head?, slot = .endMark)
    (start : Nat) :
    ∀ loc ∈ listing start scan.long scan.slot (slots ++ tail),
      named cfg wanted.text loc = false := by
  induction h generalizing start with
  | nil =>
    intro loc hloc
    cases tail with
    | nil => exact absurd hloc not_mem_nil
    | cons first rest =>
      obtain rfl := hend first rfl
      exact absurd hloc not_mem_nil
  | cons hended hslot looked _ ih =>
    rw [track_long, track_slot, looked.slot_eq] at ih
    cases looked with
    | reused _ _ hrun =>
      rw [hskip] at hrun
      cases hrun
    | ended _ _ _ hended' =>
      rw [hended] at hended'
      cases hended'
    | endMark => exact absurd rfl hslot
    | free => exact ih start
    | long => exact ih _
    | skipped entry scan _ hcovers =>
      have hlabel : entry.isLabel = true := by
        rw [hskip] at hcovers
        exact hcovers.resolve_left Bool.false_ne_true
      have hvisible : ¬entry.isVisible = true := by
        rw [ShortEntry.isVisible, hlabel]
        exact Bool.false_ne_true
      rw [cons_append, listing, if_neg hvisible]
      exact ih start
    | other entry scan _ _ hno =>
      rw [cons_append, listing]
      split
      · rename_i hvisible
        intro loc hloc
        rcases mem_cons.mp hloc with rfl | hloc
        · exact hno hcheck hvisible
        · exact ih _ loc hloc
      · exact ih start

theorem Scanned.dense (h : Scanned cfg wanted slots scan final) (hrun : wanted.skip.run = none)
    {names : List ShortName} (hnames : final.append = some names) :
    ∃ before, scan.append = some before ∧ before ⊆ names ∧ ∀ slot ∈ slots, Known names slot := by
  induction h with
  | nil => exact ⟨names, hnames, List.Subset.refl _, fun _ h => absurd h not_mem_nil⟩
  | @cons first rest scan scan' final free hended hslot looked _ ih =>
    obtain ⟨after, hafter, hsubset, hknown⟩ := ih hnames
    rw [track_append] at hafter
    have hnote : ∀ entry, scan.append.bind (noteName cfg entry) = some after →
        ∃ before, scan.append = some before ∧ before ⊆ names ∧
          ∀ slot ∈ .short entry :: rest, Known names slot := by
      intro entry hbind
      obtain ⟨before, hbefore, hnote⟩ := Option.bind_eq_some_iff.mp hbind
      obtain ⟨hsub, hentry⟩ := noteName_some hnote
      refine ⟨before, hbefore, fun _ hmem => hsubset (hsub hmem),
        forall_mem_cons.mpr ⟨?_, hknown⟩⟩
      exact ⟨entry, rfl, hentry.imp_right fun h => ⟨h.1, hsubset h.2⟩⟩
    cases looked with
    | reused _ _ hin =>
      rw [inRun_none hrun] at hin
      cases hin
    | ended _ _ _ hended' =>
      rw [hended] at hended'
      cases hended'
    | endMark => exact absurd rfl hslot
    | free => cases hafter
    | long => cases hafter
    | skipped entry => exact hnote entry hafter
    | other entry => exact hnote entry hafter

theorem place_room {dir : DirStart} {items : List Item} {new : NewName} {k start grow : Nat}
    (h : Tracked new.slots ((itemSlots items).map (· == .free) ++ replicate k true) scan)
    (hplace : place cfg dir new scan = .ok (start, grow)) : Room items start new.slots := by
  rw [place] at hplace
  split at hplace
  · rename_i start' hfound
    cases hplace
    obtain ⟨before, after, hflags, hlast, rfl⟩ := h.found _ hfound
    exact room_of_flags (.inl rfl) new.slots_pos hflags hlast
  · rename_i hfound
    dsimp only at hplace
    generalize hfirst : (if scan.runLen = 0 then scan.slot else scan.runStart) = first at hplace
    split at hplace
    · cases hplace
    · cases hplace
      obtain ⟨before, hflags, hlast, hstart⟩ := h.run
      have hroom : Room items before.length new.slots :=
        room_of_flags (.inr ⟨Nat.le_of_lt (h.short hfound), rfl⟩) new.slots_pos
          (by rw [append_nil]; exact hflags) hlast
      rw [← hfirst]
      split
      · rename_i hzero
        rwa [h.slot, hflags, hzero, replicate_zero, append_nil]
      · rename_i hne
        rwa [hstart hne]

end Scan

theorem candidate_first {suffix : Nat} (h : 0 < suffix) (text : Text) (page : CodePage)
    (fold : UInt16 → UInt16) : (candidate text page fold suffix).first ≠ 0 := by
  obtain ⟨name, base, ext, -, hname, hmade⟩ := candidate_made page text h fold
  rw [hname]
  exact hmade.first_ne.1

theorem start_taken (hnew : NewName.new wanted.text cfg.page (fold cfg) = .ok wanted.new)
    (append : Option (List ShortName)) (bit : Nat) :
    (Scan.start wanted append).taken bit = false := by
  have hcandidate := (NewName.new_ok hnew).2.2.2.1 (candidateCount - 1) (by decide)
  have hfirst := candidate_first (show 0 < candidateCount - 1 by decide) wanted.text cfg.page
    (fold cfg)
  rw [← hcandidate] at hfirst
  rw [Scan.start, Bool.and_eq_false_iff]
  exact .inr (beq_eq_false_iff_ne.mpr hfirst)

/-- The short name of a new entry. -/
def Picked (cfg : Config) (new : NewName) (stored : List ShortName) (short : ShortName) : Prop :=
  if needsTail new stored then new.shortOnly = false ∧ freeTail cfg new.text stored = some short
  else short = new.candidate 0

theorem hashedShort_ok {left suffix : Nat} (hsuffix : 0 < suffix)
    (hslots : ∀ name, shortTaken wanted.skip name 0 slots = stored.contains name)
    (h : hashedShort cfg wanted slots left suffix = .ok short) :
    ((range' suffix left).map (candidate wanted.text cfg.page (fold cfg))).find?
      (!stored.contains ·) = some short := by
  induction left generalizing suffix with
  | zero => cases h
  | succ left ih =>
    obtain ⟨name, -, -, hname, hcandidate, -⟩ :=
      candidate_made cfg.page wanted.text hsuffix (fold cfg)
    rw [hashedShort, hname] at h
    dsimp only at h
    rw [hslots, ← hcandidate] at h
    rw [range'_succ, map_cons, find?_cons]
    cases hstored : stored.contains (candidate wanted.text cfg.page (fold cfg) suffix) with
    | true =>
      rw [hstored, if_pos rfl] at h
      exact ih (Nat.succ_pos _) h
    | false =>
      rw [hstored, if_neg Bool.false_ne_true] at h
      exact congrArg some (Except.ok.inj h)

theorem pickShort_ok (hnew : NewName.new wanted.text cfg.page (fold cfg) = .ok wanted.new)
    (htaken : ∀ bit < candidateCount,
      scan.taken bit = stored.contains (wanted.new.candidate bit))
    (hslots : ∀ name, shortTaken wanted.skip name 0 slots = stored.contains name)
    (h : pickShort cfg wanted slots scan = .ok short) : Picked cfg wanted.new stored short := by
  obtain ⟨htext, -, -, hcandidate, -⟩ := NewName.new_ok hnew
  rw [pickShort, htaken 0 (by decide)] at h
  rw [Picked, needsTail]
  split at h
  · rename_i hbasis
    rw [hbasis]
    exact (Except.ok.inj h).symm
  · rename_i hbasis
    rw [Bool.not_eq_true] at hbasis
    rw [hbasis, Bool.not_false, if_pos rfl]
    split at h
    · cases h
    · rename_i honly
      refine ⟨Bool.not_eq_true _ ▸ honly, ?_⟩
      have hbits : ∀ bit ∈ range' 1 (candidateCount - 1), (!scan.taken bit) =
          ((!stored.contains ·) ∘ candidate wanted.text cfg.page (fold cfg)) bit := by
        intro bit hbit
        have hlt : bit < candidateCount := by
          rw [mem_range'_1, candidateCount] at hbit
          rw [candidateCount]
          omega
        rw [htaken bit hlt, hcandidate bit hlt]
        rfl
      have hsplit : range' 1 255 = range' 1 (candidateCount - 1) ++
          range' candidateCount (256 - candidateCount) := rfl
      rw [freeTail, numbered, htext, hsplit, map_append, find?_append, find?_map,
        ← find?_congr hbits]
      split at h
      · rename_i bit hfind
        have hlt : bit < candidateCount := by
          have hmem := mem_of_find?_eq_some hfind
          rw [mem_range'_1, candidateCount] at hmem
          rw [candidateCount]
          omega
        rw [hfind, ← Except.ok.inj h, hcandidate bit hlt]
        rfl
      · rename_i hfind
        rw [hfind]
        exact hashedShort_ok (by decide) hslots h

end Hadris.Directory.Volume

namespace Hadris.Directory.Volume

open List
open Padding

variable {cfg : Config} {wanted : Wanted} {scan : Scan} {slots : List Slot}
  {items items' : List Item}
  {vol vol' : Volume} {dir : DirStart} {plan : Plan} {names : List ShortName} {n : Nat}

def used (slots : List Slot) : List Slot := (reached slots).takeWhile (· ≠ .endMark)

theorem used_eq (h : Tidy items slots) : used slots = itemSlots items := by
  obtain ⟨-, rest, hreached, hend⟩ := h
  have hall : ∀ slot ∈ itemSlots items, decide (slot ≠ .endMark) = true := fun slot hslot =>
    decide_eq_true fun heq => notMem_endMark items (heq ▸ hslot)
  rw [used, hreached, takeWhile_append_of_pos hall]
  cases rest with
  | nil => exact append_nil _
  | cons first rest =>
    obtain rfl := hend first rfl
    rw [takeWhile_cons_of_neg (by decide), append_nil]

/-- A directory of short entries alone, whose names and end are known. -/
structure Dense (slots : List Slot) (names : List ShortName) (stop : Nat) : Prop where
  length : (used slots).length = stop
  known : ∀ slot ∈ used slots, Known names slot

/-- What a plan for a new name holds to; `items` are those of the directory once
the slots that count as free are. -/
structure Planned (cfg : Config) (slots : List Slot) (wanted : Wanted) (items : List Item)
    (plan : Plan) : Prop where
  room : Room items plan.start plan.slots
  slots_eq : plan.slots = wanted.new.slots
  picked : Picked cfg wanted.new (storedNames wanted.skip 0 (reached slots)) plan.short
  fresh : wanted.checkExists = true → ∀ loc ∈ visible slots, named cfg wanted.text loc = false
  ntCase : wanted.new.shortOnly = false → plan.ntCase = 0

/-- What a plan at an append index comes to. -/
theorem planAppend_cases {new : NewName} {index : AppendIndex}
    (h : (planAppend dir new index).run vol = (.ok plan, vol')) :
    new.candidate 0 ∉ index.names ∧ vol' = vol ∧ index.slot < maxDirEntries ∧
      plan.start = index.slot ∧ plan.slots = 1 ∧ plan.short = new.candidate 0 ∧
      (index.slot < (reached (vol.dirs dir)).length ∨ dir ≠ .fixed ∧ plan.grow = 1) := by
  rw [planAppend] at h
  split at h
  · cases h
  · rename_i hnames
    rw [contains_iff_mem] at hnames
    obtain ⟨available, vol₁, hget, h⟩ := Prog.bind_ok h
    cases hget
    split at h
    · cases h
    · rename_i hroom
      cases h
      rw [not_or, Nat.not_le, not_and] at hroom
      refine ⟨hnames, rfl, hroom.1, rfl, rfl, rfl, ?_⟩
      rcases Nat.lt_or_ge index.slot (reached (vol.dirs dir)).length with hlt | hge
      · exact .inl hlt
      · have hno := decide_eq_false (Nat.not_lt.mpr hge)
        exact .inr ⟨hroom.2 hno, if_neg (Bool.eq_false_iff.mp hno)⟩

/-- What a plan by a scan of the whole directory comes to. -/
theorem planScan_cases {eligible : Bool}
    (h : (planScan cfg dir wanted eligible).run vol = (.ok plan, vol')) :
    ∃ scan, Scan.loop cfg wanted (reached (vol.dirs dir))
        (Scan.start wanted (if eligible then some [] else none)) = .ok scan ∧
      place cfg dir wanted.new scan = .ok (plan.start, plan.grow) ∧
      pickShort cfg wanted (reached (vol.dirs dir)) scan = .ok plan.short ∧
      plan.slots = wanted.new.slots ∧ (wanted.new.shortOnly = false → plan.ntCase = 0) ∧
      vol' = { vol with
        appendIndex := scan.append.map fun names => ⟨dir, names, plan.start⟩ } := by
  obtain ⟨_, vol₁, hset, h⟩ := Prog.bind_ok h
  obtain ⟨slots, vol₂, hslots, h⟩ := Prog.bind_ok h
  cases hset
  cases hslots
  obtain ⟨scan, vol₃, hloop, h⟩ := Prog.bind_ok h
  obtain ⟨hscan, rfl⟩ := Prog.ofExcept_ok hloop
  obtain ⟨⟨start, grow⟩, vol₄, hplace, h⟩ := Prog.bind_ok h
  obtain ⟨hplaced, rfl⟩ := Prog.ofExcept_ok hplace
  obtain ⟨short, vol₅, hpick, h⟩ := Prog.bind_ok h
  obtain ⟨hpicked, rfl⟩ := Prog.ofExcept_ok hpick
  cases h
  exact ⟨scan, hscan, hplaced, hpicked, rfl,
    fun h => if_neg (by rw [h]; exact Bool.false_ne_true), rfl⟩

/-- A plan goes by the append index of the directory, for a name that is a short
name alone, or by a scan. -/
theorem plan_cases (h : (Volume.plan cfg dir wanted).run vol = (.ok plan, vol')) :
    (∃ index, vol.appendIndex = some index ∧ index.dir = dir ∧ wanted.new.shortOnly = true ∧
      wanted.skip.run = none ∧ (planAppend dir wanted.new index).run vol = (.ok plan, vol')) ∨
    ∃ eligible, (eligible = true → wanted.new.shortOnly = true) ∧
      (planScan cfg dir wanted eligible).run vol = (.ok plan, vol') := by
  obtain ⟨index, vol₁, hget, h⟩ := Prog.bind_ok h
  cases hget
  split at h
  · rename_i index hindex
    obtain ⟨hsome, heligible⟩ := Option.filter_eq_some_iff.mp hindex
    simp only [Bool.and_eq_true, beq_iff_eq, Option.isNone_iff_eq_none] at heligible
    obtain ⟨⟨⟨⟨-, honly⟩, -⟩, hrun⟩, hdir⟩ := heligible
    exact .inl ⟨index, hsome, hdir, honly, hrun, h⟩
  · refine .inr ⟨_, fun heligible => ?_, h⟩
    simp only [Bool.and_eq_true] at heligible
    exact heligible.1.1.2

/-- What a scan of a whole directory tells. -/
structure Looks (cfg : Config) (wanted : Wanted) (slots : List Slot)
    (append : Option (List ShortName)) (items : List Item) (scan : Scan) : Prop where
  tracked : ∃ k, Scan.Tracked wanted.new.slots
    ((itemSlots items).map (· == .free) ++ replicate k true) scan
  taken : ∀ bit, scan.taken bit = true ↔ (Scan.start wanted append).taken bit = true ∨
    bit < candidateCount ∧ wanted.new.candidate bit ∈ storedNames wanted.skip 0 (reached slots)
  fresh : wanted.checkExists = true → wanted.skip = .none →
    ∀ loc ∈ visible slots, named cfg wanted.text loc = false

theorem looks_of_loop {append : Option (List ShortName)} (htidy : Tidy items slots)
    (hblank : Blanked wanted.skip items items')
    (h : Scan.loop cfg wanted (reached slots) (Scan.start wanted append) = .ok scan) :
    Looks cfg wanted slots append items' scan := by
  obtain ⟨-, rest, hreached, hend⟩ := htidy
  rw [hreached] at h
  obtain ⟨mid, hscanned, hends⟩ := Scan.loop_scanned (notMem_endMark items) rfl h
  obtain ⟨htracked, -⟩ := hscanned.tracked (Scan.tracked_start append)
  rw [nil_append] at htracked
  change Scan.Tracked _ (Scan.freeFlags wanted.skip 0 _) mid at htracked
  have hmid : wanted.skip.inRun mid.slot = false := by
    rw [htracked.slot, length_freeFlags]
    exact hblank.inRun_end
  rw [hblank.freeFlags_eq] at htracked
  obtain ⟨k, -, hk, htaken, -⟩ := Scan.loop_tail hend hmid htracked hends
  refine ⟨⟨k, hk⟩, fun bit => ?_, fun hcheck hskip loc hloc => ?_⟩
  · rw [htaken, hscanned.taken_iff, hreached, storedNames_tail (notMem_endMark items) hend]
    rfl
  · rw [visible, hreached] at hloc
    exact hscanned.fresh hcheck hskip hend 0 loc hloc

theorem planScan_ok {eligible : Bool}
    (hnew : NewName.new wanted.text cfg.page (fold cfg) = .ok wanted.new)
    (hcheck : wanted.checkExists = true → wanted.skip = .none)
    (htidy : Tidy items (vol.dirs dir)) (hblank : Blanked wanted.skip items items')
    (h : (planScan cfg dir wanted eligible).run vol = (.ok plan, vol')) :
    Planned cfg (vol.dirs dir) wanted items' plan := by
  obtain ⟨scan, hscan, hplaced, hpicked, hslots, hcase, -⟩ := planScan_cases h
  have looks : Looks cfg wanted (vol.dirs dir) _ items' scan := looks_of_loop htidy hblank hscan
  obtain ⟨k, htracked⟩ := looks.tracked
  refine ⟨hslots ▸ Scan.place_room htracked hplaced, hslots, ?_,
    fun h => looks.fresh h (hcheck h), hcase⟩
  refine pickShort_ok hnew (fun bit hbit => ?_) (fun name => ?_) hpicked
  · rw [Bool.eq_iff_iff, looks.taken, start_taken hnew, contains_iff_mem,
      or_iff_right Bool.false_ne_true, and_iff_right hbit]
  · rw [Bool.eq_iff_iff, shortTaken_iff, contains_iff_mem]

theorem named_of_known {entry : NamedRun}
    (h : ∀ slot ∈ (Item.named entry).slots, Known names slot) :
    entry.long = none ∧ entry.entry.name.isPlain = true ∧ entry.entry.name ∈ names := by
  have hshort : entry.run = [] := by
    refine eq_nil_iff_forall_not_mem.mpr fun part hpart => ?_
    obtain ⟨_, hslot, -⟩ := h (.long part) (mem_append_left _ (mem_map_of_mem hpart))
    cases hslot
  have hlong : entry.long = none := by
    have hreads := entry.reads
    rw [hshort] at hreads
    generalize entry.long = long at hreads
    cases hreads
    rfl
  obtain ⟨_, hslot, hknown⟩ := h (.short entry.entry) (mem_append_right _ mem_cons_self)
  cases hslot
  refine ⟨hlong, hknown.resolve_left fun hlabel => ?_⟩
  have hvisible := entry.visible
  rw [ShortEntry.isVisible, hlabel] at hvisible
  cases hvisible

def keys (cfg : Config) (loc : Located) : List (List UInt16) :=
  entryKeys (fold cfg) cfg.page loc.long loc.entry

theorem locate_named_iff (entry : NamedRun) (start : Nat) (text : Text) :
    named cfg text (entry.locate start) = true ↔
      folded (fold cfg) text ∈ keys cfg (entry.locate start) := by
  obtain ⟨base, ext, hmade⟩ := entry.made
  refine Query.matches_iff hmade (fun units hunits => ?_) text
  have hreads := entry.reads
  change entry.long = some units at hunits
  generalize entry.run = run, entry.long = long at hreads hunits
  cases hreads with
  | short => cases hunits
  | long _ _ _ _ _ _ fits =>
    cases hunits
    exact fits

theorem named_iff {loc : Located} (htidy : Tidy items slots) (hloc : loc ∈ visible slots)
    (text : Text) : named cfg text loc = true ↔ folded (fold cfg) text ∈ keys cfg loc := by
  rw [htidy.visible_eq] at hloc
  obtain ⟨a, entry, b, -, -, hslot, hentry, hlong⟩ := mem_located hloc
  have hloc : loc = entry.locate loc.first := by
    rw [NamedRun.locate, ← hslot, ← hentry, ← hlong]
  rw [hloc]
  exact locate_named_iff entry loc.first text

theorem fresh_of_dense {text : Text} {new : NewName}
    (hnew : NewName.new text cfg.page (fold cfg) = .ok new) (honly : new.shortOnly = true)
    (htidy : Tidy items slots) (hknown : ∀ slot ∈ used slots, Known names slot)
    (hnames : new.candidate 0 ∉ names) :
    ∀ loc ∈ visible slots, named cfg text loc = false := by
  intro loc hloc
  rw [← Bool.not_eq_true, named_iff htidy hloc]
  rw [htidy.visible_eq] at hloc
  obtain ⟨a, entry, b, rfl, -, -, hentry, hlong⟩ := mem_located hloc
  have hslots : ∀ slot ∈ (Item.named entry).slots, Known names slot := fun slot hslot =>
    hknown slot (by
      rw [used_eq htidy, itemSlots_append, itemSlots_cons]
      exact mem_append_right _ (mem_append_left _ hslot))
  obtain ⟨hnone, hplain, hmem⟩ := named_of_known hslots
  rw [keys, hentry, hlong, hnone, entryKeys, Option.map_none, Option.toList_none, nil_append,
    mem_singleton]
  intro hkey
  rw [NewName.shortOnly, Bool.and_eq_true] at honly
  obtain ⟨base, ext, hmade, hascii, hfolded⟩ := NewName.lossless_made hnew honly.1
  obtain ⟨base', ext', hmade'⟩ := entry.made
  rw [← hfolded 0] at hkey
  rw [hmade.eq_of_folded hmade' hascii (hmade'.ascii hplain).2 hkey] at hnames
  exact hnames hmem

theorem storedNames_subset {skip : Skip} (h : ∀ slot ∈ slots, Known names slot) (slot : Nat) :
    storedNames skip slot slots ⊆ names := by
  induction slots generalizing slot with
  | nil => exact nil_subset _
  | cons first rest ih =>
    obtain ⟨⟨entry, rfl, hentry⟩, hrest⟩ := forall_mem_cons.mp h
    rw [storedNames]
    split
    · exact ih hrest (slot + 1)
    · rename_i hskip
      rw [Bool.or_eq_true, not_or] at hskip
      exact cons_subset.mpr ⟨(hentry.resolve_left hskip.2).2, ih hrest (slot + 1)⟩

theorem planAppend_ok {index : AppendIndex}
    (hnew : NewName.new wanted.text cfg.page (fold cfg) = .ok wanted.new)
    (honly : wanted.new.shortOnly = true) (htidy : Tidy items (vol.dirs dir))
    (hdense : Dense (vol.dirs dir) index.names index.slot)
    (h : (planAppend dir wanted.new index).run vol = (.ok plan, vol')) :
    Planned cfg (vol.dirs dir) wanted items plan := by
  obtain ⟨hnames, -, -, hstart, hone, hshort, -⟩ := planAppend_cases h
  have hslots : wanted.new.slots = 1 := by rw [NewName.slots, if_pos honly]
  have hstored : storedNames wanted.skip 0 (reached (vol.dirs dir)) ⊆ index.names := by
    have hknown := hdense.known
    rw [used_eq htidy] at hknown
    obtain ⟨-, rest, hreached, hend⟩ := htidy
    rw [hreached, storedNames_tail (notMem_endMark items) hend]
    exact storedNames_subset hknown 0
  refine ⟨⟨items, 0, [], (append_nil _).symm, ?_, .inr ⟨Nat.zero_le _, rfl⟩⟩,
    hone.trans hslots.symm, ?_, fun _ => fresh_of_dense hnew honly htidy hdense.known hnames,
    fun h => absurd (h.symm.trans honly) Bool.false_ne_true⟩
  · rw [← used_eq htidy, hdense.length, hstart]
  · rw [NewName.shortOnly, Bool.and_eq_true] at honly
    have hcontains : (storedNames wanted.skip 0 (reached (vol.dirs dir))).contains
        (wanted.new.candidate 0) = false := by
      rw [← Bool.not_eq_true, contains_iff_mem]
      exact fun hmem => hnames (hstored hmem)
    rw [Picked, needsTail, honly.1, hcontains]
    exact hshort

/-- An append index of the directory holds its names and its end. -/
def Indexed (vol : Volume) (dir : DirStart) : Prop :=
  ∀ index, vol.appendIndex = some index → index.dir = dir →
    Dense (vol.dirs dir) index.names index.slot

theorem plan_frame (h : (Volume.plan cfg dir wanted).run vol = (.ok plan, vol')) :
    vol'.dirs = vol.dirs ∧ ∀ index, vol'.appendIndex = some index → index.dir = dir := by
  obtain ⟨index, hsome, hdir, -, -, happend⟩ | ⟨eligible, -, hscan⟩ := plan_cases h
  · obtain ⟨-, rfl, -⟩ := planAppend_cases happend
    refine ⟨rfl, fun index' hindex' => ?_⟩
    rw [hsome] at hindex'
    cases hindex'
    exact hdir
  · obtain ⟨scan, -, -, -, -, -, rfl⟩ := planScan_cases hscan
    refine ⟨rfl, fun index hindex => ?_⟩
    obtain ⟨names, -, rfl⟩ := Option.map_eq_some_iff.mp hindex
    rfl

theorem plan_ok (hnew : NewName.new wanted.text cfg.page (fold cfg) = .ok wanted.new)
    (hcheck : wanted.checkExists = true → wanted.skip = .none) (hindexed : Indexed vol dir)
    (htidy : Tidy items (vol.dirs dir)) (hblank : Blanked wanted.skip items items')
    (h : (Volume.plan cfg dir wanted).run vol = (.ok plan, vol')) :
    Planned cfg (vol.dirs dir) wanted items' plan := by
  obtain ⟨index, hsome, hdir, honly, hrun, happend⟩ | ⟨eligible, -, hscan⟩ := plan_cases h
  · obtain rfl := hblank.eq_of_run hrun
    exact planAppend_ok hnew honly htidy (hindexed index hsome hdir) happend
  · exact planScan_ok hnew hcheck htidy hblank hscan

end Hadris.Directory.Volume

namespace Hadris.Directory

open List

variable {text : Text} {checksum : UInt8} {ch : Char}

def storable (text : Text) : Bool := text.all (·.toNat != 0xFFFF)

theorem isText_ofNat {n : Nat} (hlt : n < 0x10000) (hzero : n ≠ 0) (hend : n ≠ 0xFFFF) :
    isText (UInt16.ofNat n) = true := by
  have hne : ∀ m : Nat, m < 0x10000 → n ≠ m → UInt16.ofNat n ≠ UInt16.ofNat m := by
    intro m hm hnm heq
    have hnat := congrArg UInt16.toNat heq
    rw [toNat_ofNat_unit hlt, toNat_ofNat_unit hm] at hnat
    exact hnm hnat
  rw [isText, Bool.and_eq_true, bne_iff_ne, bne_iff_ne]
  exact ⟨hne 0 (by decide) hzero, hne 0xFFFF (by decide) hend⟩

theorem isText_charUnits (hlow : 0x1F < ch.toNat) (hend : ch.toNat ≠ 0xFFFF) :
    ∀ u ∈ charUnits ch, isText u := by
  have hvalid := char_valid ch
  rw [charUnits]
  split
  · rename_i hlt
    intro u hu
    rw [mem_singleton.mp hu]
    exact isText_ofNat hlt (by omega) hend
  · intro u hu
    simp only [mem_cons, not_mem_nil, or_false] at hu
    rcases hu with rfl | rfl
    · exact isText_ofNat (by omega) (by omega) (by omega)
    · exact isText_ofNat (by omega) (by omega) (by omega)

theorem isText_encodeUtf16 (hvalid : ShortName.isValidLongName text = true)
    (hstorable : storable text = true) : ∀ u ∈ encodeUtf16 text, isText u := by
  intro u hu
  obtain ⟨ch, hch, hu⟩ := mem_flatMap.mp hu
  rw [ShortName.isValidLongName, Bool.and_eq_true, Bool.not_eq_true', any_eq_false] at hvalid
  have hlow := hvalid.2 ch hch
  rw [Bool.or_eq_true, not_or, decide_eq_true_eq, Nat.not_le] at hlow
  rw [storable, all_eq_true] at hstorable
  exact isText_charUnits hlow.1 (bne_iff_ne.mp (hstorable ch hch)) u hu

theorem ne_nil_of_valid (hvalid : ShortName.isValidLongName text = true) : text ≠ [] := by
  rintro rfl
  cases hvalid

theorem longRun_reads (hvalid : ShortName.isValidLongName text = true)
    (hstorable : storable text = true)
    (hlen : (encodeUtf16 text).length ≤ ShortName.maxUnits) :
    Reads checksum (longRun text checksum) (some (encodeUtf16 text)) := by
  have hname := ne_nil_of_valid hvalid
  have htext := isText_encodeUtf16 hvalid hstorable
  obtain ⟨k, hk⟩ := Nat.exists_eq_add_of_lt (longEntries_pos hname)
  rw [Nat.zero_add] at hk
  have hrun : longRun text checksum = longEntry text checksum 0 ::
      (List.range k).map fun index => longEntry text checksum (index + 1) := by
    rw [longRun, hk, range_succ_eq_map, map_cons, map_map]
    rfl
  have hfinish : ∀ long : Assembler,
      ((longRun text checksum).foldl Assembler.push long).finish checksum =
        some (encodeUtf16 text) := fun long => by
    rw [push_longRun hname htext hlen, finish_assembled]
  rw [hrun] at hfinish ⊢
  have hmask := sequence_mask (longEntries_le hlen)
  refine .long _ _ _ hmask.2.2.2.1 (fun part hpart => ?_) (fun hnil => ?_) hlen hfinish
  · obtain ⟨index, -, rfl⟩ := mem_map.mp hpart
    exact (sequence_mask ((Nat.sub_le _ (index + 1)).trans (longEntries_le hlen))).2.2.1
  · have hcount := countP_encodeUtf16 text
    rw [hnil, countP_nil] at hcount
    exact hname (length_eq_zero_iff.mp hcount.symm)

namespace Volume

variable {cfg : Config} {wanted : Wanted} {slots : List Slot} {items : List Item} {plan : Plan}
  {new : NewName} {entry : ShortEntry}

theorem Picked.made {stored : List ShortName} {short : ShortName}
    (hnew : NewName.new text cfg.page (fold cfg) = .ok new) (h : Picked cfg new stored short) :
    ∃ base ext, short.Made base ext := by
  rw [Picked] at h
  split at h
  · obtain ⟨suffix, hsuffix, hname⟩ := mem_map.mp (mem_of_find?_eq_some h.2)
    rw [mem_range'_1] at hsuffix
    obtain ⟨name, base, ext, -, hcandidate, hmade⟩ :=
      candidate_made cfg.page new.text hsuffix.1 (fold cfg)
    rw [← hname, hcandidate]
    exact ⟨base, ext, hmade⟩
  · rename_i htail
    rw [needsTail, Bool.not_eq_true, Bool.not_eq_false', Bool.and_eq_true] at htail
    obtain ⟨base, ext, hmade, -⟩ := NewName.lossless_made hnew htail.1
    exact ⟨base, ext, h ▸ hmade⟩

theorem exists_run (hnew : NewName.new text cfg.page (fold cfg) = .ok new)
    (hstorable : storable text = true) (hvisible : entry.isVisible = true)
    (hmade : ∃ base ext, entry.name.Made base ext) (hslots : plan.slots = new.slots) :
    ∃ named : NamedRun, (Item.named named).slots = entrySlots new plan entry ∧
      named.entry = entry ∧ named.run.length + 1 = plan.slots ∧
        named.long = if new.shortOnly then none else some (encodeUtf16 text) := by
  obtain ⟨htext, hlen, hvalid, -⟩ := NewName.new_ok hnew
  have hlength : (longRun text entry.lfnChecksum).length = longEntries text := by
    rw [longRun, length_map, length_range]
  rw [entrySlots, hslots, NewName.slots, htext]
  cases hshort : new.shortOnly with
  | true => exact ⟨⟨[], entry, none, .short, hvisible, hmade⟩, rfl, rfl, rfl, rfl⟩
  | false =>
    refine ⟨⟨longRun text entry.lfnChecksum, entry, some (encodeUtf16 text),
      longRun_reads hvalid hstorable hlen, hvisible, hmade⟩, ?_, rfl, ?_, rfl⟩
    · rw [if_neg Bool.false_ne_true, Nat.add_sub_cancel, take_of_length_le hlength.le]
      rfl
    · rw [if_neg Bool.false_ne_true]
      exact congrArg (· + 1) hlength

/-- No short name a tail would make for the new name is one of the names in `others`. -/
def TailClear (cfg : Config) (new : NewName) (stored : List ShortName) (others : List Located) :
    Prop :=
  needsTail new stored = true → ∀ tailed ∈ freeTail cfg new.text stored,
    ∀ loc ∈ others, folded (fold cfg) (tailed.display 0 cfg.page.decode) ∉ keys cfg loc

theorem disjoint_new {named : NamedRun} {stored : List ShortName} {others : List Located}
    (hnew : NewName.new text cfg.page (fold cfg) = .ok new)
    (hpicked : Picked cfg new stored named.entry.name)
    (hcase : new.shortOnly = false → named.entry.ntCase = 0)
    (hlong : named.long = if new.shortOnly then none else some (encodeUtf16 text))
    (hfresh : ∀ loc ∈ others, folded (fold cfg) text ∉ keys cfg loc)
    (hclear : TailClear cfg new stored others) (start : Nat) :
    ∀ loc ∈ others, List.Disjoint (keys cfg (named.locate start)) (keys cfg loc) := by
  intro loc hloc units hunits
  have hshown : folded (fold cfg) (named.entry.name.display named.entry.ntCase cfg.page.decode) ∉
      keys cfg loc := by
    rw [Picked] at hpicked
    split at hpicked
    · rename_i htail
      rw [hcase hpicked.1]
      exact hclear htail _ hpicked.2 loc hloc
    · rename_i htail
      rw [needsTail, Bool.not_eq_true, Bool.not_eq_false', Bool.and_eq_true] at htail
      obtain ⟨-, -, -, -, hfolded⟩ := NewName.lossless_made hnew htail.1
      rw [hpicked, hfolded]
      exact hfresh loc hloc
  rw [keys, entryKeys, mem_append, mem_singleton] at hunits
  rcases hunits with hunits | rfl
  · rw [NamedRun.locate, hlong] at hunits
    cases hshort : new.shortOnly with
    | true =>
      rw [hshort] at hunits
      exact absurd hunits not_mem_nil
    | false =>
      rw [hshort] at hunits
      rw [mem_singleton.mp hunits]
      exact hfresh loc hloc
  · exact hshown

end Volume

end Hadris.Directory
