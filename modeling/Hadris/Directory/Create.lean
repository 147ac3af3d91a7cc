import Hadris.Directory.Planned
import Mathlib.Data.List.Pairwise

namespace Hadris.Directory

open List

variable {slots run : List Slot} {slot : Slot} {first index : Nat} {items : List Item}

theorem overwrite_nil (slots : List Slot) (first : Nat) : overwrite slots first [] = slots :=
  take_append_drop first slots

theorem overwrite_cons (h : first < slots.length) (slot : Slot) (run : List Slot) :
    overwrite slots first (slot :: run) = overwrite (slots.set first slot) (first + 1) run := by
  have htake : (slots.set first slot).take (first + 1) = slots.take first ++ [slot] := by
    rw [take_add_one, take_set_of_le (Nat.le_refl first), getElem?_set_self h]
    rfl
  rw [overwrite, overwrite, htake, drop_set_of_lt (by omega), append_assoc,
    length_cons, Nat.add_assoc, Nat.add_comm 1]
  rfl

theorem overwrite_set (hfirst : first ≤ index) (hlast : index < first + run.length) :
    overwrite (slots.set index slot) first run = overwrite slots first run := by
  rw [overwrite, overwrite, take_set_of_le hfirst, drop_set_of_lt hlast]

theorem length_overwrite (h : first + run.length ≤ slots.length) :
    (overwrite slots first run).length = slots.length := by
  rw [overwrite, length_append, length_append, length_take, length_drop]
  omega

theorem reached_le (slots : List Slot) : (reached slots).length ≤ slots.length := by
  rw [reached_length]
  exact Nat.min_le_right ..

theorem reached_length_overwrite (h : first + run.length ≤ (reached slots).length) :
    (reached (overwrite slots first run)).length = (reached slots).length := by
  rw [reached_length, reached_length, length_overwrite (h.trans (reached_le slots))]

theorem reached_grow (slots : List Slot) (m : Nat) :
    reached (slots ++ replicate m .endMark) =
      reached slots ++ replicate (min (maxDirEntries - slots.length) m) .endMark := by
  rw [reached, take_append, take_replicate, ← reached]

theorem Tidy.grow (h : Tidy items slots) (n : Nat) :
    Tidy items (slots ++ replicate n .endMark) := by
  obtain ⟨hquiet, rest, hreached, hend⟩ := h
  refine ⟨hquiet, rest ++ replicate (min (maxDirEntries - slots.length) n) .endMark, ?_, ?_⟩
  · rw [reached_grow, hreached, append_assoc]
  · intro slot hslot
    cases rest with
    | nil => exact eq_of_mem_replicate (mem_of_mem_head? hslot)
    | cons first rest => exact hend slot hslot

theorem reached_set (n : Nat) (slot : Slot) :
    reached (slots.set n slot) = (reached slots).set n slot :=
  take_set

/-- What lies behind the end may be anything. -/
theorem Tidy.set_behind {n : Nat} (h : Tidy items slots) (hn : (itemSlots items).length < n)
    (slot : Slot) : Tidy items (slots.set n slot) := by
  obtain ⟨hquiet, rest, hreached, hend⟩ := h
  refine ⟨hquiet, rest.set (n - (itemSlots items).length) slot, ?_, ?_⟩
  · rw [reached_set, hreached, set_append_right _ _ hn.le]
  · rw [head?_eq_getElem?, getElem?_set_ne (by omega), ← head?_eq_getElem?]
    exact hend

namespace Volume

variable {vol vol' : Volume} {dir other : DirStart}

def put (vol : Volume) (dir : DirStart) (slots : List Slot) : Volume :=
  { vol with dirs := Function.update vol.dirs dir slots }

@[simp] theorem put_dirs (vol : Volume) (dir : DirStart) (slots : List Slot) :
    (vol.put dir slots).dirs dir = slots := Function.update_self ..

theorem put_other (vol : Volume) (h : other ≠ dir) (slots : List Slot) :
    (vol.put dir slots).dirs other = vol.dirs other := Function.update_of_ne h ..

@[simp] theorem put_put (vol : Volume) (dir : DirStart) (a b : List Slot) :
    (vol.put dir a).put dir b = vol.put dir b := by
  rw [put, put, put, Function.update_idem]

@[simp] theorem put_same (vol : Volume) (dir : DirStart) : vol.put dir (vol.dirs dir) = vol := by
  rw [put, Function.update_eq_self]

@[simp] theorem put_appendIndex (vol : Volume) (dir : DirStart) (slots : List Slot) :
    (vol.put dir slots).appendIndex = vol.appendIndex := rfl

theorem writeSlot_ok (h : (writeSlot dir index slot).run vol = (.ok (), vol')) :
    vol' = vol.put dir ((vol.dirs dir).set index slot) ∧
      index < (reached (vol.dirs dir)).length := by
  obtain ⟨there, vol₁, hget, h⟩ := Prog.bind_ok h
  cases hget
  split at h
  · rename_i hthere
    cases h
    exact ⟨rfl, of_decide_eq_true hthere⟩
  · cases h

theorem writeSlots_ok (h : (writeSlots dir first run).run vol = (.ok (), vol')) :
    vol' = vol.put dir (overwrite (vol.dirs dir) first run) ∧
      (run ≠ [] → first + run.length ≤ (reached (vol.dirs dir)).length) := by
  induction run generalizing first vol with
  | nil =>
    cases h
    refine ⟨?_, fun hne => absurd rfl hne⟩
    rw [overwrite_nil, put_same]
  | cons slot rest ih =>
    obtain ⟨_, vol₁, hslot, hrest⟩ := Prog.bind_ok h
    obtain ⟨rfl, hlt⟩ := writeSlot_ok hslot
    obtain ⟨rfl, hfits⟩ := ih hrest
    have hlength := hlt.trans_le (reached_le _)
    refine ⟨?_, fun _ => ?_⟩
    · rw [put_put, put_dirs, overwrite_cons hlength]
    · rw [put_dirs, reached_length, length_set, ← reached_length] at hfits
      rcases rest with _ | ⟨next, rest⟩
      · exact hlt
      · have hle := hfits (cons_ne_nil next rest)
        rw [length_cons]
        omega

theorem setSlots_ok {f : List Slot → List Slot} (h : (setSlots dir f).run vol = (.ok (), vol')) :
    vol' = vol.put dir (f (vol.dirs dir)) := by
  cases h
  rfl

theorem setAppend_ok {append : Option AppendIndex}
    (h : (setAppend append).run vol = (.ok (), vol')) :
    vol' = { vol with appendIndex := append } := by
  cases h
  rfl

theorem clearSlots_ok {stop : Nat} (h : (clearSlots dir first stop).run vol = (.ok (), vol')) :
    vol' = { vol.put dir (overwrite (vol.dirs dir) first (replicate (stop - first) .free)) with
      appendIndex := none } := by
  obtain ⟨_, vol₁, hset, h⟩ := Prog.bind_ok h
  obtain rfl := setAppend_ok hset
  exact (writeSlots_ok h).1

theorem insertEntry_ok {new : NewName} {plan : Plan} {entry : ShortEntry}
    (h : (insertEntry dir new plan entry).run vol = (.ok (), vol')) :
    vol' = { vol.put dir (overwrite (vol.dirs dir) plan.start (entrySlots new plan entry)) with
        appendIndex := none } ∧
      plan.start + (entrySlots new plan entry).length ≤ (reached (vol.dirs dir)).length := by
  obtain ⟨_, vol₁, hset, h⟩ := Prog.bind_ok h
  obtain rfl := setAppend_ok hset
  obtain ⟨hvol, hfits⟩ := writeSlots_ok h
  exact ⟨hvol, hfits (by simp [entrySlots])⟩

end Volume

end Hadris.Directory

namespace Hadris.Directory.Volume

open List

variable {cfg : Config} {vol vol' : Volume} {dir : DirStart} {plan : Plan} {new : NewName}
  {items items' : List Item} {slots : List Slot} {names : List ShortName} {entries : List Located}

/-- No two entries share a name. -/
def Apart (cfg : Config) (entries : List Located) : Prop :=
  entries.Pairwise fun a b => List.Disjoint (keys cfg a) (keys cfg b)

theorem Apart.perm {entries' : List Located} (h : Apart cfg entries)
    (hperm : entries.Perm entries') :
    Apart cfg entries' :=
  hperm.pairwise h fun hab => disjoint_symm hab

/-- A directory is read item by item, an append index of it is true, and no two
of its entries share a name. -/
structure Sound (cfg : Config) (vol : Volume) (dir : DirStart) : Prop where
  tidy : ∃ items, Tidy items (vol.dirs dir)
  indexed : Indexed vol dir
  apart : Apart cfg (visible (vol.dirs dir))

theorem visible_grow (htidy : Tidy items slots) (n : Nat) :
    visible (slots ++ replicate n .endMark) = visible slots := by
  rw [htidy.visible_eq, (htidy.grow n).visible_eq]

/-- A directory no entry of which is visible. -/
def Bare (slots : List Slot) : Prop := (∃ items, Tidy items slots) ∧ visible slots = []

theorem bare_of_dots {n : Nat} {dot dotDot : ShortEntry} (hdot : dot.isVisible = false)
    (hdotDot : dotDot.isVisible = false)
    (hfits : 2 ≤ (reached (replicate n .endMark)).length) :
    Bare (overwrite (replicate n .endMark) 0 [.short dot, .short dotDot]) := by
  have hends : Tidy ([] ++ []) (replicate n .endMark) :=
    ⟨trivial, _, rfl, fun slot hslot =>
      eq_of_mem_replicate (mem_of_mem_take (mem_of_mem_head? hslot))⟩
  have htidy := hends.extend [] [.hidden dot hdot, .hidden dotDot hdotDot] (Nat.zero_le _) hfits
    (fun slot hslot => eq_of_mem_replicate (mem_of_mem_take (mem_of_getElem? hslot)))
    trivial
  exact ⟨⟨_, htidy⟩, htidy.visible_eq⟩

theorem hidden_of_first {entry : ShortEntry} (h : entry.name.first = 0x2E) :
    entry.isVisible = false := by
  rw [ShortEntry.isVisible, ShortEntry.isDot, h, beq_self_eq_true, Bool.not_true, Bool.and_false]

def grown (cfg : Config) (plan : Plan) (slots : List Slot) : List Slot :=
  slots ++ replicate (plan.grow * cfg.perCluster) .endMark

theorem grow_ok (h : (grow cfg dir plan).run vol = (.ok (), vol')) :
    vol' = vol.put dir (grown cfg plan (vol.dirs dir)) := by
  cases h
  rfl

/-- What creating an entry in `dir` leaves behind. -/
structure Created (dirs : DirStart → List Slot) (dir : DirStart) (new : NewName) (plan : Plan)
    (entry : ShortEntry) (slots : List Slot) (vol' : Volume) : Prop where
  fits : plan.start + (entrySlots new plan entry).length ≤ (reached slots).length
  dir_eq : vol'.dirs dir = overwrite slots plan.start (entrySlots new plan entry)
  append : vol'.appendIndex = none
  other : ∀ other ≠ dir, vol'.dirs other = dirs other ∨ Bare (vol'.dirs other)

theorem createEntry_ok {isDir : Bool} {cluster : Nat} (hne : isDir = true → dir ≠ .chain cluster)
    (h : (createEntry cfg dir new plan isDir cluster).run vol = (.ok (), vol')) :
    ∃ entry, entry.name = plan.short ∧ entry.ntCase = plan.ntCase ∧ entry.isLabel = false ∧
      Created vol.dirs dir new plan entry (grown cfg plan (vol.dirs dir)) vol' := by
  obtain ⟨_, vol₁, hgrow, h⟩ := Prog.bind_ok h
  obtain rfl := grow_ok hgrow
  obtain ⟨_, vol₂, hchild, h⟩ := Prog.bind_ok h
  obtain ⟨rfl, hfits⟩ := insertEntry_ok h
  have hmiddle : vol₂.dirs dir = grown cfg plan (vol.dirs dir) ∧
      ∀ other ≠ dir, vol₂.dirs other = vol.dirs other ∨ Bare (vol₂.dirs other) := by
    cases isDir with
    | false =>
      cases hchild
      exact ⟨put_dirs .., fun other hother => .inl (put_other vol hother _)⟩
    | true =>
      have hdir := hne rfl
      obtain ⟨_, vol₃, hzero, hchild⟩ := Prog.bind_ok hchild
      obtain rfl := setSlots_ok hzero
      obtain ⟨_, vol₄, hset, hchild⟩ := Prog.bind_ok hchild
      obtain rfl := setAppend_ok hset
      obtain ⟨rfl, hdots⟩ := writeSlots_ok hchild
      refine ⟨(put_other _ hdir _).trans ((put_other _ hdir _).trans (put_dirs ..)),
        fun other hother => ?_⟩
      rcases eq_or_ne other (.chain cluster) with rfl | hchain
      · have hfits := hdots (cons_ne_nil _ _)
        change 2 ≤ (reached ((Volume.put _ _ _).dirs _)).length at hfits
        rw [put_dirs] at hfits
        right
        change Bare ((Volume.put _ _ (overwrite ((Volume.put _ _ _).dirs _) _ _)).dirs _)
        rw [put_dirs, put_dirs]
        refine bare_of_dots ?_ ?_ hfits
        · exact hidden_of_first rfl
        · exact hidden_of_first rfl
      · exact .inl ((put_other _ hchain _).trans ((put_other _ hchain _).trans
          (put_other _ hother _)))
  rw [hmiddle.1] at hfits
  refine ⟨{ ShortEntry.new plan.short (if isDir then attrDirectory else attrArchive) with
    ntCase := plan.ntCase
    firstCluster := if isDir then cluster else 0 }, rfl, rfl, ?_, hfits, ?_, rfl,
      fun other hother => ?_⟩
  · change ((if isDir then attrDirectory else attrArchive) &&& attrVolumeId != 0) = false
    cases isDir <;> decide
  · rw [hmiddle.1]
    exact put_dirs ..
  · change (vol₂.put _ _).dirs _ = _ ∨ Bare ((vol₂.put _ _).dirs _)
    rw [put_other _ hother]
    exact hmiddle.2 other hother

theorem plain_of_lossless {text : Text} (hnew : NewName.new text cfg.page (fold cfg) = .ok new)
    (hlossless : new.lossless = true) : (new.candidate 0).isPlain = true := by
  obtain ⟨base, ext, hmade, hascii, -⟩ := NewName.lossless_made hnew hlossless
  exact hmade.isPlain hascii

theorem Bare.apart (h : Bare slots) : Apart cfg (visible slots) := by
  rw [h.2]
  exact .nil

theorem visible_of_made {entry : ShortEntry} (hmade : ∃ base ext, entry.name.Made base ext)
    (hlabel : entry.isLabel = false) : entry.isVisible = true := by
  obtain ⟨base, ext, hmade⟩ := hmade
  rw [ShortEntry.isVisible, hlabel, ShortEntry.isDot, beq_eq_false_iff_ne.mpr hmade.first_ne.2]
  rfl

/-- A planned entry, once stored. -/
structure Stored (cfg : Config) (wanted : Wanted) (plan : Plan) (entry : ShortEntry)
    (stored : List ShortName) (slots : List Slot) (named : NamedRun) : Prop where
  tidy : ∃ items, Tidy items (overwrite slots plan.start (entrySlots wanted.new plan entry))
  perm : (visible (overwrite slots plan.start (entrySlots wanted.new plan entry))).Perm
    (named.locate plan.start :: visible slots)
  disjoint : ∀ others, (∀ loc ∈ others, folded (fold cfg) wanted.text ∉ keys cfg loc) →
    TailClear cfg wanted.new stored others →
      ∀ loc ∈ others, List.Disjoint (keys cfg (named.locate plan.start)) (keys cfg loc)

theorem shortOnly_of_slots {text : Text} (hnew : NewName.new text cfg.page (fold cfg) = .ok new)
    (h : new.slots = 1) : new.shortOnly = true := by
  obtain ⟨htext, -, hvalid, -⟩ := NewName.new_ok hnew
  by_contra hlong
  have hpos := longEntries_pos (ne_nil_of_valid hvalid)
  rw [NewName.slots, if_neg hlong, htext] at h
  omega

theorem exists_stored {wanted : Wanted} {entry : ShortEntry} {before : List Slot}
    (hnew : NewName.new wanted.text cfg.page (fold cfg) = .ok wanted.new)
    (hstorable : storable wanted.text = true) (hplanned : Planned cfg before wanted items plan)
    (hname : entry.name = plan.short) (hcase : entry.ntCase = plan.ntCase)
    (hlabel : entry.isLabel = false) (htidy : Tidy items slots)
    (hfits : plan.start + (entrySlots wanted.new plan entry).length ≤ (reached slots).length)
    (hends : (itemSlots items).length < plan.start + plan.slots →
      ∀ slot ∈ (reached slots)[plan.start + plan.slots]?, slot = .endMark)
    (hloose : wanted.new.shortOnly = true → looseEnd (itemSlots items) = false) :
    ∃ named, Stored cfg wanted plan entry (storedNames wanted.skip 0 (reached before)) slots
      named := by
  have hmade : ∃ base ext, entry.name.Made base ext := hname ▸ hplanned.picked.made hnew
  obtain ⟨named, hslots, hentry, hlength, hlong⟩ := exists_run hnew hstorable
    (visible_of_made hmade hlabel) hmade hplanned.slots_eq
  rw [← hslots, Item.length_named] at hfits
  have hroom := hplanned.room
  have hshort : named.run = [] → wanted.new.shortOnly = true := fun hrun => by
    rw [hrun, hplanned.slots_eq] at hlength
    exact shortOnly_of_slots hnew hlength.symm
  rw [← hlength] at hroom hends
  obtain ⟨items', htidy', hperm⟩ := hroom.insert htidy hfits hends fun hrun =>
    hloose (hshort hrun)
  rw [hslots] at htidy' hperm
  refine ⟨named, ⟨items', htidy'⟩, hperm, fun others hfresh hclear => ?_⟩
  refine disjoint_new hnew ?_ (fun hshort => ?_) hlong hfresh hclear plan.start
  · rw [hentry, hname]
    exact hplanned.picked
  · rw [hentry, hcase, hplanned.ntCase hshort]

theorem Created.apart {wanted : Wanted} {entry : ShortEntry} {n : Nat}
    (happart : Apart cfg (visible (vol.dirs dir)))
    (hnew : NewName.new wanted.text cfg.page (fold cfg) = .ok wanted.new)
    (hstorable : storable wanted.text = true) (hcheck : wanted.checkExists = true)
    (htidy : Tidy items (vol.dirs dir)) (hplanned : Planned cfg (vol.dirs dir) wanted items plan)
    (hname : entry.name = plan.short) (hcase : entry.ntCase = plan.ntCase)
    (hlabel : entry.isLabel = false)
    (hclear : TailClear cfg wanted.new (storedNames wanted.skip 0 (reached (vol.dirs dir)))
      (visible (vol.dirs dir)))
    (hends : (itemSlots items).length < plan.start + plan.slots →
      ∀ slot ∈ (reached (vol.dirs dir ++ replicate n .endMark))[plan.start + plan.slots]?,
        slot = .endMark)
    (hloose : wanted.new.shortOnly = true → looseEnd (itemSlots items) = false)
    (h : Created vol.dirs dir wanted.new plan entry (vol.dirs dir ++ replicate n .endMark) vol') :
    (∃ items, Tidy items (vol'.dirs dir)) ∧ Apart cfg (visible (vol'.dirs dir)) := by
  obtain ⟨named, hstored⟩ := exists_stored hnew hstorable hplanned hname hcase hlabel
    (htidy.grow n) h.fits hends hloose
  rw [h.dir_eq]
  refine ⟨hstored.tidy, Apart.perm ?_ hstored.perm.symm⟩
  rw [visible_grow htidy]
  refine pairwise_cons.mpr ⟨hstored.disjoint _ (fun loc hloc => ?_) hclear, happart⟩
  rw [← named_iff htidy hloc, hplanned.fresh hcheck loc hloc]
  exact Bool.false_ne_true

theorem createNode_ok {text : Text} {isDir : Bool} {cluster : Nat}
    (hne : isDir = true → dir ≠ .chain cluster)
    (h : (createNode cfg dir text isDir cluster).run vol = (.ok (), vol')) :
    ∃ new plan vol₁ vol₂ entry, NewName.new text cfg.page (fold cfg) = .ok new ∧
      (Volume.plan cfg dir ⟨text, true, new, .none⟩).run vol = (.ok plan, vol₁) ∧
      entry.name = plan.short ∧ entry.ntCase = plan.ntCase ∧ entry.isLabel = false ∧
      Created vol.dirs dir new plan entry (grown cfg plan (vol.dirs dir)) vol₂ ∧
      (keepAppend cfg plan vol₁.appendIndex).run vol₂ = (.ok (), vol') := by
  rw [createNode] at h
  split at h
  · cases h
  · obtain ⟨new, vol₁, hmake, h⟩ := Prog.bind_ok h
    obtain ⟨hnew, rfl⟩ := Prog.ofExcept_ok hmake
    obtain ⟨plan, vol₂, hplan, h⟩ := Prog.bind_ok h
    obtain ⟨append, vol₃, hget, h⟩ := Prog.bind_ok h
    obtain rfl : append = vol₂.appendIndex := (Except.ok.inj (congrArg Prod.fst hget)).symm
    obtain rfl : vol₂ = vol₃ := congrArg Prod.snd hget
    obtain ⟨_, vol₄, hset, h⟩ := Prog.bind_ok h
    obtain rfl := setAppend_ok hset
    obtain ⟨_, vol₅, hcreate, hkeep⟩ := Prog.bind_ok h
    obtain ⟨entry, hname, hcase, hlabel, created⟩ := createEntry_ok hne hcreate
    change Created vol₂.dirs dir new plan entry (grown cfg plan (vol₂.dirs dir)) vol₅ at created
    rw [(plan_frame hplan).1] at created
    exact ⟨new, plan, vol₂, vol₅, entry, hnew, hplan, hname, hcase, hlabel, created, hkeep⟩

theorem keepAppend_ok {append : Option AppendIndex}
    (h : (keepAppend cfg plan append).run vol = (.ok (), vol')) :
    vol'.dirs = vol.dirs ∧ (vol' = vol ∨ ∃ index, append = some index ∧
      vol'.appendIndex = some ⟨index.dir, AppendIndex.insert index.names plan.short,
        plan.start + plan.slots⟩) := by
  rw [keepAppend.eq_def] at h
  split at h
  · cases h
    exact ⟨rfl, .inl rfl⟩
  · rename_i index
    split at h
    · obtain rfl := setAppend_ok h
      exact ⟨rfl, .inr ⟨index, rfl, rfl⟩⟩
    · cases h
      exact ⟨rfl, .inl rfl⟩

theorem createNode_other {text : Text} {isDir : Bool} {cluster : Nat} {other : DirStart}
    (hsound : Sound cfg vol other) (hother : other ≠ dir)
    (hne : isDir = true → dir ≠ .chain cluster)
    (h : (createNode cfg dir text isDir cluster).run vol = (.ok (), vol')) :
    Sound cfg vol' other := by
  obtain ⟨new, plan, vol₁, vol₂, entry, -, hplan, -, -, -, created, hkeep⟩ := createNode_ok hne h
  obtain ⟨hdirs, hindex⟩ := keepAppend_ok hkeep
  have hindexed : Indexed vol' other := by
    intro index hsome heq
    rcases hindex with rfl | ⟨index', happend, hsome'⟩
    · rw [created.append] at hsome
      cases hsome
    · rw [hsome'] at hsome
      cases hsome
      exact absurd (heq.symm.trans ((plan_frame hplan).2 index' happend)) hother
  rcases created.other other hother with hsame | hbare
  · rw [← hdirs] at hsame
    exact ⟨hsame ▸ hsound.tidy, hindexed, hsame ▸ hsound.apart⟩
  · rw [← hdirs] at hbare
    exact ⟨hbare.1, hindexed, hbare.apart⟩

end Hadris.Directory.Volume

namespace Hadris.Directory

open List

variable {items : List Item} {slots : List Slot} {loc other : Located} {slot : Nat}

theorem located_bounds (h : loc ∈ located slot items) :
    slot ≤ loc.first ∧ loc.first ≤ loc.slot := by
  obtain ⟨a, named, b, -, hfirst, hslot, -⟩ := mem_located h
  omega

theorem located_sorted (slot : Nat) (items : List Item) :
    (located slot items).Pairwise fun a b => a.slot < b.first := by
  induction items generalizing slot with
  | nil => exact .nil
  | cons item rest ih =>
    cases item with
    | free | stray | hidden => exact ih (slot + 1)
    | named named =>
      refine pairwise_cons.mpr ⟨fun loc hloc => ?_, ih _⟩
      exact (located_bounds hloc).1

theorem visible_sorted (htidy : Tidy items slots) :
    (visible slots).Pairwise fun a b => a.slot < b.first := by
  rw [htidy.visible_eq]
  exact located_sorted 0 items

theorem visible_bounds (htidy : Tidy items slots) (h : loc ∈ visible slots) :
    loc.first ≤ loc.slot := by
  rw [htidy.visible_eq] at h
  exact (located_bounds h).2

/-- Neither entry reaches into the other. -/
def Located.Separate (a b : Located) : Prop := a.slot < b.first ∨ b.slot < a.first

theorem visible_separate (htidy : Tidy items slots) : (visible slots).Pairwise Located.Separate :=
  (visible_sorted htidy).imp .inl

instance : Std.Symm Located.Separate := ⟨fun _ _ h => h.symm⟩

theorem eq_of_slot (htidy : Tidy items slots) (h : loc ∈ visible slots)
    (h' : other ∈ visible slots) (hslot : loc.slot = other.slot) : loc = other := by
  by_contra hne
  have hbounds := visible_bounds htidy h
  have hbounds' := visible_bounds htidy h'
  rcases (visible_separate htidy).forall h h' hne with hlt | hlt
  · omega
  · omega

theorem split_entry (htidy : Tidy items slots) (h : loc ∈ visible slots) :
    ∃ others, (visible slots).Perm (loc :: others) ∧ ∀ other ∈ others, loc.Separate other := by
  have hperm := perm_cons_erase h
  refine ⟨(visible slots).erase loc, hperm, ?_⟩
  have hpairwise := hperm.pairwise (visible_separate htidy) fun hab => hab.symm
  exact (pairwise_cons.mp hpairwise).1

def freed (slots : List Slot) (loc : Located) : List Slot :=
  overwrite slots loc.first (replicate (loc.slot + 1 - loc.first) .free)

theorem Tidy.clear (htidy : Tidy items slots) (h : loc ∈ visible slots) :
    ∃ items', loc.slot < (itemSlots items).length ∧
      (∀ skip : Volume.Skip, skip.run = some (loc.first, loc.slot) → Blanked skip items items') ∧
      ∀ slots, Tidy items slots →
        Tidy items' (freed slots loc) ∧
          (visible slots).Perm (loc :: visible (freed slots loc)) := by
  rw [htidy.visible_eq] at h
  obtain ⟨a, named, b, rfl, hfirst, hslot, hentry, hlong⟩ := mem_located h
  rw [Nat.zero_add] at hfirst
  have hcount : loc.slot + 1 - loc.first = named.run.length + 1 := by omega
  have hlength : (itemSlots [.named named]).length =
      (itemSlots (replicate (named.run.length + 1) .free)).length := by
    rw [itemSlots_frees, length_replicate, itemSlots_cons, length_append, Item.length_named]
    rfl
  have hloc : loc = named.locate (itemSlots a).length := by
    rw [NamedRun.locate, ← hfirst, ← hslot, ← hentry, ← hlong]
  refine ⟨a ++ (replicate (named.run.length + 1) .free ++ b), ?_,
    fun skip hskip => .inr ⟨a, named, b, rfl, ?_, rfl⟩, fun slots htidy => ?_⟩
  · rw [itemSlots_append, itemSlots_cons, length_append, length_append, Item.length_named]
    omega
  · rw [hskip, hslot, hfirst]
  · have htidy' := htidy.replace [.named named] _ hlength (quiet_frees _ _) fun long =>
      foldl_after_frees (Nat.succ_pos _) long
    rw [itemSlots_frees, ← hfirst, ← hcount] at htidy'
    refine ⟨hcount ▸ htidy', ?_⟩
    rw [freed, htidy'.visible_eq, htidy.visible_eq, hcount, hloc]
    exact located_insert (.inl rfl)

theorem overwrite_one {first : Nat} (h : first < slots.length) (slot : Slot) :
    overwrite slots first [slot] = slots.set first slot := by
  rw [overwrite_cons h, overwrite_nil]

theorem Tidy.rewrite {n : Nat} {before entry : ShortEntry} (htidy : Tidy items slots)
    (hbefore : slots[n]? = some (.short before)) (hhidden : before.isVisible = false)
    (hentry : entry.isVisible = false) (hlt : n < (reached slots).length) :
    (∃ items', Tidy items' (slots.set n (.short entry))) ∧
      visible (slots.set n (.short entry)) = visible slots := by
  have hslots : (reached slots)[n]? = some (.short before) := by
    rw [reached, getElem?_take_of_lt (by rw [reached_length] at hlt; omega), hbefore]
  obtain ⟨-, rest, hreached, hend⟩ := id htidy
  rw [hreached] at hslots
  rcases Nat.lt_or_ge n (itemSlots items).length with hitems | hbehind
  · rw [getElem?_append_left hitems, getElem?_eq_getElem hitems, Option.some.injEq] at hslots
    have hsplit := (take_append_drop n (itemSlots items)).symm
    rw [drop_eq_getElem_cons hitems, hslots] at hsplit
    obtain ⟨a, b, rfl, ha, -⟩ := split_hidden hhidden hsplit
    have hlength : (itemSlots a).length = n := by
      rw [ha, length_take, Nat.min_eq_left hitems.le]
    have htidy' := htidy.replace [.hidden before hhidden] [.hidden entry hentry] rfl
      trivial fun _ => rfl
    rw [hlength] at htidy'
    change Tidy _ (overwrite slots n [.short entry]) at htidy'
    rw [overwrite_one (hlt.trans_le (reached_le slots))] at htidy'
    refine ⟨⟨_, htidy'⟩, ?_⟩
    rw [htidy'.visible_eq, htidy.visible_eq]
    change located 0 (a ++ .hidden entry hentry :: b) = located 0
      (a ++ .hidden before hhidden :: b)
    rw [located_append, located_append]
    rfl
  · -- the slot at the end itself is an end mark
    have hne : (itemSlots items).length ≠ n := by
      rintro rfl
      rw [getElem?_append_right (Nat.le_refl _), Nat.sub_self, ← head?_eq_getElem?] at hslots
      cases hend _ hslots
    have htidy' := htidy.set_behind (lt_of_le_of_ne hbehind hne) (.short entry)
    exact ⟨⟨_, htidy'⟩, by rw [htidy'.visible_eq, htidy.visible_eq]⟩

end Hadris.Directory

namespace Hadris.Directory.Volume

open List

variable {cfg : Config} {vol vol' : Volume} {dir source dest : DirStart} {move : Move}
  {slots run : List Slot} {items : List Item} {first : Nat}

/-- Directories that were read item by item still are, and show the same entries. -/
def SameEntries (vol vol' : Volume) : Prop :=
  ∀ dir items, Tidy items (vol.dirs dir) →
    (∃ items', Tidy items' (vol'.dirs dir)) ∧ visible (vol'.dirs dir) = visible (vol.dirs dir)

theorem getElem?_overwrite (h : first + run.length ≤ slots.length) {n : Nat}
    (hn : first + run.length ≤ n) : (overwrite slots first run)[n]? = slots[n]? := by
  have hfirst : (slots.take first).length = first := by
    rw [length_take]
    omega
  rw [overwrite, getElem?_append_right (by omega), hfirst,
    getElem?_append_right (by omega), getElem?_drop]
  exact congrArg (slots[·]?) (by omega)

theorem overwrite_set_after {first index : Nat} (slot : Slot) (hfirst : first ≤ slots.length)
    (hindex : first + run.length ≤ index) :
    overwrite (slots.set index slot) first run = (overwrite slots first run).set index slot := by
  have hlength : (slots.take first).length = first := by
    rw [length_take]
    omega
  rw [overwrite, overwrite, take_set_of_le (by omega), drop_set, if_neg (by omega),
    set_append_right _ _ (by omega), hlength, set_append_right _ _ (by omega)]
  exact congrArg (fun n => slots.take first ++
    (run ++ (slots.drop (first + run.length)).set n slot)) (by omega)

def endMarked (move : Move) (slots : List Slot) : List Slot :=
  if move.ends && decide (move.plan.last + 1 < (reached slots).length) then
    slots.set (move.plan.last + 1) .endMark
  else slots

@[simp] theorem length_endMarked (move : Move) (slots : List Slot) :
    (endMarked move slots).length = slots.length := by
  rw [endMarked]
  split
  · exact length_set
  · rfl

theorem reached_endMarked (move : Move) (slots : List Slot) :
    (reached (endMarked move slots)).length = (reached slots).length := by
  rw [reached_length, reached_length, length_endMarked]

theorem endMarked_endMarked (move : Move) (slots : List Slot) :
    endMarked move (endMarked move slots) = endMarked move slots := by
  rw [endMarked, reached_endMarked, endMarked]
  split
  · exact set_set ..
  · rfl

theorem endMarked_set (move : Move) (slots : List Slot) (slot : Slot) :
    endMarked move (slots.set move.plan.last slot) =
      (endMarked move slots).set move.plan.last slot := by
  rw [endMarked, endMarked, reached_length, length_set, ← reached_length]
  split
  · exact set_comm _ _ (by omega)
  · rfl

theorem endMarked_overwrite {move : Move} (hrun : first + run.length = move.plan.last + 1)
    (hfits : first + run.length ≤ (reached slots).length) :
    endMarked move (overwrite slots first run) = overwrite (endMarked move slots) first run := by
  have hle := hfits.trans (reached_le slots)
  rw [endMarked, endMarked, reached_length_overwrite hfits]
  split
  · exact (overwrite_set_after _ (by omega) hrun.le).symm
  · rfl

theorem renameEnd_ok (h : (renameEnd move).run vol = (.ok (), vol')) :
    vol' = vol.put move.dest (endMarked move (vol.dirs move.dest)) := by
  rw [renameEnd, Prog.when] at h
  rw [endMarked]
  split at h
  · rename_i hends
    obtain ⟨there, vol₁, hget, h⟩ := Prog.bind_ok h
    cases hget
    rw [Prog.when] at h
    rw [hends, Bool.true_and]
    split at h
    · rename_i hthere
      rw [if_pos hthere]
      exact (writeSlot_ok h).1
    · rename_i hthere
      cases h
      rw [if_neg hthere, put_same]
  · rename_i hends
    cases h
    rw [Bool.not_eq_true] at hends
    rw [hends, Bool.false_and, if_neg Bool.false_ne_true, put_same]

/-- A directory whose end is marked behind a run that reaches past it goes on to be
read as it was. -/
theorem tidy_endMarked (htidy : Tidy items slots)
    (hends : move.ends = true ↔ (itemSlots items).length < move.plan.last + 1) :
    Tidy items (endMarked move slots) ∧ ((itemSlots items).length < move.plan.last + 1 →
      ∀ slot ∈ (reached (endMarked move slots))[move.plan.last + 1]?, slot = .endMark) := by
  rw [Volume.endMarked]
  split
  · rename_i hmark
    rw [Bool.and_eq_true, hends, decide_eq_true_eq] at hmark
    refine ⟨htidy.set_behind hmark.1 _, fun _ slot hslot => ?_⟩
    rw [reached_set, getElem?_set_self hmark.2] at hslot
    exact (Option.some.inj hslot).symm
  · rename_i hmark
    refine ⟨htidy, fun hlt slot hslot => ?_⟩
    rw [hends.mpr hlt, Bool.true_and, decide_eq_true_eq] at hmark
    rw [getElem?_eq_none (Nat.le_of_not_lt hmark)] at hslot
    cases hslot

theorem hidden_of_dotDot {entry : ShortEntry} (h : entry.isDotDot = true) :
    entry.isVisible = false := by
  refine hidden_of_first ?_
  rw [eq_of_beq h]
  rfl

theorem keeps_checkCluster (I : Volume → Prop) (cluster : Nat) :
    Prog.Keeps I (checkCluster cfg cluster) :=
  .ite (.pure _) (.fail _)

theorem state_of_keeps {α : Type} {x : Run α} {r : Except ErrorKind α}
    (hkeeps : Prog.Keeps (fun s => s = vol) x) (h : x.run vol = (r, vol')) : vol = vol' := by
  have hvol := hkeeps vol rfl
  rw [h] at hvol
  exact hvol.symm

theorem setDotDot_ok {child parent : Nat}
    (h : (setDotDot cfg child parent).run vol = (.ok (), vol')) : SameEntries vol vol' := by
  obtain ⟨_, vol₁, hcheck, h⟩ := Prog.bind_ok h
  obtain rfl := state_of_keeps (keeps_checkCluster _ _) hcheck
  obtain ⟨slot, vol₂, hget, h⟩ := Prog.bind_ok h
  obtain rfl : (vol.dirs (.chain child))[1]? = slot := Except.ok.inj (congrArg Prod.fst hget)
  obtain rfl : vol = vol₂ := congrArg Prod.snd hget
  split at h
  · rename_i entry hslot
    split at h
    · cases h
    · rename_i hdots
      rw [Bool.not_eq_true, Bool.not_eq_false'] at hdots
      obtain ⟨rfl, hlt⟩ := writeSlot_ok h
      have hhidden := hidden_of_dotDot hdots
      intro dir items htidy
      rcases eq_or_ne dir (.chain child) with rfl | hdir
      · rw [put_dirs]
        exact htidy.rewrite hslot hhidden hhidden hlt
      · rw [put_other _ hdir]
        exact ⟨⟨items, htidy⟩, rfl⟩
  · cases h

/-- A run that starts among the items takes the end's place where it goes on past
them. -/
theorem ends_iff (htidy : Tidy items slots) {start needed : Nat}
    (hstart : start ≤ (itemSlots items).length)
    (hfits : start + needed ≤ (reached slots).length) :
    (((reached slots).drop start).take needed).any (· == .endMark) = true ↔
      (itemSlots items).length < start + needed := by
  obtain ⟨-, rest, hreached, hend⟩ := htidy
  rw [hreached, any_eq_true]
  constructor
  · rintro ⟨slot, hslot, hmark⟩
    obtain ⟨i, hi⟩ := mem_iff_getElem?.mp hslot
    obtain rfl := eq_of_beq hmark
    have hlt : i < needed := by
      by_contra hge
      rw [getElem?_take_eq_none (Nat.le_of_not_lt hge)] at hi
      cases hi
    by_contra hle
    rw [getElem?_take_of_lt hlt, getElem?_drop, getElem?_append_left (by omega)] at hi
    exact notMem_endMark items (mem_of_getElem? hi)
  · intro hlt
    rw [hreached, length_append] at hfits
    refine ⟨.endMark, mem_iff_getElem?.mpr ⟨(itemSlots items).length - start, ?_⟩, rfl⟩
    rw [getElem?_take_of_lt (by omega), getElem?_drop, getElem?_append_right (by omega),
      Nat.add_sub_cancel' hstart, Nat.sub_self, getElem?_eq_getElem (by omega)]
    exact congrArg some (hend _ (by rw [head?_eq_getElem?, getElem?_eq_getElem (by omega)]; rfl))

def begun (source : DirStart) (src : Located) (dest : DirStart) (new : NewName) (plan : Plan)
    (moved : ShortEntry) (dotDot : Option (Nat × Nat)) (slots : List Slot) : Move where
  source := source
  src := src
  dest := dest
  new := new
  plan := plan
  entry := { moved with name := plan.short, ntCase := plan.ntCase }
  dotDot := dotDot
  ends := (((reached slots).drop plan.start).take plan.slots).any (· == .endMark)

theorem beginRename_ok {src : Located} {new : NewName} {plan : Plan} {moved : ShortEntry}
    {dotDot : Option (Nat × Nat)}
    (h : (beginRename source src dest new plan moved dotDot).run vol = (.ok move, vol')) :
    vol = vol' ∧ move = begun source src dest new plan moved dotDot (vol.dirs dest) := by
  obtain ⟨run, vol₁, hget, h⟩ := Prog.bind_ok h
  cases hget
  split at h
  · cases h
  · cases h
    exact ⟨rfl, rfl⟩

/-- A move stores the new entry's run and marks the end behind it, before it sets `..`
and clears the old entry. -/
theorem moveEntry_stores (hpos : 0 < move.plan.slots)
    (hlength : (entrySlots move.new move.plan move.entry).length = move.plan.slots)
    (h : (moveEntry cfg move).run vol = (.ok (), vol')) :
    move.plan.start + move.plan.slots ≤ (reached (vol.dirs move.dest)).length ∧
      ((do
        Prog.whenSome move.dotDot fun (dir, parent) => setDotDot cfg dir parent
        clearSlots move.source move.src.first (move.src.slot + 1)) : Run Unit).run
          ((⟨vol.dirs, none⟩ : Volume).put move.dest
            (overwrite (endMarked move (vol.dirs move.dest))
            move.plan.start (entrySlots move.new move.plan move.entry))) = (.ok (), vol') := by
  have hlast : move.plan.start + move.plan.slots = move.plan.last + 1 := by
    rw [Plan.last]
    omega
  obtain ⟨_, vol₁, hset, h₁⟩ := Prog.bind_ok h
  obtain rfl := setAppend_ok hset
  obtain ⟨_, vol₂, hfree, h₂⟩ := Prog.bind_ok h₁
  obtain ⟨rfl, -⟩ := writeSlot_ok hfree
  obtain ⟨_, vol₃, hend, h₃⟩ := Prog.bind_ok h₂
  obtain rfl := renameEnd_ok hend
  obtain ⟨_, vol₄, hinsert, h₄⟩ := Prog.bind_ok h₃
  obtain ⟨rfl, hfits⟩ := insertEntry_ok hinsert
  obtain ⟨_, vol₅, hend', h₅⟩ := Prog.bind_ok h₄
  obtain rfl := renameEnd_ok hend'
  simp only [put_dirs] at hfits
  rw [reached_endMarked, reached_set, length_set, hlength] at hfits
  refine ⟨hfits, ?_⟩
  rw [← h₅]
  congr 1
  change Volume.mk _ none = Volume.mk _ none
  simp only [Volume.put, Function.update_self, Function.update_idem]
  rw [endMarked_overwrite (by rw [hlength, hlast]) (by
    rw [hlength, reached_endMarked, reached_set, length_set]
    exact hfits), endMarked_endMarked, endMarked_set,
      overwrite_set (by rw [Plan.last]; omega) (by omega)]

/-- What a move comes to: the new entry stored, `..` set, the old entry's slots
freed. -/
theorem moveEntry_ok (hpos : 0 < move.plan.slots)
    (hlength : (entrySlots move.new move.plan move.entry).length = move.plan.slots)
    (h : (moveEntry cfg move).run vol = (.ok (), vol')) :
    move.plan.start + move.plan.slots ≤ (reached (vol.dirs move.dest)).length ∧
      ∃ vol₁, SameEntries (vol.put move.dest (overwrite (endMarked move (vol.dirs move.dest))
          move.plan.start (entrySlots move.new move.plan move.entry))) vol₁ ∧
        vol' = { vol₁.put move.source (freed (vol₁.dirs move.source) move.src) with
          appendIndex := none } := by
  obtain ⟨hfits, hrest⟩ := moveEntry_stores hpos hlength h
  obtain ⟨_, vol₁, hdots, hclear⟩ := Prog.bind_ok hrest
  refine ⟨hfits, vol₁, fun dir items htidy => ?_, clearSlots_ok hclear⟩
  cases hdot : move.dotDot with
  | none =>
    rw [hdot] at hdots
    cases hdots
    exact ⟨⟨items, htidy⟩, rfl⟩
  | some pair =>
    rw [hdot] at hdots
    change (setDotDot cfg pair.1 pair.2).run _ = _ at hdots
    exact setDotDot_ok hdots dir items htidy

end Hadris.Directory.Volume
