import Hadris.Directory.Create

namespace Hadris.Directory.Volume

open List

variable {cfg : Config} {vol vol' : Volume} {source dest : DirStart} {src target : Located}
  {new : NewName} {plan : Plan} {moved entry : ShortEntry} {dotDot : Option (Nat × Nat)}
  {items : List Item} {before slots : List Slot} {others : List Located}
  {skip : Skip} {text : Text}

theorem entrySlots_length (entry : ShortEntry) (h : plan.slots = new.slots) :
    (entrySlots new plan entry).length = plan.slots := by
  have hlength : (longRun new.text entry.lfnChecksum).length = longEntries new.text := by
    rw [longRun, length_map, length_range]
  rw [entrySlots, length_append, length_map, length_take, hlength,
    length_singleton, h, NewName.slots]
  split <;> omega

theorem plan_slots {wanted : Wanted} {dir : DirStart}
    (h : (Volume.plan cfg dir wanted).run vol = (.ok plan, vol')) :
    plan.slots = wanted.new.slots := by
  obtain ⟨index, -, -, honly, -, happend⟩ | ⟨eligible, -, hscan⟩ := plan_cases h
  · obtain ⟨-, -, -, -, hone, -⟩ := planAppend_cases happend
    rw [hone, NewName.slots, if_pos honly]
  · obtain ⟨scan, -, -, -, hslots, -⟩ := planScan_cases hscan
    exact hslots

theorem Planned.last_succ {wanted : Wanted} (h : Planned cfg before wanted items plan) :
    plan.last + 1 = plan.start + plan.slots := by
  have hpos : 0 < plan.slots := h.slots_eq ▸ wanted.new.slots_pos
  rw [Plan.last]
  omega

theorem Apart.tail (h : Apart cfg (src :: others)) : Apart cfg others := (pairwise_cons.mp h).2

theorem moveEntry_dest {move : Move} (htidy : Tidy items (vol.dirs move.dest))
    (happart : Apart cfg (visible (vol.dirs move.dest)))
    (hnew : NewName.new move.new.text cfg.page (fold cfg) = .ok move.new)
    (hstorable : storable move.new.text = true)
    (hplanned : Planned cfg before ⟨move.new.text, false, move.new, skip⟩ items move.plan)
    (hname : move.entry.name = move.plan.short) (hcase : move.entry.ntCase = move.plan.ntCase)
    (hlabel : move.entry.isLabel = false)
    (hends : move.plan.start + move.plan.slots ≤ (reached (vol.dirs move.dest)).length →
      (move.ends = true ↔ (itemSlots items).length < move.plan.start + move.plan.slots))
    (hloose : move.new.shortOnly = true → looseEnd (itemSlots items) = false)
    (hperm : (visible (vol.dirs move.dest)).Perm
      (if move.source = move.dest then move.src :: others else others))
    (hfresh : ∀ loc ∈ others, folded (fold cfg) move.new.text ∉ keys cfg loc)
    (hclear : TailClear cfg move.new (storedNames skip 0 (reached before)) others)
    (h : (moveEntry cfg move).run vol = (.ok (), vol')) :
    Sound cfg vol' move.dest ∧ vol'.appendIndex = none := by
  have hlength := entrySlots_length move.entry hplanned.slots_eq
  obtain ⟨hfits, vol₁, hsame, rfl⟩ :=
    moveEntry_ok (hplanned.slots_eq ▸ move.new.slots_pos) hlength h
  have hends := hends hfits
  rw [← hplanned.last_succ] at hends
  obtain ⟨hmarked, hbehind⟩ := tidy_endMarked htidy hends
  rw [hplanned.last_succ] at hbehind
  have hshown : visible (endMarked move (vol.dirs move.dest)) = visible (vol.dirs move.dest) := by
    rw [hmarked.visible_eq, htidy.visible_eq]
  obtain ⟨named, hstored⟩ := exists_stored hnew hstorable hplanned hname hcase hlabel hmarked
    (by rwa [hlength, reached_endMarked]) hbehind hloose
  obtain ⟨items₁, htidy₁⟩ := hstored.tidy
  obtain ⟨⟨items₂, htidy₂⟩, hvisible⟩ := hsame move.dest items₁ (by rwa [put_dirs])
  have hdest : (visible (vol₁.dirs move.dest)).Perm
      (named.locate move.plan.start :: visible (vol.dirs move.dest)) := by
    rw [hvisible, put_dirs, ← hshown]
    exact hstored.perm
  have hnew' : Apart cfg (named.locate move.plan.start :: others) := by
    refine pairwise_cons.mpr ⟨hstored.disjoint others hfresh hclear, ?_⟩
    have hold := happart.perm hperm
    split at hold
    · exact hold.tail
    · exact hold
  refine ⟨?_, rfl⟩
  by_cases heq : move.source = move.dest
  · -- the entry that was moved goes from the directory it was moved in
    rw [if_pos heq] at hperm
    have hsrc : move.src ∈ visible (vol₁.dirs move.dest) :=
      hdest.mem_iff.mpr (mem_cons_of_mem _ (hperm.mem_iff.mpr mem_cons_self))
    obtain ⟨items₃, -, -, hclears⟩ := htidy₂.clear hsrc
    obtain ⟨htidy₃, hcleared⟩ := hclears _ htidy₂
    have hboth := hcleared.symm.trans (hdest.trans ((hperm.cons _).trans (List.Perm.swap ..)))
    refine ⟨⟨items₃, ?_⟩, fun _ hindex => (by cases hindex), ?_⟩
    · change Tidy items₃ ((Volume.put _ _ _).dirs _)
      rwa [heq, put_dirs]
    · change Apart cfg (visible ((Volume.put _ _ _).dirs _))
      rw [heq, put_dirs]
      exact hnew'.perm hboth.cons_inv.symm
  · rw [if_neg heq] at hperm
    refine ⟨⟨items₂, ?_⟩, fun _ hindex => (by cases hindex), ?_⟩
    · change Tidy items₂ ((Volume.put _ _ _).dirs _)
      rwa [put_other _ (Ne.symm heq)]
    · change Apart cfg (visible ((Volume.put _ _ _).dirs _))
      rw [put_other _ (Ne.symm heq)]
      exact hnew'.perm (hdest.trans (hperm.cons _)).symm

theorem moveEntry_other {move : Move} {dir : DirStart} (hdir : dir ≠ move.dest)
    (hslots : move.plan.slots = move.new.slots)
    (htidy : Tidy items (vol.dirs dir)) (happart : Apart cfg (visible (vol.dirs dir)))
    (hsrc : move.source = dir → move.src ∈ visible (vol.dirs dir))
    (h : (moveEntry cfg move).run vol = (.ok (), vol')) :
    Sound cfg vol' dir ∧ vol'.appendIndex = none := by
  obtain ⟨-, vol₁, hsame, rfl⟩ :=
    moveEntry_ok (hslots ▸ move.new.slots_pos) (entrySlots_length move.entry hslots) h
  obtain ⟨⟨items₁, htidy₁⟩, hvisible⟩ := hsame dir items (by rwa [put_other _ hdir])
  rw [put_other _ hdir] at hvisible
  refine ⟨?_, rfl⟩
  by_cases heq : move.source = dir
  · obtain ⟨items₂, -, -, hclears⟩ := htidy₁.clear (hvisible ▸ hsrc heq)
    obtain ⟨htidy₂, hcleared⟩ := hclears _ htidy₁
    rw [hvisible] at hcleared
    refine ⟨⟨items₂, ?_⟩, fun _ hindex => (by cases hindex), ?_⟩
    · change Tidy items₂ ((Volume.put _ _ _).dirs _)
      rwa [heq, put_dirs]
    · change Apart cfg (visible ((Volume.put _ _ _).dirs _))
      rw [heq, put_dirs]
      exact (happart.perm hcleared).tail
  · refine ⟨⟨items₁, ?_⟩, fun _ hindex => (by cases hindex), ?_⟩
    · change Tidy items₁ ((Volume.put _ _ _).dirs _)
      rwa [put_other _ (Ne.symm heq)]
    · change Apart cfg (visible ((Volume.put _ _ _).dirs _))
      rw [put_other _ (Ne.symm heq), hvisible]
      exact happart

def rivals (skip : Skip) (slots : List Slot) : List Located :=
  (visible slots).filter fun loc => !skip.covers loc.slot

theorem TailClear.mono {stored : List ShortName} {a b : List Located}
    (h : TailClear cfg new stored a) (hsub : b ⊆ a) : TailClear cfg new stored b :=
  fun htail tailed hfind loc hloc => h htail tailed hfind loc (hsub hloc)

variable (source dest src slots skip) in
theorem exists_rivals {after : List Slot} (htidy : Tidy items after)
    (hsrc : source = dest → src ∈ visible after)
    (hstay : ∀ loc ∈ visible after, loc ∈ visible slots ∧ skip.inRun loc.slot = false)
    (hskip : skip.entry = if source = dest then some src.slot else none) :
    ∃ others, (visible after).Perm (if source = dest then src :: others else others) ∧
      ∀ loc ∈ others, loc ∈ visible after ∧ (source = dest → loc ≠ src) ∧
        loc ∈ rivals skip slots := by
  have hrival : ∀ loc ∈ visible after, (skip.entry == some loc.slot) = false →
      loc ∈ rivals skip slots := by
    intro loc hloc hentry
    obtain ⟨hmem, hrun⟩ := hstay loc hloc
    exact mem_filter.mpr ⟨hmem, by rw [Skip.covers, hentry, hrun]; rfl⟩
  by_cases hdir : source = dest
  · rw [if_pos hdir] at hskip
    obtain ⟨others, hperm, hothers⟩ := split_entry htidy (hsrc hdir)
    refine ⟨others, by rwa [if_pos hdir], fun loc hloc => ?_⟩
    have hmem : loc ∈ visible after := hperm.mem_iff.mpr (mem_cons_of_mem _ hloc)
    have hne : loc.slot ≠ src.slot := by
      have hbounds := visible_bounds htidy hmem
      have hbounds' := visible_bounds htidy (hsrc hdir)
      rcases hothers loc hloc with hlt | hlt <;> omega
    refine ⟨hmem, fun _ heq => hne (heq ▸ rfl), hrival loc hmem ?_⟩
    rw [hskip]
    exact beq_eq_false_iff_ne.mpr fun heq => hne (Option.some.inj heq).symm
  · rw [if_neg hdir] at hskip
    refine ⟨visible after, by rw [if_neg hdir], fun loc hloc => ⟨hloc, fun heq =>
      absurd heq hdir, ?_⟩⟩
    exact hrival loc hloc (by rw [hskip]; rfl)

theorem renameInto_ok (hskip : skip = ⟨if source = dest then some src.slot else none, none⟩)
    (h : (renameInto cfg source src dest new moved dotDot).run vol = (.ok (), vol')) :
    ∃ plan vol₁, (Volume.plan cfg dest ⟨new.text, false, new, skip⟩).run vol = (.ok plan, vol₁) ∧
      (moveEntry cfg (begun source src dest new plan moved dotDot
        (grown cfg plan (vol.dirs dest)))).run
          ((⟨vol.dirs, vol₁.appendIndex⟩ : Volume).put dest
            (grown cfg plan (vol.dirs dest))) = (.ok (), vol') := by
  obtain ⟨plan, vol₁, hplan, h₁⟩ := Prog.bind_ok h
  rw [← hskip] at hplan
  obtain ⟨_, vol₂, hgrow, h₂⟩ := Prog.bind_ok h₁
  obtain rfl := grow_ok hgrow
  obtain ⟨move, vol₃, hbegin, hmove⟩ := Prog.bind_ok h₂
  obtain ⟨rfl, rfl⟩ := beginRename_ok hbegin
  rw [put_dirs, (plan_frame hplan).1] at hmove
  refine ⟨plan, vol₁, hplan, ?_⟩
  rw [← hmove, ← (plan_frame hplan).1]

theorem renameInto_dest (hsound : Sound cfg vol dest)
    (hnew : NewName.new new.text cfg.page (fold cfg) = .ok new)
    (hstorable : storable new.text = true)
    (hlabel : moved.isLabel = false) (hsrc : source = dest → src ∈ visible (vol.dirs dest))
    (hfresh : ∀ loc ∈ visible (vol.dirs dest), (source = dest → loc ≠ src) →
      folded (fold cfg) new.text ∉ keys cfg loc)
    (hskip : skip = ⟨if source = dest then some src.slot else none, none⟩)
    (hclear : TailClear cfg new (storedNames skip 0 (reached (vol.dirs dest)))
      (rivals skip (vol.dirs dest)))
    (hloose : new.shortOnly = true → looseEnd (used (vol.dirs dest)) = false)
    (h : (renameInto cfg source src dest new moved dotDot).run vol = (.ok (), vol')) :
    Sound cfg vol' dest := by
  obtain ⟨items, htidy⟩ := hsound.tidy
  obtain ⟨plan, vol₁, hplan, hmove⟩ := renameInto_ok hskip h
  have hplanned := plan_ok hnew (fun h => by cases h) hsound.indexed htidy
    (.inl ⟨by rw [hskip], rfl⟩) hplan
  have hgrown : Tidy items (grown cfg plan (vol.dirs dest)) := htidy.grow _
  have hvisible : visible (grown cfg plan (vol.dirs dest)) = visible (vol.dirs dest) :=
    visible_grow htidy _
  obtain ⟨others, hperm, hrivals⟩ := exists_rivals source dest src (vol.dirs dest) skip htidy hsrc
    (fun loc hloc => ⟨hloc, inRun_none (by rw [hskip]) _⟩) (by rw [hskip])
  rw [← hvisible] at hperm
  rw [← put_dirs (⟨vol.dirs, vol₁.appendIndex⟩ : Volume) dest
    (grown cfg plan (vol.dirs dest))] at hgrown hperm hvisible
  refine (moveEntry_dest hgrown (hvisible ▸ hsound.apart) hnew hstorable hplanned rfl rfl hlabel
    (fun hfits => ?_) (fun hshort => used_eq htidy ▸ hloose hshort) hperm (fun loc hloc => ?_)
    (hclear.mono fun loc hloc => (hrivals loc hloc).2.2) hmove).1
  · change plan.start + plan.slots ≤ (reached ((Volume.put _ dest _).dirs dest)).length at hfits
    rw [put_dirs] at hfits
    exact ends_iff (htidy.grow _) hplanned.room.start_le hfits
  · obtain ⟨hmem, hne, -⟩ := hrivals loc hloc
    exact hfresh loc hmem hne

theorem renameInto_other {dir : DirStart} (hsound : Sound cfg vol dir) (hdir : dir ≠ dest)
    (hsrc : source = dir → src ∈ visible (vol.dirs dir))
    (h : (renameInto cfg source src dest new moved dotDot).run vol = (.ok (), vol')) :
    Sound cfg vol' dir := by
  obtain ⟨items, htidy⟩ := hsound.tidy
  obtain ⟨plan, vol₁, hplan, hmove⟩ := renameInto_ok rfl h
  have hother := put_other (⟨vol.dirs, vol₁.appendIndex⟩ : Volume) hdir
    (grown cfg plan (vol.dirs dest))
  refine (moveEntry_other hdir (plan_slots hplan) (hother.symm ▸ htidy) ?_
    (fun heq => ?_) hmove).1
  · rw [hother]
    exact hsound.apart
  · rw [hother]
    exact hsrc heq

theorem overwrite_concat {first : Nat} {run : List Slot} (slot : Slot)
    (h : first + run.length < slots.length) :
    overwrite (slots.set (first + run.length) slot) first run = overwrite slots first
      (run ++ [slot]) := by
  rw [overwrite, overwrite, take_set_of_le (Nat.le_add_right ..),
    drop_eq_getElem_cons (by rwa [length_set]), getElem_set_self,
    drop_set_of_lt (Nat.lt_succ_self _), length_append, length_singleton,
    append_assoc, ← Nat.add_assoc]
  rfl

theorem freed_eq (hle : src.first ≤ src.slot) (hlt : src.slot < slots.length) :
    overwrite (slots.set src.slot .free) src.first (replicate (src.slot - src.first) .free) =
      freed slots src := by
  have hlength : src.first + (replicate (src.slot - src.first) Slot.free).length = src.slot := by
    rw [length_replicate]
    omega
  have hconcat := overwrite_concat .free (hlength ▸ hlt)
  rw [hlength] at hconcat
  rw [hconcat, freed, ← replicate_succ']
  exact congrArg (fun n => overwrite slots src.first (replicate n .free)) (by omega)

/-- What a rename onto another entry does: it plans, clears the target's slots, the
last of them first, and moves. -/
theorem replaceEntry_ok
    (hskip : skip = ⟨if source = dest then some src.slot else none,
      some (target.first, target.slot)⟩)
    (h : (replaceEntry cfg source src dest target new moved dotDot).run vol = (.ok (), vol')) :
    ∃ plan vol₁ vol₂,
      (Volume.plan cfg dest ⟨new.text, false, new, skip⟩).run vol = (.ok plan, vol₁) ∧
      (moveEntry cfg (begun source src dest new plan moved dotDot
        (grown cfg plan (vol.dirs dest)))).run
          ((⟨vol.dirs, none⟩ : Volume).put dest (overwrite
            ((grown cfg plan (vol.dirs dest)).set target.slot .free) target.first
            (replicate (target.slot - target.first) .free))) = (.ok (), vol₂) ∧
      (vol' = vol₂ ∨ ∃ dir, vol' = vol₂.put dir []) := by
  rw [replaceEntry] at h
  split at h
  · cases h
  split at h
  · cases h
  obtain ⟨_, vol₁, hempty, h₁⟩ := Prog.bind_ok h
  obtain rfl : vol = vol₁ := by
    refine state_of_keeps (.when fun _ => ?_) hempty
    exact .bind (keeps_checkCluster _ _) fun _ => .bind (.gets _) fun _ => .when fun _ => .fail _
  obtain ⟨plan, vol₂, hplan, h₂⟩ := Prog.bind_ok h₁
  rw [← hskip] at hplan
  split at h₂
  · cases h₂
  obtain ⟨_, vol₃, hgrow, h₃⟩ := Prog.bind_ok h₂
  obtain rfl := grow_ok hgrow
  obtain ⟨move, vol₄, hbegin, h₄⟩ := Prog.bind_ok h₃
  obtain ⟨rfl, rfl⟩ := beginRename_ok hbegin
  obtain ⟨_, vol₅, hset, h₅⟩ := Prog.bind_ok h₄
  obtain rfl := setAppend_ok hset
  obtain ⟨_, vol₆, hfree, h₆⟩ := Prog.bind_ok h₅
  obtain ⟨rfl, -⟩ := writeSlot_ok hfree
  obtain ⟨_, vol₇, hclears, h₇⟩ := Prog.bind_ok h₆
  obtain ⟨_, vol₈, hmove, hdrop⟩ := Prog.bind_ok h₇
  obtain rfl : (⟨vol₂.dirs, none⟩ : Volume).put dest (overwrite
      ((grown cfg plan (vol₂.dirs dest)).set target.slot .free) target.first
      (replicate (target.slot - target.first) .free)) = vol₇ := by
    rw [clearSlots_ok hclears, put_dirs]
    change _ = Volume.mk (Function.update (Function.update (Function.update _ _ _) _ _) _ _) none
    rw [Function.update_idem, Function.update_idem, put_dirs]
    rfl
  rw [put_dirs, (plan_frame hplan).1] at hmove
  refine ⟨plan, vol₂, vol₈, hplan, hmove, ?_⟩
  rw [Prog.when] at hdrop
  split at hdrop
  · exact .inr ⟨_, setSlots_ok hdrop⟩
  · cases hdrop
    exact .inl rfl

theorem Sound.drop {dir : DirStart} (h : Sound cfg vol dir) (happend : vol.appendIndex = none)
    (other : DirStart) : Sound cfg (vol.put other []) dir := by
  refine ⟨?_, fun index hindex => ?_, ?_⟩
  · rcases eq_or_ne dir other with rfl | hother
    · rw [put_dirs]
      exact ⟨[], trivial, [], rfl, nofun⟩
    · rw [put_other _ hother]
      exact h.tidy
  · rw [put_appendIndex, happend] at hindex
    cases hindex
  · rcases eq_or_ne dir other with rfl | hother
    · rw [put_dirs]
      exact .nil
    · rw [put_other _ hother]
      exact h.apart

theorem replaceEntry_other {dir : DirStart} (hsound : Sound cfg vol dir) (hdir : dir ≠ dest)
    (hsrc : source = dir → src ∈ visible (vol.dirs dir))
    (h : (replaceEntry cfg source src dest target new moved dotDot).run vol = (.ok (), vol')) :
    Sound cfg vol' dir := by
  obtain ⟨items, htidy⟩ := hsound.tidy
  obtain ⟨plan, vol₁, vol₂, hplan, hmove, hvol⟩ := replaceEntry_ok rfl h
  have hother := fun slots => put_other (⟨vol.dirs, none⟩ : Volume) hdir slots
  obtain ⟨hmoved, happend⟩ := moveEntry_other hdir (plan_slots hplan) ((hother _).symm ▸ htidy)
    (by rw [hother]; exact hsound.apart) (fun heq => by rw [hother]; exact hsrc heq) hmove
  rcases hvol with rfl | ⟨freed, rfl⟩
  · exact hmoved
  · exact hmoved.drop happend freed

theorem replaceEntry_dest (hsound : Sound cfg vol dest)
    (hnew : NewName.new new.text cfg.page (fold cfg) = .ok new) (hstorable : storable
      new.text = true)
    (hlabel : moved.isLabel = false) (hsrc : source = dest → src ∈ visible (vol.dirs dest))
    (htarget : target ∈ visible (vol.dirs dest)) (hnamed : named cfg new.text target = true)
    (hne : source = dest → target ≠ src)
    (hskip : skip = ⟨if source = dest then some src.slot else none,
      some (target.first, target.slot)⟩)
    (hclear : TailClear cfg new (storedNames skip 0 (reached (vol.dirs dest)))
      (rivals skip (vol.dirs dest)))
    (hloose : new.shortOnly = true → looseEnd (used (freed (vol.dirs dest) target)) = false)
    (h : (replaceEntry cfg source src dest target new moved dotDot).run vol = (.ok (), vol')) :
    Sound cfg vol' dest := by
  obtain ⟨items, htidy⟩ := hsound.tidy
  obtain ⟨items', hlt, hblank, hfreed⟩ := htidy.clear htarget
  obtain ⟨plan, vol₁, vol₂, hplan, hmove, hvol⟩ := replaceEntry_ok hskip h
  have hplanned := plan_ok hnew (fun h => by cases h) hsound.indexed htidy
    (hblank skip (by rw [hskip])) hplan
  have hbounds := visible_bounds htidy htarget
  -- what the target leaves behind
  obtain ⟨grown, hgrown⟩ : ∃ slots, slots = grown cfg plan (vol.dirs dest) := ⟨_, rfl⟩
  have htidy₁ : Tidy items grown := hgrown ▸ htidy.grow _
  have hvisible : visible grown = visible (vol.dirs dest) := hgrown ▸ visible_grow htidy _
  have hle := htidy₁.length_le
  have hle' := reached_le grown
  obtain ⟨htidy', hperm⟩ := hfreed grown htidy₁
  rw [hvisible] at hperm
  rw [← hgrown, freed_eq hbounds (by omega)] at hmove
  -- the entries that stay are those the new name was planned against
  have hstay : ∀ loc ∈ visible (freed grown target), loc ∈ visible (vol.dirs dest) ∧
      folded (fold cfg) new.text ∉ keys cfg loc ∧ skip.inRun loc.slot = false := by
    intro loc hloc
    have hmem : loc ∈ visible (vol.dirs dest) := hperm.mem_iff.mpr (mem_cons_of_mem _ hloc)
    have hdisjoint := (pairwise_cons.mp (hsound.apart.perm hperm)).1 loc hloc
    have hseparate : target.Separate loc :=
      (pairwise_cons.mp (hperm.pairwise (visible_separate htidy) fun hab => hab.symm)).1 loc hloc
    refine ⟨hmem, fun hkey => hdisjoint ((named_iff htidy htarget _).mp hnamed) hkey, ?_⟩
    have hbounds := visible_bounds htidy hmem
    rw [inRun_some (by rw [hskip]), decide_eq_false_iff_not]
    rcases hseparate with hlt | hlt <;> omega
  obtain ⟨others, hothers, hrivals⟩ := exists_rivals source dest src (vol.dirs dest) skip htidy'
    (fun hdir => (mem_cons.mp (hperm.mem_iff.mp (hsrc hdir))).resolve_left (hne hdir).symm)
    (fun loc hloc => ⟨(hstay loc hloc).1, (hstay loc hloc).2.2⟩) (by rw [hskip])
  have happart : Apart cfg (visible (freed grown target)) := (hsound.apart.perm hperm).tail
  have hfits : target.first + (replicate (target.slot + 1 - target.first) Slot.free).length ≤
      (reached grown).length := by
    rw [length_replicate]
    omega
  have hlength : (itemSlots items').length = (itemSlots items).length :=
    (hblank skip (by rw [hskip])).length_eq
  have hends : plan.start + plan.slots ≤ (reached (freed grown target)).length →
      ((((reached grown).drop plan.start).take plan.slots).any (· == .endMark) = true ↔
        (itemSlots items').length < plan.start + plan.slots) := by
    intro hwithin
    rw [freed, reached_length_overwrite hfits] at hwithin
    rw [hlength]
    exact ends_iff htidy₁ (hlength ▸ hplanned.room.start_le) hwithin
  rw [← put_dirs (⟨vol.dirs, none⟩ : Volume) dest
    (freed grown target)] at hothers htidy' hends happart
  obtain ⟨hmoved, happend⟩ := moveEntry_dest htidy' happart hnew hstorable hplanned rfl rfl hlabel
    hends (fun hshort => used_eq (hfreed _ htidy).1 ▸ hloose hshort) hothers
      (fun loc hloc => (hstay loc (hrivals loc hloc).1).2.1)
    (hclear.mono fun loc hloc => (hrivals loc hloc).2.2) hmove
  rcases hvol with rfl | ⟨freed, rfl⟩
  · exact hmoved
  · exact hmoved.drop happend freed

def replaced (cfg : Config) (vol : Volume) (source : DirStart) (src : Located) (dest : DirStart)
    (name : Text) : Option Located :=
  ((visible (vol.dirs dest)).find? (named cfg name)).filter fun target =>
    !decide (dest = source ∧ target.slot = src.slot)

def renameSkip (cfg : Config) (vol : Volume) (source : DirStart) (src : Located) (dest : DirStart)
    (name : Text) : Skip :=
  ⟨if source = dest then some src.slot else none,
    (replaced cfg vol source src dest name).map fun target => (target.first, target.slot)⟩

theorem keeps_dotDot (first : Nat) : Prog.Keeps (fun s => s = vol) (Volume.dotDot cfg first) := by
  refine .bind (keeps_checkCluster _ _) fun _ => .bind (.gets _) fun slot => ?_
  rcases slot with _ | ⟨_ | _ | part | entry⟩
  · exact .fail _
  · exact .fail _
  · exact .fail _
  · exact .fail _
  · exact .ite (.fail _) (.ite (.pure _) (.bind (keeps_checkCluster _ _) fun _ => .pure _))

theorem keeps_isWithinLoop (ancestor fuel cluster : Nat) :
    Prog.Keeps (fun s => s = vol) (isWithinLoop cfg ancestor fuel cluster) := by
  induction fuel generalizing cluster with
  | zero => exact .fail _
  | succ fuel ih =>
    refine .ite (.pure _) (.ite (.pure _) (.bind (keeps_dotDot _) fun up => ?_))
    cases up with
    | none => exact .pure _
    | some up => exact ih up

theorem keeps_isWithin (dir : DirStart) (ancestor : Nat) :
    Prog.Keeps (fun s => s = vol) (isWithin cfg dir ancestor) := by
  cases dir with
  | fixed => exact .pure _
  | chain cluster => exact keeps_isWithinLoop _ _ _

theorem findEntry_ok {found : Option Located} {query : Text}
    (h : (findEntry cfg source query).run vol = (.ok found, vol')) :
    found = (visible (vol.dirs source)).find? (named cfg query) ∧ vol = vol' := by
  cases h
  exact ⟨rfl, rfl⟩

/-- The slots of the directory a rename goes to, without those of the entry it replaces. -/
def vacated (cfg : Config) (vol : Volume) (source : DirStart) (src : Located) (dest : DirStart)
    (name : Text) : List Slot :=
  (replaced cfg vol source src dest name).elim (vol.dirs dest) (freed (vol.dirs dest))

/-- The condition for a rename. -/
def RenameClear (cfg : Config) (vol : Volume) (source : DirStart)
    (srcName : Text) (dest : DirStart) (name : Text) : Prop :=
  ∀ new src, NewName.new name cfg.page (fold cfg) = .ok new →
    (visible (vol.dirs source)).find? (named cfg srcName) = some src →
      storable name = true ∧ TailClear cfg new
        (storedNames (renameSkip cfg vol source src dest name) 0 (reached (vol.dirs dest)))
        (rivals (renameSkip cfg vol source src dest name) (vol.dirs dest)) ∧
      (new.shortOnly = true → looseEnd (used (vacated cfg vol source src dest name)) = false)

theorem visible_isLabel {loc : Located} {start slot : Nat} {long : Assembler}
    (h : loc ∈ listing start long slot slots) : loc.entry.isLabel = false := by
  induction slots generalizing start slot long with
  | nil => cases h
  | cons first rest ih =>
    cases first with
    | endMark => cases h
    | free => exact ih h
    | long part => exact ih h
    | short entry =>
      rw [listing] at h
      split at h
      · rename_i hvisible
        rcases mem_cons.mp h with rfl | h
        · rw [ShortEntry.isVisible, Bool.and_eq_true, Bool.not_eq_true'] at hvisible
          exact hvisible.1
        · exact ih h
      · exact ih h

theorem isLabel_moved {entry : ShortEntry} (h : entry.isLabel = false) :
    (if entry.isDir then entry else { entry with attr := entry.attr ||| attrArchive }).isLabel =
      false := by
  split
  · exact h
  · have hall : ∀ n < 256, (UInt8.ofNat n ||| attrArchive) &&& attrVolumeId =
        UInt8.ofNat n &&& attrVolumeId := by decide +kernel
    have hattr := hall entry.attr.toNat entry.attr.toNat_lt
    rw [UInt8.ofNat_toNat] at hattr
    change ((entry.attr ||| attrArchive) &&& attrVolumeId != 0) = false
    rw [hattr]
    exact h

instance : Std.Symm fun a b => List.Disjoint (keys cfg a) (keys cfg b) :=
  ⟨fun _ _ h => disjoint_symm h⟩

/-- What a rename that succeeds does: nothing, or it moves `src` where its name is
free, or onto another entry. -/
theorem rename_ok {srcName name : Text} {mode : RenameMode}
    (h : (rename cfg source srcName dest name mode).run vol = (.ok (), vol')) :
    ∃ new src dotDot moved, NewName.new name cfg.page (fold cfg) = .ok new ∧
      (visible (vol.dirs source)).find? (named cfg srcName) = some src ∧ moved.isLabel = false ∧
        (vol' = vol ∨
          replaced cfg vol source src dest name = none ∧
            (renameInto cfg source src dest new moved dotDot).run vol = (.ok (), vol') ∨
          ∃ target, replaced cfg vol source src dest name = some target ∧
            (replaceEntry cfg source src dest target new moved dotDot).run vol =
              (.ok (), vol')) := by
  rw [rename] at h
  split at h
  · cases h
  obtain ⟨new, vol₁, hmake, h₁⟩ := Prog.bind_ok h
  obtain ⟨hnew, rfl⟩ := Prog.ofExcept_ok hmake
  obtain ⟨found, vol₂, hfind, h₂⟩ := Prog.bind_ok h₁
  obtain ⟨hfound, rfl⟩ := findEntry_ok hfind
  split at h₂
  · cases h₂
  rename_i src
  obtain ⟨within, vol₃, hwithin, h₃⟩ := Prog.bind_ok h₂
  obtain rfl : vol = vol₃ := by
    refine state_of_keeps (.ite ?_ (.pure _)) hwithin
    exact .bind (keeps_checkCluster _ _) fun _ => keeps_isWithin _ _
  split at h₃
  · cases h₃
  obtain ⟨target, vol₄, hlook, h₄⟩ := Prog.bind_ok h₃
  obtain ⟨htarget, rfl⟩ := findEntry_ok hlook
  have hlabel := isLabel_moved (visible_isLabel (mem_of_find?_eq_some hfound.symm))
  refine ⟨new, src, if src.entry.isDir && parentCluster cfg source != parentCluster cfg dest
      then some (src.entry.firstCluster, parentCluster cfg dest) else none,
    _, hnew, hfound.symm, hlabel, ?_⟩
  rw [replaced, ← htarget]
  cases target with
  | none => exact .inr (.inl ⟨rfl, h₄⟩)
  | some target =>
    dsimp only at h₄
    rw [Option.filter_some]
    split at h₄
    · rename_i hsame
      rw [decide_eq_true hsame]
      split at h₄
      · cases h₄
        exact .inl rfl
      · exact .inr (.inl ⟨rfl, h₄⟩)
    · rename_i hother
      rw [decide_eq_false hother]
      split at h₄
      · cases h₄
      · exact .inr (.inr ⟨target, rfl, h₄⟩)

theorem rename_other {srcName name : Text} {mode : RenameMode} {dir : DirStart}
    (hsound : Sound cfg vol dir) (hdir : dir ≠ dest)
    (h : (rename cfg source srcName dest name mode).run vol = (.ok (), vol')) :
    Sound cfg vol' dir := by
  obtain ⟨new, src, dotDot, moved, -, hfound, -, hrun⟩ := rename_ok h
  have hsrc : source = dir → src ∈ visible (vol.dirs dir) := fun heq =>
    heq ▸ mem_of_find?_eq_some hfound
  rcases hrun with rfl | ⟨-, hrun⟩ | ⟨target, -, hrun⟩
  · exact hsound
  · exact renameInto_other hsound hdir hsrc hrun
  · exact replaceEntry_other hsound hdir hsrc hrun

/-- A rename keeps the names of the directory it moves to apart where the short name
it gives is clear. -/
theorem rename_dest {srcName name : Text} {mode : RenameMode} (hsound : Sound cfg vol dest)
    (hclear : RenameClear cfg vol source srcName dest name)
    (h : (rename cfg source srcName dest name mode).run vol = (.ok (), vol')) :
    Sound cfg vol' dest := by
  obtain ⟨new, src, dotDot, moved, hnew, hfound, hlabel, hrun⟩ := rename_ok h
  obtain rfl : new.text = name := (NewName.new_ok hnew).1
  obtain ⟨hstorable, hclear, hloose⟩ := hclear new src hnew hfound
  obtain ⟨items, htidy⟩ := hsound.tidy
  have hsrc : source = dest → src ∈ visible (vol.dirs dest) := fun heq =>
    heq ▸ mem_of_find?_eq_some hfound
  rcases hrun with rfl | ⟨hreplaced, hrun⟩ | ⟨target, hreplaced, hrun⟩
  · exact hsound
  · refine renameInto_dest hsound hnew hstorable hlabel hsrc (fun loc hloc hne hkey => ?_)
      (by rw [renameSkip, hreplaced]; rfl) hclear (by rwa [vacated, hreplaced] at hloose) hrun
    -- only the entry that is moved may have the name
    rw [← named_iff htidy hloc] at hkey
    rw [replaced, Option.filter_eq_none_iff] at hreplaced
    cases hfind : (visible (vol.dirs dest)).find? (named cfg new.text) with
    | none => exact find?_eq_none.mp hfind loc hloc hkey
    | some target =>
      have hsame := hreplaced target hfind
      rw [Bool.not_eq_true, Bool.not_eq_false', decide_eq_true_eq] at hsame
      obtain ⟨rfl, hslot⟩ := hsame
      have hmem : target ∈ visible (vol.dirs dest) := mem_of_find?_eq_some hfind
      obtain rfl : target = src := eq_of_slot htidy hmem (hsrc rfl) hslot
      exact hsound.apart.forall hloc hmem (hne rfl) ((named_iff htidy hloc _).mp hkey)
        ((named_iff htidy hmem _).mp (find?_some hfind))
  · have hfilter := hreplaced
    rw [replaced, Option.filter_eq_some_iff, Bool.not_eq_true',
      decide_eq_false_iff_not] at hfilter
    obtain ⟨hfind, hother⟩ := hfilter
    refine replaceEntry_dest hsound hnew hstorable hlabel hsrc (mem_of_find?_eq_some hfind)
      (find?_some hfind) (fun hdir heq => hother ⟨hdir.symm, by rw [heq]⟩)
      (by rw [renameSkip, hreplaced]; rfl) hclear (by rwa [vacated, hreplaced] at hloose) hrun

end Hadris.Directory.Volume
