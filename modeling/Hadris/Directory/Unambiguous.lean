import Hadris.Directory.Safe

namespace Hadris.Directory.Volume

/-- A call that gives an entry a name. -/
inductive Op where
  | create (dir : DirStart) (name : Text)
  | mkdir (dir : DirStart) (name : Text) (cluster : Nat)
  | rename (source : DirStart) (srcName : Text) (dest : DirStart)
      (name : Text) (mode : RenameMode)

namespace Op

def run (cfg : Config) : Op → Run Unit
  | create dir name => Volume.create cfg dir name
  | mkdir dir name cluster => Volume.mkdir cfg dir name cluster
  | rename source srcName dest name mode => Volume.rename cfg source srcName dest name mode

/-- The cluster a new directory takes is free, so not the one its parent starts at. -/
def Fresh : Op → Prop
  | create _ _ => True
  | mkdir dir _ cluster => dir ≠ .chain cluster
  | rename _ _ _ _ _ => True

end Op

variable {cfg : Config} {start vol vol' : Volume} {dir : DirStart} {slots : List Slot}

/-- The volumes calls lead to that succeed and are `allowed`. -/
inductive Reachable (cfg : Config) (allowed : Volume → Op → Prop) (start : Volume) : Volume → Prop
  | start : Reachable cfg allowed start start
  | step {vol : Volume} {op : Op} (h : Reachable cfg allowed start vol) (hfresh : op.Fresh)
      (hallowed : allowed vol op) (hok : ((op.run cfg).run vol).1 = .ok ()) :
      Reachable cfg allowed start ((op.run cfg).run vol).2

/-- No query names two visible entries. -/
def Unambiguous (cfg : Config) (slots : List Slot) : Prop :=
  (visible slots).Pairwise fun a b => ∀ query,
    ¬(named cfg query a = true ∧ named cfg query b = true)

/-- Nothing is listed. -/
def IsEmpty (slots : List Slot) : Prop := visible slots = []

/-- The short name the new one gets when it cannot be its own, the first of its
numbered names that is not stored, is none of the names the rivals are found by. -/
def aliasClear (cfg : Config) (slots : List Slot) (skip : Skip) (new : NewName) : Bool :=
  let stored := storedNames skip 0 (reached slots)
  !needsTail new stored || (freeTail cfg new.text stored).all fun tailed =>
    (rivals skip slots).all fun loc => !named cfg (tailed.display 0 cfg.page.decode) loc

/-- A name that is a short name alone finds no fragment of a long name in front of a
slot it may take. -/
def fragmentClear (slots : List Slot) (new : NewName) : Bool :=
  !new.shortOnly || !looseEnd (used slots)

instance (skip : Skip) (needed : Nat) (slots : List Slot) :
    Decidable (RoomBefore skip needed slots) :=
  inferInstanceAs (Decidable (_ <:+: _))

instance (skip : Skip) (needed : Nat) (slots : List Slot) :
    Decidable (EndsBehind skip needed slots) :=
  inferInstanceAs (Decidable (∀ slot ∈
    (reached slots)[((Scan.freeFlags skip 0 (used slots)).rdropWhile id).length + needed]?,
      slot = .endMark))

/-- There is room for a new entry before the end, or nothing but an end mark behind
the run that goes on past it. -/
def roomClear (slots : List Slot) (new : NewName) : Bool :=
  decide (RoomBefore .none new.slots slots ∨ EndsBehind .none new.slots slots)

/-- The name can be stored, and what is made of it passes `clear`. -/
def nameClear (cfg : Config) (name : Text) (clear : NewName → Bool) : Bool :=
  storable name && ((NewName.new name cfg.page (fold cfg)).toOption.all clear)

def createClear (cfg : Config) (slots : List Slot) (name : Text) : Bool :=
  nameClear cfg name fun new =>
    aliasClear cfg slots .none new && fragmentClear slots new && roomClear slots new

def Op.clear (cfg : Config) (dir : DirStart) (vol : Volume) : Op → Bool
  | create parent name => parent != dir || createClear cfg (vol.dirs dir) name
  | mkdir parent name _ => parent != dir || createClear cfg (vol.dirs dir) name
  | rename source srcName dest name _ =>
    dest != dir || nameClear cfg name fun new =>
      ((visible (vol.dirs source)).find? (named cfg srcName)).all fun src =>
        aliasClear cfg (vol.dirs dir) (renameSkip cfg vol source src dir name) new &&
          fragmentClear (vacated cfg vol source src dir name) new

theorem nameClear_ok {name : Text} {new : NewName} {clear : NewName → Bool}
    (h : nameClear cfg name clear = true)
    (hnew : NewName.new name cfg.page (fold cfg) = .ok new) :
    storable name = true ∧ clear new = true := by
  rw [nameClear, hnew, Bool.and_eq_true] at h
  exact h

theorem fragmentClear_ok {new : NewName} (h : fragmentClear slots new = true)
    (honly : new.shortOnly = true) : looseEnd (used slots) = false := by
  rw [fragmentClear, honly, Bool.not_true, Bool.false_or, Bool.not_eq_true'] at h
  exact h

theorem tailClear_of_aliasClear {items : List Item} {skip : Skip} {new : NewName}
    (htidy : Tidy items slots) (h : aliasClear cfg slots skip new = true) :
    TailClear cfg new (storedNames skip 0 (reached slots)) (rivals skip slots) := by
  intro htail tailed hfind loc hloc
  rw [aliasClear, htail, Bool.not_true, Bool.false_or, Option.mem_def.mp hfind, Option.all_some,
    List.all_eq_true] at h
  have hnot := h loc hloc
  rw [Bool.not_eq_true', ← Bool.not_eq_true,
    named_iff htidy (List.mem_of_mem_filter hloc)] at hnot
  exact hnot

theorem rivals_none (slots : List Slot) : rivals .none slots = visible slots :=
  List.filter_eq_self.mpr fun _ _ => rfl

theorem createNode_sound {name : Text} {isDir : Bool} {cluster : Nat} (hsound : Sound cfg vol dir)
    (hne : isDir = true → dir ≠ .chain cluster)
    (hclear : createClear cfg (vol.dirs dir) name = true)
    (h : (createNode cfg dir name isDir cluster).run vol = (.ok (), vol')) :
    Sound cfg vol' dir := by
  obtain ⟨new, plan, vol₁, vol₂, entry, hnew, hplan, hname, hcase, hlabel, created, hkeep⟩ :=
    createNode_ok hne h
  obtain ⟨hdirs, -⟩ := keepAppend_ok hkeep
  obtain ⟨items, htidy⟩ := hsound.tidy
  have hplanned := plan_ok hnew (fun _ => rfl) hsound.indexed htidy (.inl ⟨rfl, rfl⟩) hplan
  have hroom : ∀ new, NewName.new name cfg.page (fold cfg) = .ok new →
      RoomBefore .none new.slots (vol.dirs dir) ∨ EndsBehind .none new.slots (vol.dirs dir) := by
    intro new hnew
    have hclear := (nameClear_ok hclear hnew).2
    rw [Bool.and_eq_true] at hclear
    exact of_decide_eq_true hclear.2
  obtain ⟨hstorable, hall⟩ := nameClear_ok hclear hnew
  rw [Bool.and_eq_true, Bool.and_eq_true] at hall
  have hlaid := plan_laid (created.grows (plan_slots hplan)) hnew (fun _ hrun => by cases hrun)
    hsound.indexed hplan
  have htail := tailClear_of_aliasClear htidy hall.1.1
  rw [rivals_none] at htail
  have hends : (itemSlots items).length < plan.start + plan.slots →
      ∀ slot ∈ (reached (grown cfg plan (vol.dirs dir)))[plan.start + plan.slots]?,
        slot = .endMark := by
    intro hlt
    rw [← used_eq htidy] at hlt
    exact (grown_unused_iff _ _).mpr (hlaid.unused (hroom new hnew) hlt)
  obtain ⟨htidy', happart⟩ := created.apart hsound.apart hnew hstorable rfl htidy
    hplanned hname hcase
    hlabel htail hends fun honly => used_eq htidy ▸ fragmentClear_ok hall.1.2 honly
  exact ⟨hdirs ▸ htidy', createNode_index hne hsound.indexed hroom h, hdirs ▸ happart⟩

theorem createNode_keeps {name : Text} {isDir : Bool} {cluster : Nat} {parent : DirStart}
    (hsound : Sound cfg vol dir) (hne : isDir = true → parent ≠ .chain cluster)
    (hclear : (parent != dir || createClear cfg (vol.dirs dir) name) = true)
    (h : (createNode cfg parent name isDir cluster).run vol = (.ok (), vol')) :
    Sound cfg vol' dir := by
  rcases eq_or_ne dir parent with rfl | hdir
  · rw [bne_self_eq_false, Bool.false_or] at hclear
    exact createNode_sound hsound hne hclear h
  · exact createNode_other hsound hdir hne h

theorem step_sound {op : Op} (hsound : Sound cfg vol dir) (hfresh : op.Fresh)
    (hclear : op.clear cfg dir vol = true) (hok : ((op.run cfg).run vol).1 = .ok ()) :
    Sound cfg ((op.run cfg).run vol).2 dir := by
  have hrun : (op.run cfg).run vol = (.ok (), ((op.run cfg).run vol).2) := Prod.ext hok rfl
  cases op with
  | create parent name => exact createNode_keeps hsound (fun h => by cases h) hclear hrun
  | mkdir parent name cluster => exact createNode_keeps hsound (fun _ => hfresh) hclear hrun
  | rename source srcName dest name mode =>
    rcases eq_or_ne dir dest with rfl | hdir
    · rw [Op.clear, bne_self_eq_false, Bool.false_or] at hclear
      obtain ⟨items, htidy⟩ := hsound.tidy
      refine rename_dest hsound (fun new src hnew hfind => ?_) hrun
      obtain ⟨hstorable, hall⟩ := nameClear_ok hclear hnew
      rw [hfind, Option.all_some, Bool.and_eq_true] at hall
      exact ⟨hstorable, tailClear_of_aliasClear htidy hall.1, fragmentClear_ok hall.2⟩
    · exact rename_other hsound hdir hrun

theorem reachable_sound (hstart : Sound cfg start dir)
    (h : Reachable cfg (fun vol op => op.clear cfg dir vol = true) start vol) :
    Sound cfg vol dir := by
  induction h with
  | start => exact hstart
  | step _ hfresh hallowed hok ih => exact step_sound ih hfresh hallowed hok

/-- Slots none of which is listed are free, stray fragments and hidden entries. -/
theorem items_of_unlisted {before rest : List Slot} (hmark : Slot.endMark ∉ before)
    {begun slot : Nat} {long : Assembler} (h : listing begun long slot (before ++ rest) = []) :
    ∃ items, itemSlots items = before ∧ Quiet long items := by
  induction before generalizing begun slot long with
  | nil => exact ⟨[], rfl, trivial⟩
  | cons first before ih =>
    have ih := @ih fun hmem => hmark (List.mem_cons_of_mem _ hmem)
    cases first with
    | endMark => exact absurd List.mem_cons_self hmark
    | free =>
      obtain ⟨items, rfl, hquiet⟩ := ih h
      exact ⟨.free :: items, rfl, hquiet⟩
    | long part =>
      obtain ⟨items, rfl, hquiet⟩ := ih h
      exact ⟨.stray part :: items, rfl, hquiet⟩
    | short entry =>
      rw [List.cons_append, listing] at h
      split at h
      · cases h
      · rename_i hhidden
        obtain ⟨items, rfl, hquiet⟩ := ih h
        exact ⟨.hidden entry (Bool.not_eq_true _ ▸ hhidden) :: items, rfl, hquiet⟩

theorem IsEmpty.tidy (h : IsEmpty slots) : ∃ items, Tidy items slots := by
  obtain ⟨rest, hreached, hend⟩ := reached_used slots
  rw [IsEmpty, visible, hreached] at h
  obtain ⟨items, hitems, hquiet⟩ := items_of_unlisted (fun hmem => ne_endMark_of_used hmem rfl) h
  exact ⟨items, hquiet, rest, hitems.symm ▸ hreached, hend⟩

theorem Sound.unambiguous (h : Sound cfg vol dir) : Unambiguous cfg (vol.dirs dir) := by
  obtain ⟨items, htidy⟩ := h.tidy
  refine h.apart.imp_of_mem fun ha hb hdisjoint query hboth => ?_
  exact hdisjoint ((named_iff htidy ha query).mp hboth.1) ((named_iff htidy hb query).mp hboth.2)

/-- Whatever calls give names in a directory that listed nothing, no query names two of
its entries, as long as the names can be stored, the numbered short names they get are
clear, and no leftover slot comes to be read with the new entries. -/
theorem names_unambiguous (hempty : IsEmpty (start.dirs dir)) (hindexed : Indexed start dir)
    (h : Reachable cfg (fun vol op => op.clear cfg dir vol = true) start vol) :
    Unambiguous cfg (vol.dirs dir) :=
  (reachable_sound ⟨hempty.tidy, hindexed, (congrArg _ hempty).mpr .nil⟩ h).unambiguous

def ecole : Text := Char.ofNat 0xC9 :: "COLE".toList
def ecoleTailed : Text := Char.ofNat 0xC9 :: "COLE~1".toList

theorem sample_empty : IsEmpty (sampleVolume.dirs .fixed) := rfl

theorem names_unambiguous_ecole :
    Unambiguous sampleConfig
      ((((Op.create .fixed ecole).run sampleConfig).run sampleVolume).2.dirs .fixed) :=
  names_unambiguous sample_empty (fun _ h => by cases h)
    (.step .start trivial (by decide) (by decide))

/-- A name that is stored as a long name may be the numbered short name of one that
is created after it: `ÉCOLE~1` names both entries. -/
theorem names_ambiguous : ¬∀ (cfg : Config) (start vol : Volume) (dir : DirStart),
    IsEmpty (start.dirs dir) → (∀ index, start.appendIndex = some index → index.dir ≠ dir) →
      Reachable cfg (fun _ _ => True) start vol → Unambiguous cfg (vol.dirs dir) := by
  intro h
  have hfirst : Reachable sampleConfig (fun _ _ => True) sampleVolume
      (((Op.create .fixed ecoleTailed).run sampleConfig).run sampleVolume).2 :=
    .step .start trivial trivial (by decide)
  have hsecond := @Reachable.step _ _ _ _ (.create .fixed ecole) hfirst trivial trivial
    (by decide)
  have hpairs := (h _ _ _ .fixed sample_empty (fun _ h => by cases h) hsecond).imp
    fun hab => hab ecoleTailed
  exact absurd hpairs (by decide)

end Hadris.Directory.Volume
