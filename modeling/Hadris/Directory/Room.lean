import Hadris.Directory.Layout

namespace Hadris.Directory.Volume

open List

variable {cfg : Config} {wanted : Wanted} {scan scan' final : Scan} {slot : Slot} {free : Bool}

namespace Scan

/-- Everything a look at a slot can do. -/
inductive Looked (cfg : Config) (wanted : Wanted) : Slot → Scan → Scan → Bool → Prop
  | reused (slot : Slot) (scan : Scan) (hrun : wanted.skip.inRun scan.slot = true) :
      Looked cfg wanted slot scan { scan with long := .new } true
  | ended (slot : Slot) (scan : Scan) (hrun : wanted.skip.inRun scan.slot = false)
      (hended : scan.ended = true) : Looked cfg wanted slot scan scan true
  | endMark (scan : Scan) (hrun : wanted.skip.inRun scan.slot = false) :
      Looked cfg wanted .endMark scan { scan with ended := true } true
  | free (scan : Scan) (hrun : wanted.skip.inRun scan.slot = false) :
      Looked cfg wanted .free scan { scan with append := none, long := .new } true
  | long (part : LongEntry) (scan : Scan) (hrun : wanted.skip.inRun scan.slot = false) :
      Looked cfg wanted (.long part) scan
        { scan with append := none, long := scan.long.push part } false
  | skipped (entry : ShortEntry) (scan : Scan) (hrun : wanted.skip.inRun scan.slot = false)
      (hskip : wanted.skip.covers scan.slot = true ∨ entry.isLabel = true) :
      Looked cfg wanted (.short entry) scan
        { scan with long := .new, append := scan.append.bind (noteName cfg entry) } false
  | other (entry : ShortEntry) (scan : Scan) (hrun : wanted.skip.inRun scan.slot = false)
      (hskip : wanted.skip.covers scan.slot = false ∧ entry.isLabel = false)
      (hno : wanted.checkExists = true → entry.isVisible = true →
        (Query.new wanted.text (fold cfg)).matches
          ((scan.long.finish entry.lfnChecksum).filter (!·.isEmpty)) entry cfg.page
          (fold cfg) = false) :
      Looked cfg wanted (.short entry) scan
        { scan with
          long := .new
          append := scan.append.bind (noteName cfg entry)
          taken := fun bit => scan.taken bit ||
            decide (bit < candidateCount) && entry.name == wanted.new.candidate bit } false

theorem looked_of_ok (h : look cfg wanted slot scan = .ok (scan', free)) :
    Looked cfg wanted slot scan scan' free := by
  rcases hrun : wanted.skip.inRun scan.slot with _ | _
  · simp only [look, hrun, Bool.false_eq_true, if_false, Bool.or_false] at h
    split at h
    · rename_i hended
      cases h
      exact .ended slot scan hrun hended
    · cases slot with
      | endMark =>
        cases h
        exact .endMark scan hrun
      | free =>
        cases h
        exact .free scan hrun
      | long part =>
        cases h
        exact .long part scan hrun
      | short entry =>
        dsimp only at h
        rw [lookShort] at h
        dsimp only at h
        split at h
        · rename_i hskip
          cases h
          exact .skipped entry scan hrun (by simpa using hskip)
        · rename_i hskip
          split at h
          · cases h
          · rename_i hno
            cases h
            refine .other entry scan hrun (by simpa using hskip) fun hcheck hvisible => ?_
            rw [hcheck, hvisible, Bool.true_and, Bool.true_and, Bool.not_eq_true] at hno
            exact hno
  · simp only [look, hrun, if_true, Bool.or_true] at h
    cases h
    exact .reused slot scan hrun

/-- The slots of a directory before its end, looked at one after the other. -/
inductive Scanned (cfg : Config) (wanted : Wanted) : List Slot → Scan → Scan → Prop
  | nil (scan : Scan) : Scanned cfg wanted [] scan scan
  | cons {slot : Slot} {rest : List Slot} {scan scan' final : Scan} {free : Bool}
      (hended : scan.ended = false) (hslot : slot ≠ .endMark)
      (looked : Looked cfg wanted slot scan scan' free)
      (scanned : Scanned cfg wanted rest (track wanted.new.slots free scan') final) :
      Scanned cfg wanted (slot :: rest) scan final

theorem Looked.ended_eq (h : Looked cfg wanted slot scan scan' free) (hslot : slot ≠ .endMark) :
    scan'.ended = scan.ended := by
  cases h <;> first | rfl | exact absurd rfl hslot

theorem Looked.slot_eq (h : Looked cfg wanted slot scan scan' free) : scan'.slot = scan.slot := by
  cases h <;> rfl

@[simp] theorem track_ended (needed : Nat) (free : Bool) (scan : Scan) :
    (track needed free scan).ended = scan.ended := by
  rw [track]
  split <;> rfl

@[simp] theorem track_slot (needed : Nat) (free : Bool) (scan : Scan) :
    (track needed free scan).slot = scan.slot + 1 := by
  rw [track]
  split <;> rfl

@[simp] theorem track_long (needed : Nat) (free : Bool) (scan : Scan) :
    (track needed free scan).long = scan.long := by
  rw [track]
  split <;> rfl

@[simp] theorem track_taken (needed : Nat) (free : Bool) (scan : Scan) :
    (track needed free scan).taken = scan.taken := by
  rw [track]
  split <;> rfl

@[simp] theorem track_append (needed : Nat) (free : Bool) (scan : Scan) :
    (track needed free scan).append = scan.append := by
  rw [track]
  split <;> rfl

theorem loop_cons_ok {rest : List Slot} (h : loop cfg wanted (slot :: rest) scan = .ok final) :
    ∃ scan' free, look cfg wanted slot scan = .ok (scan', free) ∧
      (((track wanted.new.slots free scan').ended &&
        (track wanted.new.slots free scan').found.isSome) =
          true ∧ final = track wanted.new.slots free scan' ∨
        loop cfg wanted rest (track wanted.new.slots free scan') = .ok final) := by
  rw [loop] at h
  cases hlook : look cfg wanted slot scan with
  | error error =>
    rw [hlook] at h
    cases h
  | ok looked =>
    obtain ⟨scan', free⟩ := looked
    rw [hlook] at h
    change (if _ then _ else _) = Except.ok final at h
    refine ⟨scan', free, rfl, ?_⟩
    split at h
    · rename_i hstop
      exact .inl ⟨hstop, (Except.ok.inj h).symm⟩
    · exact .inr h

theorem loop_scanned {slots tail : List Slot} (hslots : Slot.endMark ∉ slots)
    (hended : scan.ended = false) (h : loop cfg wanted (slots ++ tail) scan = .ok final) :
    ∃ mid, Scanned cfg wanted slots scan mid ∧ loop cfg wanted tail mid = .ok final := by
  induction slots generalizing scan with
  | nil => exact ⟨scan, .nil scan, h⟩
  | cons slot rest ih =>
    obtain ⟨scan', free, hlook, hnext⟩ := loop_cons_ok h
    have hslot : slot ≠ .endMark := fun heq => hslots (heq ▸ mem_cons_self)
    have looked := looked_of_ok hlook
    have hended' : (track wanted.new.slots free scan').ended = false := by
      rw [track_ended, looked.ended_eq hslot, hended]
    rcases hnext with ⟨hstop, -⟩ | hloop
    · rw [hended'] at hstop
      exact absurd hstop Bool.false_ne_true
    · obtain ⟨mid, hscanned, hmid⟩ :=
        ih (fun hmem => hslots (mem_cons_of_mem _ hmem)) hended' hloop
      exact ⟨mid, .cons hended hslot looked hscanned, hmid⟩

/-- What the tracker knows once it has seen which slots are free. -/
structure Tracked (needed : Nat) (flags : List Bool) (scan : Scan) : Prop where
  slot : scan.slot = flags.length
  run : ∃ before, flags = before ++ replicate scan.runLen true ∧
    before.getLast? ≠ some true ∧ (scan.runLen ≠ 0 → scan.runStart = before.length)
  found : ∀ start, scan.found = some start →
    ∃ before after, flags = before ++ (replicate needed true ++ after) ∧
      before.getLast? ≠ some true ∧ start = before.length
  short : scan.found = none → scan.runLen < needed

theorem tracked_start (append : Option (List ShortName)) :
    Tracked wanted.new.slots [] (start wanted append) where
  slot := rfl
  run := ⟨[], rfl, by simp, fun h => absurd rfl h⟩
  found := fun _ h => by cases h
  short := fun _ => wanted.new.slots_pos

theorem Tracked.congr {needed : Nat} {flags : List Bool} (h : Tracked needed flags scan)
    (hslot : scan'.slot = scan.slot) (hstart : scan'.runStart = scan.runStart)
    (hlen : scan'.runLen = scan.runLen) (hfound : scan'.found = scan.found) :
    Tracked needed flags scan' where
  slot := hslot ▸ h.slot
  run := by rw [hlen, hstart]; exact h.run
  found := by rw [hfound]; exact h.found
  short := by rw [hfound, hlen]; exact h.short

theorem Tracked.looked {needed : Nat} {flags : List Bool} (h : Tracked needed flags scan)
    (hlooked : Looked cfg wanted slot scan scan' free) : Tracked needed flags scan' := by
  apply h.congr <;> cases hlooked <;> rfl

theorem Tracked.track {needed : Nat} {flags : List Bool} (h : Tracked needed flags scan)
    (free : Bool) : Tracked needed (flags ++ [free]) (track needed free scan) := by
  obtain ⟨before, hflags, hlast, hstart⟩ := h.run
  have hslot : (Scan.track needed free scan).slot = (flags ++ [free]).length := by
    rw [track_slot, h.slot, length_append, length_singleton]
  cases free with
  | false =>
    refine ⟨hslot, ⟨flags ++ [false], ?_, ?_, fun hne => absurd rfl hne⟩, ?_, fun hnone => ?_⟩
    · exact (append_nil _).symm
    · rw [getLast?_concat]
      exact fun heq => Bool.false_ne_true (Option.some.inj heq)
    · intro start hfound
      obtain ⟨before, after, rfl, hbefore, hat⟩ := h.found start hfound
      exact ⟨before, after ++ [false], by simp only [append_assoc], hbefore, hat⟩
    · exact Nat.zero_lt_of_lt (h.short hnone)
  | true =>
    have hat : (if scan.runLen = 0 then scan.slot else scan.runStart) = before.length := by
      split
      · rename_i hzero
        rw [h.slot, hflags, hzero, replicate_zero, append_nil]
      · rename_i hne
        exact hstart hne
    have hrun : flags ++ [true] = before ++ replicate (scan.runLen + 1) true := by
      rw [hflags, replicate_succ', append_assoc]
    refine ⟨hslot, ⟨before, hrun, hlast, fun _ => hat⟩, ?_, ?_⟩
    · intro start hfound
      change (if scan.runLen + 1 = needed ∧ scan.found = none then _ else scan.found) =
        _ at hfound
      split at hfound
      · rename_i hneeded
        refine ⟨before, [], ?_, hlast, ?_⟩
        · rw [hrun, hneeded.1, append_nil]
        · rw [← hat]
          exact (Option.some.inj hfound).symm
      · obtain ⟨before, after, rfl, hbefore, hat⟩ := h.found start hfound
        exact ⟨before, after ++ [true], by simp only [append_assoc], hbefore, hat⟩
    · intro hnone
      change (if scan.runLen + 1 = needed ∧ scan.found = none then _ else scan.found) = _ at hnone
      split at hnone
      · cases hnone
      · rename_i hneeded
        have hlt := h.short hnone
        have hne : scan.runLen + 1 ≠ needed := fun heq => hneeded ⟨heq, hnone⟩
        change scan.runLen + 1 < needed
        omega

def freeFlags (skip : Skip) : Nat → List Slot → List Bool
  | _, [] => []
  | at', slot :: rest => (skip.inRun at' || slot == .free) :: freeFlags skip (at' + 1) rest

theorem Looked.free_eq (h : Looked cfg wanted slot scan scan' free) (hended : scan.ended = false)
    (hslot : slot ≠ .endMark) : free = (wanted.skip.inRun scan.slot || slot == .free) := by
  cases h with
  | reused _ _ hrun => rw [hrun, Bool.true_or]
  | ended _ _ _ h => rw [hended] at h; cases h
  | endMark => exact absurd rfl hslot
  | free => rw [beq_self_eq_true, Bool.or_true]
  | long part _ hrun => rw [hrun]; rfl
  | skipped entry _ hrun => rw [hrun]; rfl
  | other entry _ hrun => rw [hrun]; rfl

theorem Scanned.tracked {slots : List Slot} {flags : List Bool}
    (h : Scanned cfg wanted slots scan final) (htracked : Tracked wanted.new.slots flags scan) :
    Tracked wanted.new.slots (flags ++ freeFlags wanted.skip scan.slot slots) final ∧
      final.ended = scan.ended := by
  induction h generalizing flags with
  | nil scan => exact ⟨by rwa [freeFlags, append_nil], rfl⟩
  | cons hended hslot looked _ ih =>
    have hnext := (htracked.looked looked).track ‹Bool›
    obtain ⟨hmid, hended'⟩ := ih hnext
    rw [track_slot, looked.slot_eq, looked.free_eq hended hslot, append_assoc] at hmid
    rw [track_ended, looked.ended_eq hslot] at hended'
    exact ⟨hmid, hended'⟩

theorem loop_past {tail : List Slot} {flags : List Bool}
    (htracked : Tracked wanted.new.slots flags scan) (hended : scan.ended = true)
    (h : loop cfg wanted tail scan = .ok final) :
    ∃ k ≤ tail.length, Tracked wanted.new.slots (flags ++ replicate k true) final ∧
      final.taken = scan.taken ∧ final.append = scan.append ∧
      (final.found = none → k = tail.length) ∧
      ∀ start, scan.found = some start → final.found = some start := by
  induction tail generalizing scan flags with
  | nil =>
    cases h
    exact ⟨0, Nat.le_refl 0, by rwa [replicate_zero, append_nil], rfl, rfl, fun _ => rfl,
      fun _ h => h⟩
  | cons slot rest ih =>
    obtain ⟨scan', free, hlook, hnext⟩ := loop_cons_ok h
    have looked := looked_of_ok hlook
    have hsame : free = true ∧ scan'.taken = scan.taken ∧ scan'.append = scan.append ∧
        scan'.ended = true ∧ scan'.found = scan.found := by
      rcases hrun : wanted.skip.inRun scan.slot with _ | _
      · simp only [look, hrun, hended, Bool.false_eq_true, if_false,
          Bool.true_or, if_true] at hlook
        cases hlook
        exact ⟨rfl, rfl, rfl, hended, rfl⟩
      · simp only [look, hrun, if_true, Bool.or_true] at hlook
        cases hlook
        exact ⟨rfl, rfl, rfl, hended, rfl⟩
    obtain ⟨rfl, htaken, happend, hended', hkept⟩ := hsame
    have htrack := (htracked.looked looked).track true
    have hfound : ∀ start, scan.found = some start →
        (track wanted.new.slots true scan').found = some start := by
      intro start hstart
      rw [track, if_pos rfl]
      change (if _ ∧ scan'.found = none then _ else scan'.found) = _
      rw [hkept, hstart, if_neg fun hnone => by cases hnone.2]
    rw [length_cons]
    rcases hnext with ⟨hstop, rfl⟩ | hloop
    · refine ⟨1, by omega, htrack, by rw [track_taken, htaken], by rw [track_append,
        happend], fun hnone => ?_, hfound⟩
      rw [hnone, Option.isSome_none, Bool.and_false] at hstop
      cases hstop
    · obtain ⟨k, hk, hlast, htaken', happend', hwhole, hkeeps⟩ :=
        ih htrack (by rw [track_ended, hended']) hloop
      refine ⟨k + 1, by omega, ?_, by rw [htaken', track_taken, htaken],
        by rw [happend', track_append, happend], fun hnone => ?_, fun start hstart => ?_⟩
      · rwa [append_assoc] at hlast
      · rw [hwhole hnone]
      · exact hkeeps start (hfound start hstart)

theorem loop_tail {tail : List Slot} {flags : List Bool}
    (hend : ∀ slot ∈ tail.head?, slot = .endMark) (hrun : wanted.skip.inRun scan.slot = false)
    (htracked : Tracked wanted.new.slots flags scan) (h : loop cfg wanted tail scan = .ok final) :
    ∃ k ≤ tail.length, Tracked wanted.new.slots (flags ++ replicate k true) final ∧
      final.taken = scan.taken ∧ final.append = scan.append ∧
      (final.found = none → k = tail.length) ∧
      ∀ start, scan.found = some start → final.found = some start := by
  cases tail with
  | nil =>
    cases h
    exact ⟨0, Nat.le_refl 0, by rwa [replicate_zero, append_nil], rfl, rfl, fun _ => rfl,
      fun _ h => h⟩
  | cons slot rest =>
    obtain rfl := hend slot rfl
    -- a look at the end mark only notes that the end was seen
    have hnoted : loop cfg wanted (.endMark :: rest) { scan with ended := true } = .ok final := by
      rcases hended : scan.ended with _ | _
      · rw [← h, loop, loop]
        simp only [look, hrun, hended, Bool.or_false, Bool.false_eq_true, if_false, if_true]
      · rwa [← hended]
    have hmid : Tracked wanted.new.slots flags { scan with ended := true } :=
      htracked.congr rfl rfl rfl rfl
    have hpast := loop_past hmid rfl hnoted
    exact hpast

end Scan

end Hadris.Directory.Volume

namespace Hadris.Directory

open List

/-- A run for a new entry: free items, at the end of the directory maybe too few. -/
def Room (items : List Item) (start needed : Nat) : Prop :=
  ∃ a r b, items = a ++ (replicate r .free ++ b) ∧ (itemSlots a).length = start ∧
    (r = needed ∨ r ≤ needed ∧ b = [])

variable {items items' : List Item} {slots : List Slot} {start needed : Nat} {named : NamedRun}
  {skip : Volume.Skip}

theorem itemSlots_frees (n : Nat) : itemSlots (replicate n .free) = replicate n .free := by
  induction n with
  | zero => rfl
  | succ n ih =>
    rw [replicate_succ, itemSlots_cons, ih]
    rfl

theorem located_frees (slot n : Nat) : located slot (replicate n .free) = [] := by
  induction n generalizing slot with
  | zero => rfl
  | succ n ih => exact ih (slot + 1)

def NamedRun.locate (named : NamedRun) (start : Nat) : Located :=
  ⟨start, start + named.run.length, named.entry, named.long⟩

theorem located_insert {a b : List Item} {r : Nat} (h : r = named.run.length + 1 ∨ b = []) :
    (located 0 (a ++ .named named :: b)).Perm
      (named.locate (itemSlots a).length :: located 0 (a ++ (replicate r .free ++ b))) := by
  rw [located_append, located_append, located_append, located_frees, nil_append, Nat.zero_add]
  refine perm_middle.trans (.cons _ (.append_left _ ?_))
  rcases h with rfl | rfl
  · rw [itemSlots_frees, length_replicate, Nat.add_assoc]
  · exact .refl _

/-- A fragment of a long name right in front of a free slot, or the last of the slots. -/
def looseEnd : List Slot → Bool
  | [] => false
  | .long _ :: rest => rest.head?.all (· == .free) || looseEnd rest
  | _ :: rest => looseEnd rest

theorem looseEnd_append (before : List Slot) {rest : List Slot} (h : looseEnd rest = true) :
    looseEnd (before ++ rest) = true := by
  induction before with
  | nil => exact h
  | cons first before ih =>
    rw [cons_append]
    cases first with
    | long part =>
      rw [looseEnd, ih, Bool.or_true]
    | endMark | free | short => exact ih

/-- Where no fragment stands in front of a free slot, none is left to be read with an
entry that takes the room. -/
theorem after_room {a b : List Item} {r : Nat}
    (hloose : looseEnd (itemSlots (a ++ (replicate r .free ++ b))) = false)
    (hr : 0 < r ∨ b = []) : a.foldl Item.after .new = .new := by
  rcases eq_nil_or_concat a with rfl | ⟨init, item, rfl⟩
  · rfl
  rw [concat_eq_append] at hloose ⊢
  rw [foldl_append, foldl_cons, foldl_nil]
  cases item with
  | free | hidden | named => rfl
  | stray part =>
    rw [append_assoc, itemSlots_append] at hloose
    have hrest : looseEnd (itemSlots ([.stray part] ++ (replicate r .free ++ b))) = true := by
      rw [singleton_append, itemSlots_cons]
      change (_ || _) = true
      rw [Bool.or_eq_true]
      left
      rw [itemSlots_append, itemSlots_frees]
      rcases hr with hr | rfl
      · obtain ⟨k, rfl⟩ := Nat.exists_eq_add_of_lt hr
        rw [replicate_succ]
        rfl
      · cases r with
        | zero => rfl
        | succ r => rfl
    rw [looseEnd_append _ hrest] at hloose
    cases hloose

theorem foldl_after_frees {n : Nat} (h : 0 < n) (long : Assembler) :
    (replicate n Item.free).foldl Item.after long = .new := by
  obtain ⟨k, rfl⟩ := Nat.exists_eq_add_of_lt h
  rw [Nat.zero_add, replicate_succ', foldl_append]
  rfl

theorem quiet_frees (n : Nat) (long : Assembler) : Quiet long (replicate n .free) := by
  induction n generalizing long with
  | zero => trivial
  | succ n ih => exact ih .new

theorem Room.insert (h : Room items start (named.run.length + 1)) (htidy : Tidy items slots)
    (hfits : start + (named.run.length + 1) ≤ (reached slots).length)
    (hends : (itemSlots items).length < start + (named.run.length + 1) →
      ∀ slot ∈ (reached slots)[start + (named.run.length + 1)]?, slot = .endMark)
    (hloose : named.run = [] → looseEnd (itemSlots items) = false) :
    ∃ items', Tidy items' (overwrite slots start (Item.named named).slots) ∧
      (visible (overwrite slots start (Item.named named).slots)).Perm
        (named.locate start :: visible slots) := by
  obtain ⟨a, r, b, rfl, rfl, hr⟩ := h
  have hslots : itemSlots [.named named] = (Item.named named).slots := append_nil _
  have hlength : (itemSlots [.named named]).length = named.run.length + 1 := by
    rw [hslots, Item.length_named]
  have hfrees : (itemSlots (replicate r .free)).length = r := by
    rw [itemSlots_frees, length_replicate]
  have hquiet : Quiet (a.foldl Item.after .new) [.named named] := by
    refine ⟨fun hrun => ?_, trivial⟩
    rw [after_room (hloose hrun) (hr.imp (fun h => by omega) And.right), Assembler.finish_new]
  have htidy' : Tidy (a ++ .named named :: b)
      (overwrite slots (itemSlots a).length (Item.named named).slots) := by
    rw [← hslots]
    by_cases hfull : r = named.run.length + 1
    · exact htidy.replace _ [.named named] (hfrees.trans (hfull.trans hlength.symm)) hquiet
        fun long =>
        (foldl_after_frees (by omega) long).symm
    · obtain ⟨hle, rfl⟩ := hr.resolve_left hfull
      rw [append_nil] at htidy hends
      rw [itemSlots_append, length_append, hfrees] at hends
      exact htidy.extend _ [.named named] (by omega) (by omega)
        (by rw [hlength]; exact hends (by omega)) hquiet
  refine ⟨_, htidy', ?_⟩
  rw [htidy'.visible_eq, htidy.visible_eq]
  exact located_insert (hr.imp id And.right)

/-- The items once the slots that count as free are. -/
def Blanked (skip : Volume.Skip) (items items' : List Item) : Prop :=
  skip.run = none ∧ items' = items ∨
    ∃ a named b, items = a ++ .named named :: b ∧
      skip.run = some ((itemSlots a).length, (itemSlots a).length + named.run.length) ∧
      items' = a ++ (replicate (named.run.length + 1) .free ++ b)

theorem Blanked.eq_of_run (h : Blanked skip items items') (hrun : skip.run = none) :
    items = items' := by
  rcases h with ⟨-, rfl⟩ | ⟨a, named, b, -, hsome, -⟩
  · rfl
  · rw [hrun] at hsome
    cases hsome

theorem Room.start_le (h : Room items start needed) : start ≤ (itemSlots items).length := by
  obtain ⟨a, r, b, rfl, rfl, -⟩ := h
  rw [itemSlots_append, length_append]
  exact Nat.le_add_right ..

open Volume.Scan (freeFlags)

theorem length_freeFlags (skip : Volume.Skip) (slot : Nat) (slots : List Slot) :
    (freeFlags skip slot slots).length = slots.length := by
  induction slots generalizing slot with
  | nil => rfl
  | cons first rest ih => exact congrArg (· + 1) (ih (slot + 1))

theorem freeFlags_append (slot : Nat) (a b : List Slot) :
    freeFlags skip slot (a ++ b) = freeFlags skip slot a ++ freeFlags skip
      (slot + a.length) b := by
  induction a generalizing slot with
  | nil => rfl
  | cons first rest ih =>
    rw [cons_append, freeFlags, freeFlags, ih, cons_append, length_cons,
      Nat.add_assoc, Nat.add_comm 1]

theorem freeFlags_outside {slot : Nat} {slots : List Slot}
    (h : ∀ i, slot ≤ i → i < slot + slots.length → skip.inRun i = false) :
    freeFlags skip slot slots = slots.map (· == .free) := by
  induction slots generalizing slot with
  | nil => rfl
  | cons first rest ih =>
    rw [length_cons] at h
    rw [freeFlags, h slot (Nat.le_refl _) (by omega), Bool.false_or, map_cons,
      ih fun i hi hi' => h i (by omega) (by omega)]

theorem freeFlags_inside {slot : Nat} {slots : List Slot}
    (h : ∀ i, slot ≤ i → i < slot + slots.length → skip.inRun i = true) :
    freeFlags skip slot slots = replicate slots.length true := by
  induction slots generalizing slot with
  | nil => rfl
  | cons first rest ih =>
    rw [length_cons] at h
    rw [freeFlags, h slot (Nat.le_refl _) (by omega), Bool.true_or, length_cons,
      replicate_succ, ih fun i hi hi' => h i (by omega) (by omega)]

theorem inRun_some {first last : Nat} (h : skip.run = some (first, last)) (slot : Nat) :
    skip.inRun slot = decide (first ≤ slot ∧ slot ≤ last) := by
  rw [Volume.Skip.inRun, h, Option.any_some]

theorem inRun_none (h : skip.run = none) (slot : Nat) : skip.inRun slot = false := by
  rw [Volume.Skip.inRun, h, Option.any_none]

theorem map_frees (n : Nat) :
    (replicate n Slot.free).map (· == .free) = replicate n true := map_replicate

theorem Blanked.freeFlags_eq (h : Blanked skip items items') :
    freeFlags skip 0 (itemSlots items) = (itemSlots items').map (· == .free) := by
  rcases h with ⟨hrun, rfl⟩ | ⟨a, named, b, rfl, hrun, rfl⟩
  · exact freeFlags_outside fun i _ _ => inRun_none hrun i
  · have hin := inRun_some hrun
    have hlength := Item.length_named named
    rw [itemSlots_append, itemSlots_cons, freeFlags_append, freeFlags_append, itemSlots_append,
      itemSlots_append, map_append, map_append, itemSlots_frees, map_frees, ← hlength,
      Nat.zero_add, freeFlags_outside, freeFlags_inside, freeFlags_outside]
    · intro i hi _
      rw [hin, decide_eq_false_iff_not]
      omega
    · intro i hi hi'
      rw [hin, decide_eq_true_eq]
      omega
    · intro i _ hi
      rw [hin, decide_eq_false_iff_not]
      omega

theorem Blanked.length_eq (h : Blanked skip items items') :
    (itemSlots items').length = (itemSlots items).length := by
  have hflags := congrArg List.length h.freeFlags_eq
  rw [length_freeFlags, length_map] at hflags
  exact hflags.symm

theorem Blanked.inRun_end (h : Blanked skip items items') :
    skip.inRun (itemSlots items).length = false := by
  rcases h with ⟨hrun, -⟩ | ⟨a, named, b, rfl, hrun, -⟩
  · exact inRun_none hrun _
  · rw [inRun_some hrun, decide_eq_false_iff_not, itemSlots_append, itemSlots_cons, length_append,
      length_append, Item.length_named]
    omega

theorem eq_frees {l : List Slot} {n : Nat} (h : l.map (· == .free) = replicate n true) :
    l = replicate n .free := by
  refine eq_replicate_iff.mpr ⟨?_, fun slot hslot => ?_⟩
  · rw [← length_map (· == Slot.free), h, length_replicate]
  · have hmem : (slot == .free) ∈ l.map (· == .free) := mem_map_of_mem hslot
    rw [h] at hmem
    exact eq_of_beq (eq_of_mem_replicate hmem)

theorem prefix_of_flags {flags before rest : List Bool} {k : Nat}
    (h : flags ++ replicate k true = before ++ rest) (hlast : before.getLast? ≠ some true) :
    ∃ after, flags = before ++ after ∧ rest = after ++ replicate k true := by
  rcases append_eq_append_iff.mp h with ⟨cut, hcut, hends⟩ | ⟨after, hafter, hrest⟩
  · rcases eq_nil_or_concat cut with rfl | ⟨init, last, rfl⟩
    · rw [append_nil] at hcut
      exact ⟨[], by rw [append_nil, hcut], hends.symm⟩
    · have hmem : last ∈ replicate k true := by
        rw [hends]
        simp
      refine absurd ?_ hlast
      rw [hcut, concat_eq_append, ← append_assoc, getLast?_concat,
        eq_of_mem_replicate hmem]
  · exact ⟨after, hafter, hrest⟩

theorem room_of_flags {before after : List Bool} {r k : Nat}
    (hr : r = needed ∨ r ≤ needed ∧ after = []) (hneeded : 0 < needed)
    (h : (itemSlots items).map (· == .free) ++ replicate k true =
      before ++ (replicate r true ++ after)) (hlast : before.getLast? ≠ some true) :
    Room items before.length needed := by
  obtain ⟨rest, hmap, hends⟩ := prefix_of_flags h hlast
  obtain ⟨q, w, hslots, rfl, hw⟩ := map_eq_append_iff.mp hmap
  rw [length_map]
  rcases append_eq_append_iff.mp hends with ⟨tail, rfl, hafter⟩ | ⟨cut, hcut, hends'⟩
  · -- the run ends among the items
    obtain ⟨frees, w', rfl, hfrees, hw'⟩ := map_eq_append_iff.mp hw
    obtain rfl := eq_frees hfrees
    rcases Nat.eq_zero_or_pos r with rfl | hpos
    · rcases hr with rfl | ⟨-, rfl⟩
      · exact absurd hneeded (Nat.lt_irrefl 0)
      · obtain ⟨rfl, -⟩ := append_eq_nil_iff.mp hafter.symm
        obtain rfl := map_eq_nil_iff.mp hw'
        refine ⟨items, 0, [], (append_nil _).symm, ?_, .inr ⟨Nat.zero_le _, rfl⟩⟩
        rw [hslots, replicate_zero, append_nil, append_nil]
    · obtain ⟨a, b, rfl, rfl, rfl⟩ := split_frees hpos hslots
      refine ⟨a, r, b, rfl, rfl, hr.imp_right fun h => ⟨h.1, itemSlots_eq_nil ?_⟩⟩
      rw [h.2] at hafter
      obtain ⟨rfl, -⟩ := append_eq_nil_iff.mp hafter.symm
      exact map_eq_nil_iff.mp hw'
  · -- the run goes on past the end
    have hlen : rest.length + cut.length = r := by
      rw [← length_append, ← hcut, length_replicate]
    have hrest : rest = replicate rest.length true :=
      eq_replicate_iff.mpr ⟨rfl, fun b hb => eq_of_mem_replicate
        (hcut ▸ mem_append_left cut hb)⟩
    rw [hrest] at hw
    obtain rfl := eq_frees hw
    have hle : rest.length ≤ needed := by omega
    rcases Nat.eq_zero_or_pos rest.length with hzero | hpos
    · rw [hzero, replicate_zero, append_nil] at hslots
      exact ⟨items, 0, [], (append_nil _).symm, congrArg List.length hslots,
        .inr ⟨Nat.zero_le _, rfl⟩⟩
    · rw [← append_nil (replicate _ _)] at hslots
      obtain ⟨a, b, rfl, rfl, hb⟩ := split_frees hpos hslots
      exact ⟨a, rest.length, b, rfl, rfl, .inr ⟨hle, itemSlots_eq_nil hb⟩⟩

end Hadris.Directory
