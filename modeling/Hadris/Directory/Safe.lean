import Mathlib.Data.List.DropRight
import Hadris.Directory.Rename

namespace Hadris.Directory.Volume

open List

variable {cfg : Config} {wanted : Wanted} {scan final : Scan} {slots tail run : List Slot}
  {flags before after : List Bool} {needed k : Nat} {vol vol' : Volume}
  {dir : DirStart} {plan : Plan}

namespace Scan

theorem Tracked.not_suffix (h : Tracked needed flags scan) (hnone : scan.found = none) :
    ¬replicate needed true <:+ flags := by
  rintro ⟨head, hhead⟩
  obtain ⟨before, hflags, hlast, -⟩ := h.run
  obtain ⟨after, -, hrun⟩ := prefix_of_flags (hhead.trans hflags) hlast
  have hlength := congrArg List.length hrun
  rw [length_append, length_replicate, length_replicate] at hlength
  have hshort := h.short hnone
  omega

theorem found_of_track {free : Bool} (h : (Scan.track needed free scan).found = none) :
    scan.found = none := by
  cases hscan : scan.found with
  | none => rfl
  | some start =>
    rw [track] at h
    split at h
    · change (if _ ∧ scan.found = none then _ else scan.found) = none at h
      rw [hscan, if_neg fun hnone => by cases hnone.2] at h
      cases h
    · rw [← h, ← hscan]

theorem Looked.found_eq {slot : Slot} {scan' : Scan} {free : Bool}
    (h : Looked cfg wanted slot scan scan' free) : scan'.found = scan.found := by
  cases h <;> rfl

theorem Scanned.no_room (h : Scanned cfg wanted slots scan final)
    (htracked : Tracked wanted.new.slots flags scan)
    (hno : scan.found = none → ¬replicate wanted.new.slots true <:+: flags)
    (hnone : final.found = none) :
    ¬replicate wanted.new.slots true <:+: flags ++ freeFlags wanted.skip scan.slot slots := by
  induction h generalizing flags with
  | nil scan =>
    rw [freeFlags, append_nil]
    exact hno hnone
  | @cons slot rest scan scan' final free hended hslot looked _ ih =>
    have hnext := (htracked.looked looked).track free
    have hmid := ih hnext (fun hfound => ?_) hnone
    · rwa [track_slot, looked.slot_eq, looked.free_eq hended hslot, append_assoc] at hmid
    · rw [infix_concat_iff, not_or]
      refine ⟨hnext.not_suffix hfound, hno ?_⟩
      rw [← looked.found_eq]
      exact found_of_track hfound

end Scan

theorem rdropWhile_self (h : true ∉ flags) : flags.rdropWhile id = flags := by
  refine rdropWhile_eq_self_iff.mpr fun hne htrue => ?_
  have hmem := getLast_mem hne
  rw [show flags.getLast hne = true from htrue] at hmem
  exact h hmem

theorem rdropWhile_frees (hlast : before.getLast? ≠ some true) (r : Nat) :
    (before ++ replicate r true).rdropWhile id = before := by
  induction r with
  | zero =>
    rw [replicate_zero, append_nil, rdropWhile_eq_self_iff]
    intro hne htrue
    rw [getLast?_eq_some_getLast hne] at hlast
    exact hlast (congrArg some htrue)
  | succ r ih => rw [replicate_succ', ← append_assoc, rdropWhile_concat_pos _ _ _ rfl, ih]

theorem getElem?_frees (hi : before.length ≤ k) (hlt : k < before.length + needed) :
    (before ++ (replicate needed true ++ after))[k]? = some true := by
  rw [getElem?_append_right hi, getElem?_append_left (by rw [length_replicate]; omega),
    getElem?_replicate, if_pos (by omega)]

/-- What `place` settles on; `flags` are the slots before the end that are free, and
`n` slots follow them. -/
structure Placed (cfg : Config) (flags : List Bool) (n needed start grow : Nat) : Prop where
  free : ∀ i, start ≤ i → i < start + needed → ∀ flag ∈ flags[i]?, flag = true
  inside : start + needed ≤ flags.length + n + grow * cfg.perCluster
  within : start + needed ≤ flags.length + n ∨ start + needed ≤ maxDirEntries
  room : replicate needed true <:+: flags ∧ start + needed ≤ flags.length ∨
    ¬replicate needed true <:+: flags ∧ start = (flags.rdropWhile id).length ∧
      flags.length < start + needed

theorem placed_at_end {n grow start r : Nat} (hno : ¬replicate needed true <:+: flags)
    (hflags : flags = before ++ replicate r true) (hlast : before.getLast? ≠ some true)
    (hstart : start = before.length)
    (hinside : start + needed ≤ flags.length + n + grow * cfg.perCluster)
    (hwithin : start + needed ≤ flags.length + n ∨ start + needed ≤ maxDirEntries) :
    Placed cfg flags n needed start grow := by
  have hr : r < needed := by
    by_contra hge
    refine hno ⟨before, replicate (r - needed) true, ?_⟩
    rw [hflags, append_assoc, replicate_append_replicate,
      Nat.add_sub_cancel' (Nat.le_of_not_lt hge)]
  refine ⟨fun i hi hlt flag hflag => ?_, hinside, hwithin, .inr ⟨hno, ?_, ?_⟩⟩
  · have hmem : i < before.length + r := by
      obtain ⟨hlt, -⟩ := List.getElem?_eq_some_iff.mp hflag
      rwa [hflags, length_append, length_replicate] at hlt
    have htrue : (before ++ (replicate r true ++ []))[i]? = some true :=
      getElem?_frees (hstart ▸ hi) hmem
    rw [append_nil, ← hflags] at htrue
    exact Option.some.inj (hflag.symm.trans htrue)
  · rw [hflags, rdropWhile_frees hlast, hstart]
  · rw [hflags, length_append, length_replicate]
    omega

theorem place_placed {mid : Scan} {new : NewName} {n start grow : Nat}
    (hgrows : 0 < cfg.perCluster ∨ start + new.slots ≤ flags.length + n + grow * cfg.perCluster)
    (hmid : Scan.Tracked new.slots flags mid)
    (hno : mid.found = none → ¬replicate new.slots true <:+: flags)
    (hscan : Scan.Tracked new.slots (flags ++ replicate k true) scan) (hk : k ≤ n)
    (hwhole : scan.found = none → k = n)
    (hkeep : ∀ start, mid.found = some start → scan.found = some start)
    (h : place cfg dir new scan = .ok (start, grow)) :
    Placed cfg flags n new.slots start grow := by
  cases hfound : mid.found with
  | some found =>
    -- there is room before the end
    rw [place, hkeep found hfound] at h
    cases h
    obtain ⟨before, after, hflags, -, hstart⟩ := hmid.found _ hfound
    have hlength := congrArg List.length hflags
    rw [length_append, length_append, length_replicate] at hlength
    refine ⟨fun i hi hlt flag hflag =>
      ?_, by omega, .inl (by omega), .inl ⟨⟨before, after, ?_⟩, by omega⟩⟩
    · rw [hflags, getElem?_frees (hstart ▸ hi) (hstart ▸ hlt)] at hflag
      exact (Option.some.inj hflag).symm
    · rw [hflags, append_assoc]
  | none =>
    have hnone := hno hfound
    rw [place] at h
    split at h
    · -- the run goes on past the end
      rename_i found hfound'
      cases h
      obtain ⟨before, after, hflags, hlast, hstart⟩ := hscan.found _ hfound'
      have hlength := congrArg List.length hflags
      simp only [length_append, length_replicate] at hlength
      obtain ⟨rest, hrest, hruns⟩ := prefix_of_flags hflags hlast
      have hall : rest = replicate rest.length true := by
        have hle : rest.length ≤ new.slots := by
          by_contra hge
          refine hnone ⟨before, rest.drop new.slots, ?_⟩
          have htake := congrArg (List.take new.slots) hruns
          rw [take_append_of_le_length (by rw [length_replicate]),
            take_append_of_le_length (by omega),
              take_of_length_le (by rw [length_replicate])] at htake
          rw [hrest, htake, append_assoc, take_append_drop]
        have htake := congrArg (List.take rest.length) hruns
        rw [take_left, take_append_of_le_length (by rwa [length_replicate]), take_replicate,
          Nat.min_eq_left hle] at htake
        exact htake.symm
      rw [hall] at hrest
      exact placed_at_end hnone hrest hlast hstart (by omega) (.inl (by omega))
    · -- all that follows the last slot in use is free, and it is too little
      rename_i hfound'
      dsimp only at h
      generalize hfirst : (if scan.runLen = 0 then scan.slot else scan.runStart) = first at h
      split at h
      · cases h
      · rename_i hfits
        cases h
        obtain ⟨before, hflags, hlast, hrun⟩ := hscan.run
        have hshort := hscan.short hfound'
        have hlength := congrArg List.length hflags
        simp only [length_append, length_replicate] at hlength
        have hstart : start = before.length := by
          rw [← hfirst]
          split
          · rename_i hzero
            rw [hscan.slot, hflags, hzero, replicate_zero, append_nil]
          · rename_i hne
            exact hrun hne
        obtain ⟨rest, hrest, hruns⟩ := prefix_of_flags hflags hlast
        have hall : rest = replicate rest.length true :=
          eq_replicate_iff.mpr ⟨rfl, fun flag hflag => eq_of_mem_replicate
            (hruns ▸ mem_append_left _ hflag)⟩
        rw [hall] at hrest
        have hn := hwhole hfound'
        refine placed_at_end hnone hrest hlast hstart ?_ (.inr (by omega))
        rcases hgrows with hcluster | hinside
        · have hdiv := Nat.div_add_mod (new.slots - scan.runLen + (cfg.perCluster - 1))
            cfg.perCluster
          have hmod := Nat.mod_lt (new.slots - scan.runLen + (cfg.perCluster - 1)) hcluster
          rw [Nat.mul_comm] at hdiv
          omega
        · exact hinside

/-- The directory once a caller stored `run` where the plan says. A caller that
`ends` it marks the end anew behind a run that took its place. -/
def stored (cfg : Config) (ends : Bool) (plan : Plan) (slots run : List Slot) : List Slot :=
  let written := overwrite (grown cfg plan slots) plan.start run
  if ends && (((reached (grown cfg plan slots)).drop plan.start).take plan.slots).any
    (· == .endMark) &&
      decide (plan.last + 1 < (reached written).length) then
    written.set (plan.last + 1) .endMark
  else written

theorem reached_used (slots : List Slot) :
    ∃ rest, reached slots = used slots ++ rest ∧ ∀ slot ∈ rest.head?, slot = .endMark := by
  refine ⟨(reached slots).dropWhile (· ≠ .endMark), (takeWhile_append_dropWhile).symm, ?_⟩
  intro slot hslot
  have hnot := head?_dropWhile_not (· ≠ Slot.endMark) (reached slots)
  rw [Option.mem_def.mp hslot] at hnot
  simpa using hnot

theorem ne_endMark_of_used {slot : Slot} (h : slot ∈ used slots) : slot ≠ .endMark := by
  simpa using mem_takeWhile_imp h

theorem getElem?_reached {i : Nat} (hi : i < (used slots).length) :
    (reached slots)[i]? = (used slots)[i]? := by
  obtain ⟨rest, hreached, -⟩ := reached_used slots
  rw [hreached, getElem?_append_left hi]

theorem endMark_of_stop {slot : Slot} (h : (reached slots)[(used slots).length]? = some slot) :
    slot = .endMark := by
  obtain ⟨rest, hreached, hend⟩ := reached_used slots
  rw [hreached, getElem?_append_right (Nat.le_refl _), Nat.sub_self, ← head?_eq_getElem?] at h
  exact hend slot h

theorem used_length_le {i : Nat} (h : ∀ slot ∈ (reached slots)[i]?, slot = .endMark) :
    (used slots).length ≤ i := by
  by_contra hlt
  have hin := getElem?_reached (Nat.lt_of_not_le hlt)
  obtain ⟨slot, hslot⟩ : ∃ slot, (used slots)[i]? = some slot :=
    ⟨_, getElem?_eq_getElem (Nat.lt_of_not_le hlt)⟩
  exact ne_endMark_of_used (mem_of_getElem? hslot) (h slot (hin.trans hslot))

theorem le_used_length {i : Nat} (hlength : i ≤ (reached slots).length)
    (h : ∀ j < i, (reached slots)[j]? ≠ some .endMark) : i ≤ (used slots).length := by
  by_contra hlt
  have hat := h _ (Nat.lt_of_not_le hlt)
  have hin : (used slots).length < (reached slots).length := by omega
  refine hat ?_
  rw [getElem?_eq_getElem hin, endMark_of_stop (getElem?_eq_getElem hin)]

theorem getElem?_overwrite_lt {first i : Nat} (hfirst : first ≤ slots.length)
    (hi : i < first + run.length) :
    (overwrite slots first run)[i]? = if i < first then slots[i]? else run[i - first]? := by
  have hlength : (slots.take first).length = first := by
    rw [length_take]
    omega
  rw [overwrite]
  split
  · rename_i hlt
    rw [getElem?_append_left (by omega), getElem?_take_of_lt hlt]
  · rename_i hge
    rw [getElem?_append_right (by omega), hlength, getElem?_append_left (by omega)]

theorem getElem?_grown_used {i m : Nat} (hi : i < (used slots).length) :
    (reached (slots ++ replicate m .endMark))[i]? = (used slots)[i]? := by
  obtain ⟨rest, hreached, -⟩ := reached_used slots
  rw [reached_grow, hreached, append_assoc, getElem?_append_left hi]

/-- Where the grown directory goes on past the slots a walk reached before, it is
unused. -/
theorem getElem?_grown {i m : Nat} {slot : Slot} (hi : (reached slots).length ≤ i)
    (h : (reached (slots ++ replicate m .endMark))[i]? = some slot) : slot = .endMark := by
  rw [reached_grow, getElem?_append_right hi] at h
  exact eq_of_mem_replicate (mem_of_getElem? h)

theorem grown_unused_iff (i m : Nat) :
    (∀ slot ∈ (reached (slots ++ replicate m .endMark))[i]?, slot = .endMark) ↔
      ∀ slot ∈ (reached slots)[i]?, slot = .endMark := by
  rcases Nat.lt_or_ge i (reached slots).length with hlt | hge
  · rw [reached_grow, getElem?_append_left hlt]
  · refine iff_of_true (fun slot hslot => getElem?_grown hge hslot) fun slot hslot => ?_
    rw [getElem?_eq_none hge] at hslot
    cases hslot

/-- Whatever run a caller stores, no slot after the run and after the old end comes
into use. -/
def EndsKept (cfg : Config) (ends : Bool) (plan : Plan) (slots : List Slot) : Prop :=
  ∀ run, run.length = plan.slots → Slot.endMark ∉ run →
    (used (stored cfg ends plan slots run)).length ≤ max (used slots).length
      (plan.start + plan.slots)

section Ends

variable {ends : Bool} (hfits : plan.start + plan.slots ≤ (reached (grown cfg plan slots)).length)

include hfits

theorem reached_written (hrun : run.length = plan.slots) :
    reached (overwrite (grown cfg plan slots) plan.start run) =
      overwrite (reached (grown cfg plan slots)) plan.start run :=
  reached_overwrite (by rwa [hrun])

theorem getElem?_written (hrun : run.length = plan.slots) {i : Nat}
    (hi : plan.start + plan.slots ≤ i) :
    (reached (overwrite (grown cfg plan slots) plan.start run))[i]? =
      (reached (grown cfg plan slots))[i]? := by
  rw [reached_written hfits hrun, getElem?_overwrite (by rwa [hrun]) (by rwa [hrun])]

theorem endsKept_before (hstop : plan.start + plan.slots ≤ (used slots).length) :
    EndsKept cfg ends plan slots := by
  intro run hrun hmark
  have hnone : (((reached (grown cfg plan slots)).drop plan.start).take plan.slots).any
      (· == .endMark) = false := by
    rw [any_eq_false]
    intro slot hslot heq
    obtain ⟨i, hi⟩ := mem_iff_getElem?.mp hslot
    obtain rfl := eq_of_beq heq
    have hlt : i < plan.slots := by
      by_contra hge
      rw [getElem?_take_eq_none (Nat.le_of_not_lt hge)] at hi
      cases hi
    rw [getElem?_take_of_lt hlt, getElem?_drop, grown, getElem?_grown_used (by omega)] at hi
    exact ne_endMark_of_used (mem_of_getElem? hi) rfl
  rw [stored, hnone, Bool.and_false, Bool.false_and, if_neg Bool.false_ne_true]
  refine (used_length_le fun slot hslot => ?_).trans (le_max_left _ _)
  rw [getElem?_written hfits hrun hstop] at hslot
  exact (grown_unused_iff _ _).mpr (fun slot hslot => endMark_of_stop hslot) slot hslot

theorem endsKept_marked (_ : 0 < plan.slots) (hstart : plan.start ≤ (used slots).length)
    (hstop : (used slots).length < plan.start + plan.slots) : EndsKept cfg true plan slots := by
  intro run hrun hmark
  have hlast : plan.last + 1 = plan.start + plan.slots := by
    rw [Plan.last]
    omega
  have hany : (((reached (grown cfg plan slots)).drop plan.start).take plan.slots).any
      (· == .endMark) = true := by
    have hlt := hstop.trans_le hfits
    have hend : (reached (grown cfg plan slots))[(used slots).length]? = some .endMark := by
      rw [getElem?_eq_getElem hlt]
      exact congrArg some ((grown_unused_iff _ _).mpr (fun slot hslot => endMark_of_stop hslot) _
        (getElem?_eq_getElem hlt))
    refine any_eq_true.mpr
      ⟨.endMark, mem_iff_getElem?.mpr ⟨(used slots).length - plan.start, ?_⟩, rfl⟩
    rw [getElem?_take_of_lt (by omega), getElem?_drop, Nat.add_sub_cancel' hstart, hend]
  rw [stored, hany, Bool.and_true, Bool.true_and]
  refine le_trans (used_length_le fun slot hslot => ?_) (le_max_right _ _)
  split at hslot
  · rename_i hlt
    rw [hlast, decide_eq_true_eq] at hlt
    have hbound := hlt
    rw [reached_length] at hbound
    rw [hlast, reached, getElem?_take_of_lt (by omega), getElem?_set_self (by omega)] at hslot
    exact (Option.some.inj hslot).symm
  · rename_i hge
    rw [hlast, decide_eq_true_eq] at hge
    rw [getElem?_eq_none (Nat.le_of_not_lt hge)] at hslot
    cases hslot

theorem endsKept_unmarked (hstart : plan.start ≤ (used slots).length)
    (hstop : (used slots).length < plan.start + plan.slots) :
    EndsKept cfg false plan slots ↔ ∀ slot ∈ (reached slots)[plan.start + plan.slots]?,
      slot = .endMark := by
  have hwritten : ∀ run, stored cfg false plan slots run = overwrite
      (grown cfg plan slots) plan.start run := by
    intro run
    rw [stored, Bool.false_and, Bool.false_and, if_neg Bool.false_ne_true]
  rw [← grown_unused_iff _ (plan.grow * cfg.perCluster)]
  change _ ↔ ∀ slot ∈ (reached (grown cfg plan slots))[_]?, _
  constructor
  · intro hkept slot hslot
    have hlength : (replicate plan.slots Slot.free).length = plan.slots := length_replicate
    have hle := hkept (replicate plan.slots .free) hlength fun hmem => by
      cases eq_of_mem_replicate hmem
    rw [hwritten, max_eq_right hstop.le] at hle
    -- all slots up to the run's last are in use
    have hge : plan.start + plan.slots ≤
        (used (overwrite (grown cfg plan slots) plan.start
          (replicate plan.slots .free))).length := by
      refine le_used_length ?_ fun j hj hmark => ?_
      · rw [reached_length_overwrite (by rwa [hlength])]
        exact hfits
      · rw [reached_written hfits hlength, getElem?_overwrite_lt (by omega)
          (by rwa [hlength])] at hmark
        split at hmark
        · rename_i hlt
          rw [grown, getElem?_grown_used (by omega)] at hmark
          exact ne_endMark_of_used (mem_of_getElem? hmark) rfl
        · rw [getElem?_replicate] at hmark
          split at hmark <;> cases hmark
    have hend := @endMark_of_stop
      (overwrite (grown cfg plan slots) plan.start (replicate plan.slots .free)) slot
    refine hend ?_
    rw [Nat.le_antisymm hle hge, getElem?_written hfits hlength (Nat.le_refl _)]
    exact hslot
  · intro hunused run hrun hmark
    rw [hwritten]
    refine (used_length_le fun slot hslot => ?_).trans (le_max_right _ _)
    rw [getElem?_written hfits hrun (Nat.le_refl _)] at hslot
    exact hunused slot hslot

end Ends

theorem listing_slot_lt {start slot : Nat} {long : Assembler} {loc : Located}
    (h : loc ∈ listing start long slot slots) :
    loc.slot < slot + (slots.takeWhile (· ≠ .endMark)).length := by
  induction slots generalizing start slot long with
  | nil => cases h
  | cons first rest ih =>
    cases first with
    | endMark => cases h
    | free =>
      have hlt := ih h
      rw [takeWhile_cons_of_pos (by decide), length_cons]
      omega
    | long part =>
      have hlt := ih h
      rw [takeWhile_cons_of_pos (by simp), length_cons]
      omega
    | short entry =>
      rw [takeWhile_cons_of_pos (by simp), length_cons]
      rw [listing] at h
      split at h
      · rcases mem_cons.mp h with rfl | h
        · exact Nat.lt_add_of_pos_right (Nat.succ_pos _)
        · have hlt := ih h
          omega
      · have hlt := ih h
        omega

theorem visible_slot_lt {loc : Located} (h : loc ∈ visible slots) :
    loc.slot < (used slots).length := by
  have hlt := listing_slot_lt h
  rwa [Nat.zero_add] at hlt

theorem mem_storedNames {skip : Skip} {slot i : Nat} {entry : ShortEntry}
    (hmark : Slot.endMark ∉ slots)
    (hi : slots[i]? = some (.short entry)) (hskip : skip.covers (slot + i) = false)
    (hlabel : entry.isLabel = false) : entry.name ∈ storedNames skip slot slots := by
  induction slots generalizing slot i with
  | nil => cases hi
  | cons first rest ih =>
    have hrest : Slot.endMark ∉ rest := fun hmem => hmark (mem_cons_of_mem _ hmem)
    cases i with
    | zero =>
      obtain rfl : first = .short entry := Option.some.inj hi
      rw [storedNames,
        if_neg (by rw [Nat.add_zero] at hskip; rw [hskip, hlabel]; exact Bool.false_ne_true)]
      exact mem_cons_self
    | succ i =>
      have hmem : entry.name ∈ storedNames skip (slot + 1) rest :=
        ih hrest hi (by rwa [Nat.add_assoc, Nat.add_comm 1])
      cases first with
      | endMark => exact absurd mem_cons_self hmark
      | free => exact hmem
      | long part => exact hmem
      | short other =>
        rw [storedNames]
        split
        · exact hmem
        · exact mem_cons_of_mem _ hmem

theorem getElem?_freeFlags (skip : Skip) (slot i : Nat) (slots : List Slot) :
    (Scan.freeFlags skip slot slots)[i]? = slots[i]?.map fun at' =>
      skip.inRun (slot + i) || at' == .free := by
  induction slots generalizing slot i with
  | nil => rfl
  | cons first rest ih =>
    cases i with
    | zero => rfl
    | succ i =>
      rw [Scan.freeFlags, getElem?_cons_succ, getElem?_cons_succ, ih,
        Nat.add_assoc, Nat.add_comm 1]

theorem Picked.notMem {new : NewName} {stored : List ShortName} {short : ShortName}
    (h : Picked cfg new stored short) : short ∉ stored := by
  rw [Picked] at h
  split at h
  · have hnot := find?_some h.2
    simpa using hnot
  · rename_i hbasis
    rw [needsTail, Bool.not_eq_true, Bool.not_eq_false', Bool.and_eq_true] at hbasis
    rw [h]
    simpa using hbasis.2

/-- What planning promises its caller, who `ends` the directory behind a run that
takes the end's place or does not. -/
structure Safe (cfg : Config) (ends : Bool) (wanted : Wanted) (slots : List Slot) (plan : Plan) :
    Prop where
  slots_eq : plan.slots = wanted.new.slots
  /-- The run is of free slots, slots to be replaced and slots from the end on. -/
  free : ∀ i, plan.start ≤ i → i < plan.start + plan.slots →
    ∀ slot ∈ (used slots)[i]?, slot = .free ∨ wanted.skip.inRun i = true
  inside : plan.start + plan.slots ≤ (grown cfg plan slots).length
  within : plan.start + plan.slots ≤ maxDirEntries
  ended : EndsKept cfg ends plan slots
  /-- No other entry that stays has the short name. -/
  fresh : ∀ i entry, (used slots)[i]? = some (.short entry) → wanted.skip.covers i = false →
    entry.isLabel = false → entry.name ≠ plan.short

/-- Room for `needed` slots before the end. -/
def RoomBefore (skip : Skip) (needed : Nat) (slots : List Slot) : Prop :=
  replicate needed true <:+: Scan.freeFlags skip 0 (used slots)

/-- A run of `needed` slots over the last free slots and the end is followed by
nothing but an end mark. -/
def EndsBehind (skip : Skip) (needed : Nat) (slots : List Slot) : Prop :=
  ∀ slot ∈ (reached slots)[((Scan.freeFlags skip 0 (used slots)).rdropWhile id).length + needed]?,
    slot = .endMark

theorem Placed.safe_iff {ends : Bool} {n : Nat}
    (h : Placed cfg (Scan.freeFlags wanted.skip 0 (used slots)) n plan.slots plan.start plan.grow)
    (hn : (reached slots).length = (used slots).length + n)
    (hslots : plan.slots = wanted.new.slots)
    (hfresh : ∀ i entry, (used slots)[i]? = some (.short entry) → wanted.skip.covers i = false →
      entry.isLabel = false → entry.name ≠ plan.short) :
    Safe cfg ends wanted slots plan ↔
      ends = true ∨ RoomBefore wanted.skip wanted.new.slots slots ∨
        EndsBehind wanted.skip wanted.new.slots slots := by
  have hpos : 0 < plan.slots := hslots ▸ wanted.new.slots_pos
  have hlength := length_freeFlags wanted.skip 0 (used slots)
  have hreached := reached_length slots
  have hgrown : (grown cfg plan slots).length = slots.length + plan.grow * cfg.perCluster := by
    rw [grown, length_append, length_replicate]
  have hinside : plan.start + plan.slots ≤ (grown cfg plan slots).length := by
    have hfits := h.inside
    omega
  have hwithin : plan.start + plan.slots ≤ maxDirEntries := by
    have hfits := h.within
    omega
  have hfits : plan.start + plan.slots ≤ (reached (grown cfg plan slots)).length := by
    rw [reached_length]
    exact le_min hwithin hinside
  have hsafe : Safe cfg ends wanted slots plan ↔ EndsKept cfg ends plan slots := by
    refine ⟨Safe.ended, fun hended =>
      ⟨hslots, fun i hi hlt slot hslot => ?_, hinside, hwithin, hended, hfresh⟩⟩
    have hflag := h.free i hi hlt
    rw [getElem?_freeFlags, Option.mem_def.mp hslot, Nat.zero_add] at hflag
    have hfree := hflag _ rfl
    rw [Bool.or_eq_true, beq_iff_eq] at hfree
    exact hfree.symm
  rw [hsafe, RoomBefore, EndsBehind, ← hslots]
  rcases h.room with ⟨hroom, hstop⟩ | ⟨hno, hstart, hstop⟩
  · exact iff_of_true (endsKept_before hfits (hlength ▸ hstop)) (.inr (.inl hroom))
  · have hle : plan.start ≤ (used slots).length := by
      rw [hstart, ← hlength]
      exact (List.rdropWhile_prefix _ _).length_le
    rw [hlength] at hstop
    rw [← hstart, or_iff_right hno]
    cases ends with
    | true => exact iff_of_true (endsKept_marked hfits hpos hle hstop) (.inl rfl)
    | false =>
      rw [endsKept_unmarked hfits hle hstop, or_iff_right Bool.false_ne_true]

theorem freeFlags_known {names : List ShortName} (hknown : ∀ slot ∈ used slots, Known names slot)
    (hrun : wanted.skip.run = none) : true ∉ Scan.freeFlags wanted.skip 0 (used slots) := by
  intro hmem
  obtain ⟨i, hi⟩ := mem_iff_getElem?.mp hmem
  rw [getElem?_freeFlags, inRun_none hrun, Option.map_eq_some_iff] at hi
  obtain ⟨slot, hslot, hfree⟩ := hi
  obtain ⟨entry, rfl, -⟩ := hknown slot (mem_of_getElem? hslot)
  cases hfree

/-- Where a plan puts the new entry, and that no other entry that stays has its short
name. -/
structure Laid (cfg : Config) (wanted : Wanted) (slots : List Slot) (plan : Plan) : Prop where
  slots_eq : plan.slots = wanted.new.slots
  placed : ∃ n, Placed cfg (Scan.freeFlags wanted.skip 0 (used slots)) n plan.slots
    plan.start plan.grow ∧
    (reached slots).length = (used slots).length + n
  fresh : ∀ i entry, (used slots)[i]? = some (.short entry) → wanted.skip.covers i = false →
    entry.isLabel = false → entry.name ≠ plan.short

/-- Clusters have slots, or the slots that are there are enough. -/
def Grows (cfg : Config) (slots : List Slot) (plan : Plan) : Prop :=
  0 < cfg.perCluster ∨ plan.start + plan.slots ≤ (reached slots).length +
    plan.grow * cfg.perCluster

theorem Laid.safe_iff {ends : Bool} (h : Laid cfg wanted slots plan) :
    Safe cfg ends wanted slots plan ↔
      ends = true ∨ RoomBefore wanted.skip wanted.new.slots slots ∨
        EndsBehind wanted.skip wanted.new.slots slots := by
  obtain ⟨n, hplaced, hn⟩ := h.placed
  exact hplaced.safe_iff hn h.slots_eq h.fresh

/-- What follows a run that goes on past the end is unused, where there is room before
the end or nothing but an end mark behind. -/
theorem Laid.unused (h : Laid cfg wanted slots plan)
    (hroom : RoomBefore wanted.skip wanted.new.slots slots ∨
      EndsBehind wanted.skip wanted.new.slots slots)
    (hlt : (used slots).length < plan.start + plan.slots) :
    ∀ slot ∈ (reached slots)[plan.start + plan.slots]?, slot = .endMark := by
  obtain ⟨n, hplaced, -⟩ := h.placed
  rw [← h.slots_eq] at hroom
  rcases hplaced.room with ⟨-, hstop⟩ | ⟨hno, hstart, -⟩
  · rw [length_freeFlags] at hstop
    omega
  · rw [hstart]
    exact hroom.resolve_left hno

theorem planAppend_laid {index : AppendIndex} (honly : wanted.new.shortOnly = true)
    (hrun : wanted.skip.run = none) (hdense : Dense (vol.dirs dir) index.names index.slot)
    (hgrows : Grows cfg (vol.dirs dir) plan)
    (h : (planAppend dir wanted.new index).run vol = (.ok plan, vol')) :
    Laid cfg wanted (vol.dirs dir) plan := by
  obtain ⟨hnames, -, hmax, hstart, hone, hshort, hroom⟩ := planAppend_cases h
  have hslots : wanted.new.slots = 1 := by rw [NewName.slots, if_pos honly]
  have hflags := freeFlags_known hdense.known hrun
  have hlength := length_freeFlags wanted.skip 0 (used (vol.dirs dir))
  have hstop := hdense.length
  have hused : (used (vol.dirs dir)).length ≤ (reached (vol.dirs dir)).length :=
    used_length_le fun slot hslot => by
      rw [getElem?_eq_none (Nat.le_refl _)] at hslot
      cases hslot
  refine ⟨hone.trans hslots.symm,
    ⟨(reached (vol.dirs dir)).length - (used (vol.dirs dir)).length, ?_, by omega⟩,
    fun i entry hentry _ hlabel hname => ?_⟩
  · refine ⟨fun i hi hlt flag hflag => ?_, ?_, .inr (by omega), .inr ⟨?_, ?_, ?_⟩⟩
    · obtain ⟨hin, -⟩ := List.getElem?_eq_some_iff.mp hflag
      omega
    · rcases hgrows with hcluster | hinside
      · rcases hroom with hlt | ⟨-, hgrow⟩
        · omega
        · rw [hgrow, Nat.one_mul]
          omega
      · rwa [hlength, Nat.add_sub_cancel' hused]
    · rw [hone]
      exact fun hwithin => hflags (hwithin.subset mem_cons_self)
    · rw [rdropWhile_self hflags, hlength, hstart, hstop]
    · rw [hlength, hstop, hstart, hone]
      exact Nat.lt_succ_self _
  · obtain ⟨_, hslot, hknown⟩ := hdense.known _ (mem_of_getElem? hentry)
    cases hslot
    rcases hknown with hlabel' | ⟨-, hmem⟩
    · rw [hlabel] at hlabel'
      cases hlabel'
    · rw [hshort] at hname
      exact hnames (hname ▸ hmem)

theorem planScan_laid {eligible : Bool} (hgrows : Grows cfg (vol.dirs dir) plan)
    (hnew : NewName.new wanted.text cfg.page (fold cfg) = .ok wanted.new)
    (hskip : ∀ run, wanted.skip.run = some run → run.2 < (used (vol.dirs dir)).length)
    (h : (planScan cfg dir wanted eligible).run vol = (.ok plan, vol')) :
    Laid cfg wanted (vol.dirs dir) plan ∧
      Picked cfg wanted.new (storedNames wanted.skip 0 (used (vol.dirs dir))) plan.short ∧
      ∀ index, vol'.appendIndex = some index → wanted.skip.run = none →
        eligible = true ∧ index.dir = dir ∧ ∀ slot ∈ used (vol.dirs dir),
          Known index.names slot := by
  obtain ⟨scan, hscan, hplaced, hpicked, hslots, -, rfl⟩ := planScan_cases h
  obtain ⟨rest, hreached, hend⟩ := reached_used (vol.dirs dir)
  have hmark : Slot.endMark ∉ used (vol.dirs dir) := fun hmem => ne_endMark_of_used hmem rfl
  rw [hreached] at hscan
  obtain ⟨mid, hscanned, hends⟩ := Scan.loop_scanned hmark rfl hscan
  obtain ⟨htracked, -⟩ := hscanned.tracked (Scan.tracked_start _)
  have hno := hscanned.no_room (Scan.tracked_start _) fun _ hwithin => by
    have hle := hwithin.length_le
    rw [length_replicate] at hle
    exact absurd wanted.new.slots_pos (Nat.not_lt.mpr hle)
  rw [nil_append] at htracked hno
  change Scan.Tracked _ (Scan.freeFlags wanted.skip 0 _) mid at htracked
  have hmid : wanted.skip.inRun mid.slot = false := by
    rw [htracked.slot, length_freeFlags, Skip.inRun]
    cases hrun : wanted.skip.run with
    | none => rfl
    | some run =>
      have hlt := hskip run hrun
      rw [Option.any_some, decide_eq_false_iff_not]
      omega
  obtain ⟨k, hk, hlast, htaken, happend, hwhole, hkeep⟩ := Scan.loop_tail hend hmid htracked hends
  have hn : (reached (vol.dirs dir)).length = (used (vol.dirs dir)).length + rest.length := by
    rw [hreached, length_append]
  rw [Grows, hslots] at hgrows
  have hplaced := place_placed (n := rest.length) (by rwa [length_freeFlags, ← hn])
    htracked hno hlast hk hwhole hkeep hplaced
  have hstored : storedNames wanted.skip 0 (reached (vol.dirs dir)) =
      storedNames wanted.skip 0 (used (vol.dirs dir)) := by
    rw [hreached, storedNames_tail hmark hend]
  have hpick :
      Picked cfg wanted.new (storedNames wanted.skip 0 (used (vol.dirs dir))) plan.short := by
    refine pickShort_ok hnew (fun bit hbit => ?_) (fun name => ?_) hpicked
    · rw [Bool.eq_iff_iff, htaken, hscanned.taken_iff, start_taken hnew, contains_iff_mem,
        or_iff_right Bool.false_ne_true, and_iff_right hbit]
      exact Iff.rfl
    · rw [Bool.eq_iff_iff, shortTaken_iff, hstored, contains_iff_mem]
  refine ⟨⟨hslots, ⟨rest.length, hslots ▸ hplaced, hn⟩,
    fun i entry hentry hcovers hlabel hname => ?_⟩, hpick, fun index hindex hrun => ?_⟩
  · have hmem : entry.name ∈ storedNames wanted.skip 0 (used (vol.dirs dir)) :=
      mem_storedNames hmark hentry (by rwa [Nat.zero_add]) hlabel
    rw [hname] at hmem
    exact hpick.notMem hmem
  · obtain ⟨names, hnames, rfl⟩ := Option.map_eq_some_iff.mp hindex
    rw [happend] at hnames
    obtain ⟨before, hbefore, -, hknown⟩ := hscanned.dense hrun hnames
    change (if eligible then some [] else none) = some before at hbefore
    refine ⟨?_, rfl, hknown⟩
    cases eligible with
    | true => rfl
    | false => cases hbefore

theorem plan_laid (hgrows : Grows cfg (vol.dirs dir) plan)
    (hnew : NewName.new wanted.text cfg.page (fold cfg) = .ok wanted.new)
    (hskip : ∀ run, wanted.skip.run = some run →
      ∃ target ∈ visible (vol.dirs dir), run = (target.first, target.slot))
    (hindexed : Indexed vol dir) (h : (Volume.plan cfg dir wanted).run vol = (.ok plan, vol')) :
    Laid cfg wanted (vol.dirs dir) plan := by
  obtain ⟨index, hsome, hdir, honly, hrun, happend⟩ | ⟨eligible, -, hscan⟩ := plan_cases h
  · exact planAppend_laid honly hrun (hindexed index hsome hdir) hgrows happend
  · refine (planScan_laid hgrows hnew (fun run hrun => ?_) hscan).1
    obtain ⟨target, htarget, rfl⟩ := hskip run hrun
    exact visible_slot_lt htarget

/-- A plan is safe exactly where its caller ends the directory anew, there is room
before the end, or nothing but an end mark follows the run. -/
theorem plan_safe_iff (ends : Bool) (hcluster : 0 < cfg.perCluster)
    (hnew : NewName.new wanted.text cfg.page (fold cfg) = .ok wanted.new)
    (hskip : ∀ run, wanted.skip.run = some run →
      ∃ target ∈ visible (vol.dirs dir), run = (target.first, target.slot))
    (hindexed : Indexed vol dir) (h : (Volume.plan cfg dir wanted).run vol = (.ok plan, vol')) :
    Safe cfg ends wanted (vol.dirs dir) plan ↔
      ends = true ∨ RoomBefore wanted.skip wanted.new.slots (vol.dirs dir) ∨
        EndsBehind wanted.skip wanted.new.slots (vol.dirs dir) :=
  (plan_laid (.inl hcluster) hnew hskip hindexed h).safe_iff

theorem Picked.shortOnly {new : NewName} {stored : List ShortName} {short : ShortName}
    (h : Picked cfg new stored short) (honly : new.shortOnly = true) :
    short = new.candidate 0 := by
  rw [Picked] at h
  split at h
  · rw [honly] at h
    cases h.1
  · exact h

/-- The append index a plan leaves is true of the directory, and the plan takes the
slot it ends at. -/
theorem plan_index {index : AppendIndex} (hgrows : Grows cfg (vol.dirs dir) plan)
    (hnew : NewName.new wanted.text cfg.page (fold cfg) = .ok wanted.new)
    (hrun : wanted.skip.run = none)
    (hindexed : Indexed vol dir) (h : (Volume.plan cfg dir wanted).run vol = (.ok plan, vol'))
    (hindex : vol'.appendIndex = some index) :
    wanted.new.shortOnly = true ∧ plan.short = wanted.new.candidate 0 ∧
      Dense (vol.dirs dir) index.names plan.start := by
  obtain ⟨old, hsome, hdir, honly, -, happend⟩ | ⟨eligible, honly, hscan⟩ := plan_cases h
  · obtain ⟨-, rfl, -, hstart, -, hshort, -⟩ := planAppend_cases happend
    obtain rfl : old = index := Option.some.inj (hsome.symm.trans hindex)
    exact ⟨honly, hshort, hstart ▸ hindexed old hsome hdir⟩
  · obtain ⟨hlaid, hpicked, hleft⟩ :=
      planScan_laid hgrows hnew (fun run hsome => by rw [hrun] at hsome; cases hsome) hscan
    obtain ⟨n, hplaced, -⟩ := hlaid.placed
    obtain ⟨heligible, -, hknown⟩ := hleft index hindex hrun
    have honly := honly heligible
    have hflags := freeFlags_known hknown hrun
    refine ⟨honly, hpicked.shortOnly honly, ?_, hknown⟩
    -- no slot is free, so the run is at the end
    rcases hplaced.room with ⟨hwithin, -⟩ | ⟨-, hstart, -⟩
    · refine absurd (hwithin.subset ?_) hflags
      rw [mem_replicate, hlaid.slots_eq]
      exact ⟨wanted.new.slots_pos.ne', rfl⟩
    · rw [hstart, rdropWhile_self hflags, length_freeFlags]

theorem createNode_stored {text : Text} {isDir : Bool} {cluster : Nat}
    (hne : isDir = true → dir ≠ .chain cluster)
    (h : (createNode cfg dir text isDir cluster).run vol = (.ok (), vol')) :
    ∃ new plan vol₁ entry, NewName.new text cfg.page (fold cfg) = .ok new ∧
      (Volume.plan cfg dir ⟨text, true, new, .none⟩).run vol = (.ok plan, vol₁) ∧
      entry.name = plan.short ∧
      vol'.dirs dir = stored cfg false plan (vol.dirs dir) (entrySlots new plan entry) := by
  obtain ⟨new, plan, vol₁, vol₂, entry, hnew, hplan, hname, -, -, created, hkeep⟩ :=
    createNode_ok hne h
  obtain ⟨hdirs, -⟩ := keepAppend_ok hkeep
  refine ⟨new, plan, vol₁, entry, hnew, hplan, hname, ?_⟩
  rw [hdirs, created.dir_eq, stored, Bool.false_and, Bool.false_and, if_neg Bool.false_ne_true]

theorem Created.grows {slots : List Slot} {new : NewName} {entry : ShortEntry}
    {dirs : DirStart → List Slot}
    (hslots : plan.slots = new.slots)
    (h : Created dirs dir new plan entry (grown cfg plan slots) vol') :
    Grows cfg slots plan := by
  have hfits := h.fits
  rw [entrySlots_length entry hslots, reached_length, grown, length_append,
    length_replicate] at hfits
  right
  rw [reached_length]
  omega

theorem createNode_index {text : Text} {isDir : Bool} {cluster : Nat}
    (hne : isDir = true → dir ≠ .chain cluster) (hindexed : Indexed vol dir)
    (hroom : ∀ new, NewName.new text cfg.page (fold cfg) = .ok new →
      RoomBefore .none new.slots (vol.dirs dir) ∨ EndsBehind .none new.slots (vol.dirs dir))
    (h : (createNode cfg dir text isDir cluster).run vol = (.ok (), vol')) :
    Indexed vol' dir := by
  obtain ⟨new, plan, vol₁, vol₂, entry, hnew, hplan, hname, -, -, created, hkeep⟩ :=
    createNode_ok hne h
  obtain ⟨hdirs, hindex⟩ := keepAppend_ok hkeep
  intro index hsome _
  rcases hindex with rfl | ⟨old, hold, hleft⟩
  · rw [created.append] at hsome
    cases hsome
  · rw [hleft] at hsome
    cases hsome
    have hnew' : NewName.new (Wanted.mk text true new .none).text cfg.page
      (fold cfg) = .ok new := hnew
    have hgrows := created.grows (plan_slots hplan)
    obtain ⟨honly, hshort, hlength, hknown⟩ := plan_index hgrows hnew' rfl hindexed hplan hold
    have hlaid := plan_laid hgrows hnew' (fun _ hrun => by cases hrun) hindexed hplan
    have hone : plan.slots = 1 := by rw [hlaid.slots_eq, NewName.slots, if_pos honly]
    have hunused := hlaid.unused (hroom new hnew)
      (by rw [hlength, hone]; exact Nat.lt_succ_self _)
    obtain ⟨hsubset, hmem⟩ := insert_subset old.names plan.short
    have hrun : entrySlots new plan entry = [.short entry] := by
      rw [entrySlots, hone, take_zero]
      rfl
    have hfits := created.fits
    rw [hrun, length_singleton] at hfits
    have hwritten : vol'.dirs dir = overwrite (grown cfg plan (vol.dirs dir)) plan.start
        [.short entry] := by
      rw [hdirs, created.dir_eq, hrun]
    have hat : ∀ j ≤ plan.start, (reached (vol'.dirs dir))[j]? =
        if j < plan.start then (used (vol.dirs dir))[j]? else some (.short entry) := by
      intro j hj
      rw [hwritten, reached_overwrite hfits, getElem?_overwrite_lt (by omega) (by
        rw [length_singleton]
        omega)]
      split
      · rw [grown, getElem?_grown_used (by omega)]
      · rw [show j - plan.start = 0 by omega]
        rfl
    have hle : (used (vol'.dirs dir)).length ≤ plan.start + 1 := by
      refine used_length_le fun slot hslot => ?_
      have hlength : [Slot.short entry].length = plan.slots := hone.symm
      rw [hwritten, getElem?_written (by rwa [hone]) hlength (by rw [hone])] at hslot
      rw [hone] at hunused
      exact (grown_unused_iff _ _).mpr hunused slot hslot
    have hge : plan.start + 1 ≤ (used (vol'.dirs dir)).length := by
      refine le_used_length ?_ fun j hj hmark => ?_
      · rw [hwritten, reached_length_overwrite hfits]
        exact hfits
      · rw [hat j (by omega)] at hmark
        split at hmark
        · exact ne_endMark_of_used (mem_of_getElem? hmark) rfl
        · cases hmark
    refine ⟨?_, fun slot hslot => ?_⟩
    · rw [hone]
      exact Nat.le_antisymm hle hge
    · obtain ⟨j, hj⟩ := mem_iff_getElem?.mp hslot
      obtain ⟨hlt, -⟩ := List.getElem?_eq_some_iff.mp hj
      rw [← getElem?_reached hlt, hat j (by omega)] at hj
      split at hj
      · obtain ⟨entry, rfl, hentry⟩ := hknown slot (mem_of_getElem? hj)
        exact ⟨entry, rfl, hentry.imp_right fun h => ⟨h.1, hsubset h.2⟩⟩
      · refine ⟨entry, (Option.some.inj hj).symm, .inr ⟨?_, hname ▸ hmem⟩⟩
        rw [hname, hshort]
        exact plain_of_lossless hnew (Bool.and_eq_true .. ▸ honly).1

/-- A node created where there is room, or where nothing but end marks lies behind, leaves
the append index true. -/
theorem createNode_indexed {text : Text} {isDir : Bool} {cluster : Nat}
    (hne : isDir = true → dir ≠ .chain cluster) (hindexed : Indexed vol dir)
    (hroom : ∀ new, NewName.new text cfg.page (fold cfg) = .ok new →
      RoomBefore .none new.slots (vol.dirs dir) ∨ EndsBehind .none new.slots (vol.dirs dir))
    (h : (createNode cfg dir text isDir cluster).run vol = (.ok (), vol')) : Indexed vol' dir :=
  createNode_index hne hindexed hroom h

/-- A rename stores the new entry's slots where the plan says and ends the directory
behind them, before it clears the old entry. -/
theorem renameInto_stored {source dest : DirStart} {src : Located} {new : NewName}
    {moved : ShortEntry} {dotDot : Option (Nat × Nat)}
    (h : (renameInto cfg source src dest new moved dotDot).run vol = (.ok (), vol')) :
    ∃ plan vol₁ vol₂, (Volume.plan cfg dest ⟨new.text, false, new,
        ⟨if source = dest then some src.slot else none, none⟩⟩).run vol = (.ok plan, vol₁) ∧
      vol₂.dirs dest = stored cfg true plan (vol.dirs dest)
        (entrySlots new plan { moved with name := plan.short, ntCase := plan.ntCase }) ∧
      ((do
        Prog.whenSome dotDot fun (dir, parent) => setDotDot cfg dir parent
        clearSlots source src.first (src.slot + 1)) : Run Unit).run vol₂ = (.ok (), vol') := by
  obtain ⟨plan, vol₁, hplan, hmove⟩ := renameInto_ok rfl h
  have hslots : plan.slots = new.slots := plan_slots hplan
  have hlength := entrySlots_length
    { moved with name := plan.short, ntCase := plan.ntCase } hslots
  obtain ⟨before, hbefore⟩ : ∃ before, before =
    (⟨vol.dirs, vol₁.appendIndex⟩ : Volume).put dest (grown cfg plan (vol.dirs dest)) := ⟨_, rfl⟩
  have hdest : before.dirs dest = grown cfg plan (vol.dirs dest) := by rw [hbefore, put_dirs]
  rw [← hbefore] at hmove
  obtain ⟨hfits, hrest⟩ := moveEntry_stores (hslots ▸ new.slots_pos) hlength hmove
  change plan.start + plan.slots ≤ (reached (before.dirs dest)).length at hfits
  have hlast : plan.start + plan.slots = plan.last + 1 := by
    have hpos : 0 < plan.slots := hslots ▸ new.slots_pos
    rw [Plan.last]
    omega
  refine ⟨plan, vol₁, _, hplan, (put_dirs ..).trans
    ((endMarked_overwrite ?_ ?_).symm.trans ?_), hrest⟩
  · exact (congrArg (plan.start + ·) hlength).trans hlast
  · exact (congrArg (plan.start + ·) hlength).trans_le hfits
  · change endMarked _ (overwrite (before.dirs dest) _ _) = _
    rw [hdest, stored, Bool.true_and]
    rfl

def samplePage : CodePage where
  decode byte := if byte = 0x90 then Char.ofNat 0xC9 else Char.ofNat 0xFFFD
  encode ch := if ch = Char.ofNat 0xC9 then some 0x90 else none

def sampleConfig : Config where
  page := samplePage
  upper ch := if ch = Char.ofNat 0xE9 then [Char.ofNat 0xC9] else [ch]
  root := .fixed
  perCluster := 8
  maxCluster := 100
  appendLimit := AppendIndex.limit

def sampleVolume : Volume where
  dirs _ := replicate 8 .endMark
  appendIndex := none

def staleVolume : Volume where
  dirs _ :=
    [.endMark, .short (ShortEntry.new (ShortName.ofParts [0x4F, 0x4C, 0x44] []) attrArchive)] ++
    replicate 6 .endMark
  appendIndex := none

def sampleName : Text := ['A']

deriving instance DecidableEq for NewName

deriving instance DecidableEq for Plan

def sampleNew : NewName where
  text := sampleName
  candidates :=
    ((NewName.new sampleName sampleConfig.page (fold sampleConfig)).toOption.map
      NewName.candidates).getD []
  lossless := true
  caseBits := some 0

def sampleWanted : Wanted := ⟨sampleName, true, sampleNew, .none⟩

def samplePlan : Plan where
  start := 0
  slots := 1
  grow := 0
  short := ShortName.ofParts [0x41] []
  ntCase := 0

theorem sample_named : NewName.new sampleWanted.text sampleConfig.page (fold sampleConfig) =
    .ok sampleWanted.new := by
  decide

theorem sample_planned (vol : Volume) (h : vol = sampleVolume ∨ vol = staleVolume) :
    ((Volume.plan sampleConfig .fixed sampleWanted).run vol).1 = .ok samplePlan := by
  rcases h with rfl | rfl <;> decide

theorem plan_safe_iff_sample :
    Safe sampleConfig false sampleWanted (sampleVolume.dirs .fixed) samplePlan :=
  (plan_safe_iff false (by decide) sample_named (fun _ hrun => by cases hrun)
    (fun _ hindex => by cases hindex)
    (Prod.ext (sample_planned sampleVolume (.inl rfl)) rfl)).mpr (.inr (.inr fun slot hslot =>
      eq_of_mem_replicate (mem_of_mem_take (mem_of_getElem? hslot))))

theorem createNode_indexed_sample :
    Indexed ((createNode sampleConfig .fixed sampleName false 0).run sampleVolume).2 .fixed := by
  have hran : ((createNode sampleConfig .fixed sampleName false 0).run sampleVolume).1 =
    .ok () := by decide
  exact createNode_indexed (fun hdir => by cases hdir) (fun _ hindex => by cases hindex)
    (fun _ _ => .inr fun slot hslot =>
      eq_of_mem_replicate (mem_of_mem_take (mem_of_getElem? hslot)))
    (Prod.ext hran rfl)

/-- The entry of earlier days behind the end becomes one of the directory. -/
theorem plan_unsafe : ((Volume.plan sampleConfig .fixed sampleWanted).run staleVolume).1 =
    .ok samplePlan ∧
    ¬Safe sampleConfig false sampleWanted (staleVolume.dirs .fixed) samplePlan ∧
    ((Volume.create sampleConfig .fixed sampleName).run staleVolume).1 = .ok () ∧
    (visible (staleVolume.dirs .fixed)).length = 0 ∧
    (visible (((Volume.create sampleConfig .fixed sampleName).run staleVolume).2.dirs
      .fixed)).length = 2 := by
  refine ⟨sample_planned staleVolume (.inr rfl), fun hsafe => ?_, ?_⟩
  · have hkept := hsafe.ended [.free] rfl (by simp)
    revert hkept
    decide
  · decide

end Hadris.Directory.Volume
