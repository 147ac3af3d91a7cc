import Hadris.Iso.Joined

namespace Hadris.Iso

open List
open Scan

variable {image : List UInt8} {scan : Scan}

/-- An area of an image at `spot`, a block and an offset in it: it crosses no block boundary. -/
structure At (image : List UInt8) (spot : Nat × Nat) (area : List UInt8) : Prop where
  bytes : (image.drop (spot.1 * sector + spot.2)).take area.length = area
  inside : spot.1 * sector + spot.2 + area.length ≤ image.length
  fits : spot.2 + area.length ≤ sector
  block : spot.1 < 2 ^ 32

/-- Groups of entries in the areas of an image from `spot` on, each area but the last with a `CE`
entry that leads to the next. -/
inductive Linked (image : List UInt8) : Nat × Nat → Nat → List SuBuilder → Prop
  | last {spot : Nat × Nat} {group : SuBuilder} (hat : At image spot group.flatten)
      (hne : group.flatten ≠ [])
      (hplain : ∀ e ∈ group, Plain e) : Linked image spot group.flatten.length [group]
  | more {spot next : Nat × Nat} {len : Nat} {group : SuBuilder} {groups : List SuBuilder}
      (hat : At image spot (group.flatten ++ ceEntry next len)) (hplain : ∀ e ∈ group, Plain e)
      (h : Linked image next len groups) :
      Linked image spot (group.flatten ++ ceEntry next len).length (group :: groups)

namespace Scan

theorem readBytes_at {spot : Nat × Nat} {area : List UInt8} (h : At image spot area) :
    readBytes image (spot.1 * sector + spot.2) area.length = .ok area := by
  obtain ⟨hbytes, hinside, hfits, hblock⟩ := h
  have hsize : spot.1 * sector + spot.2 + area.length < 2 ^ 64 := by
    rw [sector] at hfits ⊢
    omega
  rw [readBytes, ensure_of_true _ (decide_eq_true hsize),
    ensure_of_true _ (decide_eq_true hinside), hbytes]
  rfl

theorem readArea_at {spot : Nat × Nat} {area : List UInt8} (h : At image spot area)
    (hne : area ≠ []) (hwhole : (scan.feed area).1 = false) :
    readArea image (spot.1 * sector + spot.2) area.length [] nil_lt scan =
      .ok (scan.feed area).2 := by
  have hpos := length_pos_iff.mpr hne
  have htake : min area.length (sector - ([] : List UInt8).length) = area.length :=
    Nat.min_eq_left ((Nat.le_add_left _ _).trans h.fits)
  rw [readArea, dif_neg (by omega)]
  dsimp only
  rw [htake, readBytes_at h]
  dsimp only
  rw [Nat.sub_self, if_pos rfl, nil_append, take_length]
  rcases hfeed : scan.feed area with ⟨stop, after⟩
  rw [hfeed] at hwhole
  cases hwhole
  dsimp only
  split
  · rfl
  · rw [dif_neg (by omega), readArea, dif_pos rfl]

theorem feed_plain {group : SuBuilder} (hplain : ∀ e ∈ group, Plain e) (scan : Scan) :
    scan.feed group.flatten = (false, group.foldl takeEntry scan) := by
  have hfeed := feed_entries (fun e he => (hplain e he).isEntry) scan []
  rw [append_nil] at hfeed
  rw [hfeed, feed, if_pos (by decide), any_nil, Bool.or_false]

theorem feed_ce {group : SuBuilder} (hplain : ∀ e ∈ group, Plain e) {scan : Scan}
    (hnext : scan.next = none)
    {spot : Nat × Nat} {len : Nat} (hblock : spot.1 < 2 ^ 32) (hoffset : spot.2 < 2 ^ 32)
    (hlen : len < 2 ^ 32) :
    scan.feed (group.flatten ++ ceEntry spot len) =
      (false, { group.foldl takeEntry scan with next := some ⟨spot.1, spot.2, len⟩ }) := by
  have hfeed := feed_entry (isEntry_ce spot len) (group.foldl takeEntry scan) []
  rw [append_nil] at hfeed
  rw [feed_entries (fun e he => (hplain e he).isEntry), hfeed,
    takeEntry_ce hblock hoffset hlen ((foldl_plain hplain scan).1.trans hnext),
      feed, if_pos (by decide),
    any_nil, Bool.or_false]

theorem bounds {spot : Nat × Nat} {len : Nat} {groups : List SuBuilder}
    (h : Linked image spot len groups) :
    0 < len ∧ spot.2 + len ≤ sector ∧ spot.1 * sector + spot.2 + len ≤ image.length ∧
      spot.1 < 2 ^ 32 := by
  rcases h with ⟨hat, hne, -⟩ | ⟨hat, -, -⟩
  · exact ⟨length_pos_iff.mpr hne, hat.fits, hat.inside, hat.block⟩
  · refine ⟨?_, hat.fits, hat.inside, hat.block⟩
    rw [length_append, length_ceEntry]
    exact Nat.lt_add_left _ (by decide)

theorem ensure_area {spot : Nat × Nat} {len budget : Nat} {groups : List SuBuilder}
    (h : Linked image spot len groups) (hbudget : len ≤ budget) :
    (!(decide (len = 0 ∨ budget < len ∨ sector ≤ spot.2 ∨
      2 ^ 64 ≤ spot.1 * sector + spot.2 + len ∨
      image.length < spot.1 * sector + spot.2 + len))) = true := by
  obtain ⟨hpos, hfits, hinside, hblock⟩ := bounds h
  rw [Bool.not_eq_true', decide_eq_false_iff_not]
  rw [sector] at hfits hinside ⊢
  omega

theorem next_none {scan : Scan} (h : scan.next = none) : { scan with next := none } = scan := by
  rw [← h]

theorem readArea_linked {spot : Nat × Nat} {len : Nat} {groups : List SuBuilder}
    (h : Linked image spot len groups) (hnext : scan.next = none) :
    (∃ group, groups = [group] ∧ (∀ e ∈ group, Plain e) ∧
      readArea image (spot.1 * sector + spot.2) len [] nil_lt scan =
        .ok (group.foldl takeEntry scan)) ∨
    ∃ group rest next len', groups = group :: rest ∧ (∀ e ∈ group, Plain e) ∧
      Linked image next len' rest ∧
      readArea image (spot.1 * sector + spot.2) len [] nil_lt scan =
        .ok { group.foldl takeEntry scan with next := some ⟨next.1, next.2, len'⟩ } := by
  rcases h with @⟨_, group, hat, hne, hplain⟩ | @⟨_, next, len', group, rest, hat, hplain, hrest⟩
  · refine .inl ⟨group, rfl, hplain, ?_⟩
    rw [readArea_at hat hne (by rw [feed_plain hplain]), feed_plain hplain]
  · obtain ⟨-, hfits, -, hblock⟩ := bounds hrest
    rw [sector] at hfits
    have hfeed := @feed_ce group hplain scan hnext next len' hblock (by omega) (by omega)
    refine .inr ⟨group, rest, next, len', rfl, hplain, hrest, ?_⟩
    have hne : group.flatten ++ ceEntry next len' ≠ [] := by
      intro hnil
      exact absurd (append_eq_nil_iff.mp hnil).2 (by
        rw [ceEntry, Iso.entry]
        exact append_ne_nil_of_right_ne_nil _ (cons_ne_nil _ _))
    rw [readArea_at hat hne (by rw [hfeed]), hfeed]

theorem follow_linked {spot : Nat × Nat} {len : Nat} {groups : List SuBuilder}
    {remaining budget : Nat}
    (h : Linked image spot len groups) (hcount : groups.length ≤ remaining)
    (hbudget : groups.length * sector ≤ budget) (hwell : scan.malformed = false) :
    follow image sector remaining budget { scan with next := some ⟨spot.1, spot.2, len⟩ } =
      .ok (groups.flatten.foldl takeEntry { scan with next := none }) := by
  induction groups generalizing spot len remaining budget scan with
  | nil => cases h
  | cons group rest ih =>
    obtain ⟨-, hfits, -, -⟩ := bounds h
    have hlen : len ≤ sector := (Nat.le_add_left _ _).trans hfits
    rw [length_cons] at hcount
    rw [length_cons, Nat.succ_mul] at hbudget
    obtain ⟨remaining, rfl⟩ : ∃ n, remaining = n + 1 := ⟨remaining - 1, by omega⟩
    rw [follow.eq_def]
    dsimp only
    rw [if_neg (by rw [hwell]; exact Bool.false_ne_true),
      ensure_of_true _ (ensure_area h (by omega))]
    change (readArea image (spot.1 * sector + spot.2) len [] nil_lt { scan with next := none } >>=
      fun scan =>
      follow image sector remaining (budget - len) scan) = _
    rcases @readArea_linked image { scan with next := none } spot len (group :: rest) h rfl with
      ⟨only, hgroups, hplain, hread⟩ | ⟨first, others, next, len', hgroups, hplain, hrest, hread⟩
    · obtain ⟨rfl, rfl⟩ := List.cons.inj hgroups
      obtain ⟨hnext, hmalformed⟩ := foldl_plain hplain { scan with next := none }
      rw [hread]
      change follow image sector remaining (budget - len) _ = _
      rw [follow.eq_def]
      dsimp only
      rw [if_neg (by rw [hmalformed, hwell]; exact Bool.false_ne_true), hnext, flatten_singleton]
    · obtain ⟨rfl, rfl⟩ := List.cons.inj hgroups
      obtain ⟨hnext, hmalformed⟩ := foldl_plain hplain { scan with next := none }
      rw [hread]
      change follow image sector remaining (budget - len) _ = _
      rw [ih hrest (by omega) (by omega) (hmalformed.trans hwell), next_none hnext, flatten_cons,
        foldl_append]

theorem follow_many {spot : Nat × Nat} {len : Nat} {groups : List SuBuilder}
    {remaining budget : Nat}
    (h : Linked image spot len groups) (hcount : remaining < groups.length)
    (hwell : scan.malformed = false) :
    follow image sector remaining budget { scan with next := some ⟨spot.1, spot.2, len⟩ } =
      .error corruptSystemUse := by
  induction remaining generalizing spot len groups budget scan with
  | zero =>
    rw [follow.eq_def]
    dsimp only
    rw [hwell, if_neg Bool.false_ne_true]
  | succ remaining ih =>
    rw [follow.eq_def]
    dsimp only
    rw [if_neg (by rw [hwell]; exact Bool.false_ne_true)]
    by_cases hbudget : len ≤ budget
    · rw [ensure_of_true _ (ensure_area h hbudget)]
      change (readArea image (spot.1 * sector + spot.2) len [] nil_lt
        { scan with next := none } >>= fun scan =>
        follow image sector remaining (budget - len) scan) = _
      rcases @readArea_linked image { scan with next := none } spot len groups h rfl with
        ⟨only, rfl, -, -⟩ | ⟨first, others, next, len', rfl, hplain, hrest, hread⟩
      · rw [length_singleton] at hcount
        omega
      · obtain ⟨hnext, hmalformed⟩ := foldl_plain hplain { scan with next := none }
        rw [length_cons] at hcount
        rw [hread]
        change follow image sector remaining (budget - len) _ = _
        exact ih hrest (by omega) (hmalformed.trans hwell)
    · rw [decide_eq_true (.inr (.inl (Nat.lt_of_not_le hbudget)))]
      rfl

theorem feed_pad {n : Nat} (h : n < 4) (scan : Scan) :
    scan.feed (replicate n 0) = (false, scan) := by
  have hzero : (replicate n (0 : UInt8)).any (fun byte => byte != 0) = false := by
    rw [any_eq_false]
    intro byte hbyte
    rw [eq_of_mem_replicate hbyte]
    decide
  rw [feed, if_pos (by rw [length_replicate]; exact h), hzero, Bool.or_false]

end Scan

namespace SuBuilder

theorem fitting_pos {first : List UInt8} {rest : SuBuilder} {budget : Nat}
    (h : first.length ≤ budget) :
    0 < fitting budget 0 (first :: rest) := by
  rw [fitting, if_neg (by omega)]
  exact Nat.succ_pos _

theorem areas_groups {fuel : Nat} {rest : SuBuilder} (h : ∀ e ∈ rest, Plain e)
    (hfuel : rest.length ≤ fuel) (hne : rest ≠ []) :
    ∃ (groups : List SuBuilder) (last : SuBuilder), groups.flatten ++ last = rest ∧ last ≠ [] ∧
      areas fuel rest = groups.map (fun group => group.flatten ++ blankCe) ++ [last.flatten] ∧
      (∀ group ∈ groups, (group.flatten ++ blankCe).length ≤ sector) ∧
      last.flatten.length ≤ sector := by
  induction fuel generalizing rest with
  | zero => exact absurd (length_eq_zero_iff.mp (Nat.le_zero.mp hfuel)) hne
  | succ fuel ih =>
    rw [areas, if_neg hne]
    split
    · rename_i hfits
      exact ⟨[], rest, rfl, hne, rfl, fun _ h => absurd h not_mem_nil, hfits⟩
    · rename_i hlong
      generalize htake : fitting (sector - ceLen) 0 rest = take
      have hkept : 0 + ((rest.take (fitting (sector - ceLen) 0 rest)).flatten).length ≤
        sector - ceLen :=
        length_take_fitting (Nat.zero_le _)
      rw [htake, Nat.zero_add] at hkept
      have hpos : 0 < take := by
        obtain ⟨first, others, rfl⟩ := exists_cons_of_ne_nil hne
        rw [← htake]
        exact fitting_pos ((h first mem_cons_self).isEntry.length.2.trans (by decide))
      have hmore : rest.drop take ≠ [] := by
        intro hnil
        rw [drop_eq_nil_iff] at hnil
        rw [take_of_length_le hnil] at hkept
        exact hlong (hkept.trans (Nat.sub_le _ _))
      obtain ⟨groups, last, hflatten, hlast, hareas, hgroups, hfits⟩ := @ih (rest.drop take)
        (fun e he => h e (mem_of_mem_drop he)) (by rw [length_drop]; omega) hmore
      refine ⟨rest.take take :: groups, last, ?_, hlast, ?_, fun group hgroup => ?_, hfits⟩
      · rw [flatten_cons, append_assoc, hflatten, take_append_drop]
      · change _ :: areas fuel (rest.drop take) = _
        rw [hareas]
        rfl
      · rcases mem_cons.mp hgroup with rfl | hgroup
        · rw [length_append, show blankCe.length = ceLen from rfl]
          rw [sector, ceLen] at hkept ⊢
          omega
        · exact hgroups group hgroup

end SuBuilder

theorem linked_of {groups : List SuBuilder} {last : SuBuilder} {spots : List (Nat × Nat)}
    (hgroups : ∀ group ∈ groups, ∀ e ∈ group, Plain e) (hlast : ∀ e ∈ last, Plain e)
    (hne : last ≠ []) (hat : List.Forall₂ (At image) spots
      (SplitSu.patchAreas (groups.map (fun group => group.flatten ++ blankCe) ++ [last.flatten])
        spots)) :
    ∃ spot more, spots = spot :: more ∧
      Linked image spot
        (((groups.map (fun group => group.flatten ++ blankCe) ++ [last.flatten]).head?.map
        List.length).getD 0) (groups ++ [last]) := by
  induction groups generalizing spots with
  | nil =>
    change List.Forall₂ (At image) spots (SplitSu.patchAreas [last.flatten] spots) at hat
    rw [show SplitSu.patchAreas [last.flatten] spots =
      [last.flatten] by cases spots <;> rfl] at hat
    rcases hat with _ | ⟨hat, hrest⟩
    cases hrest
    refine ⟨_, [], rfl, .last hat ?_ hlast⟩
    obtain ⟨first, others, rfl⟩ := exists_cons_of_ne_nil hne
    have hpos := (hlast first mem_cons_self).isEntry.length.1
    rw [flatten_cons]
    exact append_ne_nil_of_left_ne_nil (length_pos_iff.mp hpos) _
  | cons group groups ih =>
    obtain ⟨next, more, hmore⟩ : ∃ next more,
        groups.map (fun group => group.flatten ++ blankCe) ++ [last.flatten] = next :: more :=
      exists_cons_of_ne_nil (append_ne_nil_of_right_ne_nil _ (cons_ne_nil _ _))
    have hhead : (group :: groups).map (fun group => group.flatten ++ blankCe) ++ [last.flatten] =
        (group.flatten ++ blankCe) :: next :: more := by
      rw [map_cons, cons_append, hmore]
    have hlast' := @ih
    rw [hmore] at hlast'
    rw [hhead] at hat ⊢
    have hkept : (group.flatten ++ blankCe).length - ceLen = group.flatten.length := by
      rw [length_append, show blankCe.length = ceLen from rfl, Nat.add_sub_cancel]
    rcases spots with _ | ⟨spot, _ | ⟨place, places⟩⟩
    · cases hat
    · rcases hat with _ | ⟨-, hrest⟩
      cases hrest
    · rw [SplitSu.patchAreas, hkept, patch_blank] at hat
      rcases hat with _ | ⟨hat, hrest⟩
      obtain ⟨spot', more', heq, hlinked⟩ :=
        hlast' (fun g hg => hgroups g (mem_cons_of_mem _ hg)) hrest
      cases heq
      have hlength : (group.flatten ++ blankCe).length =
          (group.flatten ++ ceEntry place next.length).length := by
        rw [length_append, length_append, length_ceEntry]
        rfl
      refine ⟨spot, place :: places, rfl, ?_⟩
      change Linked image spot (group.flatten ++ blankCe).length (group :: (groups ++ [last]))
      rw [hlength]
      exact .more hat (hgroups group mem_cons_self) hlinked

theorem split_long {entries : SuBuilder} {maxInline : Nat} (h : ∀ e ∈ entries, Plain e)
    (hlong : ¬entries.flatten.length ≤ maxInline) :
    ∃ (kept : SuBuilder) (groups : List SuBuilder) (last : SuBuilder),
      kept ++ (groups.flatten ++ last) = entries ∧
      last ≠ [] ∧ SuBuilder.split entries maxInline = ⟨kept.flatten ++ blankCe,
        groups.map (fun group => group.flatten ++ blankCe) ++ [last.flatten],
          some kept.flatten.length⟩ ∧
      (∀ group ∈ groups, (group.flatten ++ blankCe).length ≤ sector) ∧
      last.flatten.length ≤ sector := by
  generalize htake : SuBuilder.fitting (maxInline - ceLen) 0 entries = take
  have hkept :
    0 + ((entries.take (SuBuilder.fitting (maxInline - ceLen) 0 entries)).flatten).length ≤
    maxInline - ceLen :=
    SuBuilder.length_take_fitting (Nat.zero_le _)
  rw [htake, Nat.zero_add] at hkept
  have hmore : entries.drop take ≠ [] := by
    intro hnil
    rw [drop_eq_nil_iff] at hnil
    rw [take_of_length_le hnil] at hkept
    exact hlong (hkept.trans (Nat.sub_le _ _))
  obtain ⟨groups, last, hflatten, hlast, hareas, hgroups, hfits⟩ :=
    @SuBuilder.areas_groups entries.length
    (entries.drop take) (fun e he => h e (mem_of_mem_drop he)) (by rw [length_drop]; omega) hmore
  refine ⟨entries.take take, groups,
    last, by rw [hflatten, take_append_drop], hlast, ?_, hgroups, hfits⟩
  rw [SuBuilder.split, if_neg hlong]
  dsimp only
  rw [htake, hareas]
  rfl

theorem scan_split {entries : SuBuilder} {maxInline pad : Nat} {spots : List (Nat × Nat)}
    (h : ∀ e ∈ entries, Plain e)
    (hat : List.Forall₂ (At image) spots
      ((SuBuilder.split entries maxInline).patchCe spots).areas) (hpad : pad < 4)
    (hwell : scan.malformed = false) :
    Scan.scan image sector (((SuBuilder.split entries maxInline).patchCe spots).inline ++
      replicate pad 0) 0 scan =
      if (SuBuilder.split entries maxInline).areas.length ≤ maxContinuations then
        .ok (entries.foldl takeEntry { scan with next := none })
      else .error corruptSystemUse := by
  rw [Scan.scan, drop_zero]
  by_cases hlong : entries.flatten.length ≤ maxInline
  · have hsplit : SuBuilder.split entries maxInline = ⟨entries.flatten, [], none⟩ := by
      rw [SuBuilder.split, if_pos hlong]
    obtain ⟨hnext, hmalformed⟩ := foldl_plain h { scan with next := none }
    rw [hsplit, if_pos (show (⟨entries.flatten, [], none⟩ : SplitSu).areas.length ≤
      maxContinuations from
      Nat.zero_le _)]
    change follow image sector maxContinuations maxContinuationBytes
      ({ scan with next := none }.feed (entries.flatten ++ replicate pad 0)).2 = _
    rw [feed_entries (fun e he => (h e he).isEntry), feed_pad hpad, follow.eq_def]
    dsimp only
    rw [if_neg (by rw [hmalformed, hwell]; exact Bool.false_ne_true), hnext]
  · obtain ⟨kept, groups, last, rfl, hlast, hsplit, -, -⟩ := split_long h hlong
    rw [hsplit] at hat ⊢
    have hkept : ∀ e ∈ kept, Plain e := fun e he => h e (mem_append_left _ he)
    have hgroups : ∀ group ∈ groups, ∀ e ∈ group, Plain e := fun group hgroup e he =>
      h e (mem_append_right _ (mem_append_left _ (mem_flatten.mpr ⟨group, hgroup, he⟩)))
    have hrest : ∀ e ∈ last, Plain e :=
      fun e he => h e (mem_append_right _ (mem_append_right _ he))
    obtain ⟨spot, more, rfl⟩ : ∃ spot more, spots = spot :: more := by
      rcases spots with _ | ⟨spot, more⟩
      · have hlength := hat.length_eq
        change 0 = (groups.map _ ++ [last.flatten]).length at hlength
        rw [length_append] at hlength
        exact absurd hlength (Nat.succ_ne_zero _).symm
      · exact ⟨spot, more, rfl⟩
    obtain ⟨spot', more', heq, hlinked⟩ := linked_of hgroups hrest hlast hat
    cases heq
    generalize hlen :
      ((groups.map (fun group => group.flatten ++ blankCe) ++ [last.flatten]).head?.map
      List.length).getD 0 = len at hlinked
    have hinline : (SplitSu.patchCe ⟨kept.flatten ++ blankCe,
        groups.map (fun group => group.flatten ++ blankCe) ++ [last.flatten],
          some kept.flatten.length⟩
          (spot :: more)).inline = kept.flatten ++ ceEntry spot len := by
      change SplitSu.patch _ _ _
        (((groups.map (fun group => group.flatten ++ blankCe) ++ [last.flatten]).head?.map
        List.length).getD 0) = _
      rw [hlen, patch_blank]
    have hcount : (groups.map (fun group => group.flatten ++ blankCe) ++ [last.flatten]).length =
        (groups ++ [last]).length := by
      rw [length_append, length_append, length_map]
      rfl
    obtain ⟨-, hfits, -, hblock⟩ := bounds hlinked
    obtain ⟨hnext, hmalformed⟩ := foldl_plain hkept { scan with next := none }
    rw [hinline, hcount, append_assoc, feed_entries (fun e he => (hkept e he).isEntry),
      feed_entry (isEntry_ce spot len), feed_pad hpad,
        takeEntry_ce hblock (by rw [sector] at hfits; omega)
        (by rw [sector] at hfits; omega) hnext]
    split
    · rename_i hmax
      rw [follow_linked hlinked hmax ((Nat.mul_le_mul_right sector hmax).trans (by decide))
        (hmalformed.trans hwell),
        next_none hnext, foldl_append, flatten_append, flatten_singleton]
    · rename_i hmax
      exact follow_many hlinked (Nat.lt_of_not_le hmax) (hmalformed.trans hwell)

def DirectoryRecord.systemUse (data : List UInt8) : List UInt8 :=
  data.drop ((33 + byteAt data 32 + 1) / 2 * 2)

theorem build_systemUse {record : PendingRecord} {data : List UInt8}
    (h : record.build = .ok data) :
    ∃ pad < 4, DirectoryRecord.systemUse data = record.split.inline ++ replicate pad 0 := by
  rw [PendingRecord.build] at h
  split at h
  · cases h
  · rename_i raw hnew
    cases h
    rw [DirectoryRecord.new] at hnew
    split at hnew
    · cases hnew
    · rename_i hname
      dsimp only at hnew
      split at hnew
      · cases hnew
      · cases hnew
        have hlen : record.name.length ≤ 255 := Nat.le_of_not_lt fun hlt => hname (.inr hlt)
        have hbyte : (record.name.length.toUInt8).toNat = record.name.length := by
          rw [Nat.toUInt8_eq, UInt8.toNat_ofNat_of_lt' (by rw [UInt8.size]; omega)]
        have hheader := le_even (33 + record.name.length)
        change 33 + record.name.length ≤ headerLen record.name.length at hheader
        refine ⟨even (headerLen record.name.length + record.split.inline.length) -
          (headerLen record.name.length + record.split.inline.length), ?_, ?_⟩
        · rw [even]
          omega
        · generalize hfields :
            ((even (headerLen record.name.length + record.split.inline.length)).toUInt8 ::
            (replicate 31 0 ++ record.name.length.toUInt8 :: record.name ++
            replicate (headerLen record.name.length - (33 + record.name.length)) 0 ++
              record.split.inline ++
            replicate (even (headerLen record.name.length + record.split.inline.length) -
              (headerLen record.name.length + record.split.inline.length)) 0)).take 2 ++
                (both 4 record.extent.1 ++
            both 4 record.extent.2 ++ record.time.toBytes ++
              [record.flags, 0, 0] ++ both 2 1) = fields
          have hlength : fields.length = 32 := by
            rw [← hfields]
            simp only [length_append, length_take, length_cons, length_nil, length_both,
              DirDateTime.toBytes, length_replicate]
            omega
          generalize hpadding : replicate
            (headerLen record.name.length - (33 + record.name.length)) (0 : UInt8) = padding
          have hpad : padding.length = headerLen record.name.length -
              (33 + record.name.length) := by
            rw [← hpadding, length_replicate]
          generalize replicate (even (headerLen record.name.length + record.split.inline.length) -
            (headerLen record.name.length + record.split.inline.length)) (0 : UInt8) = trail
          change DirectoryRecord.systemUse (fields ++ (record.name.length.toUInt8 ::
            (record.name ++ padding ++ record.split.inline ++ trail))) = _
          have hat : byteAt (fields ++ (record.name.length.toUInt8 ::
              (record.name ++ padding ++ record.split.inline ++ trail))) 32 =
                record.name.length := by
            rw [byteAt, getD_append_right _ _ _ _ hlength.le, hlength]
            exact hbyte
          have hstart : (33 + record.name.length + 1) / 2 * 2 = 32 +
              (record.name.length + padding.length + 1) := by
            rw [hpad]
            change headerLen record.name.length = _
            omega
          rw [DirectoryRecord.systemUse, hat, hstart, ← drop_drop,
            drop_left' hlength, drop_succ_cons,
            append_assoc, append_assoc, ← append_assoc record.name,
            drop_left' (length_append)]

theorem emitFrom_build {out bytes : List UInt8} {records : List PendingRecord}
    (h : emitFrom out records = .ok bytes) :
    ∀ record ∈ records, ∃ data, record.build = .ok data := by
  induction records generalizing out with
  | nil => exact fun _ h => absurd h not_mem_nil
  | cons record rest ih =>
    rw [emitFrom] at h
    obtain ⟨data, hbuild, h⟩ := except_bind_ok.mp h
    intro r hr
    rcases mem_cons.mp hr with rfl | hr
    · exact ⟨data, hbuild⟩
    · exact ih h r hr

/-- An area of `out` at byte `place`, that crosses no block boundary. -/
structure Put (out : List UInt8) (place : Nat) (area : List UInt8) : Prop where
  bytes : (out.drop place).take area.length = area
  inside : place + area.length ≤ out.length
  fits : place % sector + area.length ≤ sector

theorem Put.append {out more area : List UInt8} {place : Nat} (h : Put out place area) :
    Put (out ++ more) place area := by
  obtain ⟨hbytes, hinside, hfits⟩ := h
  refine ⟨?_, by rw [length_append]; omega, hfits⟩
  rw [drop_append_of_le_length (by omega), take_append_of_le_length
    (by rw [length_drop]; omega), hbytes]

theorem appendAreas_put {size at' : Nat} {out : List UInt8} {areas : List (List UInt8)}
    (hsize : size % sector = 0)
    (hareas : ∀ area ∈ areas, area.length ≤ sector) (hout : out.length = size + at') :
    ∃ more, appendAreas size out (areas.zip (placeAreas at' areas).1) = out ++ more ∧
      List.Forall₂ (fun place area => Put (out ++ more) (size + place) area)
        (placeAreas at' areas).1 areas := by
  induction areas generalizing at' out with
  | nil => exact ⟨[], by rw [append_nil]; rfl, .nil⟩
  | cons area rest ih =>
    rw [placeAreas]
    generalize hplace : (if at' % sector + area.length > sector
      then (at' + sector - 1) / sector * sector else at') = place
    dsimp only
    have harea := hareas area mem_cons_self
    have hle : at' ≤ place ∧ place % sector + area.length ≤ sector := by
      rw [← hplace, sector] at *
      split
      · omega
      · omega
    have hresize : resize out (size + place) = out ++ replicate (place - at') 0 := by
      rw [resize, take_of_length_le (by omega), hout]
      congr 2
      omega
    have hlength : (out ++ replicate (place - at') 0 ++ area).length = size +
        (place + area.length) := by
      rw [length_append, length_append, length_replicate, hout]
      omega
    obtain ⟨more, happend, hput⟩ := ih (fun a ha => hareas a (mem_cons_of_mem _ ha)) hlength
    have hassoc : out ++ replicate (place - at') 0 ++ area ++ more =
        out ++ (replicate (place - at') 0 ++ area ++ more) := by
      simp only [append_assoc]
    refine ⟨replicate (place - at') 0 ++ area ++ more, ?_, .cons ?_ ?_⟩
    · rw [zip_cons_cons, appendAreas, hresize, happend, hassoc]
    · rw [← hassoc]
      refine Put.append ⟨?_, ?_, ?_⟩
      · rw [drop_left' (by rw [length_append, length_replicate, hout]; omega), take_length]
      · rw [hlength]
        omega
      · have hmod := Nat.add_mod size place sector
        rw [hsize, Nat.zero_add, Nat.mod_mod] at hmod
        rw [hmod]
        exact hle.2
    · rw [← hassoc]
      exact hput

theorem placeAreas_lengths {at' : Nat} {areas others : List (List UInt8)}
    (h : areas.map List.length = others.map List.length) :
    placeAreas at' areas = placeAreas at' others := by
  induction areas generalizing at' others with
  | nil =>
    rw [map_nil, eq_comm, map_eq_nil_iff] at h
    rw [h]
  | cons area rest ih =>
    rcases others with _ | ⟨other, others⟩
    · cases h
    · obtain ⟨hhead, htail⟩ := List.cons.inj h
      rw [placeAreas, placeAreas, hhead]
      dsimp only
      rw [ih htail]

theorem lengths_patchAreas (areas : List (List UInt8)) (spots : List (Nat × Nat))
    (h : ∀ area ∈ areas.dropLast, ceLen ≤ area.length) :
    (SplitSu.patchAreas areas spots).map List.length = areas.map List.length := by
  induction areas generalizing spots with
  | nil => cases spots <;> rfl
  | cons area rest ih =>
    rcases rest with _ | ⟨next, rest⟩
    · cases spots <;> rfl
    · rcases spots with _ | ⟨_, _ | ⟨place, places⟩⟩
      · rfl
      · rfl
      · rw [dropLast_cons_cons] at h
        have harea : ceLen ≤ area.length := h area mem_cons_self
        rw [SplitSu.patchAreas, map_cons, ih _ fun a ha => h a (mem_cons_of_mem _ ha)]
        change _ = area.length :: (next :: rest).map List.length
        congr 1
        simp only [SplitSu.patch, length_append, length_take, length_drop,
          length_both, ceLen] at harea ⊢
        omega

/-- A record whose system use area was split from `fields`. -/
def Splits (record : PendingRecord) (fields : List Field) : Prop :=
  ∃ maxInline, record.split = SuBuilder.split (fields.flatMap Field.entries) maxInline

theorem plain_fields (fields : List Field) : ∀ e ∈ fields.flatMap Field.entries, Plain e := by
  intro e he
  obtain ⟨field, -, he⟩ := mem_flatMap.mp he
  exact field.plain e he

theorem Splits.areas {record : PendingRecord} {fields : List Field} (h : Splits record fields) :
    (∀ area ∈ record.split.areas, area.length ≤ sector) ∧ ∀ area ∈ record.split.areas.dropLast,
      ceLen ≤ area.length := by
  obtain ⟨maxInline, hsplit⟩ := h
  rw [hsplit]
  by_cases hlong : (fields.flatMap Field.entries).flatten.length ≤ maxInline
  · rw [SuBuilder.split, if_pos hlong]
    exact ⟨fun _ h => absurd h not_mem_nil, fun _ h => absurd h not_mem_nil⟩
  · obtain ⟨kept, groups, last, -, -, hsplit, hgroups, hlast⟩ :=
      split_long (plain_fields fields) hlong
    rw [hsplit]
    dsimp only
    refine ⟨fun area harea => ?_, fun area harea => ?_⟩
    · rcases mem_append.mp harea with harea | harea
      · obtain ⟨group, hgroup, rfl⟩ := mem_map.mp harea
        exact hgroups group hgroup
      · rw [mem_singleton.mp harea]
        exact hlast
    · rw [dropLast_concat] at harea
      obtain ⟨group, -, rfl⟩ := mem_map.mp harea
      rw [length_append]
      exact Nat.le_add_left _ _

theorem lengths_patchCe {record : PendingRecord} {fields : List Field} (h : Splits record fields)
    (spots : List (Nat × Nat)) :
    (record.split.patchCe spots).areas.map List.length = record.split.areas.map List.length := by
  have hareas := lengths_patchAreas record.split.areas spots h.areas.2
  rw [SplitSu.patchCe.eq_def]
  split
  · exact hareas
  · rfl

theorem lengths_patchRecords {caBlock : Nat} {places : List Nat} {records : List PendingRecord}
    {fields : List (List Field)} (h : List.Forall₂ Splits records fields) :
    ((patchRecords caBlock places records).flatMap (·.split.areas)).map List.length =
      (records.flatMap (·.split.areas)).map List.length := by
  induction h generalizing places with
  | nil => rfl
  | cons hrecord _ ih =>
    rw [patchRecords, flatMap_cons, flatMap_cons, map_append, map_append, ih,
      lengths_patchCe hrecord]

theorem patchRecords_at {R : Nat × Nat → List UInt8 → Prop} {caBlock : Nat} {places : List Nat}
    {records : List PendingRecord} {fields : List (List Field)}
    (h : List.Forall₂ Splits records fields)
    (hat : List.Forall₂ (fun place area => R (caBlock + place / sector, place % sector) area)
      places
      ((patchRecords caBlock places records).flatMap (·.split.areas))) :
    List.Forall₂ (fun record patched => ∃ spots,
      patched = { record with split := record.split.patchCe spots } ∧
      List.Forall₂ R spots (record.split.patchCe spots).areas) records
        (patchRecords caBlock places records) := by
  induction h generalizing places with
  | nil => exact .nil
  | @cons record fs rest fields hrecord hrest ih =>
    rw [patchRecords] at hat ⊢
    rw [flatMap_cons] at hat
    dsimp only at hat
    have hcount : ∀ spots, (record.split.patchCe spots).areas.length =
        record.split.areas.length := by
      intro spots
      have hlengths := congrArg List.length (lengths_patchCe hrecord spots)
      rw [length_map, length_map] at hlengths
      exact hlengths
    have hfirst := forall₂_take_append _ _ _ hat
    have hmore := forall₂_drop_append _ _ _ hat
    rw [hcount] at hfirst hmore
    exact .cons ⟨_, rfl, forall₂_map_left_iff.mpr hfirst⟩ (ih hmore)

theorem forall₂_and {α β : Type} {R : α → β → Prop} {Q : β → Prop} {l : List α} {m : List β}
    (h : List.Forall₂ R l m) (hQ : ∀ b ∈ m, Q b) : List.Forall₂ (fun a b => R a b ∧ Q b) l m := by
  induction h with
  | nil => exact .nil
  | cons hab _ ih =>
    exact .cons ⟨hab, hQ _ mem_cons_self⟩ (ih fun b hb => hQ b (mem_cons_of_mem _ hb))

theorem Put.at {before bytes after area : List UInt8} {block size place : Nat}
    (h : Put bytes (size + place) area)
    (hsize : size % sector = 0) (hbefore : before.length = block * sector)
    (hvolume : (before ++ bytes ++ after).length < 2 ^ 32 * sector) :
    At (before ++ bytes ++ after) (block + size / sector + place / sector, place % sector)
      area := by
  obtain ⟨hbytes, hinside, hfits⟩ := h
  have hspot : (block + size / sector + place / sector) * sector + place % sector =
      before.length + (size + place) := by
    rw [hbefore]
    rw [sector] at hsize ⊢
    omega
  have hmod : (size + place) % sector = place % sector := by
    rw [Nat.add_mod, hsize, Nat.zero_add, Nat.mod_mod]
  have hlength : before.length + (size + place) + area.length ≤
      (before ++ bytes ++ after).length := by
    rw [length_append, length_append]
    omega
  refine ⟨?_, ?_, ?_, ?_⟩
  · dsimp only
    rw [hspot, append_assoc, ← drop_drop, drop_left, drop_append_of_le_length (by omega),
      take_append_of_le_length (by rw [length_drop]; omega), hbytes]
  · dsimp only
    rw [hspot]
    exact hlength
  · rw [hmod] at hfits
    exact hfits
  · dsimp only
    have hlt := Nat.lt_of_le_of_lt ((Nat.le_add_right _ _).trans hlength) hvolume
    rw [← hspot] at hlt
    rw [sector] at hlt ⊢
    omega

/-- What was emitted of a directory is read back: the entries of each record, in order, where
their areas are not too many to follow. -/
theorem emitRecords_scan {before bytes after : List UInt8} {block size : Nat}
    {records : List PendingRecord}
    {fields : List (List Field)} (h : List.Forall₂ Splits records fields)
    (hsize : size % sector = 0)
    (hemit : emitRecords block size records = .ok bytes)
    (hbefore : before.length = block * sector)
    (hvolume : (before ++ bytes ++ after).length < 2 ^ 32 * sector) :
    List.Forall₂ (fun record patched => ∃ data, PendingRecord.build patched = .ok data ∧
      ∀ fields, Splits record fields → ∀ scan : Scan, scan.malformed = false →
        Scan.scan (before ++ bytes ++ after) sector (DirectoryRecord.systemUse data) 0 scan =
          if record.split.areas.length ≤ maxContinuations then
            .ok ((fields.flatMap Field.entries).foldl takeEntry { scan with next := none })
          else .error corruptSystemUse) records
      (patchRecords (block + size / sector) (placeAreas 0 (records.flatMap (·.split.areas))).1
        records) := by
  rw [emitRecords] at hemit
  dsimp only at hemit
  generalize hpatched : patchRecords (block + size / sector)
    (placeAreas 0 (records.flatMap (·.split.areas))).1 records =
    patched at hemit ⊢
  obtain ⟨out, hout, hemit⟩ := except_bind_ok.mp hemit
  split at hemit
  · cases hemit
  · rename_i hfits
    have hbuild := emitFrom_build hout
    cases hemit
    have hlengths := @lengths_patchRecords (block + size / sector)
      (placeAreas 0 (records.flatMap (·.split.areas))).1
      records fields h
    rw [hpatched] at hlengths
    have hresize : (resize out size).length = size + 0 := by
      rw [resize, length_append, length_take, length_replicate]
      omega
    have hareas : ∀ area ∈ patched.flatMap (·.split.areas), area.length ≤ sector := by
      intro area harea
      have hmem := mem_map_of_mem (f := List.length) harea
      rw [hlengths] at hmem
      obtain ⟨other, hother, hlength⟩ := mem_map.mp hmem
      obtain ⟨record, hrecord, hother⟩ := mem_flatMap.mp hother
      obtain ⟨fs, -, hsplits⟩ := forall₂_mem_left h record hrecord
      rw [← hlength]
      exact hsplits.areas.1 other hother
    obtain ⟨more, happend, hput⟩ := appendAreas_put hsize hareas hresize
    rw [placeAreas_lengths hlengths] at happend hput
    rw [happend] at hvolume ⊢
    have hat := hput.imp fun place area hput => hput.at hsize hbefore hvolume
    rw [← hpatched] at hat hbuild ⊢
    refine (forall₂_and (patchRecords_at h hat) hbuild).imp ?_
    rintro record patched ⟨⟨spots, rfl, hspots⟩, data, hdata⟩
    refine ⟨data, hdata, ?_⟩
    rintro fs ⟨maxInline, hsplit⟩ scan hwell
    obtain ⟨pad, hpad, hinline⟩ := build_systemUse hdata
    rw [hinline]
    dsimp only
    rw [hsplit] at hspots ⊢
    exact scan_split (plain_fields fs) hspots hpad hwell

theorem length_appendAreas {size at' : Nat} {out : List UInt8} {areas : List (List UInt8)}
    (hout : out.length = size + at') :
    (appendAreas size out (areas.zip (placeAreas at' areas).1)).length = size +
      (placeAreas at' areas).2 := by
  induction areas generalizing at' out with
  | nil => exact hout
  | cons area rest ih =>
    rw [placeAreas]
    dsimp only
    rw [zip_cons_cons, appendAreas]
    refine ih ?_
    rw [length_append, resize, length_append, length_take, length_replicate]
    split
    · rw [sector]
      omega
    · omega

theorem placeAreas_le {at' : Nat} {areas : List (List UInt8)}
    (h : ∀ area ∈ areas, area.length ≤ sector) :
    (placeAreas at' areas).2 ≤ at' + areas.length * (2 * sector) := by
  induction areas generalizing at' with
  | nil => exact Nat.le_add_right _ _
  | cons area rest ih =>
    have harea := h area mem_cons_self
    rw [placeAreas, length_cons]
    dsimp only
    refine (ih fun area harea => h area (mem_cons_of_mem _ harea)).trans ?_
    rw [sector] at harea ⊢
    split
    · omega
    · omega

theorem length_emitRecords {block size : Nat} {records : List PendingRecord}
    {fields : List (List Field)}
    {bytes : List UInt8} (h : List.Forall₂ Splits records fields)
    (hemit : emitRecords block size records = .ok bytes) :
    bytes.length = size + (placeAreas 0 (records.flatMap (·.split.areas))).2 := by
  rw [emitRecords] at hemit
  dsimp only at hemit
  obtain ⟨out, hout, hemit⟩ := except_bind_ok.mp hemit
  split at hemit
  · cases hemit
  · cases hemit
    have hplaces := @placeAreas_lengths 0 _ _ (@lengths_patchRecords (block + size / sector)
      (placeAreas 0 (records.flatMap (·.split.areas))).1 records fields h)
    have hresize : (resize out size).length = size + 0 := by
      rw [resize, length_append, length_take, length_replicate]
      omega
    have hlength := @length_appendAreas size 0 (resize out size)
      ((patchRecords (block + size / sector)
      (placeAreas 0 (records.flatMap (·.split.areas))).1 records).flatMap (·.split.areas)) hresize
    rw [hplaces] at hlength
    exact hlength

/-- What is emitted of a directory is read back: the entries of each record in order where a scan
follows all of their areas, and the first name and target that they give. -/
theorem scan_emitted {before bytes after : List UInt8} {block size : Nat}
    {records : List PendingRecord}
    {fields : List (List Field)} (h : List.Forall₂ Splits records fields)
    (hsize : size % sector = 0)
    (hemit : emitRecords block size records = .ok bytes)
    (hbefore : before.length = block * sector)
    (hvolume : (before ++ bytes ++ after).length < 2 ^ 32 * sector) :
    List.Forall₂ (fun record patched => ∃ data, PendingRecord.build patched = .ok data ∧
      ∀ fields, Splits record fields → record.split.areas.length ≤ maxContinuations →
        (∀ scan : Scan, scan.malformed = false →
          Scan.scan (before ++ bytes ++ after) sector (DirectoryRecord.systemUse data) 0 scan =
            .ok ((fields.flatMap Field.entries).foldl takeEntry { scan with next := none })) ∧
        ∀ room,
          (Scan.scan (before ++ bytes ++ after) sector (DirectoryRecord.systemUse data) 0
            (Scan.new.withName room)).map nameOf = .ok (readName room fields) ∧
          (Scan.scan (before ++ bytes ++ after) sector (DirectoryRecord.systemUse data) 0
            (Scan.new.withLink room)).map linkOf = .ok (readLink room fields)) records
      (patchRecords (block + size / sector) (placeAreas 0 (records.flatMap (·.split.areas))).1
        records) := by
  refine (emitRecords_scan h hsize hemit hbefore hvolume).imp ?_
  rintro record patched ⟨data, hdata, hread⟩
  refine ⟨data, hdata, fun fields hsplits hcount => ?_⟩
  have hscan : ∀ scan : Scan, scan.malformed = false →
      Scan.scan (before ++ bytes ++ after) sector (DirectoryRecord.systemUse data) 0 scan =
        .ok ((fields.flatMap Field.entries).foldl takeEntry { scan with next := none }) := by
    intro scan hwell
    rw [hread fields hsplits scan hwell, if_pos hcount]
  refine ⟨hscan, fun room => ⟨?_, ?_⟩⟩
  · rw [hscan _ rfl]
    exact congrArg Except.ok (nameOf_foldl rfl rfl rfl)
  · rw [hscan _ rfl]
    exact congrArg Except.ok (linkOf_foldl rfl rfl rfl)

namespace SuBuilder

theorem length_areas {fuel : Nat} {rest : SuBuilder} : (areas fuel rest).length ≤ fuel := by
  induction fuel generalizing rest with
  | zero => exact Nat.le_refl _
  | succ fuel ih =>
    rw [areas]
    split
    · exact Nat.zero_le _
    · split
      · exact Nat.succ_le_succ (Nat.zero_le _)
      · exact Nat.succ_le_succ ih

theorem length_groups {groups : List SuBuilder}
    (h : ∀ group ∈ groups, (group.flatten ++ blankCe).length ≤ sector) :
    groups.flatten.flatten.length ≤ groups.length * sector := by
  induction groups with
  | nil => exact Nat.zero_le _
  | cons group groups ih =>
    have hgroup := h group mem_cons_self
    have hrest := ih fun group hgroup => h group (mem_cons_of_mem _ hgroup)
    rw [length_append] at hgroup
    rw [flatten_cons, flatten_append, length_append, length_cons, Nat.succ_mul]
    omega

theorem length_le_areas {entries : SuBuilder} {maxInline : Nat} (h : ∀ e ∈ entries, Plain e)
    (hmax : ceLen ≤ maxInline) :
    entries.flatten.length ≤ maxInline + (split entries maxInline).areas.length * sector := by
  by_cases hlong : entries.flatten.length ≤ maxInline
  · exact hlong.trans (Nat.le_add_right _ _)
  · have hinline := @length_split entries maxInline hmax
    obtain ⟨kept, groups, last, rfl, -, hsplit, hgroups, hlast⟩ := split_long h hlong
    rw [hsplit] at hinline ⊢
    dsimp only at hinline ⊢
    have hbytes := length_groups hgroups
    rw [length_append] at hinline
    rw [flatten_append, flatten_append, length_append, length_append, length_append,
      length_map, length_singleton, Nat.succ_mul]
    omega

theorem length_nm (name : List UInt8) : name.length ≤ (nm name).flatten.length ∧
    (nm name).length ≤ name.length := by
  have hbytes : ∀ pieces : List (List UInt8), pieces.flatten.length ≤
      (nmChunks pieces).flatten.length ∧
        (nmChunks pieces).length = pieces.length := by
    intro pieces
    induction pieces with
    | nil => exact ⟨Nat.le_refl _, rfl⟩
    | cons chunk pieces ih =>
      rw [nmChunks, flatten_cons, flatten_cons, length_append, length_append, length_entry,
        length_cons, length_cons, length_cons]
      omega
  have hcount : ∀ (fuel : Nat) (rest : List UInt8), (chunks 250 fuel rest).length ≤ fuel := by
    intro fuel
    induction fuel with
    | zero => exact fun _ => Nat.le_refl _
    | succ fuel ih =>
      intro rest
      rw [chunks]
      split
      · exact Nat.zero_le _
      · exact Nat.succ_le_succ (ih _)
  obtain ⟨hlength, hchunks⟩ := hbytes (chunks 250 name.length name)
  rw [(@chunks_spec 250 (by decide) name.length name (Nat.le_refl _)).1] at hlength
  exact ⟨hlength, hchunks.le.trans (hcount _ _)⟩

end SuBuilder

def recordOf (fields : List Field) (maxInline : Nat) : PendingRecord :=
  ⟨[0x41], SuBuilder.split (fields.flatMap Field.entries) maxInline, (0, 0), 0,
    ⟨0, 0, 0, 0, 0, 0, 0⟩⟩

theorem recordOf_splits (fields : List Field) (maxInline : Nat) :
    Splits (recordOf fields maxInline) fields :=
  ⟨maxInline, rfl⟩

theorem recordOf_len (fields : List Field) {maxInline : Nat} (hlow : ceLen ≤ maxInline)
    (hhigh : maxInline ≤ 200) :
    (recordOf fields maxInline).len ≤ 254 := by
  have hinline : (SuBuilder.split (fields.flatMap Field.entries) maxInline).inline.length ≤
    maxInline :=
    SuBuilder.length_split hlow
  rw [PendingRecord.len, recordOf]
  dsimp only
  rw [show headerLen ([0x41] : List UInt8).length = 34 from rfl, even]
  omega

theorem recordOf_emitted (fields : List Field) {maxInline : Nat} (hlow : ceLen ≤ maxInline)
    (hhigh : maxInline ≤ 200) :
    ∃ bytes, emitRecords 0 ((layoutRecords 0 [recordOf fields maxInline]).2 * sector)
      [recordOf fields maxInline] =
      .ok bytes := by
  obtain ⟨bytes, hemit, -⟩ :=
    (@written_iff [recordOf fields maxInline] [recordOf fields maxInline]
    (.cons ⟨rfl, rfl, rfl⟩ .nil) (fun r hr => mem_singleton.mp hr ▸ SuBuilder.wf_split _ _)
    (fun r hr => mem_singleton.mp hr ▸ cons_ne_nil _ _) 0 0).mpr
    fun r hr => mem_singleton.mp hr ▸ recordOf_len fields hlow hhigh
  exact ⟨bytes, hemit⟩

theorem layoutRecords_mod (pos : Nat) (records : List PendingRecord) :
    (layoutRecords pos records).2 * sector % sector = 0 := Nat.mul_mod_left _ _

def sampleFields : List Field := [.nm (replicate 300 0x61), .sl (ascii "/a/../b")]

theorem scan_emitted_sample :
    ∃ bytes patched data,
      emitRecords 0 ((layoutRecords 0 [recordOf sampleFields 100]).2 * sector)
        [recordOf sampleFields 100] = .ok bytes ∧
      PendingRecord.build patched = .ok data ∧
      (Scan.scan bytes sector (DirectoryRecord.systemUse data) 0 (Scan.new.withName 300)).map
        nameOf =
        .ok (.ok (some (replicate 300 0x61))) ∧
      (Scan.scan bytes sector (DirectoryRecord.systemUse data) 0 (Scan.new.withLink 300)).map
        linkOf =
        .ok (.ok (ascii "/a/../b")) := by
  obtain ⟨bytes, hemit⟩ := @recordOf_emitted sampleFields 100 (by decide) (by decide)
  have hsplits := List.Forall₂.cons (recordOf_splits sampleFields 100) .nil
  have hlength := length_emitRecords hsplits hemit
  have hvolume : ([] ++ bytes ++ []).length < 2 ^ 32 * sector := by
    rw [nil_append, append_nil, hlength]
    decide +kernel
  have hread := @scan_emitted [] bytes [] 0 _ _ _ hsplits (layoutRecords_mod 0 _) hemit
    (Nat.zero_mul sector).symm
    hvolume
  rw [nil_append, append_nil] at hread
  rcases hread with _ | ⟨⟨data, hdata, hread⟩, -⟩
  obtain ⟨-, hroom⟩ := hread sampleFields (recordOf_splits _ _) (by decide +kernel)
  obtain ⟨hname, hlink⟩ := hroom 300
  refine ⟨bytes, _, data, hemit, hdata, hname.trans ?_, hlink.trans ?_⟩
  · decide +kernel
  · decide

theorem recordOf_scan (fields : List Field) {maxInline : Nat} (hlow : ceLen ≤ maxInline)
    (hhigh : maxInline ≤ 200) (hcount : (recordOf fields maxInline).split.areas.length ≤ 2 ^ 24) :
    ∃ bytes patched data,
      emitRecords 0 ((layoutRecords 0 [recordOf fields maxInline]).2 * sector)
        [recordOf fields maxInline] = .ok bytes ∧
      PendingRecord.build patched = .ok data ∧ ∀ scan : Scan, scan.malformed = false →
        Scan.scan bytes sector (DirectoryRecord.systemUse data) 0 scan =
          if (recordOf fields maxInline).split.areas.length ≤ maxContinuations then
            .ok ((fields.flatMap Field.entries).foldl takeEntry { scan with next := none })
          else .error corruptSystemUse := by
  obtain ⟨bytes, hemit⟩ := recordOf_emitted fields hlow hhigh
  have hsplits := List.Forall₂.cons (recordOf_splits fields maxInline) .nil
  have hareas := (recordOf_splits fields maxInline).areas.1
  have hvolume : ([] ++ bytes ++ []).length < 2 ^ 32 * sector := by
    have hlen := recordOf_len fields hlow hhigh
    have hsize : (layoutRecords 0 [recordOf fields maxInline]).2 ≤ 1 := by
      rw [layoutRecords, layoutFrom, layoutFrom, placeOf]
      dsimp only
      rw [show blocks 0 * sector = 0 from rfl, if_neg (by rw [sector]; omega), blocks]
      rw [sector]
      omega
    rw [nil_append, append_nil, length_emitRecords hsplits hemit, flatMap_singleton]
    have hplaces := @placeAreas_le 0 _ hareas
    rw [sector] at *
    omega
  have hread := @emitRecords_scan [] bytes [] 0 _ _ _ hsplits (layoutRecords_mod 0 _) hemit
    (Nat.zero_mul sector).symm hvolume
  rw [nil_append, append_nil] at hread
  rcases hread with _ | ⟨⟨data, hdata, hread⟩, -⟩
  exact ⟨bytes, _, data, hemit, hdata, fun scan hwell =>
    hread fields (recordOf_splits fields maxInline) scan hwell⟩

theorem recordOf_unread {name : List UInt8}
    (hlong : 200 + maxContinuations * sector < name.length)
    (hshort : name.length ≤ 2 ^ 24) (scan : Scan) (hwell : scan.malformed = false) :
    ∃ bytes patched data,
      emitRecords 0 ((layoutRecords 0 [recordOf [.nm name] 200]).2 * sector)
        [recordOf [.nm name] 200] = .ok bytes ∧
      PendingRecord.build patched = .ok data ∧
      Scan.scan bytes sector (DirectoryRecord.systemUse data) 0 scan =
        .error corruptSystemUse := by
  have hentries : [Field.nm name].flatMap Field.entries = SuBuilder.nm name :=
    flatMap_singleton ..
  obtain ⟨hbytes, hcount⟩ := SuBuilder.length_nm name
  have hmany : name.length ≤ 200 + (recordOf [.nm name] 200).split.areas.length * sector := by
    refine hbytes.trans ?_
    rw [← hentries]
    exact SuBuilder.length_le_areas (plain_fields _) (by decide)
  have hfew : (recordOf [.nm name] 200).split.areas.length ≤ name.length := by
    rw [recordOf]
    dsimp only
    rw [hentries, SuBuilder.split]
    split
    · exact Nat.zero_le _
    · exact SuBuilder.length_areas.trans hcount
  obtain ⟨bytes, patched, data, hemit, hdata, hread⟩ :=
    @recordOf_scan [.nm name] 200 (by decide) (by decide)
    (hfew.trans hshort)
  refine ⟨bytes, patched, data, hemit, hdata, ?_⟩
  rw [hread scan hwell, if_neg]
  intro hle
  exact absurd (hmany.trans (Nat.add_le_add_left (Nat.mul_le_mul_right sector hle) 200))
    (Nat.not_le.mpr hlong)

/-- A target loses its empty parts, and a list of entries in more areas than a scan follows is not
read. -/
theorem not_lossless :
    (∃ bytes patched data,
      emitRecords 0 ((layoutRecords 0 [recordOf [.sl (ascii "a//b")] 200]).2 * sector)
        [recordOf [.sl (ascii "a//b")] 200] = .ok bytes ∧
      PendingRecord.build patched = .ok data ∧
      (Scan.scan bytes sector (DirectoryRecord.systemUse data) 0 (Scan.new.withLink 300)).map
        linkOf =
        .ok (.ok (ascii "a/b"))) ∧
    ∃ bytes patched data,
      emitRecords 0 ((layoutRecords 0 [recordOf [.nm (replicate 600000 0x61)] 200]).2 * sector)
        [recordOf [.nm (replicate 600000 0x61)] 200] = .ok bytes ∧
      PendingRecord.build patched = .ok data ∧
      Scan.scan bytes sector (DirectoryRecord.systemUse data) 0 (Scan.new.withName 600000) =
        .error corruptSystemUse := by
  constructor
  · obtain ⟨bytes, patched, data, hemit, hdata, hread⟩ := @recordOf_scan [.sl (ascii "a//b")] 200
      (by decide) (by decide)
      (by decide)
    refine ⟨bytes, patched, data, hemit, hdata, ?_⟩
    rw [hread _ rfl, if_pos (by decide)]
    refine congrArg Except.ok ((@linkOf_foldl 300 _ _ rfl rfl rfl).trans ?_)
    decide
  · refine recordOf_unread ?_ ?_ _ rfl
    · rw [length_replicate]
      decide
    · rw [length_replicate]
      decide

end Hadris.Iso
