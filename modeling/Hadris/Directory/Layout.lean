import Mathlib.Tactic.IntervalCases
import Hadris.Directory.Name
import Hadris.Directory.Candidates
import Hadris.Directory.Volume

namespace Hadris.Directory

open List

def isText (unit : UInt16) : Bool := unit != 0x0000 && unit != 0xFFFF

variable {name : Text} {checksum : UInt8}

def part (name : Text) (number : Nat) : List UInt16 :=
  ((encodeUtf16 name).drop ((number - 1) * unitsPerEntry)).take unitsPerEntry

def keptPart (name : Text) (number : Nat) : List UInt16 := (part name number).takeWhile isText

def kept (name : Text) (number : Nat) : List UInt16 :=
  (List.range (longEntries name - number)).flatMap fun i => keptPart name (number + 1 + i)

theorem longEntry_units (index : Nat) :
    (longEntry name checksum index).units = keptPart name (longEntries name - index) := by
  change takeWhile isText (part name (longEntries name - index) ++ _) = _
  rw [keptPart, takeWhile_append]
  split
  · rename_i hall
    rw [(List.takeWhile_prefix isText).eq_of_length hall]
    generalize unitsPerEntry - (List.length _) = rest
    rcases rest with _ | rest
    · rw [take_zero, takeWhile_nil, append_nil]
    · rw [take_succ_cons, takeWhile_cons_of_neg (by decide), append_nil]
  · rfl

theorem kept_step {number : Nat} (h : number < longEntries name) :
    kept name number = keptPart name (number + 1) ++ kept name (number + 1) := by
  obtain ⟨k, hk⟩ := Nat.exists_eq_add_of_lt h
  have hcount : longEntries name - number = k + 1 := by omega
  have hrest : longEntries name - (number + 1) = k := by omega
  rw [kept, hcount, range_succ_eq_map, flatMap_cons, flatMap_map, kept, hrest]
  congr 1
  refine flatMap_congr fun i _ => ?_
  rw [Nat.succ_eq_add_one, Nat.add_right_comm (number + 1) 1 i, Nat.add_assoc (number + 1) i 1]

variable (name) in
theorem part_append_drop (number : Nat) (h : 0 < number) :
    part name number ++ (encodeUtf16 name).drop (number * unitsPerEntry) =
      (encodeUtf16 name).drop ((number - 1) * unitsPerEntry) := by
  have hstop : number * unitsPerEntry = (number - 1) * unitsPerEntry + unitsPerEntry := by
    rw [← Nat.succ_mul, Nat.succ_eq_add_one, Nat.sub_add_cancel h]
  rw [part, hstop, ← drop_drop, take_append_drop]

theorem kept_sublist (name : Text) (number : Nat) :
    (kept name number).Sublist ((encodeUtf16 name).drop (number * unitsPerEntry)) := by
  induction h : longEntries name - number generalizing number with
  | zero =>
    rw [kept, h]
    exact nil_sublist _
  | succ k ih =>
    rw [kept_step (by omega), ← Nat.add_sub_cancel number 1,
      ← part_append_drop name (number + 1) number.succ_pos]
    exact (takeWhile_sublist _).append (ih (number + 1) (by omega))

variable (name) in
theorem drop_longEntries : (encodeUtf16 name).drop (longEntries name * unitsPerEntry) = [] := by
  rw [drop_eq_nil_iff, longEntries]
  simp only [unitsPerEntry]
  omega

theorem longEntries_le (h : (encodeUtf16 name).length ≤ ShortName.maxUnits) :
    longEntries name ≤ maxEntries := by
  rw [longEntries, unitsPerEntry, maxEntries]
  rw [ShortName.maxUnits] at h
  omega

theorem longEntries_pos (h : name ≠ []) : 0 < longEntries name := by
  have hlength : 0 < (encodeUtf16 name).length :=
    Nat.lt_of_lt_of_le (by rw [countP_encodeUtf16]; exact length_pos_iff.mpr h)
      countP_le_length
  rw [longEntries, unitsPerEntry]
  omega

theorem sequence_mask {number : Nat} (h : number ≤ maxEntries) :
    UInt8.ofNat number &&& sequenceMask = UInt8.ofNat number ∧
      (UInt8.ofNat number ||| lastEntry) &&& sequenceMask = UInt8.ofNat number ∧
      UInt8.ofNat number &&& lastEntry = 0 ∧
      (UInt8.ofNat number ||| lastEntry) &&& lastEntry ≠ 0 ∧
      (UInt8.ofNat number).toNat = number ∧
      (number ≠ 0 → UInt8.ofNat number ≠ 0 ∧
        UInt8.ofNat number - 1 = UInt8.ofNat (number - 1)) := by
  rw [maxEntries] at h
  interval_cases number <;> decide

def assembled (name : Text) (checksum : UInt8) (number : Nat) : Assembler :=
  ⟨(encodeUtf16 name).drop (number * unitsPerEntry), checksum, UInt8.ofNat number, true⟩

def collected (name : Text) (checksum : UInt8) (number : Nat) : Assembler :=
  ⟨kept name number, checksum, UInt8.ofNat number, true⟩

variable (checksum) in
theorem longEntry_mask (hlen : (encodeUtf16 name).length ≤ ShortName.maxUnits) (index : Nat) :
    (longEntry name checksum index).sequence &&& sequenceMask =
      UInt8.ofNat (longEntries name - index) := by
  have hmax : longEntries name - index ≤ maxEntries :=
    (Nat.sub_le ..).trans (longEntries_le hlen)
  rw [longEntry]
  split
  · exact (sequence_mask hmax).2.1
  · exact (sequence_mask hmax).1

theorem start_first (hname : name ≠ []) (hlen : (encodeUtf16 name).length ≤ ShortName.maxUnits)
    (long : Assembler) :
    long.start (longEntry name checksum 0) = collected name checksum (longEntries name) := by
  have hmax := longEntries_le hlen
  obtain ⟨-, -, -, hlast, hnat, hpos⟩ := sequence_mask hmax
  have hmask := longEntry_mask checksum hlen 0
  have hne := (hpos (longEntries_pos hname).ne').1
  rw [Nat.sub_zero] at hmask
  have hseq : (longEntry name checksum 0).sequence = UInt8.ofNat (longEntries name) |||
    lastEntry :=
    rfl
  rw [Assembler.start, if_neg (by rw [hseq]; exact hlast)]
  simp only [hmask]
  rw [if_neg (by rw [hnat]; exact not_or.mpr ⟨hne, Nat.not_lt.mpr hmax⟩), collected, kept,
    Nat.sub_self]
  rfl

theorem start_next {index : Nat} (hindex : 0 < index)
    (hlen : (encodeUtf16 name).length ≤ ShortName.maxUnits) (long : Assembler) :
    long.start (longEntry name checksum index) = long := by
  have hmax : longEntries name - index ≤ maxEntries :=
    (Nat.sub_le ..).trans (longEntries_le hlen)
  rw [Assembler.start, if_pos]
  rw [longEntry, if_neg hindex.ne']
  exact (sequence_mask hmax).2.2.1

theorem push_collected (hlen : (encodeUtf16 name).length ≤ ShortName.maxUnits) {index : Nat}
    (hindex : index < longEntries name) {long : Assembler}
    (hstart : long.start (longEntry name checksum index) =
      collected name checksum (longEntries name - index)) :
    long.push (longEntry name checksum index) =
      collected name checksum (longEntries name - (index + 1)) := by
  have hpos : longEntries name - index ≠ 0 := by omega
  have hmax : longEntries name - index ≤ maxEntries :=
    (Nat.sub_le ..).trans (longEntries_le hlen)
  obtain ⟨hne, hsub⟩ := (sequence_mask hmax).2.2.2.2.2 hpos
  have hunits : keptPart name (longEntries name - index) ++ kept name (longEntries name - index) =
      kept name (longEntries name - (index + 1)) := by
    have hnext : longEntries name - (index + 1) + 1 = longEntries name - index := by omega
    have hstep : longEntries name - (index + 1) < longEntries name := by omega
    rw [kept_step hstep, hnext]
  have hfits : (keptPart name (longEntries name - index)).length +
      (kept name (longEntries name - index)).length ≤ ShortName.maxUnits := by
    rw [← length_append, hunits]
    have hsublist := (kept_sublist name (longEntries name - (index + 1))).length_le
    rw [length_drop] at hsublist
    omega
  rw [Assembler.push, hstart]
  simp only [collected, if_true, longEntry_mask _ hlen, longEntry_units]
  rw [if_neg (by
      rintro (h | h | h)
      · exact hne h
      · exact h rfl
      · exact h rfl), if_neg (by omega), hunits, hsub, Nat.sub_sub]

theorem push_fragments (hname : name ≠ [])
    (hlen : (encodeUtf16 name).length ≤ ShortName.maxUnits) (long : Assembler) :
    (longRun name checksum).foldl Assembler.push long = collected name checksum 0 := by
  have hpush : ∀ k, k < longEntries name →
      ((List.range (k + 1)).map (longEntry name checksum)).foldl Assembler.push long =
        collected name checksum (longEntries name - (k + 1)) := by
    intro k
    induction k with
    | zero =>
      intro hk
      exact push_collected hlen hk (start_first hname hlen long)
    | succ k ih =>
      intro hk
      rw [range_succ, map_append, foldl_append, ih (by omega)]
      exact push_collected hlen hk (start_next k.succ_pos hlen _)
  obtain ⟨k, hk⟩ := Nat.exists_eq_add_of_lt (longEntries_pos hname)
  rw [Nat.zero_add] at hk
  rw [longRun, hk, hpush k (by omega), hk, Nat.sub_self]

theorem kept_eq_drop (htext : ∀ u ∈ encodeUtf16 name, isText u) (number : Nat) :
    kept name number = (encodeUtf16 name).drop (number * unitsPerEntry) := by
  have hpart : ∀ number, keptPart name number = part name number := fun number =>
    takeWhile_eq_self_iff.mpr fun u hu =>
      htext u (mem_of_mem_drop (mem_of_mem_take hu))
  induction h : longEntries name - number generalizing number with
  | zero =>
    have hle : longEntries name * unitsPerEntry ≤ number * unitsPerEntry :=
      Nat.mul_le_mul_right _ (by omega)
    have hdrop := drop_eq_nil_iff.mp (drop_longEntries name)
    rw [drop_eq_nil_of_le (hdrop.trans hle), kept, h]
    rfl
  | succ k ih =>
    rw [kept_step (by omega), ih (number + 1) (by omega), hpart]
    exact part_append_drop name (number + 1) number.succ_pos

theorem push_longRun (hname : name ≠ []) (htext : ∀ u ∈ encodeUtf16 name, isText u)
    (hlen : (encodeUtf16 name).length ≤ ShortName.maxUnits) (long : Assembler) :
    (longRun name checksum).foldl Assembler.push long = assembled name checksum 0 := by
  rw [push_fragments hname hlen, collected, kept_eq_drop htext, assembled]

theorem finish_assembled :
    (assembled name checksum 0).finish checksum = some (encodeUtf16 name) := by
  rw [Assembler.finish, if_pos ⟨rfl, rfl, rfl⟩, assembled, Nat.zero_mul, drop_zero]

theorem finish_collected :
    (collected name checksum 0).finish checksum = some (kept name 0) :=
  if_pos ⟨rfl, rfl, rfl⟩

end Hadris.Directory

namespace Hadris.Directory

open List

/-- The fragments before a short entry with checksum `checksum`, and the long
name they are read as. -/
inductive Reads (checksum : UInt8) : List LongEntry → Option (List UInt16) → Prop
  | short : Reads checksum [] none
  | long (part : LongEntry) (rest : List LongEntry) (units : List UInt16)
      (first : part.sequence &&& lastEntry ≠ 0)
      (others : ∀ p ∈ rest, p.sequence &&& lastEntry = 0)
      (nonempty : units ≠ []) (fits : units.length ≤ ShortName.maxUnits)
      (finish : ∀ long : Assembler,
        ((part :: rest).foldl Assembler.push long).finish checksum = some units) :
      Reads checksum (part :: rest) (some units)

/-- A visible entry with the fragments of its long name. -/
structure NamedRun where
  run : List LongEntry
  entry : ShortEntry
  long : Option (List UInt16)
  reads : Reads entry.lfnChecksum run long
  visible : entry.isVisible
  made : ∃ base ext, entry.name.Made base ext

/-- A part of a directory that is read for itself; a `stray` fragment is one that no
entry is read with. -/
inductive Item where
  | free
  | stray (part : LongEntry)
  | hidden (entry : ShortEntry) (h : entry.isVisible = false)
  | named (run : NamedRun)

namespace Item

def slots : Item → List Slot
  | .free => [.free]
  | .stray part => [.long part]
  | .hidden entry _ => [.short entry]
  | .named entry => entry.run.map .long ++ [.short entry.entry]

theorem length_named (entry : NamedRun) :
    (Item.named entry).slots.length = entry.run.length + 1 := by
  rw [slots, length_append, length_map, length_singleton]

/-- The long name being read behind an item. -/
def after (long : Assembler) : Item → Assembler
  | .stray part => long.push part
  | _ => .new

end Item

/-- No short entry takes what is left of stray fragments for its long name. -/
def Quiet : Assembler → List Item → Prop
  | _, [] => True
  | long, .named named :: rest =>
    (named.run = [] → long.finish named.entry.lfnChecksum = none) ∧ Quiet .new rest
  | long, item :: rest => Quiet (item.after long) rest

theorem quiet_cons {long : Assembler} {item : Item} {rest : List Item}
    (h : Quiet long (item :: rest)) :
    Quiet (item.after long) rest := by
  cases item with
  | named named => exact h.2
  | free | stray | hidden => exact h

theorem quiet_append {long : Assembler} {a b : List Item} :
    Quiet long (a ++ b) ↔ Quiet long a ∧ Quiet (a.foldl Item.after long) b := by
  induction a generalizing long with
  | nil => exact (iff_of_eq (true_and _)).symm
  | cons item rest ih =>
    cases item with
    | named named => exact (and_congr_right fun _ => ih).trans and_assoc.symm
    | free | stray | hidden => exact ih

def itemSlots (items : List Item) : List Slot := items.flatMap Item.slots

def located (slot : Nat) : List Item → List Located
  | [] => []
  | .free :: rest => located (slot + 1) rest
  | .stray _ :: rest => located (slot + 1) rest
  | .hidden _ _ :: rest => located (slot + 1) rest
  | .named named :: rest =>
    ⟨slot, slot + named.run.length, named.entry, named.long⟩ ::
      located (slot + named.run.length + 1) rest

theorem itemSlots_append (a b : List Item) : itemSlots (a ++ b) = itemSlots a ++ itemSlots b :=
  flatMap_append

theorem itemSlots_cons (item : Item) (rest : List Item) :
    itemSlots (item :: rest) = item.slots ++ itemSlots rest := flatMap_cons

theorem located_append (slot : Nat) (a b : List Item) :
    located slot (a ++ b) = located slot a ++ located (slot + (itemSlots a).length) b := by
  induction a generalizing slot with
  | nil => rfl
  | cons item rest ih =>
    rw [itemSlots_cons, length_append, ← Nat.add_assoc]
    cases item with
    | free | stray | hidden => exact ih (slot + 1)
    | named named =>
      rw [Item.length_named]
      exact congrArg (_ :: ·) (ih (slot + named.run.length + 1))

theorem listing_run {rest : List LongEntry} (h : ∀ p ∈ rest, p.sequence &&& lastEntry = 0)
    (start : Nat) (long : Assembler) (slot : Nat) (tail : List Slot) :
    listing start long slot (rest.map .long ++ tail) =
      listing start (rest.foldl Assembler.push long) (slot + rest.length) tail := by
  induction rest generalizing long slot with
  | nil => rfl
  | cons part rest ih =>
    change listing (if part.sequence &&& lastEntry = 0 then start else slot) (long.push part)
      (slot + 1) (rest.map .long ++ tail) = _
    rw [if_pos (h part mem_cons_self), ih fun p hp => h p (mem_cons_of_mem _ hp),
      foldl_cons, length_cons]
    refine congrArg (listing start _ · tail) ?_
    omega

theorem listing_named (named : NamedRun) (start slot : Nat) (tail : List Slot)
    {before : Assembler}
    (hquiet : named.run = [] → before.finish named.entry.lfnChecksum = none) :
    listing start before slot (named.run.map .long ++ .short named.entry :: tail) =
      ⟨slot, slot + named.run.length, named.entry, named.long⟩ ::
        listing (slot + named.run.length + 1) .new (slot + named.run.length + 1) tail := by
  revert hquiet
  obtain ⟨run, entry, long, hreads, hvisible, -⟩ := named
  intro hquiet
  cases hreads with
  | short =>
    change listing start before slot (.short entry :: tail) = _
    rw [listing, if_pos hvisible, hquiet rfl]
    rfl
  | long part rest units first others nonempty fits finish =>
    change listing (if part.sequence &&& lastEntry = 0 then start else slot) (before.push part)
      (slot + 1) (rest.map .long ++ .short entry :: tail) = _
    rw [if_neg first, listing_run others, listing, if_pos hvisible]
    have hfinish := finish before
    have hfilter : (some units).filter (!·.isEmpty) = some units :=
      Option.filter_some_pos (by simpa using nonempty)
    rw [foldl_cons] at hfinish
    simp only [hfinish, hfilter, length_cons, Option.isSome_some, if_true]
    rw [show slot + 1 + rest.length = slot + (rest.length + 1) by omega]

theorem listing_items {items : List Item} {rest : List Slot} {long : Assembler}
    (hquiet : Quiet long items) (hend : ∀ slot ∈ rest.head?, slot = .endMark) (start slot : Nat) :
    listing start long slot (itemSlots items ++ rest) = located slot items := by
  induction items generalizing start slot long with
  | nil =>
    cases rest with
    | nil => rfl
    | cons first rest =>
      obtain rfl := hend first rfl
      rfl
  | cons item items ih =>
    have hrest := ih (quiet_cons hquiet)
    cases item with
    | free => exact hrest start (slot + 1)
    | stray part => exact hrest _ (slot + 1)
    | hidden entry h =>
      change listing start long slot (.short entry :: (itemSlots items ++ rest)) = _
      rw [listing, if_neg (by rw [h]; exact Bool.false_ne_true)]
      exact hrest start (slot + 1)
    | named named =>
      change listing start long slot
        (named.run.map .long ++ [.short named.entry] ++ itemSlots items ++ rest) = _
      rw [append_assoc, append_assoc, singleton_append,
        listing_named named _ _ _ hquiet.1]
      exact congrArg (_ :: ·) (hrest _ _)

theorem notMem_endMark (items : List Item) : Slot.endMark ∉ itemSlots items := by
  intro hmem
  obtain ⟨item, -, hitem⟩ := mem_flatMap.mp hmem
  cases item with
  | free | stray | hidden => simp [Item.slots] at hitem
  | named named => simp [Item.slots] at hitem

theorem append_eq_of_notMem {item rest before after : List Slot} {slot : Slot}
    (hitem : slot ∉ item) (h : item ++ rest = before ++ slot :: after) :
    ∃ before', before = item ++ before' ∧ rest = before' ++ slot :: after := by
  rcases append_eq_append_iff.mp h with ⟨before', hbefore, hrest⟩ | ⟨cut, hcut, hafter⟩
  · exact ⟨before', hbefore, hrest⟩
  · rcases cut with _ | ⟨first, cut⟩
    · exact ⟨[], by rw [hcut, append_nil, append_nil], hafter.symm⟩
    · rw [cons_append, List.cons.injEq] at hafter
      exact absurd (hcut ▸ mem_append_right _ (hafter.1 ▸ mem_cons_self)) hitem

theorem split_item {slot : Slot} (hone : ∀ item : Item, slot ∈ item.slots → item.slots = [slot])
    {items : List Item} {before after : List Slot}
    (h : itemSlots items = before ++ slot :: after) :
    ∃ a item b, items = a ++ item :: b ∧ item.slots = [slot] ∧ itemSlots a = before ∧
      itemSlots b = after := by
  induction items generalizing before with
  | nil => simp [itemSlots] at h
  | cons first rest ih =>
    rw [itemSlots_cons] at h
    by_cases hmem : slot ∈ first.slots
    · have hfirst := hone first hmem
      rw [hfirst] at h
      rcases before with _ | ⟨x, before⟩
      · exact ⟨[], first, rest, rfl, hfirst, rfl, (List.cons.inj h).2⟩
      · obtain ⟨hx, hrest⟩ := List.cons.inj h
        obtain ⟨a, item, b, rfl, hitem, rfl, rfl⟩ := ih hrest
        exact ⟨first :: a, item, b, rfl, hitem, by rw [itemSlots_cons, hfirst, ← hx]; rfl, rfl⟩
    · obtain ⟨before', rfl, hrest⟩ := append_eq_of_notMem hmem h
      obtain ⟨a, item, b, rfl, hitem, rfl, rfl⟩ := ih hrest
      exact ⟨first :: a, item, b, rfl, hitem, itemSlots_cons .., rfl⟩

theorem slots_named_ne {named : NamedRun} {slot : Slot} (hlong : ∀ part, slot ≠ .long part)
    (hshort : slot ≠ .short named.entry) : slot ∉ (Item.named named).slots := by
  intro hmem
  rcases mem_append.mp hmem with hmem | hmem
  · obtain ⟨part, -, heq⟩ := mem_map.mp hmem
    exact hlong part heq.symm
  · exact hshort (mem_singleton.mp hmem)

theorem split_free {items : List Item} {before after : List Slot}
    (h : itemSlots items = before ++ .free :: after) :
    ∃ a b, items = a ++ .free :: b ∧ itemSlots a = before ∧ itemSlots b = after := by
  have hone : ∀ item : Item, Slot.free ∈ item.slots → item = .free := by
    intro item hmem
    cases item with
    | free => rfl
    | stray | hidden => exact absurd hmem (by simp [Item.slots])
    | named named => exact absurd hmem (slots_named_ne (by simp) (by simp))
  obtain ⟨a, item, b, hitems, hitem, ha, hb⟩ :=
    split_item (fun item hmem => congrArg Item.slots (hone item hmem)) h
  have hfree := hone item (hitem ▸ mem_cons_self)
  exact ⟨a, b, hfree ▸ hitems, ha, hb⟩

theorem split_hidden {items : List Item} {before after : List Slot} {entry : ShortEntry}
    (hhidden : entry.isVisible = false) (h : itemSlots items = before ++ .short entry :: after) :
    ∃ a b, items = a ++ .hidden entry hhidden :: b ∧ itemSlots a = before ∧
      itemSlots b = after := by
  have hone : ∀ item : Item, Slot.short entry ∈ item.slots → item = .hidden entry hhidden := by
    intro item hmem
    cases item with
    | free | stray => exact absurd hmem (by simp [Item.slots])
    | hidden other _ =>
      cases mem_singleton.mp hmem
      rfl
    | named named =>
      refine absurd hmem (slots_named_ne (by simp) fun heq => ?_)
      cases heq
      exact Bool.false_ne_true (hhidden.symm.trans named.visible)
  obtain ⟨a, item, b, hitems, hitem, ha, hb⟩ :=
    split_item (fun item hmem => congrArg Item.slots (hone item hmem)) h
  have heq := hone item (hitem ▸ mem_cons_self)
  exact ⟨a, b, heq ▸ hitems, ha, hb⟩

theorem itemSlots_eq_nil {items : List Item} (h : itemSlots items = []) : items = [] := by
  rcases items with _ | ⟨item, rest⟩
  · rfl
  · rw [itemSlots_cons, append_eq_nil_iff] at h
    cases item with
    | free | stray | hidden => exact absurd h.1 (by simp [Item.slots])
    | named named => exact absurd h.1 (by simp [Item.slots])

theorem split_frees {items : List Item} {before after : List Slot} {n : Nat} (hn : 0 < n)
    (h : itemSlots items = before ++ (replicate n .free ++ after)) :
    ∃ a b, items = a ++ (replicate n .free ++ b) ∧ itemSlots a = before ∧
      itemSlots b = after := by
  induction n generalizing before items with
  | zero => exact absurd hn (Nat.lt_irrefl 0)
  | succ n ih =>
    obtain ⟨a, b, rfl, rfl, hb⟩ := split_free h
    rcases Nat.eq_zero_or_pos n with rfl | hpos
    · exact ⟨a, b, rfl, rfl, hb⟩
    · change itemSlots b = [] ++ (replicate n Slot.free ++ after) at hb
      obtain ⟨a', b', rfl, ha', hb'⟩ := ih hpos hb
      obtain rfl := itemSlots_eq_nil ha'
      exact ⟨a, b', rfl, rfl, hb'⟩

def overwrite (slots : List Slot) (first : Nat) (run : List Slot) : List Slot :=
  slots.take first ++ (run ++ slots.drop (first + run.length))

theorem reached_length (slots : List Slot) :
    (reached slots).length = min maxDirEntries slots.length := length_take

theorem reached_overwrite {slots run : List Slot} {first : Nat}
    (h : first + run.length ≤ (reached slots).length) :
    reached (overwrite slots first run) = overwrite (reached slots) first run := by
  rw [reached_length] at h
  have hfirst : (slots.take first).length = first := by
    rw [length_take]
    omega
  rw [reached, reached, overwrite, overwrite, take_append, hfirst, take_append,
    take_of_length_le (by rw [hfirst]; omega), take_of_length_le (l := run) (by omega),
    take_take, drop_take, Nat.min_eq_left (by omega), Nat.sub_sub]

theorem overwrite_append {before middle after run : List Slot} (h : middle.length = run.length) :
    overwrite (before ++ (middle ++ after)) before.length run = before ++ (run ++ after) := by
  rw [overwrite, take_left, ← h, ← length_append, ← append_assoc before middle,
    drop_left]

/-- The slots a walk reaches are those of the items, read quietly, and then none or an
end mark and whatever lies behind it. -/
def Tidy (items : List Item) (slots : List Slot) : Prop :=
  Quiet .new items ∧
    ∃ rest, reached slots = itemSlots items ++ rest ∧ ∀ slot ∈ rest.head?, slot = .endMark

variable {items a b : List Item} {slots : List Slot} {named : NamedRun}

namespace Tidy

open List

theorem visible_eq (h : Tidy items slots) : visible slots = located 0 items := by
  obtain ⟨hquiet, rest, hreached, hend⟩ := h
  rw [visible, hreached, listing_items hquiet hend]

theorem length_le (h : Tidy items slots) : (itemSlots items).length ≤ (reached slots).length := by
  obtain ⟨-, rest, hreached, -⟩ := h
  rw [hreached, length_append]
  exact Nat.le_add_right ..

theorem replace (middle middle' : List Item) (h : Tidy (a ++ (middle ++ b)) slots)
    (hlength : (itemSlots middle).length = (itemSlots middle').length)
    (hquiet : Quiet (a.foldl Item.after .new) middle')
    (hafter : ∀ long, middle'.foldl Item.after long = middle.foldl Item.after long) :
    Tidy (a ++ (middle' ++ b)) (overwrite slots (itemSlots a).length (itemSlots middle')) := by
  obtain ⟨hold, rest, hreached, hend⟩ := h
  rw [quiet_append, quiet_append] at hold
  refine ⟨?_, rest, ?_, hend⟩
  · rw [quiet_append, quiet_append, hafter]
    exact ⟨hold.1, hquiet, hold.2.2⟩
  · rw [reached_overwrite, hreached, itemSlots_append, itemSlots_append, append_assoc,
      append_assoc, overwrite_append hlength, itemSlots_append, itemSlots_append,
      append_assoc, append_assoc]
    rw [hreached, itemSlots_append, itemSlots_append, ← hlength]
    simp only [length_append]
    omega

theorem extend (middle middle' : List Item) (h : Tidy (a ++ middle) slots)
    (hlength : (itemSlots middle).length ≤ (itemSlots middle').length)
    (hfits : (itemSlots a).length + (itemSlots middle').length ≤ (reached slots).length)
    (hends : ∀ slot ∈ (reached slots)[(itemSlots a).length + (itemSlots middle').length]?,
      slot = .endMark) (hquiet : Quiet (a.foldl Item.after .new) middle') :
    Tidy (a ++ middle') (overwrite slots (itemSlots a).length (itemSlots middle')) := by
  obtain ⟨hold, rest, hreached, hend⟩ := h
  rw [itemSlots_append, append_assoc] at hreached
  obtain ⟨k, hk⟩ := Nat.exists_eq_add_of_le hlength
  rw [hreached, length_append, length_append] at hfits
  have hsplit := take_append_drop k rest
  have hcount : (itemSlots middle ++ rest.take k).length = (itemSlots middle').length := by
    rw [length_append, length_take]
    omega
  refine ⟨quiet_append.mpr ⟨(quiet_append.mp hold).1, hquiet⟩, rest.drop k, ?_, ?_⟩
  · rw [← hsplit, ← append_assoc (itemSlots middle)] at hreached
    rw [reached_overwrite (by rw [hreached]; simp only [length_append] at hcount ⊢; omega),
      hreached, overwrite_append hcount, itemSlots_append, append_assoc]
  · rw [head?_drop]
    rw [hreached, getElem?_append_right (by omega), getElem?_append_right (by omega)] at hends
    rwa [show (itemSlots a).length + (itemSlots middle').length - (itemSlots a).length -
      (itemSlots middle).length = k by omega] at hends

end Tidy

theorem mem_located {loc : Located} {slot : Nat} (h : loc ∈ located slot items) :
    ∃ a named b, items = a ++ (.named named :: b) ∧ loc.first = slot + (itemSlots a).length ∧
      loc.slot = loc.first + named.run.length ∧ loc.entry = named.entry ∧
      loc.long = named.long := by
  induction items generalizing slot with
  | nil => exact nomatch h
  | cons item rest ih =>
    cases item with
    | free | stray | hidden =>
      obtain ⟨a, named, b, rfl, hfirst, hloc⟩ := ih h
      refine ⟨_ :: a, named, b, rfl, ?_, hloc⟩
      rw [hfirst, itemSlots_cons, List.length_append, ← Nat.add_assoc]
      rfl
    | named named =>
      rcases List.mem_cons.mp h with rfl | h
      · exact ⟨[], named, rest, rfl, rfl, rfl, rfl, rfl⟩
      · obtain ⟨a, other, b, rfl, hfirst, hloc⟩ := ih h
        refine ⟨.named named :: a, other, b, rfl, ?_, hloc⟩
        rw [hfirst, itemSlots_cons, List.length_append, Item.length_named, ← Nat.add_assoc,
          ← Nat.add_assoc]

end Hadris.Directory
