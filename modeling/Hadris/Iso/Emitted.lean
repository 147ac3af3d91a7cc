import Hadris.Iso.Ordered

namespace Hadris.Iso

open List
open Hadris.Directory (Text)

variable {p : Planner} {rules : Rules} {fuel dir ti : Nat} {name : Identifier}
  {record : PendingRecord} {records kids named out : List PendingRecord}

def even (n : Nat) : Nat := (n + 1) / 2 * 2

def headerLen (nameLen : Nat) : Nat := even (33 + nameLen)

/-- A record for `name` with `systemUse`, or nothing when they do not fit 255 bytes or
the name is empty. The header fields other than the lengths are zero. -/
def DirectoryRecord.new (name systemUse : List UInt8) : Option (List UInt8) :=
  if name = [] ∨ 255 < name.length then none
  else
    let suStart := headerLen name.length
    let len := even (suStart + systemUse.length)
    if 255 < len then none
    else some (len.toUInt8 :: (replicate 31 0 ++ name.length.toUInt8 :: name ++
      replicate (suStart - (33 + name.length)) 0 ++ systemUse ++
        replicate (len - (suStart + systemUse.length)) 0))

namespace SplitSu

def patch (bytes : List UInt8) (at' : Nat) (place : Nat × Nat) (len : Nat) : List UInt8 :=
  bytes.take (at' + 4) ++ (both 4 place.1 ++ both 4 place.2 ++ both 4 len) ++
    bytes.drop (at' + ceLen)

def patchAreas : List (List UInt8) → List (Nat × Nat) → List (List UInt8)
  | area :: next :: rest, _ :: place :: places =>
    patch area (area.length - ceLen) place next.length :: patchAreas
      (next :: rest) (place :: places)
  | areas, _ => areas

/-- Points the `CE` entries at `places`, the block and offset of each continuation area
in order. -/
def patchCe (split : SplitSu) (places : List (Nat × Nat)) : SplitSu :=
  match split.ceOffset, places with
  | some at', first :: _ =>
    ⟨patch split.inline at' first ((split.areas.head?.map List.length).getD 0),
      patchAreas split.areas places, some at'⟩
  | _, _ => split

end SplitSu

namespace PendingRecord

def build (record : PendingRecord) : Except Detail (List UInt8) :=
  match DirectoryRecord.new record.name record.split.inline with
  | none => .error .directoryRecord
  | some data =>
    .ok (data.take 2 ++
      (both 4 record.extent.1 ++ both 4 record.extent.2 ++ record.time.toBytes ++
        [record.flags, 0, 0] ++ both 2 1) ++ data.drop 32)

def len (record : PendingRecord) : Nat :=
  even (headerLen record.name.length + record.split.inline.length)

end PendingRecord

def placeOf (at' len : Nat) : Nat :=
  if len > sector - at' % sector then at' + (sector - at' % sector) else at'

/-- The offset of each continuation area of a directory from the first continuation
block, and the bytes they span. -/
def placeAreas : Nat → List (List UInt8) → List Nat × Nat
  | at', [] => ([], at')
  | at', area :: rest =>
    let at' := if at' % sector + area.length > sector
      then (at' + sector - 1) / sector * sector else at'
    let (places, stop) := placeAreas (at' + area.length) rest
    (at' :: places, stop)

def layoutFrom : Nat → List PendingRecord → Nat
  | at', [] => at'
  | at', record :: rest => layoutFrom (placeOf at' record.len + record.len) rest

def blocks (n : Nat) : Nat := (n + sector - 1) / sector

def layoutRecords (pos : Nat) (records : List PendingRecord) : Nat × Nat :=
  let start := blocks pos * sector
  let stop := blocks (layoutFrom start records) * sector
  (start / sector, (stop - start) / sector)

def patchRecords (caBlock : Nat) : List Nat → List PendingRecord → List PendingRecord
  | _, [] => []
  | places, record :: rest =>
    let count := record.split.areas.length
    let spots := (places.take count).map fun at' => (caBlock + at' / sector, at' % sector)
    { record with split := record.split.patchCe spots } :: patchRecords caBlock
      (places.drop count) rest

def emitFrom : List UInt8 → List PendingRecord → Except Detail (List UInt8)
  | out, [] => .ok out
  | out, record :: rest => do
    let bytes ← record.build
    let remaining := sector - out.length % sector
    let out := if bytes.length > remaining then out ++ replicate remaining 0 else out
    emitFrom (out ++ bytes) rest

def resize (out : List UInt8) (len : Nat) : List UInt8 :=
  out.take len ++ replicate (len - out.length) 0

def appendAreas (size : Nat) : List UInt8 → List (List UInt8 × Nat) → List UInt8
  | out, [] => out
  | out, (area, at') :: rest => appendAreas size (resize out (size + at') ++ area) rest

/-- The bytes of a directory at `block` of `size` bytes, followed by the continuation
areas its `CE` entries point at. -/
def emitRecords (block size : Nat) (records : List PendingRecord) :
    Except Detail (List UInt8) := do
  let caBlock := block + size / sector
  let (places, _) := placeAreas 0 (records.flatMap (·.split.areas))
  let records := patchRecords caBlock places records
  let out ← emitFrom [] records
  if size < out.length then .error .directoryRecord
  else .ok (appendAreas size (resize out size) ((records.flatMap (·.split.areas)).zip places))

theorem even_even (n : Nat) : even n % 2 = 0 := by
  rw [even]
  omega

theorem le_even (n : Nat) : n ≤ even n := by
  rw [even]
  omega

theorem headerLen_eq (nameLen : Nat) : headerLen nameLen = (33 + nameLen + 1) / 2 * 2 := rfl

theorem build_ok (hname : record.name ≠ []) (hlen : record.len ≤ 254) :
    ∃ bytes, record.build = .ok bytes ∧ bytes.length = record.len := by
  have hheader := le_even (33 + record.name.length)
  have hlength := le_even (headerLen record.name.length + record.split.inline.length)
  have hpos := length_pos_iff.mpr hname
  rw [PendingRecord.len] at hlen ⊢
  change 33 + record.name.length ≤ headerLen record.name.length at hheader
  obtain ⟨data, hnew, hdata⟩ : ∃ data, DirectoryRecord.new record.name record.split.inline =
      some data ∧
        data.length = even (headerLen record.name.length + record.split.inline.length) := by
    rw [DirectoryRecord.new, if_neg (by rw [not_or]; exact ⟨hname, by omega⟩)]
    dsimp only
    rw [if_neg (by omega)]
    refine ⟨_, rfl, ?_⟩
    simp only [length_append, length_cons, length_replicate]
    omega
  rw [PendingRecord.build, hnew]
  refine ⟨_, rfl, ?_⟩
  simp only [length_append, length_take, length_drop, length_cons, length_nil,
    length_both, DirDateTime.toBytes]
  omega

theorem build_error (hlen : ¬record.len ≤ 254) : record.build = .error .directoryRecord := by
  have heven := even_even (headerLen record.name.length + record.split.inline.length)
  rw [PendingRecord.len] at hlen
  rw [PendingRecord.build, DirectoryRecord.new]
  dsimp only
  by_cases hname : record.name = [] ∨ 255 < record.name.length
  · rw [if_pos hname]
  · rw [if_neg hname, if_pos (by omega)]

/-- The bytes of `record` are in `out` from byte `place` on: an even number of them, and
all in one block. -/
def Holds (out : List UInt8) (place : Nat) (record : PendingRecord) : Prop :=
  ∃ bytes, record.build = .ok bytes ∧ (out.drop place).take bytes.length = bytes ∧
    bytes.length ≤ 254 ∧ bytes.length % 2 = 0 ∧ place % sector + bytes.length ≤ sector

/-- The records are in `out` one after the other, between bytes `start` and `stop`. -/
def Follow (out : List UInt8) (stop : Nat) : Nat → List PendingRecord → Prop
  | start, [] => start ≤ stop
  | start, record :: rest =>
    ∃ place, start ≤ place ∧ Holds out place record ∧ Follow out stop (place + record.len) rest

theorem Follow.holds {out : List UInt8} {stop start : Nat} (h : Follow out stop start records) :
    ∀ r ∈ records, ∃ place, Holds out place r := by
  induction records generalizing start with
  | nil => exact fun _ hr => absurd hr not_mem_nil
  | cons record rest ih =>
    obtain ⟨place, -, hholds, hrest⟩ := h
    exact forall_mem_cons.mpr ⟨⟨place, hholds⟩, ih hrest⟩

theorem Follow.imp {out out' : List UInt8} {stop stop' start : Nat} (hstop : stop ≤ stop')
    (himp : ∀ place r, Holds out place r → Holds out' place r)
    (h : Follow out stop start records) :
    Follow out' stop' start records := by
  induction records generalizing start with
  | nil => exact le_trans (b := stop) h hstop
  | cons record rest ih =>
    obtain ⟨place, hle, hholds, hrest⟩ := h
    exact ⟨place, hle, himp place record hholds, ih hrest⟩

theorem le_placeOf (at' len : Nat) : at' ≤ placeOf at' len := by
  rw [placeOf]
  split <;> omega

theorem placeOf_mod (at' : Nat) {len : Nat} (h : len ≤ sector) :
    placeOf at' len % sector + len ≤ sector := by
  have hlt : at' % sector < sector := Nat.mod_lt _ (by decide)
  rw [placeOf]
  split
  · have hzero : (at' + (sector - at' % sector)) % sector = 0 := by
      simp only [sector] at hlt ⊢
      omega
    omega
  · omega

theorem emitFrom_ok {out : List UInt8} (h : ∀ r ∈ records, r.name ≠ [] ∧ r.len ≤ 254) :
    ∃ more, emitFrom out records = .ok (out ++ more) ∧
      (out ++ more).length = layoutFrom out.length records ∧
        Follow (out ++ more) (out ++ more).length out.length records := by
  induction records generalizing out with
  | nil =>
    refine ⟨[], by rw [emitFrom, append_nil], by rw [append_nil, layoutFrom], ?_⟩
    rw [append_nil]
    exact le_refl out.length
  | cons record rest ih =>
    obtain ⟨hname, hlen⟩ := h record mem_cons_self
    obtain ⟨bytes, hbuild, hbytes⟩ := build_ok hname hlen
    have hsector : record.len ≤ sector := hlen.trans (by decide)
    obtain ⟨gap, hgap, hplace⟩ : ∃ gap, (if bytes.length > sector - out.length % sector then
        out ++ replicate (sector - out.length % sector) 0 else out) = out ++ gap ∧
        (out ++ gap).length = placeOf out.length record.len := by
      rw [placeOf, hbytes]
      split
      · exact ⟨_, rfl, by rw [length_append, length_replicate]⟩
      · exact ⟨[], (append_nil out).symm, by rw [append_nil]⟩
    obtain ⟨more, hemit, hlength, hholds⟩ := @ih (out ++ gap ++ bytes)
      fun r hr => h r (mem_cons_of_mem _ hr)
    have hassoc : out ++ gap ++ bytes ++ more = out ++ (gap ++ bytes ++ more) := by
      simp only [append_assoc]
    refine ⟨gap ++ bytes ++ more, ?_, ?_, placeOf out.length record.len, le_placeOf _ _, ?_, ?_⟩
    · rw [emitFrom, hbuild]
      change emitFrom ((if _ then _ else _) ++ bytes) rest = _
      rw [hgap, hemit, hassoc]
    · rw [← hassoc, hlength, layoutFrom, length_append, hplace, hbytes]
    · refine ⟨bytes, hbuild, ?_, hbytes ▸ hlen,
        hbytes ▸ even_even _, by rw [hbytes]; exact placeOf_mod _ hsector⟩
      rw [← hassoc, append_assoc, ← hplace, drop_left, take_left]
    · rwa [@length_append _ (out ++ gap), hplace, hbytes, hassoc] at hholds

theorem layoutFrom_shift (k n : Nat) (records : List PendingRecord) :
    layoutFrom (k * sector + n) records = k * sector + layoutFrom n records := by
  induction records generalizing n with
  | nil => rfl
  | cons record rest ih =>
    have hplace : placeOf (k * sector + n) record.len = k * sector + placeOf n record.len := by
      rw [placeOf, placeOf, Nat.mul_add_mod_self_right]
      split <;> omega
    rw [layoutFrom, layoutFrom, hplace, Nat.add_assoc, ih]

theorem layoutRecords_size (pos : Nat) (records : List PendingRecord) :
    layoutFrom 0 records ≤ (layoutRecords pos records).2 * sector := by
  have hshift := layoutFrom_shift (blocks pos) 0 records
  rw [Nat.add_zero] at hshift
  rw [layoutRecords]
  dsimp only
  rw [hshift, blocks]
  simp only [sector]
  omega

theorem forall₂_mem_left {α β : Type} {R : α → β → Prop} {l : List α} {m : List β}
    (h : List.Forall₂ R l m) :
    ∀ a ∈ l, ∃ b ∈ m, R a b := by
  induction h with
  | nil => exact fun a ha => absurd ha not_mem_nil
  | @cons a b l m hab _ ih =>
    refine forall_mem_cons.mpr ⟨⟨b, mem_cons_self, hab⟩, fun c hc => ?_⟩
    obtain ⟨d, hd, hcd⟩ := ih c hc
    exact ⟨d, mem_cons_of_mem _ hd, hcd⟩

theorem forall₂_mem_right {α β : Type} {R : α → β → Prop} {l : List α} {m : List β}
    (h : List.Forall₂ R l m) :
    ∀ b ∈ m, ∃ a ∈ l, R a b := forall₂_mem_left h.flip

theorem forall₂_trans {α : Type} {R : α → α → Prop} (hR : ∀ a b c, R a b → R b c → R a c)
    {l m n : List α}
    (h : List.Forall₂ R l m) (hmore : List.Forall₂ R m n) : List.Forall₂ R l n := by
  induction h generalizing n with
  | nil => exact hmore
  | cons hab _ ih =>
    cases hmore with
    | cons hbc hrest => exact .cons (hR _ _ _ hab hbc) (ih hrest)

/-- Records that are sorted and laid out alike. -/
structure Sized (a b : PendingRecord) : Prop where
  name : a.name = b.name
  isNotFinal : a.isNotFinal = b.isNotFinal
  inline : a.split.inline.length = b.split.inline.length

theorem Sized.trans {a b c : PendingRecord} (hab : Sized a b) (hbc : Sized b c) : Sized a c :=
  ⟨hab.name.trans hbc.name, hab.isNotFinal.trans hbc.isNotFinal, hab.inline.trans hbc.inline⟩

theorem Sized.len {a b : PendingRecord} (h : Sized a b) : a.len = b.len := by
  rw [PendingRecord.len, PendingRecord.len, h.name, h.inline]

section Alike

variable {others : List PendingRecord} {seen : List Identifier} {current : Option Identifier}

theorem dedup_sized (h : List.Forall₂ Sized records others)
    (hout : dedup rules fuel seen current records = some out) :
    ∃ out', dedup rules fuel seen current others = some out' ∧ List.Forall₂ Sized out out' := by
  induction h generalizing seen current out with
  | nil =>
    rw [dedup.eq_def] at hout
    cases hout
    exact ⟨[], by rw [dedup.eq_def], .nil⟩
  | @cons a b records others hab hrest ih =>
    have hrenamed : ∀ name : Identifier, Sized { a with name } { b with name } :=
      fun name => ⟨rfl, hab.isNotFinal, hab.inline⟩
    cases current with
    | some name =>
      obtain ⟨more, hmore, rfl⟩ := dedup_follower hout
      obtain ⟨more', hmore', hsized⟩ := ih hmore
      refine ⟨_, ?_, .cons (hrenamed name) hsized⟩
      rw [dedup, ← hab.isNotFinal, hmore']
      rfl
    | none =>
      cases hspecial : isSpecial a.name with
      | true =>
        obtain ⟨more, hmore, rfl⟩ := dedup_special hspecial hout
        obtain ⟨more', hmore', hsized⟩ := ih hmore
        refine ⟨_, ?_, .cons hab hsized⟩
        rw [dedup, if_pos (hab.name ▸ hspecial), hmore']
        rfl
      | false =>
        obtain ⟨name, more, hunique, hmore, rfl⟩ := dedup_leader hspecial hout
        obtain ⟨more', hmore', hsized⟩ := ih hmore
        refine ⟨_, ?_, .cons (hrenamed name) hsized⟩
        rw [dedup, if_neg (by rw [← hab.name, hspecial]; exact Bool.false_ne_true), ← hab.name,
          hunique, Option.bind_eq_bind, Option.bind_some, ← hab.isNotFinal, hmore']
        rfl

theorem orderedInsert_sized {a b : PendingRecord} (hab : Sized a b)
    (h : List.Forall₂ Sized records others) :
    List.Forall₂ Sized (records.orderedInsert Before a) (others.orderedInsert Before b) := by
  induction h with
  | nil => exact .cons hab .nil
  | @cons c d records others hcd hrest ih =>
    have hbefore : Before a c ↔ Before b d := by rw [Before, Before, hab.name, hcd.name]
    rw [orderedInsert_cons, orderedInsert_cons]
    by_cases hac : Before a c
    · rw [if_pos hac, if_pos (hbefore.mp hac)]
      exact .cons hab (.cons hcd hrest)
    · rw [if_neg hac, if_neg (mt hbefore.mpr hac)]
      exact .cons hcd ih

theorem insertionSort_sized (h : List.Forall₂ Sized records others) :
    List.Forall₂ Sized (records.insertionSort Before) (others.insertionSort Before) := by
  induction h with
  | nil => exact .nil
  | cons hab hrest ih =>
    rw [insertionSort_cons, insertionSort_cons]
    exact orderedInsert_sized hab ih

theorem layoutFrom_sized (h : List.Forall₂ Sized records others) (n : Nat) :
    layoutFrom n records = layoutFrom n others := by
  induction h generalizing n with
  | nil => rfl
  | cons hab hrest ih => rw [layoutFrom, layoutFrom, hab.len, ih]

end Alike

namespace Planner

def placed (p : Planner) (dirRefs : Nat × Nat → Option (Nat × Nat))
    (extents : Option Nat → List (Nat × Nat)) : Planner :=
  { p with dirRefs, extents }

variable {dirRefs : Nat × Nat → Option (Nat × Nat)} {extents : Option Nat → List (Nat × Nat)}

theorem length_entry_block (signature : String) (m n : Nat) :
    SuBuilder.Alike [entry signature (both 4 m)] [entry signature (both 4 n)] := by
  rw [SuBuilder.Alike, map_singleton, map_singleton, SuBuilder.length_entry,
    SuBuilder.length_entry, length_both, length_both]

theorem splitIn_alike {entries others : SuBuilder} (h : SuBuilder.Alike entries others)
    (nameLen : Nat) :
    (p.splitIn ti nameLen entries).inline.length =
      ((p.placed dirRefs extents).splitIn ti nameLen others).inline.length := by
  change (if p.rockRidgeIn ti then _ else _ : SplitSu).inline.length =
    (if p.rockRidgeIn ti then _ else _ : SplitSu).inline.length
  split
  · exact h.split.1
  · rfl

theorem specialEntries_alike (dir : Nat) (parent : Bool) :
    SuBuilder.Alike (p.specialEntries ti dir parent)
      ((p.placed dirRefs extents).specialEntries ti dir parent) := by
  cases parent with
  | false => exact SuBuilder.Alike.refl _
  | true =>
    rw [specialEntries, specialEntries]
    refine SuBuilder.Alike.append (SuBuilder.Alike.refl _)
      (SuBuilder.Alike.append (SuBuilder.Alike.refl _) ?_)
    change SuBuilder.Alike (if (p.dirs dir).movedTo.isSome then _ else _)
      (if (p.dirs dir).movedTo.isSome then _ else _)
    split
    · exact length_entry_block ..
    · exact SuBuilder.Alike.refl _

theorem childEntries_alike (child : Nat) (placeholder : Bool) :
    SuBuilder.Alike (p.childEntries ti child placeholder)
      ((p.placed dirRefs extents).childEntries ti child placeholder) := by
  cases placeholder with
  | false => exact SuBuilder.Alike.refl _
  | true =>
    rw [childEntries, childEntries]
    exact SuBuilder.Alike.append (SuBuilder.Alike.refl _) (length_entry_block ..)

theorem special_sized (dir : Nat) (parent : Bool) :
    Sized (p.special ti dir parent) ((p.placed dirRefs extents).special ti dir parent) :=
  ⟨rfl, rfl, splitIn_alike (specialEntries_alike dir parent) 1⟩

theorem child_sized (child : Nat) (placeholder : Bool) :
    Sized (p.child ti child placeholder)
      ((p.placed dirRefs extents).child ti child placeholder) where
  name := rfl
  isNotFinal := (child_isNotFinal child placeholder).trans
    (child_isNotFinal child placeholder).symm
  inline := splitIn_alike (childEntries_alike child placeholder)
    (p.childName ti child placeholder).length

theorem extentRecords_sized {split : SplitSu} {time : DirDateTime}
    {first second : List (Nat × Nat)}
    (h : first.map Prod.snd = second.map Prod.snd)
    (hrecords : extentRecords name split time first = .ok records) :
    ∃ others, extentRecords name split time second = .ok others ∧
      List.Forall₂ Sized records others := by
  induction first generalizing second records with
  | nil =>
    rw [map_nil, eq_comm, map_eq_nil_iff] at h
    cases h
    cases hrecords
    exact ⟨[], rfl, .nil⟩
  | cons extent rest ih =>
    obtain ⟨block, len⟩ := extent
    cases second with
    | nil => cases h
    | cons other second =>
      obtain ⟨block', len'⟩ := other
      obtain ⟨hlen, htail⟩ := List.cons.inj h
      dsimp only at hlen
      subst hlen
      have hnil : rest = [] ↔ second = [] := by
        rw [← length_eq_zero_iff, ← length_eq_zero_iff, ← length_map Prod.snd, htail, length_map]
      rw [extentRecords] at hrecords ⊢
      split at hrecords
      · cases hrecords
      rename_i hsmall
      obtain ⟨more, hmore, hrecords⟩ := except_bind_ok.mp hrecords
      cases hrecords
      obtain ⟨more', hmore', hsized⟩ := ih htail hmore
      rw [if_neg hsmall, hmore']
      refine ⟨_, rfl, .cons ⟨rfl, ?_, rfl⟩ hsized⟩
      simp only [PendingRecord.isNotFinal, hnil]

theorem fileExtents_lengths (hextents : ∀ key, (p.extents key).map Prod.snd =
      (extents key).map Prod.snd) (file : PFile) :
    (p.fileExtents file).map Prod.snd =
      ((p.placed dirRefs extents).fileExtents file).map Prod.snd := by
  have hdefault : ∀ first second : List (Nat × Nat), first.map Prod.snd = second.map Prod.snd →
      (if first = [] then [(0, 0)] else first).map Prod.snd =
        (if second = [] then [(0, 0)] else second).map Prod.snd := by
    intro first second h
    have hnil : first = [] ↔ second = [] := by
      rw [← length_eq_zero_iff, ← length_eq_zero_iff, ← length_map Prod.snd, h, length_map]
    by_cases hfirst : first = []
    · rw [if_pos hfirst, if_pos (hnil.mp hfirst)]
    · rw [if_neg hfirst, if_neg (mt hnil.mpr hfirst), h]
  refine hdefault _ _ ?_
  cases file.kind with
  | data node len => exact hextents (some node)
  | catalog len => exact hextents none
  | symlink node => rfl
  | blockDevice node high low => rfl
  | charDevice node high low => rfl

theorem appendFiles_sized (hextents : ∀ key, (p.extents key).map Prod.snd =
      (extents key).map Prod.snd) {files : List Nat}
    (h : p.appendFiles ti files = .ok records) :
    ∃ others, (p.placed dirRefs extents).appendFiles ti files = .ok others ∧
      List.Forall₂ Sized records others := by
  induction files generalizing records with
  | nil =>
    cases h
    exact ⟨[], rfl, .nil⟩
  | cons file rest ih =>
    rw [appendFiles] at h
    obtain ⟨first, hfirst, h⟩ := except_bind_ok.mp h
    obtain ⟨more, hmore, h⟩ := except_bind_ok.mp h
    cases h
    obtain ⟨more', hmore', hsized⟩ := ih hmore
    obtain ⟨first', hfirst', hsized'⟩ : ∃ first', (p.placed dirRefs extents).appendFile ti file =
        .ok first' ∧
          List.Forall₂ Sized first first' := by
      rw [appendFile] at hfirst ⊢
      change (if ¬p.shows ti file then _ else _) = _ at hfirst
      split at hfirst
      · rename_i hshows
        cases hfirst
        exact ⟨[], if_pos hshows, .nil⟩
      · rename_i hshows
        obtain ⟨first', hfirst', hsized'⟩ :=
          extentRecords_sized (fileExtents_lengths hextents (p.files file)) hfirst
        exact ⟨first', (if_neg hshows).trans hfirst', hsized'⟩
    refine ⟨first' ++ more', ?_, rel_append hsized' hsized⟩
    rw [appendFiles, hfirst', hmore']
    rfl

/-- The records are of the same sizes before and after directories and files are
placed. -/
theorem children_sized (hextents : ∀ key, (p.extents key).map Prod.snd =
      (extents key).map Prod.snd)
    (h : p.children dir ti = .ok kids) :
    ∃ others, (p.placed dirRefs extents).children dir ti = .ok others ∧
      List.Forall₂ Sized kids others := by
  rw [children] at h
  obtain ⟨files, hfiles, h⟩ := except_bind_ok.mp h
  cases h
  obtain ⟨others, hothers, hsized⟩ := appendFiles_sized hextents hfiles
  have hmap : ∀ (children : List Nat) placeholder,
      List.Forall₂ Sized (children.map (p.child ti · placeholder))
        (children.map ((p.placed dirRefs extents).child ti · placeholder)) := by
    intro children placeholder
    induction children with
    | nil => exact .nil
    | cons child rest ih => exact .cons (child_sized child placeholder) ih
  refine ⟨_, ?_, rel_append (rel_append (hmap _ false) (hmap _ true)) hsized⟩
  rw [children]
  change Except.bind ((p.placed dirRefs extents).appendFiles ti (p.dirs dir).files) _ = _
  rw [hothers]
  rfl

end Planner

section Lengths

variable {n m : Nat}

theorem length_mapped (h : Mapped rules name) : name.length ≤ enhancedMax ∧
    ∀ level nameCase, rules = .primary level nameCase → name.length ≤ 33 := by
  have hmax : enhancedMax = 207 := rfl
  obtain ⟨text, h⟩ := h
  cases rules with
  | enhanced =>
    have hlength :
      name.length ≤ enhancedMax := by rcases h with rfl | rfl <;> exact length_convertL3 text
    exact ⟨hlength, fun _ _ hrules => by cases hrules⟩
  | joliet =>
    have hlength : name.length = 2 * min jolietMaxChars text.length := by
      rcases h with rfl | rfl <;> exact length_convertJoliet text
    rw [jolietMaxChars] at hlength
    exact ⟨by omega, fun _ _ hrules => by cases hrules⟩
  | primary level nameCase =>
    suffices hlength : name.length ≤ 33 by exact ⟨by omega, fun _ _ _ => hlength⟩
    rcases h with rfl | rfl
    · obtain ⟨base, ext, hfile, -, -, hfits⟩ := file_shaped level nameCase text
      rw [hfile, length_append, length_cons, length_append]
      change base.length + (ext.length + 2 + 1) ≤ 33
      split at hfits <;> omega
    · obtain ⟨-, hfits⟩ := directory_shaped level nameCase text
      split at hfits <;> omega

theorem encodeUtf8_ne_nil (c : Char) (text : Text) : Directory.encodeUtf8 (c :: text) ≠ [] := by
  rw [Directory.encodeUtf8, flatMap_cons]
  exact append_ne_nil_of_left_ne_nil String.utf8EncodeChar_ne_nil _

theorem convertL3_ne_nil (c : Char) (text : Text) : convertL3 (c :: text) ≠ [] := by
  have hcut : ∀ c (text : Text), Directory.encodeUtf8 (cut (c :: text) enhancedMax) ≠ [] := by
    intro c text
    have hsize : c.utf8Size ≤ enhancedMax := (Char.utf8Size_le_four c).trans (by decide)
    rw [cut, if_pos hsize]
    exact encodeUtf8_ne_nil _ _
  obtain ⟨c', text', hmap⟩ : ∃ c' text', (c :: text).map (fun c => if c = nul then '_' else c) =
    c' :: text' :=
    ⟨_, _, map_cons⟩
  rw [nul] at hmap
  rw [convertL3, hmap]
  split
  · exact encodeUtf8_ne_nil _ _
  · split
    · split
      · exact append_ne_nil_of_right_ne_nil _ (cons_ne_nil _ _)
      · exact hcut _ _
    · exact hcut _ _

theorem mapped_ne_nil {text : Text} (htext : text ≠ []) (rules : Rules) :
    rules.file text ≠ [] ∧ rules.directory text ≠ [] := by
  obtain ⟨c, rest, rfl⟩ := exists_cons_of_ne_nil htext
  cases rules with
  | joliet => exact ⟨cons_ne_nil _ _, cons_ne_nil _ _⟩
  | enhanced => exact ⟨convertL3_ne_nil c rest, convertL3_ne_nil c rest⟩
  | primary level nameCase =>
    constructor
    · obtain ⟨base, ext, hfile, -⟩ := file_shaped level nameCase (c :: rest)
      rw [hfile]
      exact append_ne_nil_of_right_ne_nil _ (cons_ne_nil _ _)
    · cases level <;> exact cons_ne_nil _ _

/-- The larger number does not make the identifier of a tree with system use areas
shorter, nor that of another by more than those areas leave. -/
theorem length_dedup_mono (h : Mapped rules name) (hle : n ≤ m) :
    (rules.dedup name n).length ≤ max enhancedMax (rules.dedup name m).length ∧
      ∀ level nameCase, rules = .primary level nameCase →
        (rules.dedup name n).length ≤ (rules.dedup name m).length := by
  have hsuffix := length_suffix_mono hle
  have hlength := (length_mapped h).1
  cases rules with
  | enhanced =>
    refine ⟨?_, fun _ _ hrules => by cases hrules⟩
    have hparts := congrArg List.length (isoParts_eq name)
    have hcut := cutBack_le (isoParts name).1.1 (min (isoParts name).1.1.length
      (enhancedMax - ((isoParts name).1.2.length + (isoParts name).2.length) - (suffix n).length))
    rw [length_append, length_append] at hparts
    change (isoDedup _ _ _).length ≤ max _ (isoDedup _ _ _).length
    rw [isoDedup_eq, isoDedup_eq]
    change (List.take (cutBack _ (min _ (enhancedMax - _ - _))) _ ++ _ ++ _ ++ _).length ≤ max _ _
    simp only [length_append, length_take]
    omega
  | joliet =>
    refine ⟨?_, fun _ _ hrules => by cases hrules⟩
    have hn := length_jolietDedup name (suffix n)
    have hm := length_jolietDedup name (suffix m)
    change (jolietDedup _ _).length ≤ max _ (jolietDedup _ _).length
    rw [jolietMaxChars] at hn
    rw [enhancedMax]
    omega
  | primary level nameCase =>
    suffices hmono : ((Rules.primary level nameCase).dedup name n).length ≤
        ((Rules.primary level nameCase).dedup name m).length by
      exact ⟨hmono.trans (Nat.le_max_right _ _), fun _ _ _ => hmono⟩
    obtain ⟨base, hbase, rfl | ⟨ext, hext, rfl⟩⟩ := shaped_mapped h
    · rw [dedup_directory hbase, dedup_directory hbase, length_numbered, length_numbered]
      omega
    · rw [dedup_file hbase hext, dedup_file hbase hext, length_append,
        length_append, length_numbered, length_numbered]
      omega

end Lengths

section Patched

/-- The `CE` entry of the inline part is in it. -/
def SplitSu.Wf (split : SplitSu) : Prop :=
  ∀ at', split.ceOffset = some at' → at' + ceLen ≤ split.inline.length

theorem SplitSu.length_patchCe {split : SplitSu} (h : split.Wf) (places : List (Nat × Nat)) :
    (split.patchCe places).inline.length = split.inline.length := by
  obtain ⟨inline, areas, ceOffset⟩ := split
  cases ceOffset with
  | none => rfl
  | some at' =>
    cases places with
    | nil => rfl
    | cons first rest =>
      have hle : at' + 28 ≤ inline.length := h at' rfl
      simp only [SplitSu.patchCe, SplitSu.patch, length_append, length_take,
        length_drop, length_both, ceLen]
      omega

theorem SuBuilder.wf_split (entries : SuBuilder) (maxInline : Nat) :
    (SuBuilder.split entries maxInline).Wf := by
  intro at' hoffset
  rw [SuBuilder.split] at hoffset ⊢
  split at hoffset
  · cases hoffset
  · rename_i hlong
    rw [if_neg hlong]
    cases hoffset
    dsimp only
    rw [length_append, SuBuilder.length_ce]

theorem dedup_splits {seen : List Identifier} {current : Option Identifier}
    (h : dedup rules fuel seen current records = some out) :
    out.map (·.split) = records.map (·.split) := by
  induction records generalizing seen current out with
  | nil =>
    rw [dedup.eq_def] at h
    cases h
    rfl
  | cons record rest ih =>
    cases current with
    | some name =>
      obtain ⟨more, hmore, rfl⟩ := dedup_follower h
      rw [map_cons, map_cons, ih hmore]
    | none =>
      cases hspecial : isSpecial record.name with
      | true =>
        obtain ⟨more, hmore, rfl⟩ := dedup_special hspecial h
        rw [map_cons, map_cons, ih hmore]
      | false =>
        obtain ⟨name, more, -, hmore, rfl⟩ := dedup_leader hspecial h
        rw [map_cons, map_cons, ih hmore]

theorem patchRecords_sized (h : ∀ r ∈ records, r.split.Wf) (caBlock : Nat) (places : List Nat) :
    List.Forall₂ Sized records (patchRecords caBlock places records) := by
  induction records generalizing places with
  | nil => exact .nil
  | cons record rest ih =>
    rw [patchRecords]
    refine .cons ⟨rfl, rfl, ?_⟩ (ih (fun r hr => h r (mem_cons_of_mem _ hr)) _)
    exact (SplitSu.length_patchCe (h record mem_cons_self) _).symm

theorem take_appendAreas {size : Nat} {bytes : List UInt8} (hsize : size ≤ bytes.length)
    (areas : List (List UInt8 × Nat)) :
    (appendAreas size bytes areas).take size = bytes.take size := by
  induction areas generalizing bytes with
  | nil => rfl
  | cons area rest ih =>
    obtain ⟨area, at'⟩ := area
    have hresize : (resize bytes (size + at')).take size = bytes.take size := by
      rw [resize, take_append_of_le_length (by rw [length_take]; omega), take_take]
      congr 1
      omega
    have hlength : size ≤ (resize bytes (size + at')).length := by
      rw [resize, length_append, length_take, length_replicate]
      omega
    rw [appendAreas, ih (by rw [length_append]; omega), take_append_of_le_length hlength, hresize]

theorem Holds.mono {bytes more : List UInt8} {place : Nat} (h : Holds bytes place record) :
    Holds (bytes ++ more) place record := by
  obtain ⟨data, hbuild, htake, hrest⟩ := h
  refine ⟨data, hbuild, ?_, hrest⟩
  have hlength := congrArg List.length htake
  rw [length_take, length_drop] at hlength
  cases data with
  | nil => rfl
  | cons byte data =>
    rw [length_cons] at hlength htake ⊢
    rw [drop_append_of_le_length (by omega), take_append_of_le_length
      (by rw [length_drop]; omega), htake]

end Patched

/-- Where an identifier is taken, one with a number that is not leaves room for what the
system use area keeps inline. -/
def LeavesRoom (rules : Rules) (seen : List Identifier) (record : PendingRecord) : Prop :=
  record.name ∈ seen → ∃ n, 1 ≤ n ∧ rules.dedup record.name n ∉ seen ∧
    even (headerLen (rules.dedup record.name n).length + record.split.inline.length) ≤ 254

/-- The records are written at `block`, one after the other in `size` bytes: each has an
even length of at most 254 bytes and is in one block. -/
def Written (block size : Nat) (records : List PendingRecord) : Prop :=
  ∃ out, emitRecords block size records = .ok out ∧ Follow out size 0
    (patchRecords (block + size / sector)
      (placeAreas 0 (records.flatMap (·.split.areas))).1 records)

theorem written_iff {laid : List PendingRecord} (hsized : List.Forall₂ Sized laid records)
    (hwf : ∀ r ∈ records, r.split.Wf) (hnames : ∀ r ∈ laid, r.name ≠ []) (pos block : Nat) :
    Written block ((layoutRecords pos laid).2 * sector) records ↔ ∀ r ∈ laid, r.len ≤ 254 := by
  have hsize := layoutRecords_size pos laid
  generalize hpatched : patchRecords (block + (layoutRecords pos laid).2 * sector / sector)
    (placeAreas 0 (records.flatMap (·.split.areas))).1 records = patched
  have hlaid : List.Forall₂ Sized laid patched := by
    rw [← hpatched]
    have hboth := patchRecords_sized hwf (block + (layoutRecords pos laid).2 * sector / sector)
      (placeAreas 0 (records.flatMap (·.split.areas))).1
    exact forall₂_trans (R := Sized) (fun _ _ _ hab hbc => hab.trans hbc) hsized hboth
  constructor
  · rintro ⟨out, -, hfollow⟩
    rw [hpatched] at hfollow
    intro r hr
    obtain ⟨r', hr', hsized⟩ := forall₂_mem_left hlaid r hr
    obtain ⟨place, bytes, hbuild, -⟩ := hfollow.holds r' hr'
    by_contra hlen
    rw [hsized.len] at hlen
    rw [build_error hlen] at hbuild
    cases hbuild
  · intro hlen
    have hfits : ∀ r ∈ patched, r.name ≠ [] ∧ r.len ≤ 254 := by
      intro r hr
      obtain ⟨r', hr', hsized⟩ := forall₂_mem_right hlaid r hr
      exact ⟨hsized.name ▸ hnames r' hr', hsized.len ▸ hlen r' hr'⟩
    obtain ⟨out, hemit, hlength, hfollow⟩ : ∃ more, emitFrom [] patched = .ok ([] ++ more) ∧
        ([] ++ more).length = layoutFrom 0 patched ∧
          Follow ([] ++ more) ([] ++ more).length 0 patched :=
      emitFrom_ok hfits
    rw [nil_append] at hemit hlength hfollow
    rw [← layoutFrom_sized hlaid] at hlength
    have hfull : (resize out ((layoutRecords pos laid).2 * sector)).length =
        (layoutRecords pos laid).2 * sector := by
      rw [resize, length_append, length_take, length_replicate]
      omega
    have hresult : emitRecords block ((layoutRecords pos laid).2 * sector) records =
        .ok (appendAreas ((layoutRecords pos laid).2 * sector)
          (resize out ((layoutRecords pos laid).2 * sector))
          ((patched.flatMap (·.split.areas)).zip
            (placeAreas 0 (records.flatMap (·.split.areas))).1)) := by
      rw [emitRecords]
      dsimp only
      rw [hpatched, hemit]
      exact if_neg (by omega)
    refine ⟨_, hresult, ?_⟩
    rw [hpatched]
    refine hfollow.imp (by omega) fun place r hold => ?_
    have htake := take_appendAreas hfull.ge ((patched.flatMap (·.split.areas)).zip
      (placeAreas 0 (records.flatMap (·.split.areas))).1)
    rw [take_of_length_le hfull.le] at htake
    rw [← take_append_drop ((layoutRecords pos laid).2 * sector) (appendAreas _ _ _), htake]
    refine Holds.mono ?_
    rw [resize, take_of_length_le (by omega)]
    exact Holds.mono hold

namespace Planner

/-- The tree with Rock Ridge has the identifiers of the primary tree. -/
def Primary (p : Planner) (ti : Nat) : Prop :=
  (p.trees ti).1 = .primary → ∃ level nameCase, (p.trees ti).2 = .primary level nameCase

theorem headerLen_le {n m : Nat} (h : n ≤ m) : headerLen n ≤ headerLen m := by
  rw [headerLen_eq, headerLen_eq]
  omega

theorem fitted_len (hprimary : p.Primary ti) (hname : name.length ≤ enhancedMax)
    (hlength : ∀ level nameCase, (p.trees ti).2 = .primary level nameCase → name.length ≤ 33)
    (entries : SuBuilder) :
    even (headerLen name.length + (p.splitIn ti name.length entries).inline.length) ≤ 254 := by
  have hmax : enhancedMax = 207 := rfl
  rw [splitIn]
  split
  · rename_i hrockRidge
    obtain ⟨level, nameCase, hrules⟩ := hprimary (of_decide_eq_true hrockRidge).2
    have hname := hlength level nameCase hrules
    have hspace : ceLen ≤ inlineSpace name.length := by
      rw [ceLen, inlineSpace]
      omega
    have hinline : (entries.split (inlineSpace name.length)).inline.length ≤
      inlineSpace name.length :=
      SuBuilder.length_split hspace
    have hvalue : inlineSpace name.length = 254 - headerLen name.length := rfl
    have heven := even_even (33 + name.length)
    change headerLen name.length % 2 = 0 at heven
    rw [even]
    have hheader := headerLen_eq name.length
    omega
  · change even (headerLen name.length + 0) ≤ 254
    rw [even, headerLen_eq]
    omega

theorem splitIn_wf (nameLen : Nat) (entries : SuBuilder) : (p.splitIn ti nameLen entries).Wf := by
  rw [splitIn]
  split
  · exact entries.wf_split _
  · exact fun at' hoffset => by cases hoffset

theorem leavesRoom_iff {seen : List Identifier} (hprimary : p.Primary ti)
    (hmapped : Mapped (p.trees ti).2 record.name)
    (hfitted : Fitted p ti record) (h : unique (p.trees ti).2 fuel seen record.name = some name) :
    LeavesRoom (p.trees ti).2 seen record ↔
      even (headerLen name.length + record.split.inline.length) ≤ 254 := by
  obtain ⟨entries, hentries⟩ := hfitted
  obtain ⟨hname, hlength⟩ := length_mapped hmapped
  rw [unique] at h
  split at h
  · rename_i hseen
    obtain ⟨m, hm, rfl, hfree, -⟩ := firstFree_some h
    have hmono : ∀ i j, i ≤ j →
        even (headerLen ((p.trees ti).2.dedup record.name j).length +
          record.split.inline.length) ≤ 254 →
          even (headerLen ((p.trees ti).2.dedup record.name i).length +
            record.split.inline.length) ≤ 254 := by
      intro i j hle hj
      obtain ⟨hany, hprim⟩ := length_dedup_mono hmapped hle
      rw [hentries, splitIn] at hj ⊢
      split at hj
      · rename_i hrockRidge
        obtain ⟨level, nameCase, hrules⟩ := hprimary (of_decide_eq_true hrockRidge).2
        have hlen := headerLen_le (hprim level nameCase hrules)
        rw [if_pos hrockRidge]
        rw [even] at hj ⊢
        omega
      · rename_i hrockRidge
        rw [if_neg hrockRidge]
        change even (headerLen _ + 0) ≤ 254 at hj ⊢
        have hmax : enhancedMax = 207 := rfl
        rw [even, headerLen_eq] at hj ⊢
        omega
    have hbest := firstFree_best hmono h
    rw [LeavesRoom, forall_prop_of_true hseen]
    constructor
    · rintro ⟨k, hk, hnot, hgood⟩
      obtain ⟨k, -, hgood, heq, -⟩ := hbest.mp ⟨k, hk, hgood, hnot⟩
      exact heq ▸ hgood
    · exact fun hgood => ⟨m, hm, hfree, hgood⟩
  · rename_i hseen
    cases h
    refine iff_of_true (fun hmem => absurd hmem hseen) ?_
    rw [hentries]
    exact fitted_len hprimary hname hlength entries

theorem special_len (hprimary : p.Primary ti) (dir : Nat) (parent : Bool) :
    (p.special ti dir parent).len ≤ 254 := by
  have hlen := @fitted_len p ti [0] hprimary (by decide) (fun _ _ _ => by decide)
    (p.specialEntries ti dir parent)
  exact hlen

theorem special_wf (dir : Nat) (parent : Bool) : (p.special ti dir parent).split.Wf :=
  splitIn_wf 1 _

theorem fitted_wf (h : Fitted p ti record) : record.split.Wf := by
  obtain ⟨entries, hentries⟩ := h
  rw [hentries]
  exact splitIn_wf _ _

theorem wf_named {texts : List Text} (h : Gathers p ti texts kids)
    (hnamed : dedup rules fuel [] none kids = some named) : ∀ r ∈ named, r.split.Wf := by
  intro r hr
  have hmem : r.split ∈ named.map (·.split) := mem_map_of_mem hr
  rw [dedup_splits hnamed] at hmem
  obtain ⟨r', hr', heq⟩ := mem_map.mp hmem
  exact heq ▸ fitted_wf (h.fitted r' hr')

theorem named_ne_nil {texts : List Text} (h : Gathers p ti texts kids)
    (htexts : ∀ text ∈ texts, text ≠ [])
    (hnamed : dedup (p.trees ti).2 fuel [] none kids = some named) :
    ∀ r ∈ named, r.name ≠ [] := by
  have hclosed : ∀ (id : Identifier) n, id ≠ [] → (p.trees ti).2.dedup id n ≠ [] := fun id n _ =>
    ne_nil_of_mem (underscore_mem_dedup (p.trees ti).2 id n)
  refine dedup_closed hclosed (fun _ heq => by cases heq) (fun r hr => ?_) hnamed
  obtain ⟨text, htext, hname⟩ := h.named r hr
  have hne := mapped_ne_nil (htexts text htext) (p.trees ti).2
  rcases hname with hname | hname <;> rw [hname]
  · exact hne.1
  · exact hne.2

theorem named_len_iff {texts : List Text} (hprimary : p.Primary ti) (h : Gathers p ti texts kids)
    (hnamed : dedup (p.trees ti).2 fuel [] none kids = some named) :
    (∀ r ∈ named, r.len ≤ 254) ↔ EachStep (p.trees ti).2 fuel (LeavesRoom (p.trees ti).2)
      [] none kids := by
  have hmapped := mapped_of_gathers h
  refine @dedup_all_iff _ _ _ _ _ _
    (fun name split => even (headerLen name.length + split.inline.length) ≤ 254) _
    ?_ ?_ h.chain .empty (fun _ heq => by cases heq) hnamed
  · exact fun seen name r hr _ hunique => leavesRoom_iff hprimary (hmapped r hr)
      (h.fitted r hr) hunique
  · intro r hr _
    obtain ⟨entries, hentries⟩ := h.fitted r hr
    obtain ⟨hname, hlength⟩ := length_mapped (hmapped r hr)
    rw [hentries]
    exact fitted_len hprimary hname hlength entries

/-- A directory is written, every record in an even number of at most 254 bytes and in
one block, where at each clash a free number leaves room for what is kept inline. -/
theorem written_records_iff (hprimary : p.Primary ti)
    (htexts : ∀ text ∈ p.texts dir ti, text ≠ [])
    {dirRefs : Nat × Nat → Option (Nat × Nat)} {extents : Option Nat → List (Nat × Nat)}
    (hextents : ∀ key, (p.extents key).map Prod.snd = (extents key).map Prod.snd)
    (h : p.children dir ti = .ok kids) (hfuel : kids.length < fuel) (pos block : Nat) :
    ∃ laid records, p.records fuel dir ti = .ok (some laid) ∧
      (p.placed dirRefs extents).records fuel dir ti = .ok (some records) ∧
        (Written block ((layoutRecords pos laid).2 * sector) records ↔
          EachStep (p.trees ti).2 fuel (LeavesRoom (p.trees ti).2) [] none kids) := by
  have hgathers := gathers_of_children h
  obtain ⟨kids', hkids', hsized⟩ : ∃ others, (p.placed dirRefs extents).children dir ti =
    .ok others ∧
      List.Forall₂ Sized kids others := children_sized hextents h
  obtain ⟨named, hnamed⟩ : ∃ named, dedup (p.trees ti).2 fuel [] none kids = some named :=
    dedup_exists (by rw [length_nil]; omega)
  obtain ⟨named', hnamed', hsized'⟩ := dedup_sized hsized hnamed
  refine ⟨_, _, records_eq h hnamed, records_eq hkids' hnamed', ?_⟩
  have hgathers' := gathers_of_children hkids'
  have hmem : ∀ {r} {l : List PendingRecord}, r ∈ l.insertionSort Before ↔ r ∈ l :=
    fun {r l} => mem_insertionSort Before
  refine (written_iff (.cons (special_sized dir false)
    (.cons (special_sized dir true) (insertionSort_sized hsized')))
    ?_ ?_ pos block).trans ?_
  · refine forall_mem_cons.mpr
      ⟨special_wf dir false, forall_mem_cons.mpr ⟨special_wf dir true, ?_⟩⟩
    exact fun r hr => wf_named hgathers' hnamed' r (hmem.mp hr)
  · refine forall_mem_cons.mpr ⟨cons_ne_nil _ _, forall_mem_cons.mpr ⟨cons_ne_nil _ _, ?_⟩⟩
    exact fun r hr => named_ne_nil hgathers htexts hnamed r (hmem.mp hr)
  · rw [forall_mem_cons, forall_mem_cons, and_iff_right (special_len hprimary dir false),
      and_iff_right (special_len hprimary dir true), ← named_len_iff hprimary hgathers hnamed]
    exact forall_congr' fun r => imp_congr_left hmem

def flatRockRidge (names : List Text) : Planner :=
  { flat .primary upperOne names with
    rockRidge := true
    files := fun file =>
      ⟨names.getD file [], Directory.encodeUtf8 (names.getD file []), [], .data file 0,
        ⟨none, none, none, none, none⟩, 1⟩ }

def clashingKids : List PendingRecord := ((flatRockRidge clashing).children 0 0).toOption.getD []

theorem written_records_iff_sample :
    ∃ laid records, (flatRockRidge clashing).records 4 0 0 = .ok (some laid) ∧
      ((flatRockRidge clashing).placed (fun _ => some (23, 2048)) fun _ => []).records 4 0 0 =
        .ok (some records) ∧
        (Written 23 ((layoutRecords 47104 laid).2 * sector) records ↔
          EachStep upperOne 4 (LeavesRoom upperOne) [] none clashingKids) :=
  written_records_iff (p := flatRockRidge clashing) (fun _ => ⟨.l1, .upper, rfl⟩)
    (by decide) (fun _ => rfl) rfl
    (by decide +kernel) 47104 23

def longNames : List Text :=
  [['a', '.'] ++ replicate 162 'x' ++ ['y'], ['a', '.'] ++ replicate 162 'x' ++ ['z']]

example : (longNames.map List.length) = [165, 165] := by decide +kernel

/-- A suffix makes a record with a full system use area too long: the directory is not
written. -/
theorem not_written_longNames :
    ∃ laid, (flatRockRidge longNames).records 3 0 0 = .ok (some laid) ∧
      ¬Written 23 ((layoutRecords 47104 laid).2 * sector) laid := by
  have hfails : ((flatRockRidge longNames).records 3 0 0).toOption.any (fun laid =>
      laid.any fun laid =>
        (emitRecords 23 ((layoutRecords 47104 laid).2 * sector) laid).toOption.isNone) =
        true := by
    decide +kernel
  rcases hrecords : (flatRockRidge longNames).records 3 0 0 with e | (_ | laid) <;>
    rw [hrecords] at hfails
  · cases hfails
  · cases hfails
  · refine ⟨laid, rfl, ?_⟩
    rintro ⟨out, hout, -⟩
    change (emitRecords 23 ((layoutRecords 47104 laid).2 * sector) laid).toOption.isNone =
      true at hfails
    rw [hout] at hfails
    cases hfails

end Planner

end Hadris.Iso
