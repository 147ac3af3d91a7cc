import Hadris.Exfat.UpcaseAgree

namespace Hadris.Exfat

def maxSet : Nat := 19

def entryFile : Nat := 0x85
def entryStream : Nat := 0xC0
def entryName : Nat := 0xC1
def categorySecondary : Nat := 0x40

def nameUnitsPerEntry : Nat := 15

def hashByte (hash : UInt16) (byte : UInt8) : UInt16 :=
  (hash >>> 1 ||| hash <<< 15) + byte.toUInt16

def setChecksumStep (sum : UInt16) (index : Nat) (entry : List UInt8) : UInt16 :=
  (entry.zipIdx.filter fun at' => !(index == 0 && (at'.2 == 2 || at'.2 == 3))).foldl
    (fun sum at' => hashByte sum at'.1) sum

def setChecksum (entries : List (List UInt8)) : UInt16 :=
  entries.zipIdx.foldl (fun sum at' => setChecksumStep sum at'.2 at'.1) 0

/-- The entries form a File entry set with a Stream Extension, the File Name entries its name
length needs, and a valid checksum. -/
def parseSet (entries : List (List UInt8)) : Bool :=
  let primary := entries.headD []
  let stream := entries.getD 1 []
  let count := 1 + byteAt primary 1
  let len := byteAt stream 3
  let needed := divCeil len nameUnitsPerEntry
  byteAt primary 0 == entryFile && decide (2 ≤ byteAt primary 1 ∧ byteAt primary 1 < maxSet) &&
    decide (count ≤ entries.length) &&
    byteAt stream 0 == entryStream && len != 0 && decide (2 + needed ≤ count) &&
    (((entries.take count).drop 2).take needed).all (fun entry => byteAt entry 0 == entryName) &&
    ((entries.take count).drop (2 + needed)).all
      (fun entry => byteAt entry 0 &&& categorySecondary != 0 && byteAt entry 0 &&& inUse != 0) &&
    (setChecksum (entries.take count)).toNat == u16At primary 2

def hashUnit (hash : UInt16) (unit : Nat) : UInt16 :=
  hashByte (hashByte hash (u8 unit)) (u8 (unit / 256))

def nameUnits (entries : List (List UInt8)) : List Nat :=
  (List.range (byteAt (entries.getD 1 []) 3)).map fun at' =>
    u16At (entries.getD (2 + at' / nameUnitsPerEntry) []) (2 + at' % nameUnitsPerEntry * 2)

def mayBeNamed (stream : List UInt8) (name : List Nat) (hash : UInt16) : Bool :=
  byteAt stream 0 != entryStream || byteAt stream 3 == name.length && u16At stream 4 == hash.toNat

namespace Upcase

variable (geo : Geometry)

def nameHashFrom (hash : UInt16) : List Nat → Prog (Borrow Upcase) Stop UInt16
  | [] => pure hash
  | unit :: rest => do
      let upper ← upcase geo unit
      nameHashFrom (hashUnit hash upper) rest

def nameHash (name : List Nat) : Prog (Borrow Upcase) Stop UInt16 := nameHashFrom geo 0 name

def sameUnits : List (Nat × Nat) → Prog (Borrow Upcase) Stop Bool
  | [] => pure true
  | (unit, other) :: rest =>
    if unit = other then sameUnits rest
    else do
      let upper ← upcase geo unit
      let upper' ← upcase geo other
      if upper = upper' then sameUnits rest else pure false

def named (entries : List (List UInt8)) (name : List Nat) : Prog (Borrow Upcase) Stop Bool :=
  if byteAt (entries.getD 1 []) 3 ≠ name.length then pure false
  else sameUnits geo ((nameUnits entries).zip name)

end Upcase

open Prog (Triple)

def hashOf (upcase : Nat → Nat) (name : List Nat) : UInt16 := (name.map upcase).foldl hashUnit 0

theorem nameUnits_length (entries : List (List UInt8)) :
    (nameUnits entries).length = byteAt (entries.getD 1 []) 3 := by
  rw [nameUnits, List.length_map, List.length_range]

theorem map_eq_of_zip {upcase : Nat → Nat} {a b : List Nat} (hlen : a.length = b.length)
    (h : ∀ pair ∈ a.zip b, upcase pair.1 = upcase pair.2) : a.map upcase = b.map upcase := by
  induction a generalizing b with
  | nil =>
    rw [List.length_nil, eq_comm, List.length_eq_zero_iff] at hlen
    rw [hlen]
  | cons unit rest ih =>
    cases b with
    | nil => exact nomatch hlen
    | cons other others =>
      rw [List.map_cons, List.map_cons, h (unit, other) List.mem_cons_self,
        ih (Nat.succ.inj hlen) fun pair hpair => h pair (List.mem_cons_of_mem _ hpair)]

theorem mayBeNamed_of_same {upcase : Nat → Nat} {entries : List (List UInt8)} {name : List Nat}
    (hhash : u16At (entries.getD 1 []) 4 = (hashOf upcase (nameUnits entries)).toNat)
    (hlen : byteAt (entries.getD 1 []) 3 = name.length)
    (h : ∀ pair ∈ (nameUnits entries).zip name, upcase pair.1 = upcase pair.2) :
    mayBeNamed (entries.getD 1 []) name (hashOf upcase name) = true := by
  have hsame := map_eq_of_zip ((nameUnits_length entries).trans hlen) h
  rw [mayBeNamed, hlen, hhash, hashOf, hashOf, hsame, beq_self_eq_true, beq_self_eq_true,
    Bool.and_self, Bool.or_true]

namespace Upcase

variable {geo : Geometry} {img : Nat → UInt8} {extent : Extent} {table : List UInt8}
  {J : Device Stop → Prop}
  {E : Stop → Io → Prop} (hr : Reader geo img J E) (hgeo : geo.Valid)
  (hbytes : HoldsBytes geo img extent table)
  (hcyclic : (∀ e io, Io.Sound J io → E e io) ∨ Distinct geo img extent)

include hr hgeo hbytes hcyclic

theorem nameHashFrom_triple (hash : UInt16) (name : List Nat) :
    Triple (Borrow.Sound (Valid extent (unitsOf table)) fun _ => J) (nameHashFrom geo hash name)
      (fun r b => r = (name.map (decodeTable (unitsOf table))).foldl hashUnit hash ∧
        Borrow.Sound (Valid extent (unitsOf table)) (fun _ => J) b) (Fails E
          (Valid extent (unitsOf table))) := by
  induction name generalizing hash with
  | nil => exact Triple.pure fun b hb => ⟨rfl, hb⟩
  | cons unit rest ih =>
    refine Triple.bind (upcase_triple hr hgeo hbytes hcyclic unit) fun upper => Triple.assume ?_
    rintro rfl
    exact ih _

theorem sameUnits_triple (pairs : List (Nat × Nat)) :
    Triple (Borrow.Sound (Valid extent (unitsOf table)) fun _ => J) (sameUnits geo pairs)
      (fun r b => (r = true ↔ ∀ pair ∈ pairs, decodeTable (unitsOf table) pair.1 = decodeTable
        (unitsOf table) pair.2) ∧
        Borrow.Sound (Valid extent (unitsOf table)) (fun _ => J) b) (Fails E
          (Valid extent (unitsOf table))) := by
  induction pairs with
  | nil => exact Triple.pure fun b hb => ⟨by simp, hb⟩
  | cons pair rest ih =>
    obtain ⟨unit, other⟩ := pair
    rw [sameUnits]
    refine Triple.ite (fun hsame => ?_) fun _ => ?_
    · refine ih.post fun r b hb => ⟨?_, hb.2⟩
      rw [hb.1, List.forall_mem_cons, hsame]
      exact (and_iff_right rfl).symm
    · refine Triple.bind (upcase_triple hr hgeo hbytes hcyclic unit) fun upper => Triple.assume ?_
      rintro rfl
      refine Triple.bind (upcase_triple hr hgeo hbytes hcyclic other) fun upper =>
        Triple.assume ?_
      rintro rfl
      refine Triple.ite (fun hsame => ?_) fun hne => ?_
      · refine ih.post fun r b hb => ⟨?_, hb.2⟩
        rw [hb.1, List.forall_mem_cons]
        exact (and_iff_right hsame).symm
      · refine Triple.pure fun b hb => ⟨iff_of_false Bool.false_ne_true fun hall => ?_, hb⟩
        exact hne (hall (unit, other) List.mem_cons_self)

theorem named_triple (entries : List (List UInt8)) (name : List Nat) :
    Triple (Borrow.Sound (Valid extent (unitsOf table)) fun _ => J) (named geo entries name)
      (fun r b => (r = true ↔ byteAt (entries.getD 1 []) 3 = name.length ∧
        ∀ pair ∈ (nameUnits entries).zip name,
          decodeTable (unitsOf table) pair.1 = decodeTable (unitsOf table) pair.2) ∧
        Borrow.Sound (Valid extent (unitsOf table)) (fun _ => J) b) (Fails E
          (Valid extent (unitsOf table))) := by
  rw [named]
  refine Triple.ite (fun hlen => ?_) fun hlen => ?_
  · exact Triple.pure fun b hb => ⟨iff_of_false Bool.false_ne_true fun h => hlen h.1, hb⟩
  · refine (sameUnits_triple hr hgeo hbytes hcyclic _).post fun r b hb => ⟨?_, hb.2⟩
    rw [hb.1]
    exact (and_iff_right (not_not.mp hlen)).symm

end Upcase

namespace Upcase

variable {geo : Geometry} {extent : Extent} {table : List UInt8} {b : Borrow Upcase}

theorem Mounted.nameHash_eq (hgeo : geo.Valid) (h : Mounted geo extent table b)
    {name : List Nat} {hash : UInt16}
    (hhash : ((nameHash geo name).run b).1 = .ok hash) :
    hash = hashOf (decodeTable (unitsOf table)) name := by
  have hrun := nameHashFrom_triple (reader_of_bytes geo b.io.dev.bytes) hgeo h.bytes
    (.inl fun _ _ hs => hs) 0 name b h.sound
  rw [nameHash] at hhash
  rcases hresult : (nameHashFrom geo 0 name).run b with ⟨e | value, b'⟩ <;>
    rw [hresult] at hhash hrun
  · cases hhash
  · cases hhash
    rw [hrun.1, hashOf, List.foldl_map]

theorem Mounted.named_eq (hgeo : geo.Valid) (h : Mounted geo extent table b)
    {entries : List (List UInt8)} {name : List Nat}
    (hnamed : ((named geo entries name).run b).1 = .ok true) :
    byteAt (entries.getD 1 []) 3 = name.length ∧ ∀ pair ∈ (nameUnits entries).zip name,
      decodeTable (unitsOf table) pair.1 = decodeTable (unitsOf table) pair.2 := by
  have hrun := named_triple (reader_of_bytes geo b.io.dev.bytes) hgeo h.bytes
    (.inl fun _ _ hs => hs) entries name b h.sound
  rcases hresult : (named geo entries name).run b with ⟨e | value, b'⟩ <;>
    rw [hresult] at hnamed hrun
  · cases hnamed
  · cases hnamed
    exact hrun.1.mp rfl

theorem Mounted.named_ok (hgeo : geo.Valid) (h : Mounted geo extent table b)
    (hscript : b.io.dev.script = [])
    (hlen : geo.volumeLen ≤ b.io.dev.size) (hdistinct : Distinct geo b.io.dev.bytes extent)
    (entries : List (List UInt8))
    (name : List Nat) : (∃ hash, ((nameHash geo name).run b).1 = .ok hash) ∧
      ∃ same, ((named geo entries name).run b).1 = .ok same ∧ (same = true ↔
        byteAt (entries.getD 1 []) 3 = name.length ∧ ∀ pair ∈ (nameUnits entries).zip name,
          decodeTable (unitsOf table) pair.1 = decodeTable (unitsOf table) pair.2) := by
  have hreader := reader_of_holds b.io.dev.bytes hgeo hlen
  have hsound : Borrow.Sound (Valid extent (unitsOf table))
      (fun _ => Device.Holds b.io.dev.blockSize b.io.dev.blockCount b.io.dev.bytes) b :=
    ⟨⟨h.io, rfl, rfl, rfl, hscript⟩, h.valid⟩
  have hhash := nameHashFrom_triple hreader hgeo h.bytes (.inr hdistinct) 0 name b hsound
  have hnamed := named_triple hreader hgeo h.bytes (.inr hdistinct) entries name b hsound
  constructor
  · rw [nameHash]
    rcases hrun : (nameHashFrom geo 0 name).run b with ⟨e | hash, b'⟩ <;> rw [hrun] at hhash
    · exact hhash.1.elim
    · exact ⟨hash, rfl⟩
  · rcases hrun : (named geo entries name).run b with ⟨e | same, b'⟩ <;> rw [hrun] at hnamed
    · exact hnamed.1.elim
    · exact ⟨same, rfl, hnamed.1⟩

end Upcase

open Upcase

/-- A set that the comparison of its name with a query accepts, through the volume's table
whatever of it is cached then, is let through by the filter on its length and on the hash of the
query, when it records its own name's hash. -/
theorem prefilter_hides_nothing {geo : Geometry} {extent : Extent} {table : List UInt8}
    (hgeo : geo.Valid) {b b' : Borrow Upcase}
    (hb : Upcase.Mounted geo extent table b) (hb' : Upcase.Mounted geo extent table b')
    {entries : List (List UInt8)} {name : List Nat} {hash : UInt16}
    (hstored : u16At (entries.getD 1 []) 4 =
      (hashOf (decodeTable (unitsOf table)) (nameUnits entries)).toNat)
    (hhash : ((nameHash geo name).run b).1 = .ok hash)
    (hnamed : ((named geo entries name).run b').1 = .ok true) :
    mayBeNamed (entries.getD 1 []) name hash = true := by
  obtain ⟨hlen, hsame⟩ := hb'.named_eq hgeo hnamed
  rw [hb.nameHash_eq hgeo hhash]
  exact mayBeNamed_of_same hstored hlen hsame

def unitSet : List (List UInt8) := [[0x85, 2], [0xC0, 1, 0, 1, 1, 0], [0xC1, 0, 0x01, 0x01]]

theorem prefilter_hides_nothing_sample : ∃ hash : UInt16,
    ((nameHash runGeo [0x100]).run ((indexUpcase runGeo runExtent 0).run runVolume).2).1 =
      .ok hash ∧
      mayBeNamed (unitSet.getD 1 []) [0x100] hash = true := by
  have hmounted := mounted_of_index runGeo_valid runVolume_state runVolume_coherent
    runVolume_holds runVolume_index
  have hdistinct : Distinct runGeo ((indexUpcase runGeo runExtent 0).run runVolume).2.io.dev.bytes
      runExtent := by
    intro i j hij _
    rw [chainAt_contiguous rfl, chainAt_contiguous rfl]
    exact fun h => absurd (Nat.add_left_cancel h) hij.ne
  obtain ⟨⟨hash, hhash⟩, same, hnamed, hsame⟩ :=
    hmounted.named_ok runGeo_valid runVolume_indexed.1 runVolume_indexed.2 hdistinct
    unitSet [0x100]
  have htrue : same = true := hsame.mpr (by decide +kernel)
  rw [htrue] at hnamed
  exact ⟨hash, hhash, prefilter_hides_nothing runGeo_valid hmounted hmounted
    (by decide +kernel) hhash hnamed⟩

end Hadris.Exfat
