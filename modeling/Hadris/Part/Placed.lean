import Hadris.Part.Layout

namespace Hadris.Part

open List

/-- Where a partition is, and its type. -/
structure Place where
  kind : PartitionKind
  region : Region
deriving DecidableEq

def Partition.place (partition : Partition) : Place :=
  ⟨partition.kind, ⟨partition.start, partition.len⟩⟩

def RawGptEntry.place (raw : RawGptEntry) : Place := ⟨.gpt raw.typeGuid, raw.region⟩

namespace DiskLayout

/-- A place is what a layout asks for: of its type, at its start or aligned, and of its size. -/
structure Meets (blockSize : BlockSize) (align : Nat) (spec : PartitionSpec) (place : Place) :
    Prop where
  kind : place.kind = spec.kind
  start : ∀ start, spec.start = some start → place.region.start = start.toNat
  aligned : spec.start = none → align ∣ place.region.start
  size : ∀ n, spec.size.blocksOf blockSize = .ok (some n) → place.region.length = n

theorem le_alignUp {block align : Nat} (halign : 0 < align) (hblock : block < 2 ^ 64) :
    block ≤ alignUp block align := by
  have hceil : block ≤ (block + align - 1) / align * align := by
    have hdiv := Nat.div_add_mod (block + align - 1) align
    have hmod := Nat.mod_lt (block + align - 1) halign
    rw [Nat.mul_comm]
    omega
  rw [alignUp]
  split <;> omega

theorem dvd_alignUp {block align : Nat} (h : alignUp block align + 1 < 2 ^ 64) :
    align ∣ alignUp block align := by
  rw [alignUp] at h ⊢
  split
  · exact Nat.dvd_mul_left align _
  · rename_i hnot
    rw [if_neg hnot] at h
    omega

theorem alignUp_lt (block align : Nat) : alignUp block align < 2 ^ 64 := by
  rw [alignUp]
  split <;> omega

variable {size : Size} {blockSize : BlockSize} {start stop len align cursor : Nat}
  {spec : PartitionSpec}

theorem length_ok (h : length size blockSize start stop = .ok len) :
    0 < len ∧ start + len < 2 ^ 64 ∧ start + len ≤ stop ∧
      (∀ n, size.blocksOf blockSize = .ok (some n) → len = n) ∧
      (size = .remaining → start + len = stop) := by
  rw [length] at h
  obtain ⟨blocks, hblocks, h⟩ := except_bind_ok.mp h
  obtain ⟨len', hlen, h⟩ := except_bind_ok.mp h
  split at h
  · rename_i hfits
    cases h
    rcases hadd : checkedAdd start len with _ | last <;> rw [hadd] at hfits
    · cases hfits
    · obtain ⟨hlt, rfl⟩ := checkedAdd_some.mp hadd
      rw [Option.any_some, decide_eq_true_eq] at hfits
      rcases blocks with _ | n
      · rw [wanted, okOr_ok, Option.filter_eq_some_iff, checkedSub_some,
          decide_eq_true_eq] at hlen
        obtain ⟨⟨hle, hsub⟩, hpos⟩ := hlen
        refine ⟨hpos, hlt, hfits, fun n hn => ?_, fun _ => by omega⟩
        rw [hblocks] at hn
        cases hn
      · rw [wanted] at hlen
        split at hlen
        · cases hlen
        · rename_i hzero
          cases hlen
          refine ⟨Nat.pos_of_ne_zero hzero, hlt, hfits, fun n hn => ?_, fun hremaining => ?_⟩
          · rw [hblocks] at hn
            cases hn
            rfl
          · rw [hremaining] at hblocks
            cases hblocks
  · cases h

theorem startOf_spec (h : startOf spec cursor align + len < 2 ^ 64) (hlen : 0 < len) :
    (∀ start, spec.start = some start → startOf spec cursor align = start.toNat) ∧
      (spec.start = none → align ∣ startOf spec cursor align ∧
        (0 < align → cursor < 2 ^ 64 → cursor ≤ startOf spec cursor align)) := by
  rw [startOf] at h ⊢
  rcases hstart : spec.start with _ | start
  · rw [hstart] at h
    dsimp only at h ⊢
    refine ⟨fun _ h => (by cases h), fun _ => ⟨dvd_alignUp (by omega), le_alignUp⟩⟩
  · refine ⟨fun _ h => (by cases h; rfl), fun h => (by cases h)⟩

theorem edited_run_ok {σ α : Type} {edit : Prog σ TableError α} {table table' : σ} :
    (edited spec edit table).run = some (.ok table') ↔ ∃ a, edit.run table = (.ok a, table') := by
  rw [edited]
  rcases edit.run table with ⟨error | a, t⟩
  · refine ⟨fun h => ?_, fun ⟨_, h⟩ => ?_⟩
    · cases h
    · cases h
  · refine ⟨fun h => ?_, fun ⟨_, h⟩ => ?_⟩
    · cases h
      exact ⟨a, rfl⟩
    · cases h
      rfl

theorem edited_run_ne {σ α : Type} (spec : PartitionSpec) (edit : Prog σ TableError α)
    (table : σ) :
    (edited spec edit table).run ≠ none := by
  rw [edited]
  split <;> exact Option.some_ne_none _

section

variable {gpt gpt' : Gpt} {used free : List RawGptEntry}

/-- The slots of a table that was filled from the first on. -/
structure Filled (gpt : Gpt) (used : List RawGptEntry) : Prop where
  consistent : Gpt.Consistent gpt
  entries : ∃ free, gpt.entries = used ++ free ∧ ∀ raw ∈ free, raw.isUnused = true
  used : ∀ raw ∈ used, raw.isUnused = false

theorem Filled.add {entry : GptEntry} {slot : Nat} (h : Filled gpt used)
    (hadd : (Gpt.add entry).run gpt = (.ok slot, gpt')) :
    Filled gpt' (used ++ [entry.raw]) ∧ gpt.check slot entry = .ok () ∧
      gpt' = { gpt with entries := gpt'.entries } := by
  have hrun := Gpt.table_bind_ok hadd
  obtain ⟨slot', hslot, hrun⟩ := Prog.ofExcept_bind_ok hrun
  obtain ⟨_, hcheck, hrun⟩ := Prog.ofExcept_bind_ok hrun
  cases hrun
  obtain ⟨free, hentries, hfree⟩ := h.entries
  have hkind := (Gpt.check_ok hcheck).1
  have hused : ∀ raw ∈ used ++ [entry.raw], raw.isUnused = false := by
    intro raw hraw
    rcases mem_append.mp hraw with hraw | hraw
    · exact h.used raw hraw
    · rw [mem_singleton.mp hraw]
      exact hkind
  rw [okOr_ok, hentries, findIdx?_append, findIdx?_eq_none_iff.mpr h.used, Option.none_or,
    Option.map_eq_some_iff] at hslot
  obtain ⟨first, hfirst, rfl⟩ := hslot
  rcases free with _ | ⟨spare, free⟩
  · cases hfirst
  · rw [findIdx?_cons, if_pos (hfree spare mem_cons_self)] at hfirst
    cases hfirst
    refine ⟨⟨h.consistent.set_checked hcheck,
      ⟨free, ?_, fun raw hraw => hfree raw (.tail _ hraw)⟩, hused⟩, hcheck, rfl⟩
    change gpt.entries.set (0 + used.length) entry.raw = _
    rw [hentries, Nat.zero_add, set_append_right _ _ (Nat.le_refl _), Nat.sub_self, set_cons_zero,
      append_assoc, singleton_append]

theorem region_raw {entry : GptEntry} {start len : Nat}
    (hstart : entry.start = UInt64.ofNat start)
    (hlen : entry.len = UInt64.ofNat len) (hpos : 0 < len) (hlt : start + len < 2 ^ 64) :
    entry.raw.region = ⟨start, len⟩ := by
  have hsize : UInt64.size = 2 ^ 64 := rfl
  have hstart' : entry.start.toNat = start := by
    rw [hstart]
    exact UInt64.toNat_ofNat_of_lt' (by omega)
  have hlen' : entry.len.toNat = len := by
    rw [hlen]
    exact UInt64.toNat_ofNat_of_lt' (by omega)
  have hlast := @Gpt.raw_lastLba entry (by omega) (by omega)
  rw [RawGptEntry.region, hlast, hstart', hlen',
    show entry.raw.firstLba.toNat = start from hstart']
  congr 1
  omega

/-- What a GPT layout asks of the entry of a partition. -/
def MeetsGpt (blockSize : BlockSize) (align stop : Nat) (spec : PartitionSpec)
    (raw : RawGptEntry) : Prop :=
  Meets blockSize align spec raw.place ∧ (spec.size = .remaining → raw.region.stop = stop)

theorem placeGpt_ok {hybrid : Bool} {diskGuid : Guid} {index : Nat} {specs : List PartitionSpec}
    (h : Filled gpt used) (hstop : stop = gpt.lastUsable + 1)
    (hrun : (placeGpt hybrid diskGuid blockSize align stop index specs cursor gpt).run =
      some (.ok gpt')) :
    ∃ more, Filled gpt' (used ++ more) ∧ gpt' = { gpt with entries := gpt'.entries } ∧
      List.Forall₂ (MeetsGpt blockSize align stop) specs more := by
  induction specs generalizing index cursor gpt used with
  | nil =>
    cases hrun
    refine ⟨[], ?_, rfl, .nil⟩
    rwa [append_nil]
  | cons spec rest ih =>
    rw [placeGpt] at hrun
    rcases hkind : spec.kind with kind | typeGuid <;> rw [hkind] at hrun
    · cases hrun
    · obtain ⟨_, -, hrun⟩ := Checked.bind_run_ok hrun
      obtain ⟨len, hlen, hrun⟩ := Checked.bind_run_ok hrun
      obtain ⟨name, -, hrun⟩ := Checked.bind_run_ok hrun
      obtain ⟨middle, hedit, hrun⟩ := Checked.bind_run_ok hrun
      obtain ⟨next, -, hrun⟩ := Checked.bind_run_ok hrun
      obtain ⟨hpos, hlt, hle, hsize, hremaining⟩ := length_ok (Checked.lift_run_ok.mp hlen)
      obtain ⟨slot, hadd⟩ := edited_run_ok.mp hedit
      obtain ⟨hfilled, hcheck, hsame⟩ := h.add hadd
      obtain ⟨more, hfilled', hsame', hmeets⟩ := ih hfilled (by rw [hsame]; exact hstop) hrun
      rw [append_assoc, singleton_append] at hfilled'
      refine ⟨_, hfilled', by rw [hsame', hsame], .cons ?_ hmeets⟩
      have hregion := @region_raw ⟨typeGuid, spec.uniqueGuid.getD (deriveGuid diskGuid index),
        UInt64.ofNat (startOf spec cursor align), UInt64.ofNat len, name, spec.flags.toGpt 0⟩
        _ _ rfl rfl hpos hlt
      obtain ⟨hgiven, hopen⟩ := startOf_spec hlt hpos
      refine ⟨⟨hkind.symm, ?_, ?_, ?_⟩, ?_⟩
      · rw [RawGptEntry.place, hregion]
        exact hgiven
      · rw [RawGptEntry.place, hregion]
        exact fun hnone => (hopen hnone).1
      · rw [RawGptEntry.place, hregion]
        exact hsize
      · rw [hregion]
        exact hremaining

theorem map_slots {α γ δ : Type} {entries : List α} {p : α → Bool} {f : Nat → α → γ}
    {g : γ → δ} {h : α → δ} (hg : ∀ i, ∀ a ∈ entries, p a = true → g (f i a) = h a) :
    ((List.range entries.length).filterMap fun i => ((entries[i]?).filter p).map (f i)).map g =
      (entries.filter p).map h := by
  induction entries generalizing f with
  | nil => rfl
  | cons a rest ih =>
    have hrest := @ih (fun i => f (i + 1)) fun i b hb hp => hg (i + 1) b (.tail _ hb) hp
    rw [length_cons, range_succ_eq_map, filterMap_cons, filterMap_map]
    have htail : ((fun i => (((a :: rest)[i]?).filter p).map (f i)) ∘ Nat.succ) =
        fun i => ((rest[i]?).filter p).map (f (i + 1)) := by
      funext i
      simp only [Function.comp, Nat.succ_eq_add_one, getElem?_cons_succ]
    rw [htail, getElem?_cons_zero]
    by_cases hp : p a = true
    · have hhead := hg 0 a mem_cons_self hp
      rw [Option.filter_some_pos hp, Option.map_some, filter_cons_of_pos hp]
      simp only [map_cons, hhead, hrest]
    · rw [Option.filter_some_neg (eq_false_of_ne_true hp), Option.map_none, filter_cons_of_neg hp]
      exact hrest

theorem Filled.listing (h : Filled gpt used) :
    gpt.listing.map Partition.place = used.map RawGptEntry.place := by
  obtain ⟨free, hentries, hfree⟩ := h.entries
  have hfilter : gpt.entries.filter (!·.isUnused) = used := by
    rw [hentries, filter_append, filter_eq_self.mpr fun raw hraw => by rw [h.used raw hraw]; rfl,
      filter_eq_nil_iff.mpr fun raw hraw => by rw [hfree raw hraw]; decide, append_nil]
  refine (map_slots (h := RawGptEntry.place) fun i raw hraw hused => ?_).trans (by rw [hfilter])
  rw [Bool.not_eq_true'] at hused
  obtain ⟨hfirst, hle, hlast⟩ := h.consistent.fits raw hraw hused
  have hdevice := h.consistent.device
  have hback := h.consistent.backup
  have harray := h.consistent.backupEntries
  have hblocks := h.consistent.blocks
  have hlen : raw.blockLen = raw.lastLba.toNat + 1 - raw.firstLba.toNat := by
    rw [RawGptEntry.blockLen, if_neg (by rw [UInt64.lt_iff_toNat_lt]; omega), saturatingAdd]
    omega
  rw [Partition.place, Partition.fromGpt, RawGptEntry.place, RawGptEntry.region, hlen]

theorem Filled.new {diskGuid : Guid} {blockCount : UInt64}
    (h : Gpt.new diskGuid blockCount blockSize = .ok gpt) : Filled gpt [] := by
  refine ⟨Gpt.new_consistent h, ⟨gpt.entries, rfl, fun raw hraw => ?_⟩,
    fun raw hraw => (by cases hraw)⟩
  rw [Gpt.new] at h
  obtain ⟨_, -, h⟩ := except_bind_ok.mp h
  obtain ⟨last, -, h⟩ := except_bind_ok.mp h
  cases h
  rw [eq_of_mem_replicate hraw, Gpt.default_isUnused]

end

section

variable {mbr mbr' : Mbr} {raws : List RawMbrEntry}

def primaryPlace (raw : RawMbrEntry) : Place := ⟨.mbr raw.kind, raw.region⟩

/-- The slots of a record that was filled from the first on. -/
structure FilledMbr (mbr : Mbr) (raws : List RawMbrEntry) : Prop where
  consistent : Mbr.Consistent mbr
  entries : ∃ rest, ofFn mbr.primary = raws ++ rest ∧ ∀ raw ∈ rest, raw.isEmpty = true
  used : ∀ raw ∈ raws, raw.isEmpty = false

theorem ofFn_update (primary : Fin 4 → RawMbrEntry) (slot : Fin 4) (raw : RawMbrEntry) :
    ofFn (Function.update primary slot raw) = (ofFn primary).set slot raw := by
  apply ext_getElem
  · rw [length_set, length_ofFn, length_ofFn]
  · intro i hi _
    rw [length_ofFn] at hi
    rw [getElem_set, List.getElem_ofFn, List.getElem_ofFn]
    by_cases hslot : slot.val = i
    · rw [if_pos hslot, show (⟨i, hi⟩ : Fin 4) = slot from Fin.ext hslot.symm,
        Function.update_self]
    · rw [if_neg hslot, Function.update_of_ne fun h => hslot (congrArg Fin.val h).symm]

theorem FilledMbr.slot {slot : Fin 4} (h : FilledMbr mbr raws)
    (hslot : (finRange 4).find? (fun slot => (mbr.primary slot).isEmpty) = some slot) :
    slot.val = raws.length := by
  obtain ⟨rest, hentries, hrest⟩ := h.entries
  have hget : ∀ slot : Fin 4, (raws ++ rest)[slot.val]? = some (mbr.primary slot) := by
    intro slot
    rw [← hentries, List.getElem?_ofFn, dif_pos slot.isLt]
  obtain ⟨hempty, i, hi, hfound, hbefore⟩ := find?_eq_some_iff_getElem.mp hslot
  rw [getElem_finRange] at hfound
  have hindex : slot.val = i := by
    rw [← hfound]
    rfl
  rcases Nat.lt_trichotomy slot.val raws.length with hlt | heq | hgt
  · have hraw := hget slot
    rw [getElem?_append_left hlt] at hraw
    have hused := h.used _ (mem_of_getElem? hraw)
    rw [hused] at hempty
    cases hempty
  · exact heq
  · have hraw := hget ⟨raws.length, by omega⟩
    rw [getElem?_append_right (Nat.le_refl _)] at hraw
    have hfree := hrest _ (mem_of_getElem? hraw)
    have hnot := hbefore raws.length (by omega)
    rw [getElem_finRange] at hnot
    rw [show (Fin.cast _ ⟨raws.length, _⟩ : Fin 4) = ⟨raws.length, _⟩ from rfl, hfree] at hnot
    cases hnot

theorem FilledMbr.add {entry : MbrEntry} {k : Nat} (h : FilledMbr mbr raws)
    (hadd : (Mbr.add entry).run mbr = (.ok k, mbr')) :
    FilledMbr mbr' (raws ++ [primaryEntry entry]) ∧
      mbr' = { mbr with primary := mbr'.primary } ∧
      ∃ slot, mbr.checkPrimary slot entry = .ok () := by
  have hconsistent := Mbr.add_consistent h.consistent hadd
  have hrun := Mbr.table_bind_ok hadd
  obtain ⟨slot, hslot, hrun⟩ := Prog.ofExcept_bind_ok hrun
  obtain ⟨_, hcheck, hrun⟩ := Prog.ofExcept_bind_ok hrun
  cases hrun
  have hindex := h.slot (okOr_ok.mp hslot)
  obtain ⟨rest, hentries, hrest⟩ := h.entries
  have hkind := (Mbr.checkPrimary_ok hcheck).1
  refine ⟨⟨hconsistent, ?_, ?_⟩, rfl, slot, hcheck⟩
  · refine ⟨rest.tail, ?_, fun raw hraw => hrest raw (mem_of_mem_tail hraw)⟩
    change ofFn (Function.update mbr.primary slot (primaryEntry entry)) = _
    have hlength := congrArg List.length hentries
    rw [length_ofFn, length_append] at hlength
    rw [ofFn_update, hentries, hindex, set_append_right _ _ (Nat.le_refl _), Nat.sub_self,
      append_assoc, singleton_append]
    rcases rest with _ | ⟨spare, rest⟩
    · have hlt := slot.isLt
      rw [length_nil] at hlength
      omega
    · rfl
  · intro raw hraw
    rcases mem_append.mp hraw with hraw | hraw
    · exact h.used raw hraw
    · rw [mem_singleton.mp hraw]
      exact hkind

/-- What an MBR layout asks of a primary partition. -/
structure MeetsPrimary (blockSize : BlockSize) (align stop : Nat) (spec : PartitionSpec)
    (raw : RawMbrEntry) : Prop where
  meets : Meets blockSize align spec (primaryPlace raw)
  front : spec.start ≠ some 0 → 0 < raw.region.start
  remaining : spec.size = .remaining →
    raw.region.stop = min stop (raw.region.start + (2 ^ 32 - 1))

theorem region_primaryEntry {slot : Fin 4} {entry : MbrEntry} {start len : Nat}
    (hcheck : mbr.checkPrimary slot entry = .ok ()) (hstart : entry.start = UInt64.ofNat start)
    (hlen : entry.len = UInt64.ofNat len) (hlt : start < 2 ^ 64) (hlt' : len < 2 ^ 64) :
    (primaryEntry entry).region = ⟨start, len⟩ ∧ len < 2 ^ 32 := by
  have hsize : UInt64.size = 2 ^ 64 := rfl
  obtain ⟨-, -, -, hstart32, hlen32, -, -, -⟩ := Mbr.checkPrimary_ok hcheck
  obtain ⟨hfirst, hcount⟩ := Mbr.span_primaryEntry hstart32 hlen32
  have hstart' : entry.start.toNat = start := by
    rw [hstart]
    exact UInt64.toNat_ofNat_of_lt' (by omega)
  have hlen' : entry.len.toNat = len := by
    rw [hlen]
    exact UInt64.toNat_ofNat_of_lt' (by omega)
  rw [RawMbrEntry.region, hfirst, hcount, hstart', hlen']
  exact ⟨rfl, by omega⟩

theorem placePrimaries_ok {specs : List PartitionSpec} {last : Nat} (h : FilledMbr mbr raws)
    (halign : 0 < align) (hcursor : 0 < cursor) (hlt : cursor < 2 ^ 64)
    (hspecs : ∀ spec ∈ specs, checkSpec spec = .ok ())
    (hrun : (placePrimaries blockSize align stop specs cursor mbr).run =
      some (.ok (last, mbr'))) :
    ∃ more, FilledMbr mbr' (raws ++ more) ∧ mbr' = { mbr with primary := mbr'.primary } ∧
      List.Forall₂ (MeetsPrimary blockSize align stop) specs more := by
  induction specs generalizing cursor mbr raws with
  | nil =>
    cases hrun
    refine ⟨[], ?_, rfl, .nil⟩
    rwa [append_nil]
  | cons spec rest ih =>
    rw [placePrimaries] at hrun
    obtain ⟨len, hlen, hrun⟩ := Checked.bind_run_ok hrun
    obtain ⟨middle, hedit, hrun⟩ := Checked.bind_run_ok hrun
    obtain ⟨next, hnext, hrun⟩ := Checked.bind_run_ok hrun
    obtain ⟨hpos, hsum, hle, hsize, hremaining⟩ := length_ok (Checked.lift_run_ok.mp hlen)
    obtain ⟨k, hadd⟩ := edited_run_ok.mp hedit
    obtain ⟨hfilled, hsame, slot, hcheck⟩ := h.add hadd
    obtain ⟨hsum', rfl⟩ := Checked.add_run_ok.mp hnext
    -- what is left of the length when the table cannot hold it
    have hlen' : ∀ len', len' = (if spec.size = .remaining then min len (2 ^ 32 - 1) else len) →
        0 < len' ∧ len' ≤ len ∧ (spec.size ≠ .remaining → len' = len) ∧
          (spec.size = .remaining → len' = min len (2 ^ 32 - 1)) := by
      rintro len' rfl
      split <;> refine ⟨?_, ?_, ?_, ?_⟩ <;> intros <;> first | omega | contradiction
    obtain ⟨hpos', hle', hkeep, hclamp⟩ := hlen' _ rfl
    generalize (if spec.size = .remaining then min len (2 ^ 32 - 1) else len) = len' at *
    obtain ⟨kind, hkind⟩ : ∃ kind, spec.kind = .mbr kind := by
      have hspec := hspecs spec mem_cons_self
      rw [checkSpec] at hspec
      rcases hkind : spec.kind with kind | guid <;> rw [hkind] at hspec
      · exact ⟨kind, rfl⟩
      · cases hspec
    have hentry : entry spec (startOf spec cursor align) len' =
        ⟨kind, UInt64.ofNat (startOf spec cursor align), UInt64.ofNat len', spec.flags⟩ := by
      rw [entry, hkind]
    rw [hentry] at hcheck hfilled
    obtain ⟨hregion, -⟩ := region_primaryEntry hcheck rfl rfl (by omega) (by omega)
    obtain ⟨hgiven, hopen⟩ := startOf_spec hsum hpos
    obtain ⟨more, hfilled', hsame', hmeets⟩ := ih hfilled (by omega) hsum'
      (fun spec hspec => hspecs spec (.tail _ hspec)) hrun
    rw [append_assoc, singleton_append] at hfilled'
    refine ⟨_, hfilled', by rw [hsame', hsame], .cons ⟨⟨hkind.symm, ?_, ?_, ?_⟩, ?_, ?_⟩ hmeets⟩
    · rw [primaryPlace, hregion]
      exact hgiven
    · rw [primaryPlace, hregion]
      exact fun hnone => (hopen hnone).1
    · rw [primaryPlace, hregion]
      intro n hn
      by_cases hrest : spec.size = .remaining
      · rw [hrest] at hn
        cases hn
      · exact (hkeep hrest).trans (hsize n hn)
    · rw [hregion]
      intro hne
      dsimp only
      rcases hstart : spec.start with _ | start
      · have hge := (hopen hstart).2 halign hlt
        omega
      · rw [hgiven start hstart]
        refine Nat.pos_of_ne_zero fun hzero => hne ?_
        rw [hstart, UInt64.toNat_inj.mp (show start.toNat = (0 : UInt64).toNat from hzero)]
    · rw [hregion]
      intro hrest
      have hstop := hremaining hrest
      rw [hclamp hrest]
      change startOf spec cursor align + min len (2 ^ 32 - 1) = min stop
        (startOf spec cursor align + _)
      omega

def logicalPlace (p : PartitionSpec × Nat × Nat) : Place := ⟨p.1.kind, ⟨p.2.1, p.2.2⟩⟩

/-- What an MBR layout asks of a logical partition. -/
structure MeetsLogical (blockSize : BlockSize) (align extStart stop : Nat)
    (p : PartitionSpec × Nat × Nat) : Prop where
  meets : Meets blockSize align p.1 (logicalPlace p)
  after : extStart < p.2.1
  positive : 0 < p.2.2
  sum : p.2.1 + p.2.2 < 2 ^ 64
  inside : p.2.1 + p.2.2 ≤ stop
  remaining : p.1.size = .remaining →
    p.2.2 = min (stop - p.2.1) (max (2 ^ 32 - 1 - (p.2.1 - extStart)) 1)

theorem placeLogicals_ok {specs : List PartitionSpec} {k ebr extStart : Nat}
    {placed : List (PartitionSpec × Nat × Nat)}
    (hrun : (placeLogicals blockSize align extStart stop k specs ebr).run = some (.ok placed)) :
    placed.map Prod.fst = specs ∧ ∀ p ∈ placed, MeetsLogical blockSize align extStart stop p := by
  induction specs generalizing k ebr placed with
  | nil =>
    cases hrun
    exact ⟨rfl, fun _ h => (by cases h)⟩
  | cons spec rest ih =>
    rw [placeLogicals] at hrun
    obtain ⟨_, hafter, hrun⟩ := Checked.bind_run_ok hrun
    obtain ⟨len, hlen, hrun⟩ := Checked.bind_run_ok hrun
    obtain ⟨len', hlen', hrun⟩ := Checked.bind_run_ok hrun
    obtain ⟨next, hnext, hrun⟩ := Checked.bind_run_ok hrun
    obtain ⟨tail, htail, hrun⟩ := Checked.bind_run_ok hrun
    cases hrun
    rw [Checked.reject_run_ok, decide_eq_false_iff_not, Nat.not_le] at hafter
    obtain ⟨hpos, hsum, hle, hsize, hremaining⟩ := length_ok (Checked.lift_run_ok.mp hlen)
    obtain ⟨hgiven, hopen⟩ := startOf_spec hsum hpos
    obtain ⟨hsum', rfl⟩ := Checked.add_run_ok.mp hnext
    obtain ⟨hspecs, hmeets⟩ := ih htail
    generalize startOf spec (saturatingAdd ebr 1) align = start at *
    have hclamp : 0 < len' ∧ len' ≤ len ∧ (spec.size ≠ .remaining → len' = len) ∧
        (spec.size = .remaining → len' = min len (max (2 ^ 32 - 1 - (start - extStart)) 1)) := by
      rw [logicalLen] at hlen'
      split at hlen'
      · rename_i hrest
        obtain ⟨offset, hoffset, hlen'⟩ := Checked.bind_run_ok hlen'
        obtain ⟨-, rfl⟩ := Checked.sub_run_ok.mp hoffset
        cases hlen'
        exact ⟨by omega, by omega, fun h => absurd hrest h, fun _ => rfl⟩
      · rename_i hrest
        cases hlen'
        exact ⟨hpos, Nat.le_refl _, fun _ => rfl, fun h => absurd h hrest⟩
    obtain ⟨hpos', hle', hkeep, hclamp⟩ := hclamp
    refine ⟨by rw [map_cons, hspecs], fun p hp => ?_⟩
    rcases mem_cons.mp hp with rfl | hp
    · refine ⟨⟨rfl, hgiven, fun hnone => (hopen hnone).1, fun n hn => ?_⟩, hafter,
        hpos', hsum', ?_, ?_⟩
      · by_cases hrest : spec.size = .remaining
        · rw [hrest] at hn
          cases hn
        · exact (hkeep hrest).trans (hsize n hn)
      · dsimp only
        omega
      · intro hrest
        have hstop := hremaining hrest
        dsimp only
        rw [hclamp hrest, show len = stop - start by omega]
    · exact hmeets p hp

theorem lastStop_ok {placed : List (PartitionSpec × Nat × Nat)} {last : Nat}
    (h : (lastStop placed).run = some (.ok last)) :
    last < 2 ^ 64 ∧ ∀ p ∈ placed, p.2.1 + p.2.2 ≤ last := by
  induction placed generalizing last with
  | nil =>
    cases h
    exact ⟨by decide, fun _ h => (by cases h)⟩
  | cons p rest ih =>
    obtain ⟨spec, start, len⟩ := p
    rw [lastStop] at h
    obtain ⟨stop, hstop, h⟩ := Checked.bind_run_ok h
    obtain ⟨later, hlater, h⟩ := Checked.bind_run_ok h
    cases h
    obtain ⟨hlt, rfl⟩ := Checked.add_run_ok.mp hstop
    obtain ⟨hlt', hle⟩ := ih hlater
    refine ⟨max_lt hlt hlt', fun p hp => ?_⟩
    rcases mem_cons.mp hp with rfl | hp
    · exact Nat.le_max_left _ _
    · exact Nat.le_trans (hle p hp) (Nat.le_max_right _ _)

def Logical.place (logical : Logical) : Place := ⟨.mbr logical.kind, logical.region⟩

theorem placeLogicals_perm {extStart extEnd : Nat} {logical placed : List Logical}
    (h : Part.placeLogicals extStart extEnd logical = .ok placed) :
    (placed.map Logical.place).Perm (logical.map Logical.place) := by
  rw [Part.placeLogicals] at h
  obtain ⟨_, -, h⟩ := except_bind_ok.mp h
  obtain ⟨-, hsame, -⟩ := placeFrom_ok h
  have hsorted := (mergeSort_perm logical fun a b => decide (a.start ≤ b.start)).map Logical.place
  have hplaces : ∀ {before after : List Logical}, List.Forall₂ SamePlace before after →
      after.map Logical.place = before.map Logical.place := by
    intro before after hsame
    induction hsame with
    | nil => rfl
    | cons hhead _ ih =>
      rw [map_cons, map_cons, ih]
      rw [SamePlace] at hhead
      rw [hhead]
      rfl
  rw [hplaces hsame]
  exact hsorted

theorem addLogicals_ok {placed : List (PartitionSpec × Nat × Nat)}
    (hplaced : ∀ p ∈ placed, ∃ kind, p.1.kind = .mbr kind)
    (hlt : ∀ p ∈ placed, p.2.1 + p.2.2 < 2 ^ 64)
    (h : mbr.Consistent) (hrun : (addLogicals placed mbr).run = some (.ok mbr')) :
    mbr'.Consistent ∧ mbr' = { mbr with logical := mbr'.logical } ∧
      (mbr'.logical.map Logical.place).Perm
        (mbr.logical.map Logical.place ++ placed.map logicalPlace) := by
  induction placed generalizing mbr with
  | nil =>
    cases hrun
    refine ⟨h, rfl, ?_⟩
    rw [map_nil, append_nil]
  | cons p rest ih =>
    obtain ⟨spec, start, len⟩ := p
    rw [addLogicals] at hrun
    obtain ⟨middle, hedit, hrun⟩ := Checked.bind_run_ok hrun
    obtain ⟨k, hadd⟩ := edited_run_ok.mp hedit
    have hconsistent := Mbr.addLogical_consistent h hadd
    obtain ⟨extStart, extEnd, placed, -, -, -, -, hlogical, rfl⟩ := Mbr.addLogical_ok hadd
    obtain ⟨hfinal, hsame, hperm⟩ := ih (fun p hp => hplaced p (.tail _ hp))
      (fun p hp => hlt p (.tail _ hp)) hconsistent hrun
    refine ⟨hfinal, hsame, hperm.trans ?_⟩
    obtain ⟨kind, hkind⟩ := hplaced _ mem_cons_self
    have hsum := hlt _ mem_cons_self
    have hsize : UInt64.size = 2 ^ 64 := rfl
    dsimp only at hkind hsum
    have hnew : Logical.place ⟨0, (entry spec start len).start.toNat,
        (entry spec start len).len.toNat,
          (entry spec start len).kind, (entry spec start len).flags.toMbr⟩ =
            logicalPlace (spec, start, len) := by
      rw [entry, hkind]
      simp only [Logical.place, Logical.region, logicalPlace, hkind]
      rw [UInt64.toNat_ofNat_of_lt' (by omega), UInt64.toNat_ofNat_of_lt' (by omega)]
    have hplaces := placeLogicals_perm hlogical
    rw [map_append, map_singleton, hnew] at hplaces
    have hall := hplaces.append_right (rest.map logicalPlace)
    rwa [append_assoc, singleton_append] at hall

theorem logical_len (h : mbr.Consistent) {logical : Logical} (hlogical : logical ∈ mbr.logical) :
    logical.len < UInt32.size := by
  obtain ⟨slot, hslot⟩ := h.owned (ne_nil_of_mem hlogical)
  obtain ⟨i, hi, hget⟩ := getElem_of_mem hlogical
  obtain ⟨hebr, hstart, hstop⟩ := linked_fields (h.chain slot hslot).1
    (hget ▸ getElem?_eq_getElem hi)
  have hcount := (mbr.primary slot).sectorCount.toNat_lt
  have hsize : UInt32.size = 2 ^ 32 := rfl
  simp only [Mbr.span] at hebr hstop
  omega

theorem mbr_listing {ext : List RawMbrEntry} (h : FilledMbr mbr (raws ++ ext))
    (hplain : ∀ raw ∈ raws, raw.kind.isExtended = false)
    (hext : ∀ raw ∈ ext, raw.kind.isExtended = true) :
    mbr.partitions.map Partition.place = raws.map primaryPlace ++
      mbr.logical.map Logical.place := by
  obtain ⟨rest, hentries, hrest⟩ := h.entries
  have hprimary : ((List.range 4).filterMap mbr.listed).map Partition.place =
      raws.map primaryPlace := by
    have hlisted : ∀ i ∈ List.range 4, mbr.listed i =
        (((ofFn mbr.primary)[i]?).filter fun raw => !raw.isEmpty && !raw.kind.isExtended).map
          fun raw => Partition.fromMbr i raw.startLba.toNat raw mbr.blockSize := by
      intro i hi
      have hlt := mem_range.mp hi
      rw [List.getElem?_ofFn, dif_pos hlt, Mbr.listed, Mbr.entry,
        dif_pos (show i < firstLogical from hlt)]
      generalize mbr.primary ⟨i, _⟩ = raw
      rcases hempty : raw.isEmpty <;> rcases hextended : raw.kind.isExtended <;>
        simp [Option.filter, hempty, hextended, hlt, firstLogical, Partition.fromMbr]
    rw [filterMap_congr hlisted]
    have hlength : (ofFn mbr.primary).length = 4 := length_ofFn
    have hmap := @map_slots _ _ _ (ofFn mbr.primary)
      (fun raw => !raw.isEmpty && !raw.kind.isExtended)
      (fun i raw => Partition.fromMbr i raw.startLba.toNat raw mbr.blockSize)
        Partition.place primaryPlace
      fun _ _ _ _ => rfl
    rw [hlength] at hmap
    rw [hmap, hentries, filter_append, filter_append,
      filter_eq_self.mpr fun raw hraw => by
        rw [h.used raw (mem_append_left _ hraw), hplain raw hraw]
        rfl,
      filter_eq_nil_iff.mpr fun raw hraw => by
        rw [hext raw hraw, Bool.not_true, Bool.and_false]
        exact Bool.false_ne_true,
      filter_eq_nil_iff.mpr fun raw hraw => by
        rw [hrest raw hraw, Bool.not_true, Bool.false_and]
        exact Bool.false_ne_true,
      append_nil, append_nil]
  have hlogical : ((List.range mbr.logical.length).filterMap fun j => mbr.listed (4 + j)).map
      Partition.place =
        mbr.logical.map Logical.place := by
    have hlisted : ∀ j ∈ List.range mbr.logical.length, mbr.listed (4 + j) =
        ((mbr.logical[j]?).filter fun _ => true).map fun logical =>
          Partition.fromMbr (4 + j) logical.start logical.entry mbr.blockSize := by
      intro j _
      rw [Mbr.listed, Mbr.entry, dif_neg
        (show ¬ 4 + j < firstLogical from Nat.not_lt.mpr (Nat.le_add_right 4 j)),
        show 4 + j - firstLogical = j from Nat.add_sub_cancel_left 4 j]
      rcases mbr.logical[j]? with _ | logical
      · rfl
      · simp [Option.filter, firstLogical, show ¬ 4 + j < 4 by omega]
    rw [filterMap_congr hlisted]
    refine (@map_slots _ _ _ mbr.logical (fun _ => true) (fun j logical =>
      Partition.fromMbr (4 + j) logical.start logical.entry mbr.blockSize)
        Partition.place Logical.place
      fun j logical hlogical _ => ?_).trans (by rw [filter_eq_self.mpr fun _ _ => rfl])
    have hlen := logical_len h.consistent hlogical
    rw [Partition.place, Partition.fromMbr, Logical.place, Logical.region, Logical.entry]
    dsimp only
    rw [UInt32.toNat_ofNat_of_lt' hlen]
  rw [Mbr.partitions, partitionsBelow, range_add, filterMap_append, map_append]
  change ((List.range 4).filterMap mbr.listed).map Partition.place ++ _ = _
  rw [hprimary, filterMap_map]
  exact congrArg (_ ++ ·) hlogical

end

/-! No sum or difference of a layout leaves `u64`. -/

theorem placeGpt_ne (hybrid : Bool) (diskGuid : Guid) (index : Nat) (specs : List PartitionSpec)
    (cursor : Nat) (gpt : Gpt) :
    (placeGpt hybrid diskGuid blockSize align stop index specs cursor gpt).run ≠ none := by
  induction specs generalizing index cursor gpt with
  | nil => exact Option.some_ne_none _
  | cons spec rest ih =>
    rw [placeGpt]
    split
    · exact Checked.lift_run_ne _
    · refine Checked.bind_run_ne (Checked.lift_run_ne _) fun _ _ => ?_
      refine Checked.bind_run_ne (Checked.lift_run_ne _) fun len hlen => ?_
      refine Checked.bind_run_ne (Checked.lift_run_ne _) fun _ _ => ?_
      refine Checked.bind_run_ne (edited_run_ne _ _ _) fun _ _ => ?_
      refine Checked.bind_run_ne (Checked.add_run_ne ?_) fun _ _ => ih _ _ _
      exact (length_ok (Checked.lift_run_ok.mp hlen)).2.1

theorem placePrimaries_ne (specs : List PartitionSpec) (cursor : Nat) (mbr : Mbr) :
    (placePrimaries blockSize align stop specs cursor mbr).run ≠ none := by
  induction specs generalizing cursor mbr with
  | nil => exact Option.some_ne_none _
  | cons spec rest ih =>
    rw [placePrimaries]
    refine Checked.bind_run_ne (Checked.lift_run_ne _) fun len hlen => ?_
    refine Checked.bind_run_ne (edited_run_ne _ _ _) fun _ _ => ?_
    refine Checked.bind_run_ne (Checked.add_run_ne ?_) fun _ _ => ih _ _
    have hsum := (length_ok (Checked.lift_run_ok.mp hlen)).2.1
    split <;> omega

theorem logicalLen_spec {spec : PartitionSpec} {extStart : Nat} (h : extStart < start) :
    (logicalLen spec extStart start len).run ≠ none ∧
      ∀ len', (logicalLen spec extStart start len).run = some (.ok len') → len' ≤ len := by
  rw [logicalLen, Checked.sub_of_le h.le]
  split
  · refine ⟨Option.some_ne_none _, fun len' hlen => ?_⟩
    cases hlen
    exact Nat.min_le_left _ _
  · refine ⟨Option.some_ne_none _, fun len' hlen => ?_⟩
    cases hlen
    exact Nat.le_refl _

theorem placeLogicals_ne (extStart k : Nat) (specs : List PartitionSpec) (ebr : Nat) :
    (placeLogicals blockSize align extStart stop k specs ebr).run ≠ none := by
  induction specs generalizing k ebr with
  | nil => exact Option.some_ne_none _
  | cons spec rest ih =>
    rw [placeLogicals]
    refine Checked.bind_run_ne (Checked.lift_run_ne _) fun _ hafter => ?_
    rw [Checked.reject_run_ok, decide_eq_false_iff_not, Nat.not_le] at hafter
    refine Checked.bind_run_ne (Checked.lift_run_ne _) fun len hlen => ?_
    obtain ⟨hne, hle⟩ := @logicalLen_spec _ len spec _ hafter
    refine Checked.bind_run_ne hne fun len' hlen' => ?_
    refine Checked.bind_run_ne (Checked.add_run_ne ?_) fun _ _ => ?_
    · have hsum := (length_ok (Checked.lift_run_ok.mp hlen)).2.1
      have hle' := hle len' hlen'
      omega
    · exact Checked.bind_run_ne (ih _ _) fun _ _ => Option.some_ne_none _

theorem lastStop_ne {placed : List (PartitionSpec × Nat × Nat)}
    (h : ∀ p ∈ placed, p.2.1 + p.2.2 < 2 ^ 64) : (lastStop placed).run ≠ none := by
  induction placed with
  | nil => exact Option.some_ne_none _
  | cons p rest ih =>
    obtain ⟨spec, start, len⟩ := p
    rw [lastStop]
    refine Checked.bind_run_ne (Checked.add_run_ne (h _ mem_cons_self)) fun _ _ => ?_
    exact Checked.bind_run_ne (ih fun p hp => h p (.tail _ hp)) fun _ _ => Option.some_ne_none _

theorem addLogicals_ne (placed : List (PartitionSpec × Nat × Nat)) (mbr : Mbr) :
    (addLogicals placed mbr).run ≠ none := by
  induction placed generalizing mbr with
  | nil => exact Option.some_ne_none _
  | cons p rest ih =>
    obtain ⟨spec, start, len⟩ := p
    rw [addLogicals]
    exact Checked.bind_run_ne (edited_run_ne _ _ _) fun _ _ => ih _

variable {layout : DiskLayout} {blockCount : UInt64}

theorem buildGpt_ne (hybrid : Bool) (diskGuid : Guid) :
    (layout.buildGpt hybrid diskGuid blockCount blockSize align).run ≠ none := by
  rw [buildGpt]
  refine Checked.bind_run_ne (Checked.lift_run_ne _) fun gpt hgpt => ?_
  refine Checked.bind_run_ne (Checked.add_run_ne ?_) fun _ _ => placeGpt_ne _ _ _ _ _ _
  have hconsistent := Gpt.new_consistent (Checked.lift_run_ok.mp hgpt)
  have hback := hconsistent.backupEntries
  have hbackup := hconsistent.backup
  have hdevice := hconsistent.device
  have hblocks := hconsistent.blocks
  omega

theorem buildMbr_ne : (layout.buildMbr blockCount blockSize align).run ≠ none := by
  rw [buildMbr]
  refine Checked.bind_run_ne (Checked.lift_run_ne _) fun mbr _ => ?_
  refine Checked.bind_run_ne (Checked.lift_run_ne _) fun _ _ => ?_
  refine Checked.bind_run_ne (placePrimaries_ne _ _ _) fun ⟨cursor, mbr⟩ _ => ?_
  rcases layout.partitions.drop layout.primaries with _ | ⟨first, rest⟩
  · exact Option.some_ne_none _
  · refine Checked.bind_run_ne (placeLogicals_ne _ _ _ _) fun placed hplaced => ?_
    obtain ⟨hspecs, hmeets⟩ := placeLogicals_ok hplaced
    refine Checked.bind_run_ne (lastStop_ne fun p hp => (hmeets p hp).sum) fun last hlast => ?_
    refine Checked.bind_run_ne (Checked.sub_run_ne ?_) fun _ _ => ?_
    · rcases placed with _ | ⟨p, placed⟩
      · cases hspecs
      · have hafter := (hmeets p mem_cons_self).after
        have hle := (lastStop_ok hlast).2 p mem_cons_self
        omega
    · exact Checked.bind_run_ne (edited_run_ne _ _ _) fun _ _ => addLogicals_ne _ _

theorem build_ne : (layout.build blockCount blockSize).run ≠ none := by
  rw [build]
  refine Checked.bind_run_ne (Checked.lift_run_ne _) fun _ _ => ?_
  refine Checked.bind_run_ne (Checked.lift_run_ne _) fun align _ => ?_
  refine Checked.bind_run_ne (Checked.lift_run_ne _) fun _ _ => ?_
  rcases layout.scheme with _ | diskGuid | diskGuid
  · exact Checked.bind_run_ne buildMbr_ne fun _ _ => Option.some_ne_none _
  · exact Checked.bind_run_ne (buildGpt_ne _ _) fun _ _ => Option.some_ne_none _
  · refine Checked.bind_run_ne (buildGpt_ne _ _) fun gpt _ => ?_
    refine Checked.bind_run_ne (Checked.lift_run_ne _) fun _ _ => ?_
    exact Checked.bind_run_ne (Checked.lift_run_ne _) fun _ _ => Option.some_ne_none _

def structuresOf : PartitionTable → List Region
  | .mbr mbr => mbr.ebrBlocks
  | .gpt gpt => gpt.structures
  | .hybrid hybrid => hybrid.gpt.structures

/-- The block after a partition that takes what remains: the end of the usable area, or where
the lengths of an MBR do not reach further. -/
def Reaches (layout : DiskLayout) (k : Nat) (place : Place) : PartitionTable → Prop
  | .mbr mbr =>
    if k < layout.primaries then place.region.stop = min mbr.blockCount
      (place.region.start + (2 ^ 32 - 1))
    else ∃ extStart extEnd, mbr.extendedRange = some (extStart, extEnd) ∧
      place.region.stop = min mbr.blockCount (extStart + (2 ^ 32 - 1))
  | .gpt gpt => place.region.stop = gpt.lastUsable + 1
  | .hybrid hybrid => place.region.stop = hybrid.gpt.lastUsable + 1

def ordered (layout : DiskLayout) : Nat :=
  match layout.scheme with
  | .mbr => layout.primaries
  | _ => layout.partitions.length

/-- Every partition of a layout has its place in a table. -/
structure Laid (layout : DiskLayout) (blockSize : BlockSize) (align : Nat)
    (table : PartitionTable) (places : List Place) : Prop where
  count : places.length = layout.partitions.length
  meets : ∀ (k : Nat) (spec : PartitionSpec) (place : Place), layout.partitions[k]? = some spec →
    places[k]? = some place →
    Meets blockSize align spec place
  remaining : ∀ (k : Nat) (spec : PartitionSpec) (place : Place), layout.partitions[k]? =
    some spec → places[k]? = some place →
    spec.size = .remaining → layout.Reaches k place table
  order : ∃ logical, table.partitions.map Partition.place =
    places.take layout.ordered ++ logical ∧
    logical.Perm (places.drop layout.ordered) ∧ (logical.map Place.region).Pairwise Region.Before
  apart : (places.map Place.region).Pairwise Region.Apart
  structures : ∀ area ∈ structuresOf table, ∀ place ∈ places, area.Apart place.region
  record : ∀ (k : Nat) (spec : PartitionSpec) (place : Place), layout.partitions[k]? = some spec →
    places[k]? = some place →
    (layout.scheme = .mbr → spec.start ≠ some 0) → (⟨0, 1⟩ : Region).Apart place.region

theorem forall₂_get {α β : Type} {R : α → β → Prop} {as : List α} {bs : List β}
    (h : List.Forall₂ R as bs)
    {k : Nat} {a : α} {b : β} (ha : as[k]? = some a) (hb : bs[k]? = some b) : R a b := by
  obtain ⟨hk, rfl⟩ := List.getElem?_eq_some_iff.mp ha
  obtain ⟨hk', rfl⟩ := List.getElem?_eq_some_iff.mp hb
  exact List.Forall₂.get h hk hk'

theorem Filled.laid {gpt : Gpt} {used : List RawGptEntry} {table : PartitionTable}
    (h : Filled gpt used)
    (hmeets : List.Forall₂ (MeetsGpt blockSize align (gpt.lastUsable + 1)) layout.partitions used)
    (hordered : layout.ordered = layout.partitions.length)
    (hlisting : table.partitions = gpt.listing)
    (hstructures : structuresOf table = gpt.structures)
    (hreaches : ∀ k place, place.region.stop = gpt.lastUsable + 1 →
      layout.Reaches k place table) :
    Laid layout blockSize align table (used.map RawGptEntry.place) := by
  have hsound := h.consistent.sound
  have hget : ∀ (k : Nat) (spec : PartitionSpec) (place : Place),
      layout.partitions[k]? = some spec →
        (used.map RawGptEntry.place)[k]? = some place →
          ∃ raw ∈ used, place = raw.place ∧
            MeetsGpt blockSize align (gpt.lastUsable + 1) spec raw := by
    intro k spec place hspec hplace
    rw [getElem?_map, Option.map_eq_some_iff] at hplace
    obtain ⟨raw, hraw, rfl⟩ := hplace
    exact ⟨raw, mem_of_getElem? hraw, rfl, forall₂_get hmeets hspec hraw⟩
  have hlength : (used.map RawGptEntry.place).length = layout.partitions.length := by
    rw [length_map, hmeets.length_eq]
  have hused : gpt.partitions = used := by
    obtain ⟨free, hentries, hfree⟩ := h.entries
    rw [Gpt.partitions, hentries, filter_append,
      filter_eq_self.mpr fun raw hraw => by rw [h.used raw hraw]; rfl,
      filter_eq_nil_iff.mpr fun raw hraw => by rw [hfree raw hraw]; decide, append_nil]
  have hinside : ∀ raw ∈ used, raw.region.Within gpt.usableArea := by
    rw [← hused]
    exact hsound.inside
  have hapart := hsound.apart
  rw [hused] at hapart
  refine ⟨hlength, fun k spec place hspec hplace => ?_, fun k spec place hspec hplace hrest => ?_,
    ⟨[], ?_, ?_, .nil⟩, ?_, fun area harea place hplace => ?_,
      fun k spec place hspec hplace _ => ?_⟩
  · obtain ⟨raw, -, rfl, hraw⟩ := hget k spec place hspec hplace
    exact hraw.1
  · obtain ⟨raw, -, rfl, hraw⟩ := hget k spec place hspec hplace
    exact hreaches k _ (hraw.2 hrest)
  · rw [hlisting, h.listing, hordered, ← hlength, take_length, append_nil]
  · rw [hordered, ← hlength, drop_length]
  · rw [map_map]
    exact pairwise_map.mpr hapart
  · obtain ⟨raw, hraw, rfl⟩ := mem_map.mp hplace
    rw [hstructures] at harea
    exact ((hinside raw hraw).apart (hsound.outside area harea).symm).symm
  · obtain ⟨raw, hraw, rfl, -⟩ := hget k spec place hspec hplace
    have hwithin := (hinside raw hraw).1
    have hfirst := h.consistent.firstUsable
    change gpt.firstUsable ≤ raw.region.start at hwithin
    refine .inl ?_
    change 0 + 1 ≤ raw.region.start
    omega

theorem buildGpt_ok {hybrid : Bool} {diskGuid : Guid} {gpt : Gpt}
    (h : (layout.buildGpt hybrid diskGuid blockCount blockSize align).run = some (.ok gpt)) :
    ∃ used, Filled gpt used ∧
      List.Forall₂ (MeetsGpt blockSize align (gpt.lastUsable + 1)) layout.partitions used := by
  rw [buildGpt] at h
  obtain ⟨start, hstart, h⟩ := Checked.bind_run_ok h
  obtain ⟨stop, hstop, h⟩ := Checked.bind_run_ok h
  obtain ⟨-, rfl⟩ := Checked.add_run_ok.mp hstop
  obtain ⟨used, hfilled, hsame, hmeets⟩ :=
    placeGpt_ok (.new (Checked.lift_run_ok.mp hstart)) rfl h
  rw [nil_append] at hfilled
  refine ⟨used, hfilled, ?_⟩
  rw [hsame]
  exact hmeets

theorem sublist_chainAreas (logical : List Logical) :
    (logical.map Logical.region).Sublist (chainAreas logical) := by
  induction logical with
  | nil => exact List.Sublist.refl _
  | cons logical rest ih => exact .cons _ (.cons_cons _ ih)

theorem logical_before {mbr : Mbr} (h : mbr.Consistent) :
    (mbr.logical.map Logical.region).Pairwise Region.Before := by
  by_cases hnone : mbr.logical = []
  · rw [hnone]
    exact .nil
  · obtain ⟨slot, hslot⟩ := h.owned hnone
    exact (linked_areas (h.chain slot hslot).1).1.sublist (sublist_chainAreas _)

section

variable {mbr : Mbr} {raws ext : List RawMbrEntry} {placed : List (PartitionSpec × Nat × Nat)}
  {extStart : Nat}

theorem FilledMbr.primaries (h : FilledMbr mbr raws) : mbr.primaries = raws := by
  obtain ⟨rest, hentries, hrest⟩ := h.entries
  rw [Mbr.primaries, ← ofFn_eq_map, hentries, filter_append,
    filter_eq_self.mpr fun raw hraw => by rw [h.used raw hraw]; rfl,
    filter_eq_nil_iff.mpr fun raw hraw => by rw [hrest raw hraw]; decide, append_nil]

theorem mbr_apart (h : FilledMbr mbr (raws ++ ext))
    (hplain : ∀ raw ∈ raws, raw.kind.isExtended = false)
    (hlogical : (mbr.logical.map Logical.place).Perm (placed.map logicalPlace)) :
    ((raws.map primaryPlace ++ placed.map logicalPlace).map Place.region).Pairwise Region.Apart ∧
      ∀ area ∈ mbr.ebrBlocks, ∀ place ∈ raws.map primaryPlace ++ placed.map logicalPlace,
        area.Apart place.region := by
  have hsound := h.consistent.sound
  have hprimaries := hsound.apart
  rw [h.primaries, pairwise_append] at hprimaries
  have hregions := hlogical.map Place.region
  have hbefore : ((mbr.logical.map Logical.place).map Place.region).Pairwise Region.Before := by
    rw [map_map]
    exact logical_before h.consistent
  have harea : ∀ place ∈ placed.map logicalPlace, place.region ∈ mbr.extendedAreas := by
    intro place hplace
    obtain ⟨logical, hmem, rfl⟩ := mem_map.mp (hlogical.mem_iff.mpr hplace)
    exact mem_append_right _ (mem_map_of_mem hmem)
  have hused : ∀ raw ∈ raws, raw ∈ mbr.primaries := by
    intro raw hraw
    rw [h.primaries]
    exact mem_append_left _ hraw
  refine ⟨?_, fun area hebr place hplace => ?_⟩
  · rw [map_append, pairwise_append]
    refine ⟨?_, (hregions.pairwise_iff Region.Apart.symm).mp (hbefore.imp .inl),
      fun a ha b hb => ?_⟩
    · rw [map_map]
      exact pairwise_map.mpr hprimaries.1
    · rw [map_map] at ha
      obtain ⟨raw, hraw, rfl⟩ := mem_map.mp ha
      obtain ⟨place, hplace, rfl⟩ := mem_map.mp hb
      exact (hsound.beside _ (harea place hplace) raw (hused raw hraw) (hplain raw hraw)).symm
  · rcases mem_append.mp hplace with hplace | hplace
    · obtain ⟨raw, hraw, rfl⟩ := mem_map.mp hplace
      exact hsound.beside area (mem_append_left _ hebr) raw (hused raw hraw) (hplain raw hraw)
    · obtain ⟨logical, hmem, rfl⟩ := mem_map.mp (hlogical.mem_iff.mpr hplace)
      exact (pairwise_append.mp hsound.extendedApart).2.2 area hebr _ (mem_map_of_mem hmem)

theorem checkSpec_ok {spec : PartitionSpec} (h : checkSpec spec = .ok ()) :
    ∃ kind, spec.kind = .mbr kind ∧ kind.isExtended = false := by
  rw [checkSpec] at h
  rcases hkind : spec.kind with kind | guid <;> rw [hkind] at h
  · obtain ⟨_, -, hextended⟩ := except_bind_ok.mp h
    rw [ensure_ok, Bool.not_eq_true'] at hextended
    exact ⟨kind, rfl, hextended⟩
  · cases h

theorem FilledMbr.laid (h : FilledMbr mbr (raws ++ ext)) (hscheme : layout.scheme = .mbr)
    (hspecs : ∀ spec ∈ layout.partitions, checkSpec spec = .ok ())
    (hprimaries : List.Forall₂ (MeetsPrimary blockSize align mbr.blockCount)
      (layout.partitions.take layout.primaries) raws)
    (hext : ∀ raw ∈ ext, raw.kind.isExtended = true)
    (hplaced : placed.map Prod.fst = layout.partitions.drop layout.primaries)
    (hmeets : ∀ p ∈ placed, MeetsLogical blockSize align extStart mbr.blockCount p)
    (hlogical : (mbr.logical.map Logical.place).Perm (placed.map logicalPlace))
    (hroom : ∀ p ∈ placed, p.2.1 + p.2.2 ≤ extStart + (2 ^ 32 - 1) ∧
      ∃ extEnd, mbr.extendedRange = some (extStart, extEnd)) :
    Laid layout blockSize align (.mbr mbr)
      (raws.map primaryPlace ++ placed.map logicalPlace) := by
  have hle : layout.primaries ≤ layout.partitions.length := by
    rw [DiskLayout.primaries]
    split <;> omega
  have hraws : raws.length = layout.primaries := by
    rw [← hprimaries.length_eq, length_take, Nat.min_eq_left hle]
  have hordered : layout.ordered = layout.primaries := by
    rw [ordered, hscheme]
  have hleft : (raws.map primaryPlace).length = layout.primaries := by rw [length_map, hraws]
  -- a partition is one of the record or a logical one
  have hget : ∀ (k : Nat) (spec : PartitionSpec) (place : Place),
      layout.partitions[k]? = some spec →
        (raws.map primaryPlace ++ placed.map logicalPlace)[k]? = some place →
          (k < layout.primaries ∧ ∃ raw ∈ raws, place = primaryPlace raw ∧
            MeetsPrimary blockSize align mbr.blockCount spec raw) ∨
          (¬ k < layout.primaries ∧ ∃ p ∈ placed, p.1 = spec ∧ place = logicalPlace p) := by
    intro k spec place hspec hplace
    rcases Nat.lt_or_ge k layout.primaries with hk | hk
    · rw [getElem?_append_left (by rw [hleft]; exact hk), getElem?_map, Option.map_eq_some_iff]
        at hplace
      obtain ⟨raw, hraw, rfl⟩ := hplace
      refine .inl ⟨hk, raw, mem_of_getElem? hraw, rfl, forall₂_get hprimaries ?_ hraw⟩
      rw [getElem?_take_of_lt hk]
      exact hspec
    · rw [getElem?_append_right (by rw [hleft]; exact hk), hleft, getElem?_map,
        Option.map_eq_some_iff] at hplace
      obtain ⟨p, hp, rfl⟩ := hplace
      refine .inr ⟨Nat.not_lt.mpr hk, p, mem_of_getElem? hp, ?_, rfl⟩
      have hfst : (placed.map Prod.fst)[k - layout.primaries]? = some p.1 := by
        rw [getElem?_map, hp]
        rfl
      rw [hplaced, getElem?_drop, Nat.add_sub_of_le hk, hspec] at hfst
      exact (Option.some.inj hfst).symm
  have hplain : ∀ raw ∈ raws, raw.kind.isExtended = false := by
    intro raw hraw
    obtain ⟨k, hk, hraw⟩ := getElem_of_mem hraw
    have hk' : k <
      (layout.partitions.take layout.primaries).length := by rwa [hprimaries.length_eq]
    have hmeet := forall₂_get hprimaries (getElem?_eq_getElem hk') (hraw ▸ getElem?_eq_getElem hk)
    obtain ⟨kind, hkind, hextended⟩ :=
      checkSpec_ok (hspecs _ (mem_of_mem_take (getElem_mem hk')))
    have hsame : PartitionKind.mbr raw.kind = .mbr kind := hmeet.meets.kind.trans hkind
    cases hsame
    exact hextended
  obtain ⟨hapart, hstructures⟩ := mbr_apart h hplain hlogical
  refine ⟨?_, fun k spec place hspec hplace => ?_, fun k spec place hspec hplace hrest => ?_,
    ⟨mbr.logical.map Logical.place, ?_, ?_, ?_⟩, hapart, hstructures,
    fun k spec place hspec hplace hfront => ?_⟩
  · have hlength := congrArg List.length hplaced
    rw [length_map, length_drop] at hlength
    rw [length_append, hleft, length_map, hlength]
    omega
  · rcases hget k spec place hspec hplace with ⟨-, raw, -, rfl, hraw⟩ | ⟨-, p, hp, rfl, rfl⟩
    · exact hraw.meets
    · exact (hmeets p hp).meets
  · rcases hget k spec place hspec hplace with ⟨hk, raw, -, rfl, hraw⟩ | ⟨hk, p, hp, rfl, rfl⟩
    · rw [Reaches, if_pos hk]
      exact hraw.remaining hrest
    · obtain ⟨hfits, extEnd, hrange⟩ := hroom p hp
      rw [Reaches, if_neg hk]
      refine ⟨extStart, extEnd, hrange, ?_⟩
      have hlen := (hmeets p hp).remaining hrest
      have hafter := (hmeets p hp).after
      have hpositive := (hmeets p hp).positive
      have hinside := (hmeets p hp).inside
      change p.2.1 + p.2.2 = min mbr.blockCount (extStart + (2 ^ 32 - 1))
      omega
  · change mbr.partitions.map Partition.place = _
    rw [mbr_listing h hplain hext, hordered, take_append_of_le_length (by rw [hleft]),
      take_of_length_le (by rw [hleft])]
  · rw [hordered, ← hleft, drop_left]
    exact hlogical
  · rw [map_map]
    exact logical_before h.consistent
  · refine .inl ?_
    rcases hget k spec place hspec hplace with ⟨-, raw, -, rfl, hraw⟩ | ⟨-, p, hp, rfl, rfl⟩
    · exact hraw.front (hfront hscheme)
    · change 0 + 1 ≤ p.2.1
      have hafter := (hmeets p hp).after
      omega

end

theorem FilledMbr.new {mbr : Mbr} (h : Mbr.new blockCount blockSize = .ok mbr) :
    FilledMbr mbr [] ∧ mbr.logical = [] ∧ mbr.blockCount = blockCount.toNat := by
  have hconsistent := Mbr.new_consistent h
  rw [Mbr.new] at h
  obtain ⟨_, -, h⟩ := except_bind_ok.mp h
  cases h
  refine ⟨⟨hconsistent, ⟨ofFn fun _ : Fin 4 => RawMbrEntry.default, rfl, ?_⟩,
    fun _ h => (by cases h)⟩, rfl, rfl⟩
  exact forall_mem_ofFn_iff.mpr fun _ => by decide

theorem forM_checkSpec {specs : List PartitionSpec} (h : specs.forM checkSpec = .ok ()) :
    ∀ spec ∈ specs, checkSpec spec = .ok () := by
  induction specs with
  | nil => exact fun _ h => (by cases h)
  | cons spec rest ih =>
    replace h : (checkSpec spec >>= fun _ => rest.forM checkSpec) = .ok () := h
    obtain ⟨_, hspec, h⟩ := except_bind_ok.mp h
    intro spec hmem
    rcases mem_cons.mp hmem with rfl | hmem
    · exact hspec
    · exact ih h spec hmem

section

variable {mbr mbr' : Mbr} {raws : List RawMbrEntry} {ext : RawMbrEntry}

theorem FilledMbr.extendedRange (h : FilledMbr mbr (raws ++ [ext]))
    (hext : ext.kind.isExtended = true) : mbr.extendedRange = some (Mbr.span ext) := by
  obtain ⟨rest, hentries, hrest⟩ := h.entries
  have hmem : ext ∈ ofFn mbr.primary := by
    rw [hentries]
    exact mem_append_left _ (mem_append_right _ mem_cons_self)
  obtain ⟨owner, howner⟩ := (mem_ofFn' _ _).mp hmem
  rcases hrange : mbr.extendedRange with _ | ⟨extStart, extEnd⟩
  · have hnot := Mbr.extendedRange_none hrange owner
    rw [howner, hext] at hnot
    cases hnot
  · obtain ⟨slot, hslot, hspan⟩ := Mbr.extendedRange_some hrange
    rw [h.consistent.single slot owner hslot (by rw [howner]; exact hext), howner] at hspan
    rw [hspan]

theorem buildMbr_ok (hscheme : layout.scheme = .mbr) (halign : 0 < align) (hlt : align < 2 ^ 64)
    (h : (layout.buildMbr blockCount blockSize align).run = some (.ok mbr)) :
    ∃ places, Laid layout blockSize align (.mbr mbr) places := by
  rw [buildMbr] at h
  obtain ⟨empty, hempty, h⟩ := Checked.bind_run_ok h
  obtain ⟨_, hforM, h⟩ := Checked.bind_run_ok h
  obtain ⟨⟨cursor, record⟩, hrecord, h⟩ := Checked.bind_run_ok h
  obtain ⟨hnew, hlogical, hcount⟩ := FilledMbr.new (Checked.lift_run_ok.mp hempty)
  have hspecs := forM_checkSpec (Checked.lift_run_ok.mp hforM)
  obtain ⟨raws, hfilled, hsame, hprimaries⟩ := placePrimaries_ok hnew halign halign hlt
    (fun spec hspec => hspecs spec (mem_of_mem_take hspec)) hrecord
  rw [nil_append] at hfilled
  have hlogical' : record.logical = [] := by rw [hsame, ← hlogical]
  have hcount' : record.blockCount = blockCount.toNat := by rw [hsame, ← hcount]
  rw [← hcount'] at hprimaries
  rcases hdrop : layout.partitions.drop layout.primaries with _ | ⟨first, rest⟩ <;>
    rw [hdrop] at h
  · cases h
    rw [← append_nil raws] at hfilled
    refine ⟨_, @FilledMbr.laid _ _ _ _ raws [] [] 0 hfilled hscheme hspecs hprimaries
      (fun _ h => (by cases h))
      hdrop.symm (fun _ h => (by cases h)) ?_ fun _ h => (by cases h)⟩
    rw [hlogical']
    exact .nil
  · obtain ⟨placed, hplaced, h⟩ := Checked.bind_run_ok h
    obtain ⟨last, hlast, h⟩ := Checked.bind_run_ok h
    obtain ⟨extLen, hextLen, h⟩ := Checked.bind_run_ok h
    obtain ⟨table, hedit, hrest⟩ := Checked.bind_run_ok h
    obtain ⟨hle, rfl⟩ := Checked.sub_run_ok.mp hextLen
    obtain ⟨hmap, hmeets⟩ := placeLogicals_ok hplaced
    obtain ⟨hlastlt, hends⟩ := lastStop_ok hlast
    obtain ⟨k, hadd⟩ := edited_run_ok.mp hedit
    obtain ⟨hfilled', hsame', slot, hcheck⟩ := hfilled.add hadd
    obtain ⟨hregion, hextlt⟩ := region_primaryEntry hcheck rfl rfl (alignUp_lt cursor align)
      (show last - alignUp cursor align < 2 ^ 64 by omega)
    generalize hextRaw : primaryEntry ⟨.extendedLba, UInt64.ofNat (alignUp cursor align),
      UInt64.ofNat (last - alignUp cursor align), ⟨0⟩⟩ = ext at hfilled' hregion
    have hext : ext.kind.isExtended = true := by
      rw [← hextRaw]
      rfl
    have hkinds : ∀ p ∈ placed, ∃ kind, p.1.kind = .mbr kind := by
      intro p hp
      have hspec : p.1 ∈ layout.partitions := by
        have hmem := mem_map_of_mem (f := Prod.fst) hp
        rw [hmap, ← hdrop] at hmem
        exact mem_of_mem_drop hmem
      obtain ⟨kind, hkind, -⟩ := checkSpec_ok (hspecs p.1 hspec)
      exact ⟨kind, hkind⟩
    obtain ⟨hconsistent, hsame'', hperm⟩ := addLogicals_ok hkinds (fun p hp => (hmeets p hp).sum)
      hfilled'.consistent hrest
    have hfinal : FilledMbr mbr (raws ++ [ext]) := by
      refine ⟨hconsistent, ?_, hfilled'.used⟩
      rw [hsame'']
      exact hfilled'.entries
    have hblocks : mbr.blockCount = record.blockCount := by rw [hsame'', hsame']
    have hnone : table.logical = [] := by rw [hsame', ← hlogical']
    have hrange := hfinal.extendedRange hext
    rw [RawMbrEntry.region, Region.mk.injEq] at hregion
    rw [Mbr.span, hregion.1, hregion.2] at hrange
    rw [hnone, map_nil, nil_append] at hperm
    rw [← hblocks] at hprimaries hcount'
    rw [← hcount'] at hmeets
    refine ⟨_, hfinal.laid hscheme hspecs hprimaries (fun raw hraw => ?_)
      (hmap.trans hdrop.symm) hmeets hperm
      fun p hp => ⟨?_, _, hrange⟩⟩
    · rw [mem_singleton.mp hraw]
      exact hext
    · have hend := hends p hp
      omega

end

theorem blocksOf_bounds {alignment : Alignment} (h : alignment.blocksOf blockSize = .ok align) :
    0 < align ∧ align < 2 ^ 64 := by
  rcases alignment with _ | _ | n
  · cases h
    decide
  · cases h
    have hdiv := Nat.div_le_self (1 <<< 20) blockSize.bytes
    have hshift : 1 <<< 20 < 2 ^ 64 := by decide
    omega
  · rw [Alignment.blocksOf] at h
    split at h
    · cases h
    · rename_i hzero
      cases h
      refine ⟨Nat.pos_of_ne_zero fun h => hzero (UInt64.toNat_inj.mp h), n.toNat_lt⟩

/-- A layout that is built has every partition in its place, and no arithmetic overflows in
building one. -/
theorem build_places (layout : DiskLayout) (blockCount : UInt64) (blockSize : BlockSize) :
    (layout.build blockCount blockSize).run ≠ none ∧
      ∀ disk, (layout.build blockCount blockSize).run = some (.ok disk) →
        ∃ align places, layout.alignment.blocksOf blockSize = .ok align ∧
          Laid layout blockSize align disk.table places := by
  refine ⟨build_ne, fun disk h => ?_⟩
  rw [build] at h
  obtain ⟨_, -, h⟩ := Checked.bind_run_ok h
  obtain ⟨align, halign, h⟩ := Checked.bind_run_ok h
  obtain ⟨_, -, h⟩ := Checked.bind_run_ok h
  rw [Checked.lift_run_ok] at halign
  obtain ⟨hpos, hlt⟩ := blocksOf_bounds halign
  refine ⟨align, ?_⟩
  rcases hscheme : layout.scheme with _ | diskGuid | diskGuid <;> rw [hscheme] at h
  · obtain ⟨mbr, hmbr, h⟩ := Checked.bind_run_ok h
    cases h
    obtain ⟨places, hlaid⟩ := buildMbr_ok hscheme hpos hlt hmbr
    exact ⟨places, halign, hlaid⟩
  · obtain ⟨gpt, hgpt, h⟩ := Checked.bind_run_ok h
    cases h
    obtain ⟨used, hfilled, hmeets⟩ := buildGpt_ok hgpt
    exact ⟨_, halign, hfilled.laid hmeets (by rw [ordered, hscheme]) rfl rfl fun _ _ h => h⟩
  · obtain ⟨gpt, hgpt, h⟩ := Checked.bind_run_ok h
    obtain ⟨config, -, h⟩ := Checked.bind_run_ok h
    obtain ⟨hybrid, hhybrid, h⟩ := Checked.bind_run_ok h
    cases h
    obtain ⟨used, hfilled, hmeets⟩ := buildGpt_ok hgpt
    have hsame : hybrid.gpt = gpt := (Hybrid.new_entries (Checked.lift_run_ok.mp hhybrid)).1
    exact ⟨_, halign, hfilled.laid hmeets (by rw [ordered, hscheme])
      (by rw [← hsame]; rfl) (by rw [← hsame]; rfl) fun _ _ h => by rw [← hsame] at h; exact h⟩

section Samples

def sampleSize : BlockSize := ⟨512, sectorBytes_pos, sectorBytes_lt⟩

def sampleSpec (size : Size) (start : Option UInt64) : PartitionSpec where
  kind := .mbr ⟨0x83⟩
  size := size
  start := start
  name := none
  uniqueGuid := none
  flags := ⟨0⟩
  mirror := none

def crossedLayout : DiskLayout where
  scheme := .mbr
  alignment := .block
  partitions :=
    [sampleSpec (.blocks 10) none, sampleSpec (.bytes 5000) none, sampleSpec (.kib 5) none,
    sampleSpec (.blocks 10) (some 200), sampleSpec (.blocks 10) (some 100)]

def crossedRecord : Mbr :=
  let add := fun start mbr => ((Mbr.add ⟨⟨0x83⟩, start, 10, ⟨0⟩⟩).run mbr).2
  add 21 (add 11 (add 1 ⟨1000, sampleSize, fun _ => .default, []⟩))

def crossedTable : Mbr := ((Mbr.add ⟨.extendedLba, 31, 179, ⟨0⟩⟩).run crossedRecord).2

theorem mergeSort_of_perm {logical sorted : List Logical} (hperm : sorted.Perm logical)
    (hsorted : sorted.Pairwise fun a b => a.start < b.start) :
    (logical.mergeSort fun a b => decide (a.start ≤ b.start)) = sorted := by
  have hmem : (logical.mergeSort fun a b => decide (a.start ≤ b.start)).Perm sorted :=
    (mergeSort_perm _ _).trans hperm.symm
  refine hmem.eq_of_pairwise (fun a b ha hb hab hba => ?_) ?_
    (hsorted.imp le_of_lt)
  · by_contra hne
    have hdiffer : sorted.Pairwise fun a b => a.start ≠ b.start := hsorted.imp ne_of_lt
    have : Std.Symm fun a b : Logical => a.start ≠ b.start := ⟨fun _ _ h => h.symm⟩
    exact hdiffer.forall (hmem.mem_iff.mp ha) hb hne (Nat.le_antisymm hab hba)
  · refine (pairwise_mergeSort (fun a b c hab hbc => ?_) (fun a b => ?_) _).imp fun h =>
      of_decide_eq_true h
    · rw [decide_eq_true_eq] at *
      exact Nat.le_trans hab hbc
    · rw [Bool.or_eq_true, decide_eq_true_eq, decide_eq_true_eq]
      exact Nat.le_total _ _

theorem addLogical_run {mbr : Mbr} {entry : MbrEntry} {extStart extEnd : Nat}
    {placed : List Logical}
    (hkind : (entry.kind.isEmpty || entry.kind.isExtended || entry.kind.isProtective) = false)
    (hflags : checkFlags entry.flags = .ok ())
    (hrange : mbr.extendedRange = some (extStart, extEnd))
    (hplaced : Part.placeLogicals extStart extEnd (mbr.logical ++
      [⟨0, entry.start.toNat, entry.len.toNat, entry.kind, entry.flags.toMbr⟩]) = .ok placed) :
    ∃ k, (Mbr.addLogical entry).run mbr = (.ok k, { mbr with logical := placed }) := by
  refine ⟨firstLogical + (placed.findIdx? (·.start == entry.start.toNat)).getD 0, ?_⟩
  have hok : ∀ {α : Type} {r : Except TableError α} {a : α}, r = .ok a →
      ∀ mbr : Mbr, (Prog.ofExcept r : Mbr.Run α).run mbr = (.ok a, mbr) := by
    rintro α r a rfl mbr
    rfl
  have hensure :
      ensure (!(entry.kind.isEmpty || entry.kind.isExtended || entry.kind.isProtective))
        (TableError.invalid .kind) = .ok () := by
    rw [hkind]
    rfl
  rw [Mbr.addLogical, Prog.run_bind_ok (show Mbr.table.run mbr = (.ok mbr, mbr) from rfl),
    Prog.run_bind_ok (hok hensure mbr), Prog.run_bind_ok (hok hflags mbr),
    Prog.run_bind_ok (hok (okOr_ok.mpr hrange) mbr)]
  exact Prog.run_bind_ok (hok hplaced mbr) _

def crossedLogicals : List Logical := [⟨31, 100, 10, ⟨0x83⟩, 0⟩, ⟨199, 200, 10, ⟨0x83⟩, 0⟩]

theorem crossed_placed : Part.placeLogicals 31 210
    [⟨31, 200, 10, ⟨0x83⟩, 0⟩, ⟨0, 100, 10, ⟨0x83⟩, 0⟩] =
    .ok crossedLogicals := by
  rw [Part.placeLogicals, @mergeSort_of_perm [⟨31, 200, 10, ⟨0x83⟩, 0⟩, ⟨0, 100, 10, ⟨0x83⟩, 0⟩]
    [⟨0, 100, 10, ⟨0x83⟩, 0⟩, ⟨31, 200, 10, ⟨0x83⟩, 0⟩] (List.Perm.swap _ _ _) (by decide)]
  rfl

theorem crossed_built : (crossedLayout.build 1000 sampleSize).run =
    some (.ok (.new (.mbr { crossedTable with logical := crossedLogicals }))) := by
  have hrecord : (placePrimaries sampleSize 1 1000 (crossedLayout.partitions.take 3) 1
      ⟨1000, sampleSize, fun _ => .default, []⟩).run = some (.ok (31, crossedRecord)) := by
    rfl
  obtain ⟨k, hfirst⟩ := @addLogical_run crossedTable ⟨⟨0x83⟩, 200, 10, ⟨0⟩⟩ 31 210
    [⟨31, 200, 10, ⟨0x83⟩, 0⟩] (by decide) (by decide) (by decide) (by decide +kernel)
  obtain ⟨l, hsecond⟩ := @addLogical_run
    { crossedTable with logical := [⟨31, 200, 10, ⟨0x83⟩, 0⟩] }
    ⟨⟨0x83⟩, 100, 10, ⟨0⟩⟩ 31 210 _ (by decide) (by decide) (by decide) crossed_placed
  have hlogical : (addLogicals [(sampleSpec (.blocks 10) (some 200), 200, 10),
      (sampleSpec (.blocks 10) (some 100), 100, 10)] crossedTable).run =
      some (.ok { crossedTable with logical := crossedLogicals }) := by
    refine Eq.trans (Checked.bind_run_of_ok (edited_run_ok.mpr ⟨k, hfirst⟩)) ?_
    exact Checked.bind_run_of_ok (edited_run_ok.mpr ⟨l, hsecond⟩)
  have hmbr : (crossedLayout.buildMbr 1000 sampleSize 1).run =
      some (.ok { crossedTable with logical := crossedLogicals }) := by
    refine Eq.trans (Checked.bind_run_of_ok (a := ⟨1000, sampleSize, fun _ => .default, []⟩) rfl)
      ?_
    refine Eq.trans (Checked.bind_run_of_ok (a := ()) rfl) ?_
    exact Eq.trans (Checked.bind_run_of_ok hrecord) hlogical
  refine Eq.trans (Checked.bind_run_of_ok (a := ()) rfl) ?_
  refine Eq.trans (Checked.bind_run_of_ok (a := 1) rfl) ?_
  refine Eq.trans (Checked.bind_run_of_ok (a := ()) rfl) ?_
  exact Checked.bind_run_of_ok hmbr

def coveringLayout : DiskLayout where
  scheme := .mbr
  alignment := .mib1
  partitions := [sampleSpec (.blocks 10) (some 0)]

/-- The logical partitions of an MBR are listed in the order of their blocks, and a partition may
cover the record itself. -/
theorem not_in_request_order_nor_apart :
    (¬ ∀ (layout : DiskLayout) (blockCount : UInt64) (blockSize : BlockSize) (disk : Disk),
      (layout.build blockCount blockSize).run = some (.ok disk) →
        ∃ align, layout.alignment.blocksOf blockSize = .ok align ∧
          Laid layout blockSize align disk.table (disk.table.partitions.map Partition.place)) ∧
    ¬ ∀ (layout : DiskLayout) (blockCount : UInt64) (blockSize : BlockSize) (disk : Disk),
      (layout.build blockCount blockSize).run = some (.ok disk) →
        ∀ place ∈ disk.table.partitions.map Partition.place,
          (⟨0, 1⟩ : Region).Apart place.region := by
  constructor
  · intro hall
    obtain ⟨align, -, hlaid⟩ := hall crossedLayout 1000 sampleSize _ crossed_built
    have hmeets := hlaid.meets 3 (sampleSpec (.blocks 10) (some 200)) ⟨.mbr ⟨0x83⟩, ⟨100, 10⟩⟩ rfl
      (by decide)
    exact absurd (hmeets.start 200 rfl) (by decide)
  · intro hall
    have hreturns : (coveringLayout.build 1000 sampleSize).returns = true := by decide
    obtain ⟨disk, hrun⟩ := Checked.run_of_returns hreturns
    have hlisted : (coveringLayout.build 1000 sampleSize).run.map
        (·.map fun disk => disk.table.partitions.map Partition.place) =
          some (.ok [⟨.mbr ⟨0x83⟩, ⟨0, 10⟩⟩]) := by
      decide
    rw [hrun] at hlisted
    have hplaces := Except.ok.inj (Option.some.inj hlisted)
    have hmem : ⟨.mbr ⟨0x83⟩, ⟨0, 10⟩⟩ ∈ disk.table.partitions.map Partition.place := by
      rw [show disk.table.partitions.map Partition.place = _ from hplaces]
      exact mem_singleton_self _
    exact absurd (hall coveringLayout 1000 sampleSize disk hrun _ hmem) (by decide)

def filledLayout : DiskLayout where
  scheme := .mbr
  alignment := .block
  partitions := [sampleSpec (.bytes 5000) none, sampleSpec .remaining none]

theorem build_places_sample : ∃ disk, (filledLayout.build 1000 sampleSize).run = some (.ok disk) ∧
    ∃ align places, filledLayout.alignment.blocksOf sampleSize = .ok align ∧
      Laid filledLayout sampleSize align disk.table places := by
  have hreturns : (filledLayout.build 1000 sampleSize).returns = true := by decide
  obtain ⟨disk, hrun⟩ := Checked.run_of_returns hreturns
  exact ⟨disk, hrun, (build_places filledLayout 1000 sampleSize).2 disk hrun⟩

end Samples

end DiskLayout

end Hadris.Part
