import Hadris.Cpio.HardLinks
import Hadris.Cpio.Visit

namespace Hadris.Cpio

open List

theorem getElem?_concat {α : Type} {l : List α} {x y : α} {k : Nat} :
    (l ++ [x])[k]? = some y ↔ l[k]? = some y ∨ k = l.length ∧ y = x := by
  rcases Nat.lt_trichotomy k l.length with hlt | heq | hgt
  · rw [getElem?_append_left hlt]
    exact ⟨.inl, fun h => h.resolve_right fun hk => absurd hk.1 (Nat.ne_of_lt hlt)⟩
  · subst heq
    rw [getElem?_concat_length, getElem?_eq_none (Nat.le_refl _)]
    constructor
    · intro h
      cases h
      exact .inr ⟨rfl, rfl⟩
    · rintro (h | ⟨_, rfl⟩)
      · cases h
      · rfl
  · rw [getElem?_eq_none (by rw [length_append, length_singleton]; omega),
      getElem?_eq_none (Nat.le_of_lt hgt)]
    constructor
    · intro h
      cases h
    · rintro (h | ⟨h, _⟩)
      · cases h
      · omega

theorem getElem?_concat_pair {α β : Type} {l : List α} {m : List β} {x a : α} {y b : β} {k : Nat}
    (hlen : m.length = l.length) (ha : (l ++ [x])[k]? = some a) (hb : (m ++ [y])[k]? = some b) :
    (l[k]? = some a ∧ m[k]? = some b ∧ k < l.length) ∨ (k = l.length ∧ a = x ∧ b = y) := by
  rcases getElem?_concat.mp ha with ha | ⟨rfl, rfl⟩
  · have hlt := (List.getElem?_eq_some_iff.mp ha).1
    rcases getElem?_concat.mp hb with hb | ⟨rfl, _⟩
    · exact .inl ⟨ha, hb, hlt⟩
    · omega
  · rcases getElem?_concat.mp hb with hb | ⟨_, rfl⟩
    · have hlt := (List.getElem?_eq_some_iff.mp hb).1
      omega
    · exact .inr ⟨rfl, rfl, rfl⟩

/-- A place in a tree: its path and its slot. -/
abbrev Place : Type := List (List UInt8) × Nat

/-- A regular file that has other names. -/
def IsGroup (slot : Slot) : Prop := slot.node.fileType = .file ∧ 1 < slot.links

instance (slot : Slot) : Decidable (IsGroup slot) := inferInstanceAs (Decidable (_ ∧ _))

def times (done : List Place) (id : Nat) : Nat := (done.filter fun place => place.2 = id).length

def positions (done : List Place) (id : Nat) : List Nat :=
  (done.zipIdx.filter fun place => place.1.2 = id).map Prod.snd

theorem times_concat (done : List Place) (place : Place) (id : Nat) :
    times (done ++ [place]) id = times done id + if place.2 = id then 1 else 0 := by
  rw [times, times, filter_append, length_append]
  congr 1
  split
  · rename_i h
    simp [h]
  · rename_i h
    simp [h]

theorem positions_concat (done : List Place) (place : Place) (id : Nat) :
    positions (done ++ [place]) id = positions done id ++ if place.2 = id
      then [done.length] else [] := by
  rw [positions, positions, zipIdx_append, filter_append, map_append]
  congr 1
  rw [zipIdx_singleton]
  split
  · rename_i h
    simp [h]
  · rename_i h
    simp [h]

theorem positions_length (done : List Place) (id : Nat) :
    (positions done id).length = times done id := by
  induction done using reverseRecOn with
  | nil => rfl
  | append_singleton done place ih =>
    rw [positions_concat, times_concat, length_append, ih]
    split <;> rfl

def carries (options : CpioOptions) (slot : Slot) (n : Nat) : Bool :=
  ¬ IsGroup slot ∨ options.format = .odc ∨ n = slot.links

def fieldsOf (slot : Slot) (fields : Fields) (ino : Nat) (carries : Bool) : Fields :=
  { fields with
    ino := ino
    nlink := if IsGroup slot then slot.links else fields.nlink
    len := if carries then fields.len else 0 }

/-- `e` is the entry of a slot under one of its paths. -/
structure EntryOf (options : CpioOptions) (slot : Slot) (path : List UInt8)
    (carries : Bool) (e : Planned) :
    Prop where
  path_eq : e.path = path
  node : ∃ found, (Planner.new options).node slot.node path = .ok found ∧
    e.fields = fieldsOf slot found.1 e.fields.ino carries ∧ e.data = if carries
      then found.2 else .none
  check : ∃ len, (Planner.new options).check path e.fields = .ok len

/-- The places `done` of a tree are planned. -/
structure Placed (t : Tree) (options : CpioOptions) (done : List Place) (s : Planning) :
    Prop where
  format : s.planner.format = options.format
  time : s.planner.time = options.time
  length : s.out.length = done.length
  entry : ∀ {k : Nat} {place : Place} {e : Planned}, done[k]? = some place → s.out[k]? = some e →
    ∃ slot, t.live place.2 = some slot ∧
      EntryOf options slot (joined place.1)
        (carries options slot (times (done.take (k + 1)) place.2)) e
  ino : ∀ {k l : Nat} {a b : Place} {e f : Planned} {slot : Slot}, done[k]? = some a →
    done[l]? = some b →
    s.out[k]? = some e → s.out[l]? = some f → t.live a.2 = some slot →
      (e.fields.ino = f.fields.ino ↔ k = l ∨ a.2 = b.2 ∧ IsGroup slot)
  below : ∀ {e : Planned}, e ∈ s.out → e.fields.ino < s.planner.nextIno
  fresh : ∀ {id : Nat} {slot : Slot}, t.live id = some slot → IsGroup slot →
    s.links.get id = none →
    times done id = 0
  group : ∀ {id : Nat} {slot : Slot} {g : Nat × List Nat}, t.live id = some slot → IsGroup slot →
    s.links.get id = some g → g.1 < s.planner.nextIno ∧ (∃ path, (path, id) ∈ done) ∧
      (g.2 = if options.format = .odc ∨ times done id = slot.links then []
        else positions done id) ∧
      ∀ {k : Nat} {place : Place} {e : Planned}, done[k]? = some place → s.out[k]? = some e →
        (e.fields.ino = g.1 ↔ place.2 = id)

theorem placed_new (t : Tree) (options : CpioOptions) : Placed t options [] (.new options) where
  format := rfl
  time := rfl
  length := rfl
  entry := fun h => nomatch h
  ino := fun h => nomatch h
  below := fun h => nomatch h
  fresh := fun _ _ _ => rfl
  group := fun _ _ h => nomatch h

variable {t : Tree} {options : CpioOptions} {done : List Place} {s s' : Planning}
  {path : List (List UInt8)}
variable {id : Nat} {slot : Slot}

/-- One more place is planned. `same` tells which inode numbers are that of the new
entry. -/
theorem Placed.push (h : Placed t options done s) (hslot : t.live id = some slot) {e : Planned}
    (hformat : s'.planner.format = options.format) (htime : s'.planner.time = options.time)
    (hout : s'.out = s.out ++ [e])
    (hentry : EntryOf options slot (joined path)
      (carries options slot (times (done ++ [(path, id)]) id)) e)
    (hsame : ∀ {k : Nat} {place : Place} {f : Planned}, done[k]? = some place →
      s.out[k]? = some f →
      (f.fields.ino = e.fields.ino ↔ place.2 = id ∧ IsGroup slot))
    (hnext : s.planner.nextIno ≤ s'.planner.nextIno) (hino : e.fields.ino < s'.planner.nextIno)
    (hfresh : ∀ {id' slot'}, t.live id' = some slot' → IsGroup slot' → s'.links.get id' = none →
      s.links.get id' = none ∧ id ≠ id')
    (hgroup : ∀ {id' slot' g}, t.live id' = some slot' → IsGroup slot' →
      s'.links.get id' = some g →
      (id = id' ∧ g =
        (e.fields.ino, if options.format = .odc ∨ times (done ++ [(path, id)]) id = slot.links
        then [] else positions (done ++ [(path, id)]) id)) ∨
      (id ≠ id' ∧ s.links.get id' = some g ∧ e.fields.ino ≠ g.1)) :
    Placed t options (done ++ [(path, id)]) s' where
  format := hformat
  time := htime
  length := by rw [hout, length_append, length_append, h.length]; rfl
  entry := by
    intro k place f hk hf
    rw [hout] at hf
    rcases getElem?_concat_pair h.length hk hf with ⟨hk, hf, hlt⟩ | ⟨rfl, rfl, rfl⟩
    · rw [take_append_of_le_length hlt]
      exact h.entry hk hf
    · rw [take_of_length_le (by simp)]
      exact ⟨slot, hslot, hentry⟩
  ino := by
    intro k l a b f g slot' ha hb hf hg hslot'
    rw [hout] at hf hg
    rcases getElem?_concat_pair h.length ha hf with ⟨hk, hkf, hlt⟩ | ⟨rfl, rfl, rfl⟩
    · rcases getElem?_concat_pair h.length hb hg with ⟨hl, hlg, _⟩ | ⟨rfl, rfl, rfl⟩
      · exact h.ino hk hl hkf hlg hslot'
      · rw [hsame hk hkf]
        constructor
        · rintro ⟨hid, hg⟩
          rw [hid, hslot] at hslot'
          cases hslot'
          exact .inr ⟨hid, hg⟩
        · rintro (heq | ⟨hid, hg⟩)
          · omega
          · change a.2 = id at hid
            rw [hid, hslot] at hslot'
            cases hslot'
            exact ⟨hid, hg⟩
    · cases hslot.symm.trans hslot'
      rcases getElem?_concat_pair h.length hb hg with ⟨hl, hlg, hlt⟩ | ⟨rfl, rfl, rfl⟩
      · rw [eq_comm, hsame hl hlg]
        constructor
        · rintro ⟨hid, hgroup⟩
          exact .inr ⟨hid.symm, hgroup⟩
        · rintro (heq | ⟨hid, hgroup⟩)
          · omega
          · exact ⟨hid.symm, hgroup⟩
      · exact ⟨fun _ => .inl rfl, fun _ => rfl⟩
  below := by
    intro f hf
    rw [hout] at hf
    rcases mem_append.mp hf with hf | hf
    · exact (h.below hf).trans_le hnext
    · rw [mem_singleton.mp hf]
      exact hino
  fresh := by
    intro id' slot' hlive hg hnone
    obtain ⟨hold, hne⟩ := hfresh hlive hg hnone
    rw [times_concat, h.fresh hlive hg hold, if_neg hne]
  group := by
    intro id' slot' g hlive hg hsome
    rcases hgroup hlive hg hsome with ⟨rfl, rfl⟩ | ⟨hne, hold, hino⟩
    · cases hslot.symm.trans hlive
      refine ⟨hino, ⟨path, mem_concat_self⟩, rfl, ?_⟩
      intro k place f hk hf
      rw [hout] at hf
      rcases getElem?_concat_pair h.length hk hf with ⟨hk, hf, _⟩ | ⟨rfl, rfl, rfl⟩
      · rw [hsame hk hf]
        exact ⟨And.left, fun hid => ⟨hid, hg⟩⟩
      · exact ⟨fun _ => rfl, fun _ => rfl⟩
    · obtain ⟨hlt, ⟨path', hmem⟩, hwaiting, hinos⟩ := h.group hlive hg hold
      refine ⟨hlt.trans_le hnext, ⟨path', mem_append_left _ hmem⟩, ?_, ?_⟩
      · rw [times_concat, positions_concat, if_neg hne, if_neg hne, append_nil]
        exact hwaiting
      · intro k place f hk hf
        rw [hout] at hf
        rcases getElem?_concat_pair h.length hk hf with ⟨hk, hf, _⟩ | ⟨rfl, rfl, rfl⟩
        · exact hinos hk hf
        · exact ⟨fun heq => absurd heq hino, fun heq => absurd heq hne⟩

theorem Placed.node (h : Placed t options done s) {found : Fields × Data} {text : List UInt8}
    (hfound : s.planner.node slot.node text = .ok found) :
    (Planner.new options).node slot.node text = .ok found := by
  rw [← hfound]
  exact Planner.node_congr h.format.symm h.time.symm _ _

theorem check_of_entry {p : Planner} {text : List UInt8} {fields : Fields} {attrs : SetAttr}
    {entry : Nat × Planner} (hformat : p.format = options.format)
    (h : p.entry text fields attrs = .ok entry) :
    ∃ len, (Planner.new options).check text fields = .ok len := by
  obtain ⟨len, hlen, _⟩ := Planner.entry_ok h
  exact ⟨len, (Planner.check_congr hformat.symm _ _).trans hlen⟩

theorem carries_single (h : ¬ IsGroup slot) (n : Nat) : carries options slot n = true :=
  decide_eq_true (.inl h)

theorem Placed.single (h : Placed t options done s) (hslot : t.live id = some slot)
    (hsingle : ¬ IsGroup slot)
    {found : Fields × Data} (hfound : s.planner.node slot.node (joined path) = .ok found)
    (hrun : s.single (joined path) slot.node found.1 found.2 = .ok s') :
    Placed t options (done ++ [(path, id)]) s' := by
  obtain ⟨entry, hentry, hrun⟩ := except_bind_ok.mp hrun
  cases hrun
  obtain ⟨_, _, _, _, hformat, htime, hino, _⟩ := Planner.entry_ok hentry
  have hplanner :
      (if slot.node.fileType = .file then entry.2.extent (joined path) entry.1 found.1.len
        else entry.2).nextIno = s.planner.nextIno + 1 ∧
      (if slot.node.fileType = .file then entry.2.extent (joined path) entry.1 found.1.len
        else entry.2).format = s.planner.format ∧
      (if slot.node.fileType = .file then entry.2.extent (joined path) entry.1 found.1.len
        else entry.2).time = s.planner.time := by
    split
    · exact ⟨hino, hformat, htime⟩
    · exact ⟨hino, hformat, htime⟩
  have hnotGroup : ∀ {id' slot'}, t.live id' = some slot' → IsGroup slot' → id ≠ id' := by
    rintro id' slot' hlive hg rfl
    cases hslot.symm.trans hlive
    exact hsingle hg
  refine h.push hslot (e := ⟨joined path, { found.1 with ino := s.planner.takeIno.1 }, found.2⟩)
    (hplanner.2.1.trans h.format) (hplanner.2.2.trans h.time) rfl ?_ ?_ ?_ ?_ ?_ ?_
  · rw [carries_single hsingle]
    refine ⟨rfl, ⟨found, h.node hfound, ?_, rfl⟩,
      check_of_entry (p := s.planner.takeIno.2) h.format hentry⟩
    rw [fieldsOf, if_neg hsingle, if_pos rfl]
  · intro k place f hk hf
    constructor
    · intro heq
      exact absurd heq (Nat.ne_of_lt (h.below (mem_of_getElem? hf)))
    · rintro ⟨_, hg⟩
      exact absurd hg hsingle
  · exact Nat.le_of_lt (Nat.lt_of_lt_of_eq (Nat.lt_succ_self _) hplanner.1.symm)
  · exact Nat.lt_of_lt_of_eq (Nat.lt_succ_self _) hplanner.1.symm
  · intro id' slot' hlive hg hnone
    exact ⟨hnone, hnotGroup hlive hg⟩
  · intro id' slot' g hlive hg hsome
    exact .inr ⟨hnotGroup hlive hg, hsome, (Nat.ne_of_lt (h.group hlive hg hsome).1).symm⟩

namespace Planning

def waiting (s : Planning) (id : Nat) : List Nat :=
  if (s.group id).2.format = .odc then (s.group id).1.2 else (s.group id).1.2 ++ [s.out.length]

/-- Whether the next entry of a group has its data. -/
def Final (s : Planning) (id links : Nat) : Prop :=
  (s.group id).2.format = .odc ∨ (s.waiting id).length = links

instance (s : Planning) (id links : Nat) : Decidable (s.Final id links) :=
  inferInstanceAs (Decidable (_ ∨ _))

def member (s : Planning) (text : List UInt8) (id links : Nat) (fields : Fields) (data : Data) :
    Planned :=
  ⟨text,
    if s.Final id links then { fields with ino := (s.group id).1.1, nlink := links }
    else { fields with ino := (s.group id).1.1, nlink := links, len := 0 },
    if s.Final id links then data else .none⟩

def named (s : Planning) (text : List UInt8) (id links : Nat) (e : Planned) : List (List UInt8) :=
  (if (s.group id).2.format = .odc then [text] else []) ++
    (if (s.waiting id).length = links then s.waiting id else []).map fun index =>
      ((s.out ++ [e])[index]?.map Planned.path).getD []

theorem grouped_ok {s s' : Planning} {text : List UInt8} {node : Node}
    {id links : Nat} {fields : Fields}
    {data : Data} (h : s.grouped text node id links fields data = .ok s') :
    ∃ entry, (s.group id).2.entry text (s.member text id links fields data).fields node.attrs =
      .ok entry ∧
      s' = ⟨entry.2.extents (s.named text id links (s.member text id links fields data)) entry.1
          (s.member text id links fields data).fields.len,
        s.out ++ [s.member text id links fields data],
        s.links.insert id ((s.group id).1.1, if (s.waiting id).length = links then []
          else s.waiting id)⟩ := by
  obtain ⟨entry, hentry, h⟩ := except_bind_ok.mp h
  cases h
  refine ⟨entry, hentry, ?_⟩
  have hfirst :
      ∀ len, (if (s.group id).2.format = .odc then entry.2.extent text entry.1 len else entry.2) =
        foldl (fun planner path => planner.extent path entry.1 len) entry.2
          (if (s.group id).2.format = .odc then [text] else []) := by
    intro len
    split <;> rfl
  rw [named, Planner.extents, foldl_append, foldl_map, ← hfirst]
  rfl

end Planning

/-- The group of a node that has one more name. -/
structure Joins (options : CpioOptions) (done : List Place) (s : Planning) (id : Nat)
    (g : Nat × List Nat) (q : Planner) : Prop where
  format : q.format = options.format
  time : q.time = options.time
  next : s.planner.nextIno ≤ q.nextIno
  below : g.1 < q.nextIno
  waiting : g.2 = if options.format = .odc then [] else positions done id
  same : ∀ {k : Nat} {place : Place} {e : Planned}, done[k]? = some place → s.out[k]? = some e →
    (e.fields.ino = g.1 ↔ place.2 = id)

theorem Placed.joins (h : Placed t options done s) (hslot : t.live id = some slot)
    (hg : IsGroup slot)
    (hless : times done id < slot.links) :
    Joins options done s id (s.group id).1 (s.group id).2 := by
  rw [Planning.group]
  cases hget : s.links.get id with
  | some g =>
    obtain ⟨hlt, _, hwaiting, hsame⟩ := h.group hslot hg hget
    refine ⟨h.format, h.time, Nat.le_refl _, hlt, ?_, hsame⟩
    rw [hwaiting]
    simp only [Nat.ne_of_lt hless, or_false]
  | none =>
    have hzero := h.fresh hslot hg hget
    refine ⟨h.format, h.time, Nat.le_succ _, Nat.lt_succ_self _, ?_, ?_⟩
    · have hnone : positions done id = [] :=
        length_eq_zero_iff.mp ((positions_length done id).trans hzero)
      rw [hnone, ite_self]
    · intro k place e hk he
      constructor
      · intro heq
        exact absurd heq (Nat.ne_of_lt (h.below (mem_of_getElem? he)))
      · intro hid
        have hmem : place ∈ done.filter fun place => place.2 = id :=
          mem_filter.mpr ⟨mem_of_getElem? hk, decide_eq_true hid⟩
        rw [length_eq_zero_iff.mp hzero] at hmem
        cases hmem

theorem Placed.ino_ne (h : Placed t options done s) {g : Nat × List Nat} {q : Planner}
    (hjoins : Joins options done s id g q) {id' : Nat} {slot' : Slot}
    {g' : Nat × List Nat} (hslot' : t.live id' = some slot') (hgroup : IsGroup slot')
    (hget : s.links.get id' = some g') (hne : id ≠ id') : g.1 ≠ g'.1 := by
  obtain ⟨hlt, ⟨path, hmem⟩, _, hsame⟩ := h.group hslot' hgroup hget
  obtain ⟨k, hk⟩ := getElem?_of_mem hmem
  have hlen := (List.getElem?_eq_some_iff.mp hk).1
  rw [← h.length] at hlen
  have he : s.out[k]? = some s.out[k] := getElem?_eq_getElem hlen
  intro heq
  have hid : id' = id := (hjoins.same hk he).mp (((hsame hk he).mpr rfl).trans heq.symm)
  exact hne hid.symm

theorem Joins.waiting_eq (h : Joins options done s id (s.group id).1 (s.group id).2)
    (hlen : s.out.length = done.length) (path : List (List UInt8)) :
    s.waiting id = if options.format = .odc then [] else positions (done ++ [(path, id)]) id := by
  rw [Planning.waiting, h.format, h.waiting, positions_concat, if_pos rfl, hlen]
  split <;> rfl

theorem Joins.last_iff (h : Joins options done s id (s.group id).1 (s.group id).2)
    (hlen : s.out.length = done.length) (hg : IsGroup slot) (path : List (List UInt8)) :
    (s.waiting id).length = slot.links ↔
      options.format ≠ .odc ∧ times (done ++ [(path, id)]) id = slot.links := by
  rw [h.waiting_eq hlen path]
  have hlinks := hg.2
  split
  · rename_i hodc
    simp only [length_nil, hodc]
    constructor
    · omega
    · exact fun h => absurd rfl h.1
  · rename_i hodc
    rw [positions_length]
    exact ⟨fun h => ⟨hodc, h⟩, And.right⟩

theorem Joins.final_iff (h : Joins options done s id (s.group id).1 (s.group id).2)
    (hlen : s.out.length = done.length) (hg : IsGroup slot) (path : List (List UInt8)) :
    s.Final id slot.links ↔ carries options slot (times (done ++ [(path, id)]) id) = true := by
  rw [Planning.Final, carries, decide_eq_true_iff, h.format, h.last_iff hlen hg path]
  constructor
  · rintro (hodc | ⟨_, heq⟩)
    · exact .inr (.inl hodc)
    · exact .inr (.inr heq)
  · rintro (hnot | hodc | heq)
    · exact absurd hg hnot
    · exact .inl hodc
    · by_cases hodc : options.format = .odc
      · exact .inl hodc
      · exact .inr ⟨hodc, heq⟩

theorem member_fields (hg : IsGroup slot) {c : Bool} (hfinal : s.Final id slot.links ↔ c = true)
    (text : List UInt8) (fields : Fields) (data : Data) :
    (s.member text id slot.links fields data).fields = fieldsOf slot fields (s.group id).1.1 c ∧
      (s.member text id slot.links fields data).data = if c then data else .none := by
  rw [Planning.member, fieldsOf, if_pos hg]
  by_cases hc : s.Final id slot.links
  · rw [if_pos hc, if_pos hc, if_pos (hfinal.mp hc), if_pos (hfinal.mp hc)]
    exact ⟨rfl, rfl⟩
  · rw [if_neg hc, if_neg hc, if_neg (fun h => hc (hfinal.mpr h)),
      if_neg (fun h => hc (hfinal.mpr h))]
    exact ⟨rfl, rfl⟩

theorem Placed.grouped (h : Placed t options done s) (hslot : t.live id = some slot)
    (hg : IsGroup slot) (hless : times done id < slot.links) {found : Fields × Data}
    (hfound : s.planner.node slot.node (joined path) = .ok found)
    (hrun : s.grouped (joined path) slot.node id slot.links found.1 found.2 = .ok s') :
    Placed t options (done ++ [(path, id)]) s' := by
  have hjoins := h.joins hslot hg hless
  have hwaiting := hjoins.waiting_eq h.length path
  have hlast := hjoins.last_iff h.length hg path
  obtain ⟨hfields, hdata⟩ := member_fields hg (hjoins.final_iff h.length hg path)
    (joined path) found.1 found.2
  obtain ⟨entry, hentry, rfl⟩ := Planning.grouped_ok hrun
  obtain ⟨_, _, _, _, hformat, htime, hino, _⟩ := Planner.entry_ok hentry
  have hkept := entry.2.extents_kept (s.named (joined path) id slot.links
    (s.member (joined path) id slot.links found.1 found.2)) entry.1
    (s.member (joined path) id slot.links found.1 found.2).fields.len
  have hpath : (s.member (joined path) id slot.links found.1 found.2).path = joined path := rfl
  generalize s.member (joined path) id slot.links found.1 found.2 = e at *
  have hnumber : e.fields.ino = (s.group id).1.1 := by
    rw [hfields]
    rfl
  have hgroup : (if (s.waiting id).length = slot.links then [] else s.waiting id) =
      if options.format = .odc ∨ times (done ++ [(path, id)]) id = slot.links then []
      else positions (done ++ [(path, id)]) id := by
    simp only [hlast]
    rw [hwaiting]
    by_cases hodc : options.format = .odc <;> simp [hodc]
  refine h.push hslot (e := e) ((hkept.1.trans hformat).trans hjoins.format)
    ((hkept.2.1.trans htime).trans hjoins.time) rfl ?_ ?_ ?_ ?_ ?_ ?_
  · refine ⟨?_, ⟨found, h.node hfound, ?_, hdata⟩, check_of_entry hjoins.format hentry⟩
    · rw [hpath]
    · rw [hnumber, hfields]
  · intro k place f hk hf
    rw [hnumber, hjoins.same hk hf]
    exact ⟨fun hid => ⟨hid, hg⟩, And.left⟩
  · exact hjoins.next.trans_eq (hkept.2.2.trans hino).symm
  · rw [hnumber]
    exact hjoins.below.trans_eq (hkept.2.2.trans hino).symm
  · intro id' slot' hlive hg' hnone
    rw [SortedMap.get_insert] at hnone
    split at hnone
    · cases hnone
    · rename_i hne
      exact ⟨hnone, fun heq => hne heq.symm⟩
  · intro id' slot' g hlive hg' hsome
    rw [SortedMap.get_insert] at hsome
    split at hsome
    · rename_i heq
      cases hsome
      exact .inl ⟨heq.symm, by rw [hnumber, hgroup]⟩
    · rename_i hne
      have hdistinct : id ≠ id' := fun heq => hne heq.symm
      refine .inr ⟨hdistinct, hsome, ?_⟩
      rw [hnumber]
      exact h.ino_ne hjoins hlive hg' hsome hdistinct

theorem Placed.place (h : Placed t options done s) (hslot : t.live id = some slot)
    (hless : times done id < slot.links) (hrun : s.place (joined path) slot id = .ok s') :
    Placed t options (done ++ [(path, id)]) s' := by
  obtain ⟨found, hfound, hrun⟩ := except_bind_ok.mp hrun
  by_cases hg : slot.node.fileType = .file ∧ 1 < slot.links
  · rw [if_pos hg] at hrun
    exact h.grouped hslot hg hless hfound hrun
  · rw [if_neg hg] at hrun
    exact h.single hslot hg hfound hrun

namespace Planning

theorem visit_concat (t : Tree) (done : List Place) (place : Place) (s : Planning) :
    visit t (done ++ [place]) s =
      (visit t done s >>= fun s => t.slot place.2 >>= fun slot =>
        step (joined place.1) slot place.2 s) := by
  induction done generalizing s with
  | nil =>
    change (t.slot place.2 >>= fun slot => step (joined place.1) slot place.2 s >>=
      fun s => visit t [] s) =
      (t.slot place.2 >>= fun slot => step (joined place.1) slot place.2 s)
    cases t.slot place.2 with
    | error e => rfl
    | ok slot =>
      change (step _ slot place.2 s >>= fun s => visit t [] s) = step _ slot place.2 s
      cases step (joined place.1) slot place.2 s <;> rfl
  | cons first done ih =>
    rw [cons_append, visit, visit]
    cases t.slot first.2 with
    | error e => rfl
    | ok slot =>
      change (step _ slot first.2 s >>= fun s => visit t (done ++ [place]) s) =
        (step _ slot first.2 s >>= fun s => visit t done s) >>= _
      cases step (joined first.1) slot first.2 s with
      | error e => rfl
      | ok s => exact ih s

theorem visit_concat_ok (ht : t.WellFormed) (hin : (path, id) ∈ t.places)
    (h : visit t (done ++ [(path, id)]) s = .ok s') :
    ∃ s₁ slot, visit t done s = .ok s₁ ∧ t.live id = some slot ∧
      s₁.place (joined path) slot id = .ok s' := by
  obtain ⟨hne, hfollow⟩ := ht.mem_places.mp hin
  rw [visit_concat] at h
  obtain ⟨s₁, hs₁, h⟩ := except_bind_ok.mp h
  obtain ⟨slot, hslot⟩ := Option.isSome_iff_exists.mp (ht.live_of_follow hfollow)
  rw [Tree.slot_of_live hslot] at h
  change step (joined path) slot id s₁ = .ok s' at h
  rw [step, if_neg (fun heq => hne ((joined_eq_nil (ht.names_of_follow hfollow)).mp heq))] at h
  exact ⟨s₁, slot, hs₁, hslot, mapError_ok h⟩

end Planning

theorem times_lt (ht : t.WellFormed) (hstart : done ++ [(path, id)] <+: t.places)
    (hslot : t.live id = some slot) :
    times done id < slot.links := by
  have hin : (path, id) ∈ t.places := hstart.subset mem_concat_self
  obtain ⟨q, name, i, _, _, hchild⟩ := ht.place_split hin
  have hle : times (done ++ [(path, id)]) id ≤ times t.places id :=
    (List.IsPrefix.filter _ hstart).length_le
  rw [times_concat, if_pos rfl] at hle
  rw [ht.links_eq (ht.consistent.child hchild).2.1 hslot]
  exact hle

theorem visit_placed (ht : t.WellFormed) (hstart : done <+: t.places)
    (h : Planning.visit t done (.new options) = .ok s) : Placed t options done s := by
  induction done using reverseRecOn generalizing s with
  | nil =>
    cases h
    exact placed_new t options
  | append_singleton done place ih =>
    obtain ⟨s₁, slot, hs₁, hslot, hplace⟩ :=
      Planning.visit_concat_ok ht (hstart.subset mem_concat_self) h
    have hplaced := ih ((prefix_append _ _).trans hstart) hs₁
    exact hplaced.place hslot (times_lt ht hstart hslot) hplace

end Hadris.Cpio

namespace Hadris.Cpio

open List

def laidAt (t : Tree) (options : CpioOptions) (done : List Place) (place : Place) :
    Option (List UInt8 × List UInt8) :=
  (t.live place.2).bind fun slot =>
    if slot.node.fileType = .file ∧ carries options slot (times done place.2) = true then
      some (joined place.1, nodeData slot.node) else none

def laid (t : Tree) (options : CpioOptions) (done : List Place) :
    List (List UInt8 × List UInt8) :=
  done.filterMap (laidAt t options done)

variable {t : Tree} {options : CpioOptions} {done : List Place} {s s' : Planning}
  {path : List (List UInt8)}
variable {id : Nat} {slot : Slot}

theorem laidAt_other (place : Place) (h : place.2 ≠ id) :
    laidAt t options (done ++ [(path, id)]) place = laidAt t options done place := by
  rw [laidAt, laidAt, times_concat, if_neg (Ne.symm h), Nat.add_zero]

theorem laidAt_same (hslot : t.live id = some slot) (place : Place) (h : place.2 = id) :
    laidAt t options done place =
      if slot.node.fileType = .file ∧ carries options slot (times done id) = true then
        some (joined place.1, nodeData slot.node) else none := by
  rw [laidAt, h, hslot, Option.bind_some]

theorem laid_concat (h : ∀ place : Place, place.2 = id →
      laidAt t options (done ++ [(path, id)]) place = laidAt t options done place) :
    laid t options (done ++ [(path, id)]) =
      laid t options done ++ (laidAt t options done (path, id)).toList := by
  rw [laid, filterMap_append]
  congr 1
  · apply filterMap_congr
    intro place _
    by_cases hid : place.2 = id
    · exact h place hid
    · exact laidAt_other place hid
  · rw [filterMap_cons, h (path, id) rfl]
    cases laidAt t options done (path, id) <;> rfl

theorem laid_last (hbefore : ∀ place : Place, place.2 = id → laidAt t options done place = none)
    {data : List UInt8} (hafter : ∀ place : Place, place.2 = id →
      laidAt t options (done ++ [(path, id)]) place = some (joined place.1, data)) :
    (laid t options (done ++ [(path, id)])).Perm (laid t options done ++
      ((done ++ [(path, id)]).filter fun place => place.2 = id).map fun place =>
        (joined place.1, data)) := by
  have hsplit := ((filter_append_perm (fun place : Place => decide (place.2 = id))
    (done ++ [(path, id)])).symm.filterMap (laidAt t options (done ++ [(path, id)]))).trans
    (by rw [filterMap_append])
  refine (hsplit.trans perm_append_comm).trans (List.Perm.of_eq ?_)
  congr 1
  · rw [filterMap_filter, filterMap_append, laid]
    have hlast : filterMap (fun place : Place => if (!decide (place.2 = id)) = true then
        laidAt t options (done ++ [(path, id)]) place else none) [(path, id)] = [] := by
      simp
    rw [hlast, append_nil]
    apply filterMap_congr
    intro place _
    by_cases hid : place.2 = id
    · simp [hid, hbefore place hid]
    · simp [hid, laidAt_other place hid]
  · rw [← filterMap_eq_map]
    apply filterMap_congr
    intro place hplace
    exact hafter place (of_decide_eq_true (mem_filter.mp hplace).2)

theorem Placed.paths (h : Placed t options done s) :
    s.out.map Planned.path = done.map fun place => joined place.1 := by
  apply ext_getElem
  · rw [length_map, length_map, h.length]
  · intro k hk hk'
    rw [length_map] at hk hk'
    rw [getElem_map, getElem_map]
    obtain ⟨_, _, hentry⟩ := h.entry (getElem?_eq_getElem hk') (getElem?_eq_getElem hk)
    exact hentry.path_eq

theorem positions_map {α : Type} (done : List Place) (id : Nat) (f : Place → α) (d : α) :
    (positions done id).map (fun k => ((done.map f)[k]?).getD d) =
      (done.filter fun place => place.2 = id).map f := by
  have hfst : (done.zipIdx.filter fun place => place.1.2 = id).map Prod.fst =
      done.filter fun place => place.2 = id := by
    have hmap := filter_map (f := Prod.fst) (p := fun place : Place => decide (place.2 = id))
      (l := done.zipIdx)
    rw [zipIdx_map_fst] at hmap
    exact hmap.symm
  rw [← hfst, positions, map_map, map_map]
  apply map_congr_left
  rintro ⟨place, k⟩ hmem
  have hk := mem_zipIdx_iff_getElem?.mp (mem_filter.mp hmem).1
  simp [hk]

/-- One entry is planned, with an extent for each of the names `named`. -/
structure Stepped (s s' : Planning) (e : Planned) (named : List (List UInt8)) : Prop where
  out : s'.out = s.out ++ [e]
  planner : ∃ q attrs entry, q.format = s.planner.format ∧ q.offset = s.planner.offset ∧
    q.report = s.planner.report ∧ Planner.entry q e.path e.fields attrs = .ok entry ∧
    s'.planner = entry.2.extents named entry.1 e.fields.len

def namedAt (s : Planning) (text : List UInt8) (slot : Slot) (id : Nat) (e : Planned) :
    List (List UInt8) :=
  if IsGroup slot then s.named text id slot.links e
  else if slot.node.fileType = .file then [text] else []

theorem group_planner (s : Planning) (id : Nat) :
    (s.group id).2.format = s.planner.format ∧ (s.group id).2.offset = s.planner.offset ∧
      (s.group id).2.report = s.planner.report := by
  rw [Planning.group]
  cases s.links.get id <;> exact ⟨rfl, rfl, rfl⟩

theorem place_stepped {text : List UInt8} (h : s.place text slot id = .ok s') :
    ∃ e, Stepped s s' e (namedAt s text slot id e) := by
  obtain ⟨found, _, h⟩ := except_bind_ok.mp h
  by_cases hg : slot.node.fileType = .file ∧ 1 < slot.links
  · rw [if_pos hg] at h
    obtain ⟨entry, hentry, rfl⟩ := Planning.grouped_ok h
    obtain ⟨hformat, hoffset, hreport⟩ := group_planner s id
    refine ⟨_, rfl, _, _, entry, hformat, hoffset, hreport, hentry, ?_⟩
    rw [namedAt, if_pos (show IsGroup slot from hg)]
  · rw [if_neg hg] at h
    obtain ⟨entry, hentry, h⟩ := except_bind_ok.mp h
    cases h
    refine ⟨⟨text, { found.1 with ino := s.planner.takeIno.1 }, found.2⟩, rfl,
      s.planner.takeIno.2, slot.node.attrs, entry, rfl, rfl, rfl, hentry, ?_⟩
    rw [namedAt, if_neg (show ¬ IsGroup slot from hg)]
    by_cases hfile : slot.node.fileType = .file
    · rw [if_pos hfile, if_pos hfile]
      rfl
    · rw [if_neg hfile, if_neg hfile]
      rfl

section

variable {e : Planned}

theorem namedAt_cases (h : Placed t options done s)
    (h' : Placed t options (done ++ [(path, id)]) s')
    (hslot : t.live id = some slot) (hless : times done id < slot.links)
    (hout : s'.out = s.out ++ [e]) :
    namedAt s (joined path) slot id e =
      if slot.node.fileType = .file ∧
        carries options slot (times (done ++ [(path, id)]) id) = true then
        if IsGroup slot ∧ options.format ≠ .odc then
          ((done ++ [(path, id)]).filter fun place => place.2 = id).map fun place =>
            joined place.1
        else [joined path]
      else [] := by
  by_cases hg : IsGroup slot
  · have hjoins := h.joins hslot hg hless
    have hwaiting := hjoins.waiting_eq h.length path
    have hlast := hjoins.last_iff h.length hg path
    have hlinks := hg.2
    rw [namedAt, if_pos hg, Planning.named, hjoins.format]
    by_cases hodc : options.format = .odc
    · have hcarries : carries options slot (times (done ++ [(path, id)]) id) = true :=
        decide_eq_true (.inr (.inl hodc))
      rw [if_pos hodc, if_neg (fun heq => (hlast.mp heq).1 hodc), if_pos ⟨hg.1, hcarries⟩,
        if_neg (fun hboth => hboth.2 hodc)]
      rfl
    · rw [if_neg hodc, nil_append]
      by_cases htimes : times (done ++ [(path, id)]) id = slot.links
      · have hcarries : carries options slot (times (done ++ [(path, id)]) id) = true :=
          decide_eq_true (.inr (.inr htimes))
        rw [if_pos (hlast.mpr ⟨hodc, htimes⟩), if_pos ⟨hg.1, hcarries⟩, if_pos ⟨hg, hodc⟩,
          hwaiting, if_neg hodc, ← positions_map _ _ _ [], ← h'.paths, hout]
        simp only [getElem?_map]
      · have hcarries : ¬ carries options slot (times (done ++ [(path, id)]) id) = true := by
          intro hcarries
          rcases of_decide_eq_true hcarries with hnot | hodd | heq
          · exact hnot hg
          · exact hodc hodd
          · exact htimes heq
        rw [if_neg (fun heq => htimes (hlast.mp heq).2), if_neg (fun hboth => hcarries hboth.2)]
        rfl
  · rw [namedAt, if_neg hg]
    by_cases hfile : slot.node.fileType = .file
    · rw [if_pos hfile, if_pos ⟨hfile, carries_single hg _⟩, if_neg (fun hboth => hg hboth.1)]
    · rw [if_neg hfile, if_neg (fun hboth => hfile hboth.1)]

theorem laid_step (hslot : t.live id = some slot) (hless : times done id < slot.links) :
    (laid t options (done ++ [(path, id)])).Perm (laid t options done ++
      (if slot.node.fileType = .file ∧
        carries options slot (times (done ++ [(path, id)]) id) = true then
        if IsGroup slot ∧ options.format ≠ .odc then
          ((done ++ [(path, id)]).filter fun place => place.2 = id).map fun place =>
            joined place.1
        else [joined path]
      else []).map fun name => (name, nodeData slot.node)) := by
  by_cases hgroup : slot.node.fileType = .file ∧ IsGroup slot ∧ options.format ≠ .odc
  · obtain ⟨hfile, hg, hodc⟩ := hgroup
    have hcarries : ∀ n, carries options slot n = true ↔ n = slot.links := by
      intro n
      rw [carries, decide_eq_true_iff]
      constructor
      · rintro (hnot | hodd | heq)
        · exact absurd hg hnot
        · exact absurd hodd hodc
        · exact heq
      · exact fun heq => .inr (.inr heq)
    have hbefore : ∀ place : Place, place.2 = id → laidAt t options done place = none := by
      intro place hid
      rw [laidAt_same hslot place hid, if_neg]
      exact fun hboth => Nat.ne_of_lt hless ((hcarries _).mp hboth.2)
    by_cases hlast : times (done ++ [(path, id)]) id = slot.links
    · rw [if_pos ⟨hfile, (hcarries _).mpr hlast⟩, if_pos ⟨hg, hodc⟩, map_map]
      refine laid_last hbefore ?_
      intro place hid
      rw [laidAt_same hslot place hid, if_pos ⟨hfile, (hcarries _).mpr hlast⟩]
    · rw [if_neg (fun hboth => hlast ((hcarries _).mp hboth.2)), map_nil, append_nil, laid_concat]
      · rw [hbefore (path, id) rfl, Option.toList_none, append_nil]
      · intro place hid
        rw [hbefore place hid, laidAt_same hslot place hid, if_neg]
        exact fun hboth => hlast ((hcarries _).mp hboth.2)
  · have hcarries : ∀ n, slot.node.fileType = .file → carries options slot n = true := by
      intro n hfile
      apply decide_eq_true
      by_cases hg : IsGroup slot
      · by_cases hodc : options.format = .odc
        · exact .inr (.inl hodc)
        · exact absurd ⟨hfile, hg, hodc⟩ hgroup
      · exact .inl hg
    have hsame : ∀ place : Place, place.2 = id → ∀ done', laidAt t options done' place =
        if slot.node.fileType = .file then some (joined place.1, nodeData slot.node)
          else none := by
      intro place hid done'
      rw [laidAt_same hslot place hid]
      by_cases hfile : slot.node.fileType = .file
      · rw [if_pos hfile, if_pos ⟨hfile, hcarries _ hfile⟩]
      · rw [if_neg hfile, if_neg (fun hboth => hfile hboth.1)]
    rw [laid_concat fun place hid => (hsame place hid _).trans (hsame place hid _).symm,
      hsame (path, id) rfl]
    by_cases hfile : slot.node.fileType = .file
    · rw [if_pos hfile, if_pos ⟨hfile, hcarries _ hfile⟩,
        if_neg (fun hboth => hgroup ⟨hfile, hboth⟩)]
      exact .refl _
    · rw [if_neg hfile, if_neg (fun hboth => hfile hboth.1)]
      exact .refl _

end

def Planned.entry (format : Format) (e : Planned) : Entry :=
  Entry.of format e.path e.fields e.data.data

section

variable {e : Planned} {c : Bool} {text : List UInt8}

theorem EntryOf.data_length (h : EntryOf options slot text c e)
    (hdata : checkData e.data e.path = .ok ()) :
    e.data.data.length = e.fields.len := by
  obtain ⟨found, hfound, hfields, he⟩ := h.node
  rw [he, hfields, fieldsOf]
  cases c with
  | false => rfl
  | true =>
    rw [he, if_pos rfl, h.path_eq] at hdata
    rw [if_pos rfl, if_pos rfl]
    exact Planner.node_length hfound hdata

theorem EntryOf.data_eq (h : EntryOf options slot text c e) :
    e.data.data = if c then nodeData slot.node else [] := by
  obtain ⟨found, hfound, _, he⟩ := h.node
  rw [he]
  cases c with
  | false => rfl
  | true => exact Planner.node_data hfound

end

/-- The planner of places keeps to the bytes of their entries, where its extents hold
the files whose data is written. -/
theorem visit_tracks (ht : t.WellFormed) (hstart : done <+: t.places)
    (h : Planning.visit t done (.new options) = .ok s)
    (hdata : ∀ e ∈ s.out, checkData e.data e.path = .ok ()) :
    ∃ files, files.Perm (laid t options done) ∧
      s.planner.Tracks (s.out.flatMap fun e => (e.entry options.format).bytes options.format)
        files := by
  induction done using reverseRecOn generalizing s with
  | nil =>
    cases h
    exact ⟨[], .refl _, rfl, .nil⟩
  | append_singleton done place ih =>
    obtain ⟨path, id⟩ := place
    obtain ⟨s₁, slot, hs₁, hslot, hplace⟩ :=
      Planning.visit_concat_ok ht (hstart.subset mem_concat_self) h
    have hbefore := (prefix_append done [(path, id)]).trans hstart
    have hless := times_lt ht hstart hslot
    have hplaced := visit_placed ht hbefore hs₁
    have hplaced' := hplaced.place hslot hless hplace
    obtain ⟨e, hout, q, attrs, entry, hformat, hoffset, hreport, hentry, hplanner⟩ :=
      place_stepped hplace
    obtain ⟨files, hperm, htracks⟩ := ih hbefore hs₁ fun e he =>
      hdata e (hout ▸ mem_append_left _ he)
    have hlast : s.out[done.length]? =
      some e := by rw [hout, ← hplaced.length, getElem?_concat_length]
    obtain ⟨slot', hslot', hof⟩ := hplaced'.entry getElem?_concat_length hlast
    cases hslot.symm.trans hslot'
    rw [take_of_length_le (by simp)] at hof
    have hlength := hof.data_length (hdata e (hout ▸ mem_concat_self))
    have hlaid := Planner.laid_entry hentry hlength (namedAt s₁ (joined path) slot id e)
    have hq : q.Tracks (s₁.out.flatMap fun e => (e.entry options.format).bytes options.format)
      files :=
      ⟨hoffset.trans htracks.offset, hreport ▸ htracks.holds⟩
    have hnames := namedAt_cases hplaced hplaced' hslot hless hout
    have hsame : (namedAt s₁ (joined path) slot id e).map (fun name => (name, e.data.data)) =
        (namedAt s₁ (joined path) slot id e).map fun name => (name, nodeData slot.node) := by
      rw [hnames]
      split
      · rename_i hfinal
        rw [hof.data_eq, if_pos hfinal.2]
      · rfl
    refine ⟨files ++ (namedAt s₁ (joined path) slot id e).map fun name =>
      (name, e.data.data), ?_, ?_⟩
    · rw [hsame, hnames]
      exact (hperm.append_right _).trans (laid_step hslot hless).symm
    · have htracks' := hlaid.tracks _ _ hq
      rwa [hformat, hplaced.format, ← hplanner, ← Planned.entry,
        ← flatMap_singleton (fun e => (Planned.entry options.format e).bytes options.format) e,
        ← flatMap_append, ← hout] at htracks'

end Hadris.Cpio
