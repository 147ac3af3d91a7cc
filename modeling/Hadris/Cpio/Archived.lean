import Hadris.Cpio.Rebuild

namespace Hadris.Cpio

open List
open Prog

theorem encode_nlink {format : Format} {fields : Fields} {n : Nat} {bytes : List UInt8}
    (h : encode format fields n = .ok bytes) : fields.nlink < 2 ^ 32 := by
  unfold encode at h
  split at h
  · cases h
  cases format with
  | newc =>
    obtain ⟨_, nlink, _, _, _, _, hnlink, _⟩ := encodeNewc_ok h
    exact hnlink ▸ nlink.toNat_lt
  | crc =>
    obtain ⟨_, nlink, _, _, _, _, hnlink, _⟩ := encodeNewc_ok h
    exact hnlink ▸ nlink.toNat_lt
  | odc =>
    obtain ⟨_, nlink, _, _, _, hnlink, _⟩ := encodeOdc_ok h
    exact hnlink ▸ nlink.toNat_lt
  | binary => cases h

theorem mtime_le (options : CpioOptions) (attrs : SetAttr) :
    (Planner.new options).mtime attrs ≤ 8 ^ 11 - 1 := by
  have hmax : (Planner.new options).maxTime ≤ 8 ^ 11 - 1 := by
    rw [Planner.maxTime, show (Planner.new options).format = options.format from rfl]
    cases options.format <;> decide
  rw [Planner.mtime]
  split
  · split
    · exact Nat.zero_le _
    · exact (Nat.min_le_right _ _).trans hmax
  · exact Nat.zero_le _

theorem permissions_mode (node : Node) :
    Permissions.new ((Planner.modeOf node.fileType).1 ||| permissionsOf node) =
      .new (permissionsOf node) := by
  have hkind : (Planner.modeOf node.fileType).1 &&& permissionMask =
    0 := by cases node.fileType <;> rfl
  have hmask := and_or_mask (permissionsOf_masked node) hkind
  rw [Permissions.new, Permissions.new, Permissions.mk.injEq, UInt32.or_comm, hmask,
    permissionsOf_masked]

variable {t : Tree} {options : CpioOptions} {key : Nat → Nat} {s : Planning}
  {slot : Slot} {text : List UInt8}
variable {c : Bool} {e : Planned} {n : Nat}

def Planned.header (format : Format) (e : Planned) : Header :=
  (e.entry format).fields.header format (e.path.length + 1)

theorem header_fields (format : Format) (e : Planned) :
    (e.header format).ino = e.fields.ino ∧ (e.header format).mode = e.fields.mode ∧
      (e.header format).uid = e.fields.uid ∧ (e.header format).gid = e.fields.gid ∧
      (e.header format).nlink = UInt32.ofNat e.fields.nlink ∧
      (e.header format).mtime = e.fields.mtime ∧
      (e.header format).len = e.fields.len ∧ (e.header format).dev = ⟨0, 0⟩ ∧
      (e.header format).rdev = e.fields.rdev ∧ (e.header format).format = format := by
  rw [Planned.header, Planned.entry, Entry.of]
  dsimp only
  split <;> exact ⟨rfl, rfl, rfl, rfl, rfl, rfl, rfl, rfl, rfl, rfl⟩

theorem EntryOf.type (h : EntryOf options slot text c e) (format : Format) :
    (e.header format).type = slot.node.fileType := by
  obtain ⟨_, hmode, _⟩ := header_fields format e
  rw [Header.type, hmode, h.fields, fileType_modeOf _ (permissionsOf_masked _), Option.getD_some]

theorem EntryOf.attrs (h : EntryOf options slot text c e) (format : Format) :
    (e.header format).attrs = storedAttrs options slot.node := by
  obtain ⟨_, hmode, huid, hgid, _, hmtime, _⟩ := header_fields format e
  have hle := mtime_le options slot.node.attrs
  have hmodified : (e.header format).modified =
      some ⟨(Planner.new options).mtime slot.node.attrs, 0⟩ := by
    rw [Header.modified, hmtime, h.fields]
    dsimp only
    rw [if_pos (by omega), DateTime.fromUnixSeconds, if_neg]
    rw [DateTime.minSeconds, DateTime.maxSeconds]
    omega
  rw [Header.attrs, storedAttrs, hmodified, hmode, huid, hgid, h.fields, permissions_mode]

theorem EntryOf.comes {path : List (List UInt8)}
    (h : EntryOf options slot (joined path) (carries options slot n) e) (id : Nat)
    (hdata : checkData e.data e.path = .ok ()) (hkey : IsGroup slot → e.fields.ino = key id) :
    Comes options key slot path id n e.path (e.header options.format)
      (stored options slot.node (held options slot n)) := by
  obtain ⟨hino, _, _, _, hnlink, _, hlen, hdev, _, _⟩ := header_fields options.format e
  have htype := h.type options.format
  refine ⟨h.path_eq, htype, ?_, ?_, ?_, rfl⟩
  · obtain ⟨len, hcheck⟩ := h.check
    obtain ⟨_, header, hheader, _⟩ := Planner.check_ok hcheck
    have hlt : e.fields.nlink < 2 ^ 32 := encode_nlink hheader
    have htoNat : (UInt32.ofNat e.fields.nlink).toNat = e.fields.nlink :=
      UInt32.toNat_ofNat_of_lt hlt
    have hcount : (e.header options.format).nlink < 2 ↔ e.fields.nlink < 2 := by
      rw [hnlink, UInt32.lt_iff_toNat_lt, htoNat]
      rfl
    rw [htype, hcount, h.fields]
    dsimp only
    by_cases hg : IsGroup slot
    · have hlinks := hg.2
      rw [if_pos hg]
      constructor
      · rintro (htype | hless)
        · exact absurd hg.1 htype
        · omega
      · exact fun hnot => absurd hg hnot
    · rw [if_neg hg]
      refine iff_of_true ?_ hg
      by_cases hfile : slot.node.fileType = .file
      · rw [if_neg (by rw [hfile]; decide)]
        exact .inr Nat.one_lt_two
      · exact .inl hfile
  · intro hg
    rw [hdev, hino, hkey hg]
    rfl
  · rw [hlen, ← h.data_length hdata, h.data_eq]
    rfl

namespace CpioReader

variable {r : CpioReader} {rest : List UInt8}

theorem run_readNode (hof : EntryOf options slot text c e) (hcheck : slot.node.check = .ok ())
    (hlong : e.data.data.length < 2 ^ 63) (h : Left r e.data.data rest)
    (hheader : r.header = e.header options.format) :
    ∃ r', readNode.run r = (.ok (stored options slot.node e.data.data), r') ∧
      Left r' [] rest := by
  obtain ⟨_, _, _, _, _, _, _, _, hrdev, _⟩ := header_fields options.format e
  have htype := hof.type options.format
  have hattrs := hof.attrs options.format
  have hempty : nodeData slot.node = [] → e.data.data = [] := by
    intro hnone
    rw [hof.data_eq, hnone, ite_self]
  obtain ⟨r', hload, hleft⟩ := run_load h hlong
  rw [hof.fields] at hrdev
  rw [readNode, run_bind_ok (a := r) (t := r) rfl, hheader, htype]
  rcases hnode : slot.node with ⟨kind, attrs⟩
  rw [hnode] at hattrs hcheck hempty hrdev
  cases kind with
  | file content =>
    refine ⟨r', (run_bind_ok hload _).trans ?_, hleft⟩
    rw [run_pure, hattrs]
    rfl
  | dir =>
    rw [hempty rfl] at h
    refine ⟨r, ?_, h⟩
    rw [hattrs]
    rfl
  | symlink target =>
    refine ⟨r', (run_bind_ok hload _).trans ?_, hleft⟩
    rw [run_pure, hattrs]
    rfl
  | special type device =>
    rw [hempty rfl] at h
    refine ⟨r, ?_, h⟩
    rw [hattrs, hrdev]
    cases type <;> cases device <;> first | rfl | cases hcheck

/-- The entries of the places that are left are read into the tree, and then the
trailer. -/
theorem run_readEntries (ht : t.WellFormed) (hkey : KeyApart t key)
    (hplaced : Placed t options t.places s)
    (hwritten : options.format ≠ .binary) (hdata : ∀ e ∈ s.out, checkData e.data e.path = .ok ())
    (hino : ∀ {k : Nat} {place : Place} {e : Planned} {slot : Slot}, t.places[k]? = some place →
      s.out[k]? = some e → t.live place.2 = some slot → IsGroup slot → e.fields.ino = key place.2)
    {fuel n : Nat} {R : Tree} {g : Groups} (hn : n ≤ t.places.length)
    (hfuel : t.places.length < n + fuel) (hrebuilt : Rebuilt t options key (t.places.take n) R g)
    (h : Left r []
      (archive options.format ((s.out.drop n).map (Planned.entry options.format)) ++ rest)) :
    ∃ R' g' r', (readEntries fuel (R, g)).run r = (.ok R', r') ∧
      Rebuilt t options key t.places R' g' ∧
      r'.state = .trailer ∧ r'.input = rest := by
  induction fuel generalizing n r R g with
  | zero => omega
  | succ fuel ih =>
    rcases Nat.lt_or_eq_of_le hn with hlt | heq
    · have hout : n < s.out.length := hplaced.length ▸ hlt
      have hplace := getElem?_eq_getElem hlt
      have hentry := getElem?_eq_getElem hout
      have htake : t.places.take (n + 1) = t.places.take n ++ [t.places[n]] := by
        rw [take_add_one, hplace, Option.toList_some]
      have hstart : t.places.take n ++ [t.places[n]] <+: t.places := htake ▸ take_prefix _ _
      generalize t.places[n] = place at hplace htake hstart
      obtain ⟨path, id⟩ := place
      obtain ⟨slot, hslot, hof⟩ := hplaced.entry hplace hentry
      have hmem : s.out[n] ∈ s.out := getElem_mem hout
      rw [drop_eq_getElem_cons hout] at h
      generalize s.out[n] = e at hentry hof hmem h
      have hchecked := hdata e hmem
      have hgood := hof.good hchecked
      have hbytes : archive options.format
          (((e :: s.out.drop (n + 1)).map (Planned.entry options.format))) ++ rest =
            (e.entry options.format).bytes options.format ++
              (archive options.format ((s.out.drop (n + 1)).map (Planned.entry options.format)) ++
                rest) := by
        rw [archive, map_cons, cons_append, flatMap_cons, append_assoc]
        rfl
      rw [hbytes] at h
      obtain ⟨r₁, hnext, hleft, hpath, hheader⟩ := run_nextEntry hgood h
      obtain ⟨r₂, hnode, hleft⟩ := run_readNode hof (ht.consistent.check hslot)
        hgood.data_lt hleft hheader
      rw [htake] at hof
      have hcomes := hof.comes id hchecked (hino hplace hentry hslot)
      obtain ⟨R', g', henter, hrebuilt⟩ := hrebuilt.enter ht hkey hstart hslot hcomes
      rw [← htake] at hrebuilt
      obtain ⟨R'', g'', r', hrest, hend⟩ := ih hlt (by omega) hrebuilt hleft
      refine ⟨R'', g'', r', ?_, hend⟩
      have hread : e.data.data = held options slot (times (t.places.take n ++ [(path, id)]) id) :=
        hof.data_eq
      have hrun : (g.enter r₁.path r₁.header (stored options slot.node e.data.data)).run R =
          (.ok g', R') := by
        rw [hpath, hheader, hread]
        exact henter
      rw [readEntries, run_bind_ok (Prog.run_mapError hnext), if_pos rfl,
        run_bind_ok (a := r₁) (t := r₁) rfl, run_bind_ok (Prog.run_mapError hnode)]
      dsimp only
      rw [hrun, run_bind_ok (a := g') (t := r₂) rfl]
      exact hrest
    · obtain ⟨header, hheader⟩ := encode_trailer hwritten
      rw [drop_of_length_le (by rw [hplaced.length, heq]), archive, map_nil, nil_append,
        flatMap_singleton] at h
      obtain ⟨r', hnext, hend⟩ := run_trailer hheader h
      rw [heq, take_length] at hrebuilt
      refine ⟨R, g, r', ?_, hrebuilt, hend⟩
      rw [readEntries, run_bind_ok (Prog.run_mapError hnext)]
      rfl

end CpioReader

end Hadris.Cpio

namespace Hadris.Cpio

open List
open Prog

variable {t R : Tree} {options : CpioOptions} {key : Nat → Nat} {s : Planning}
  {slot : Slot} {e : Planned}
variable {g : Groups}

theorem exists_key (h : Placed t options t.places s) :
    ∃ key, KeyApart t key ∧ ∀ {k : Nat} {place : Place} {e : Planned} {slot : Slot},
      t.places[k]? = some place →
      s.out[k]? = some e → t.live place.2 = some slot → IsGroup slot →
      e.fields.ino = key place.2 := by
  have hkey : ∀ id, ∃ ino, ∀ {k : Nat} {place : Place} {e : Planned} {slot : Slot},
      t.places[k]? = some place →
        s.out[k]? = some e → t.live place.2 = some slot → IsGroup slot → place.2 = id →
          e.fields.ino = ino := by
    intro id
    by_cases hin : id ∈ t.places.map Prod.snd
    · obtain ⟨first, hmem, rfl⟩ := mem_map.mp hin
      obtain ⟨l, hl⟩ := getElem?_of_mem hmem
      have hlt : l < s.out.length := h.length ▸ (List.getElem?_eq_some_iff.mp hl).1
      refine ⟨s.out[l].fields.ino, ?_⟩
      intro k place e slot hk he hslot hg hid
      exact (h.ino hk hl he (getElem?_eq_getElem hlt) hslot).mpr (.inr ⟨hid, hg⟩)
    · refine ⟨0, ?_⟩
      intro k place e slot hk _ _ _ hid
      exact absurd (mem_map.mpr ⟨place, mem_of_getElem? hk, hid⟩) hin
  choose key hkey using hkey
  refine ⟨key, ?_, fun hk he hslot hg => hkey _ hk he hslot hg rfl⟩
  intro a b slot slot' ha hga hina hb hgb hinb heq
  obtain ⟨first, hmem, rfl⟩ := mem_map.mp hina
  obtain ⟨second, hmem', rfl⟩ := mem_map.mp hinb
  obtain ⟨k, hk⟩ := getElem?_of_mem hmem
  obtain ⟨l, hl⟩ := getElem?_of_mem hmem'
  have hklt : k < s.out.length := h.length ▸ (List.getElem?_eq_some_iff.mp hk).1
  have hllt : l < s.out.length := h.length ▸ (List.getElem?_eq_some_iff.mp hl).1
  have hke := getElem?_eq_getElem hklt
  have hle := getElem?_eq_getElem hllt
  have hino : s.out[k].fields.ino = s.out[l].fields.ino := by
    rw [hkey _ hk hke ha hga rfl, hkey _ hl hle hb hgb rfl, heq]
  rcases (h.ino hk hl hke hle ha).mp hino with rfl | ⟨hid, _⟩
  · cases hk.symm.trans hl
    rfl
  · exact hid

/-- Every content in a tree can be read in this mode. -/
def Readable (t : Tree) : Prop :=
  ∀ id slot content, t.live id = some slot → slot.node.content = some content →
    content.check = .ok ()

theorem readable_iff (t : Tree) : Readable t ↔
    ∀ slot ∈ t.slots, ∀ content ∈ slot.bind fun slot => slot.node.content,
      content.check = .ok () := by
  constructor
  · intro h slot hmem content hcontent
    obtain ⟨k, hk⟩ := getElem?_of_mem hmem
    obtain ⟨held, rfl, hcontent⟩ := Option.bind_eq_some_iff.mp hcontent
    exact h k held content (by rw [Tree.live, hk, Option.join_some]) hcontent
  · intro h id slot content hlive hcontent
    exact h (some slot) (mem_of_getElem? (Option.join_eq_some_iff.mp hlive)) content hcontent

instance (t : Tree) : Decidable (Readable t) := decidable_of_iff _ (readable_iff t).symm

def clampedTime (options : CpioOptions) (attrs : SetAttr) : Nat :=
  (attrs.modified <|> options.time).elim 0 fun time =>
    min time.unixSeconds.toNat (if options.format = .odc then 8 ^ 11 - 1 else 2 ^ 32 - 1)

theorem mtime_eq (options : CpioOptions) (attrs : SetAttr) :
    (Planner.new options).mtime attrs = clampedTime options attrs := by
  have hmax : (Planner.new options).maxTime = if options.format = .odc then 8 ^ 11 - 1
      else 2 ^ 32 - 1 := by
    rw [Planner.maxTime, show (Planner.new options).format = options.format from rfl]
    cases options.format <;> rfl
  rw [Planner.mtime, clampedTime, show (Planner.new options).asked attrs =
    (attrs.modified <|> options.time) from rfl, hmax]
  cases (attrs.modified <|> options.time) with
  | none => rfl
  | some time =>
    simp only [Option.elim_some]
    split
    · rw [Int.toNat_of_nonpos (by omega), Nat.zero_min]
    · rfl

/-- What a reader finds for a place of a slot. `carries` tells whether the data is
there. -/
structure ReadsAs (options : CpioOptions) (slot : Slot) (path : List UInt8)
    (carries : Bool) (e : ReadEntry) :
    Prop where
  path : e.path = path
  format : e.header.format = options.format
  mode : e.header.mode = (Planner.modeOf slot.node.fileType).1 ||| permissionsOf slot.node
  uid : e.header.uid = (slot.node.attrs.owner.map Owner.uid).getD 0
  gid : e.header.gid = (slot.node.attrs.owner.map Owner.gid).getD 0
  nlink : e.header.nlink.toNat = if IsGroup slot then slot.links else if slot.node.fileType = .dir
    then 2 else 1
  mtime : e.header.mtime = clampedTime options slot.node.attrs
  dev : e.header.dev = ⟨0, 0⟩
  rdev : e.header.rdev = slot.node.device.getD ⟨0, 0⟩
  len : e.header.len = e.data.length
  data : e.data = if carries then nodeData slot.node else []

/-- The entries of a tree, in the order of its walk. The names of one file, and they
alone, share an inode number; the data stands in the last one's entry, or in all. -/
structure Reads (t : Tree) (options : CpioOptions) (entries : List ReadEntry) : Prop where
  length : entries.length = t.places.length
  entry : ∀ {k : Nat} {place : Place} {e : ReadEntry}, t.places[k]? = some place →
    entries[k]? = some e →
    ∃ slot, t.live place.2 = some slot ∧
      ReadsAs options slot (joined place.1)
        (carries options slot (times (t.places.take (k + 1)) place.2)) e
  ino : ∀ {k l : Nat} {a b : Place} {e f : ReadEntry} {slot : Slot}, t.places[k]? = some a →
    t.places[l]? = some b → entries[k]? = some e → entries[l]? = some f → t.live a.2 = some slot →
      (e.header.ino = f.header.ino ↔ k = l ∨ a.2 = b.2 ∧ IsGroup slot)

/-- `R` is the tree `t` as an archive keeps it: below a plain root the same paths, with
the nodes an archive stores. Two paths lead to one node when they did and it is a
file. -/
structure SameTree (t : Tree) (options : CpioOptions) (R : Tree) : Prop where
  root : R.view [] = some (Tree.root, Node.dir)
  missing : ∀ {q : List (List UInt8)}, t.view q = none → R.view q = none
  view : ∀ {q : List (List UInt8)} {a : Nat} {node : Node}, q ≠ [] → t.view q = some (a, node) →
    ∃ i, R.view q = some (i, stored options node (nodeData node))
  share : ∀ {p q : List (List UInt8)} {a b i j : Nat} {m n m' n' : Node}, p ≠ [] → q ≠ [] →
    t.view p = some (a, m) → t.view q = some (b, n) → R.view p = some (i, m') →
      R.view q = some (j, n') →
      (i = j ↔ p = q ∨ a = b ∧ m.fileType = .file)

theorem EntryOf.readsAs {text : List UInt8} {c : Bool} (h : EntryOf options slot text c e)
    (hdata : checkData e.data e.path = .ok ()) :
    ReadsAs options slot text c ((e.entry options.format).found options.format) := by
  obtain ⟨_, hmode, huid, hgid, hnlink, hmtime, hlen, hdev, hrdev, hformat⟩ :=
    header_fields options.format e
  have hfields := h.fields
  obtain ⟨_, hcheck⟩ := h.check
  obtain ⟨_, _, hheader, _⟩ := Planner.check_ok hcheck
  have hlt : e.fields.nlink < 2 ^ 32 := encode_nlink hheader
  have htoNat : (UInt32.ofNat e.fields.nlink).toNat = e.fields.nlink :=
    UInt32.toNat_ofNat_of_lt hlt
  change ReadsAs options slot text c ⟨e.path, e.header options.format, e.data.data⟩
  refine ⟨h.path_eq, hformat, ?_, ?_, ?_, ?_, ?_, hdev, ?_, ?_, h.data_eq⟩
  · rw [hmode, hfields]
  · rw [huid, hfields]
  · rw [hgid, hfields]
  · rw [hnlink, htoNat, hfields]
  · rw [hmtime, hfields, mtime_eq]
  · rw [hrdev, hfields]
  · rw [hlen, h.data_length hdata]

theorem Placed.reads (h : Placed t options t.places s)
    (hdata : ∀ e ∈ s.out, checkData e.data e.path = .ok ()) :
    Reads t options (s.out.map fun e => (e.entry options.format).found options.format) := by
  have hentry : ∀ {k : Nat} {e : ReadEntry},
      (s.out.map fun e => (e.entry options.format).found options.format)[k]? = some e →
        ∃ p, s.out[k]? = some p ∧ (p.entry options.format).found options.format = e := by
    intro k e he
    rw [getElem?_map] at he
    exact Option.map_eq_some_iff.mp he
  refine ⟨by rw [length_map, h.length], ?_, ?_⟩
  · intro k place e hk he
    obtain ⟨p, hp, rfl⟩ := hentry he
    obtain ⟨slot, hslot, hof⟩ := h.entry hk hp
    exact ⟨slot, hslot, hof.readsAs (hdata p (mem_of_getElem? hp))⟩
  · intro k l a b e f slot hk hl he hf hslot
    obtain ⟨p, hp, rfl⟩ := hentry he
    obtain ⟨q, hq, rfl⟩ := hentry hf
    obtain ⟨hpino, _⟩ := header_fields options.format p
    obtain ⟨hqino, _⟩ := header_fields options.format q
    change (p.header options.format).ino = (q.header options.format).ino ↔ _
    rw [hpino, hqino]
    exact h.ino hk hl hp hq hslot

theorem links_of_places (ht : t.WellFormed) {p q : List (List UInt8)} {a : Nat}
    (hslot : t.live a = some slot)
    (hp : (p, a) ∈ t.places) (hq : (q, a) ∈ t.places) (hne : p ≠ q) : 1 < slot.links := by
  obtain ⟨_, _, _, _, _, hchild⟩ := ht.place_split hp
  rw [ht.links_eq (ht.consistent.child hchild).2.1 hslot]
  have hp' : (p, a) ∈ t.places.filter fun place => place.2 = a :=
    mem_filter.mpr ⟨hp, decide_eq_true rfl⟩
  have hq' : (q, a) ∈ t.places.filter fun place => place.2 = a :=
    mem_filter.mpr ⟨hq, decide_eq_true rfl⟩
  by_contra hle
  obtain ⟨x, hx⟩ := length_eq_one_iff.mp
    (Nat.le_antisymm (Nat.not_lt.mp hle) (length_pos_of_mem hp'))
  rw [hx, mem_singleton] at hp' hq'
  exact hne (congrArg Prod.fst (hp'.trans hq'.symm))

theorem Rebuilt.sameTree (h : Rebuilt t options key t.places R g) (ht : t.WellFormed) :
    SameTree t options R := by
  have hplace : ∀ {q : List (List UInt8)} {a : Nat} {node : Node}, q ≠ [] →
      t.view q = some (a, node) →
        (q, a) ∈ t.places ∧ ∃ slot, t.live a = some slot ∧ slot.node = node := by
    intro q a node hq hview
    obtain ⟨hfollow, hlive⟩ := Tree.view_eq_some.mp hview
    exact ⟨ht.mem_places.mpr ⟨hq, hfollow⟩, hlive⟩
  refine ⟨h.root, ?_, ?_, ?_⟩
  · intro q hnone
    have hfollow := ht.view_eq_none.mp hnone
    apply h.missing
    · rintro rfl
      cases hfollow
    · intro a ha
      cases hfollow.symm.trans (ht.mem_places.mp ha).2
  · intro q a node hq hview
    obtain ⟨hmem, slot, hslot, rfl⟩ := hplace hq hview
    obtain ⟨i, hi⟩ := h.view hmem hslot
    obtain ⟨_, _, _, _, _, hchild⟩ := ht.place_split hmem
    have hall : times t.places a = slot.links :=
      (ht.links_eq (ht.consistent.child hchild).2.1 hslot).symm
    have hcarries : carries options slot (times t.places a) = true :=
      decide_eq_true (.inr (.inr hall))
    refine ⟨i, ?_⟩
    rw [hi, held, hcarries, if_pos rfl]
  · intro p q a b i j m n m' n' hp hq hpview hqview hi hj
    obtain ⟨hpmem, slot, hslot, rfl⟩ := hplace hp hpview
    obtain ⟨hqmem, _⟩ := hplace hq hqview
    rw [h.share hpmem hqmem hslot hi hj]
    constructor
    · rintro (heq | ⟨heq, hg⟩)
      · exact .inl heq
      · exact .inr ⟨heq, hg.1⟩
    · rintro (heq | ⟨rfl, hfile⟩)
      · exact .inl heq
      · by_cases hne : p = q
        · exact .inl hne
        · exact .inr ⟨rfl, hfile, links_of_places ht hslot hpmem hqmem hne⟩

theorem checkData_of_node {path : List UInt8} {p : Planner} {node : Node} {found : Fields × Data}
    (hreadable : ∀ content, node.content = some content → content.check = .ok ())
    (h : p.node node path = .ok found) (text : List UInt8) : checkData found.2 text = .ok () := by
  simp only [Planner.node] at h
  cases hcontent : node.content with
  | some content =>
    simp only [hcontent] at h
    cases h
    rw [checkData, hreadable content hcontent]
    rfl
  | none =>
    simp only [hcontent] at h
    cases htarget : node.target with
    | none =>
      simp only [htarget] at h
      cases h
      rfl
    | some target =>
      simp only [htarget] at h
      split at h <;> cases h
      rfl

theorem checkAllData_of {planned : List Planned}
    (h : ∀ e ∈ planned, checkData e.data e.path = .ok ()) :
    checkAllData planned = .ok () := by
  induction planned with
  | nil => rfl
  | cons e planned ih =>
    obtain ⟨hfirst, hrest⟩ := forall_mem_cons.mp h
    rw [checkAllData, hfirst]
    exact ih hrest

theorem Placed.readable (h : Placed t options t.places s) (hreadable : Readable t) :
    ∀ e ∈ s.out, checkData e.data e.path = .ok () := by
  intro e he
  obtain ⟨k, hk⟩ := getElem?_of_mem he
  have hlt : k < t.places.length := h.length ▸ (List.getElem?_eq_some_iff.mp hk).1
  obtain ⟨slot, hslot, hof⟩ := h.entry (getElem?_eq_getElem hlt) hk
  obtain ⟨found, hfound, _, hdata⟩ := hof.node
  rw [hdata]
  split
  · exact checkData_of_node (fun content hcontent => hreadable _ slot content hslot hcontent)
      hfound _
  · rfl

theorem length_le_archive {format : Format} {entries : List Entry}
    (h : ∀ e ∈ entries, e.Good format) :
    entries.length ≤ (archive format entries).length := by
  induction entries with
  | nil => exact Nat.zero_le _
  | cons e entries ih =>
    obtain ⟨hgood, hall⟩ := forall_mem_cons.mp h
    have hle := ih hall
    have hpath := length_pos_iff.mpr (namesize_ok hgood.name).2.1
    have hbytes : archive format (e :: entries) = e.bytes format ++ archive format entries := by
      rw [archive, cons_append, flatMap_cons]
      rfl
    rw [hbytes, length_append, length_cons, Entry.bytes, Entry.front]
    simp only [length_append]
    omega

/-- A tree that planning accepts, of contents that can be read, is written as an
archive of the size in the report, where each extent holds its file. A reader finds the
planned entries in it, then the trailer, and `readTree` the same tree. What follows the
archive is left on the stream. -/
theorem archive_round_trip (calls : List Tree.Call) (options : CpioOptions) {report : Report}
    (hplan : plan (Tree.after calls) options = .ok report)
    (hreadable : Readable (Tree.after calls)) :
    ∃ out, write (Tree.after calls) options = .ok (out, report) ∧ report.size = out.length ∧
      (∃ files, files.Perm (regularFiles (Tree.after calls)) ∧ Holds out report.pushed files) ∧
      ∀ rest strict,
        (∃ entries r, (CpioReader.readAll (out.length + 1)).run (.new (out ++ rest) strict) =
          (.ok entries, r) ∧
          r.state = .trailer ∧ r.input = rest ∧ Reads (Tree.after calls) options entries) ∧
        ∃ R r, CpioReader.readTree.run (.new (out ++ rest) strict) = (.ok R, r) ∧
          r.state = .trailer ∧ r.input = rest ∧ SameTree (Tree.after calls) options R := by
  have ht := Tree.after_wellFormed calls
  generalize Tree.after calls = t at ht hplan hreadable
  cases hplanned : planTree t options with
  | error e =>
    rw [plan, hplanned] at hplan
    cases hplan
  | ok planned =>
    obtain ⟨planned, _⟩ := planned
    rw [plan, hplanned] at hplan
    cases hplan
    obtain ⟨s, p, hs, rfl, _, _, hformat⟩ := planTree_ok ht hplanned
    have hplaced := visit_placed ht prefix_rfl hs
    have hdata := hplaced.readable hreadable
    obtain ⟨hwrite, hsize, hfiles⟩ := write_ok ht hplanned (checkAllData_of hdata)
    obtain ⟨header, hheader⟩ := encode_trailer hformat
    have hgood : ∀ e ∈ s.out.map (Planned.entry options.format), e.Good options.format := by
      intro e he
      obtain ⟨p, hp, rfl⟩ := mem_map.mp he
      obtain ⟨_, _, _, hof⟩ := hplaced.entryOf hp
      exact hof.good (hdata p hp)
    have hlength := length_le_archive hgood
    refine ⟨_, hwrite, hsize, hfiles, fun rest strict => ⟨?_, ?_⟩⟩
    · obtain ⟨r, hread, hstate, hinput⟩ := CpioReader.run_readAll hgood hheader
        (CpioReader.left_new
          (archive options.format (s.out.map (Planned.entry options.format)) ++ rest) strict)
        (Nat.lt_succ_of_le hlength)
      refine ⟨_, r, hread, hstate, hinput, ?_⟩
      rw [map_map]
      exact hplaced.reads hdata
    · obtain ⟨key, hkey, hino⟩ := exists_key hplaced
      have hleft := CpioReader.left_new
        (archive options.format (s.out.map (Planned.entry options.format)) ++ rest) strict
      have hfuel : t.places.length < 0 +
          ((archive options.format (s.out.map (Planned.entry options.format)) ++ rest).length +
            1) := by
        rw [length_map, hplaced.length] at hlength
        rw [length_append]
        omega
      obtain ⟨R, g, r, hrun, hrebuilt, hstate, hinput⟩ :=
        CpioReader.run_readEntries ht hkey hplaced hformat hdata
        hino (n := 0) (Nat.zero_le _) hfuel (rebuilt_new t options key) hleft
      exact ⟨R, r, hrun, hstate, hinput, hrebuilt.sameTree ht⟩

def linkedFile : List Tree.Call :=
  [.insert [0x64, 0x2F, 0x66] (.file (.bytes [0x68, 0x69])), .link [0x64, 0x2F, 0x66] [0x67]]

theorem archive_round_trip_linkedFile :
    (∃ report, plan (Tree.after linkedFile) ⟨.newc, none⟩ = .ok report) ∧
      Readable (Tree.after linkedFile) ∧
      ∃ report out, write (Tree.after linkedFile) ⟨.newc, none⟩ = .ok (out, report) ∧
      report.size = out.length := by
  have hplan : (plan (Tree.after linkedFile) ⟨.newc, none⟩).toBool = true := by decide +kernel
  have hreadable : Readable (Tree.after linkedFile) := by decide
  cases hreport : plan (Tree.after linkedFile) ⟨.newc, none⟩ with
  | error e =>
    rw [hreport] at hplan
    cases hplan
  | ok report =>
    obtain ⟨out, hwrite, hsize, _⟩ :=
      archive_round_trip linkedFile ⟨.newc, none⟩ hreport hreadable
    exact ⟨⟨report, rfl⟩, hreadable, report, out, hwrite, hsize⟩

def rewritten (t : Tree) (options : CpioOptions) : Option Tree := do
  let written ← (write t options).toOption
  (CpioReader.readTree.run (.new written.1 false)).1.toOption

def linkedSymlink : List Tree.Call := [.insert [0x61] (.symlink [0x78]), .link [0x61] [0x62]]

/-- The two names of a symlink come back as two symlinks. -/
theorem rewritten_linkedSymlink :
    (plan (Tree.after linkedSymlink) ⟨.newc, none⟩).toBool = true ∧
      (Tree.after linkedSymlink).follow Tree.root [[0x61]] = (Tree.after linkedSymlink).follow
        Tree.root [[0x62]] ∧
      (rewritten (Tree.after linkedSymlink) ⟨.newc, none⟩).map (fun R =>
        decide (R.follow Tree.root [[0x61]] = R.follow Tree.root [[0x62]])) = some false := by
  decide +kernel

end Hadris.Cpio
