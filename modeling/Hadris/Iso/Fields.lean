import Hadris.Iso.Scan

namespace Hadris.Iso

open List

namespace Scan

variable {scan : Scan} {e rest : List UInt8} {entries : SuBuilder}

def takeEntry (scan : Scan) (e : List UInt8) : Scan :=
  (scan.entry (.of (e.headD 0) (e.getD 1 0)) (e.getD 3 0) (e.drop 4)).2

/-- The bytes of an entry of version 1 that does not end its area. -/
def IsEntry (e : List UInt8) : Prop :=
  ∃ a b data, e = a :: b :: (4 + data.length).toUInt8 :: 1 :: data ∧ data.length ≤ 251 ∧ a ≠ 0 ∧
    Signature.of a b ≠ .st

theorem entry_stop {signature : Signature} (h : signature ≠ .st) (scan : Scan)
    (data : List UInt8) :
    (scan.entry signature 1 data).1 = false := by
  cases signature <;> first | rfl | exact absurd rfl h

theorem IsEntry.length (h : IsEntry e) : 0 < e.length ∧ e.length ≤ 255 := by
  obtain ⟨a, b, data, rfl, hlen, -, -⟩ := h
  simp only [length_cons]
  omega

theorem feed_entry (h : IsEntry e) (scan : Scan) (rest : List UInt8) :
    scan.feed (e ++ rest) = (scan.takeEntry e).feed rest := by
  obtain ⟨a, b, data, rfl, hlen, ha, hst⟩ := h
  have hbyte : ((4 + data.length).toUInt8).toNat = 4 + data.length := by
    rw [Nat.toUInt8_eq, UInt8.toNat_ofNat_of_lt' (by rw [UInt8.size]; omega)]
  have hlength : byteAt ((a :: b :: (4 + data.length).toUInt8 :: 1 :: data) ++ rest) 2 = 4 +
    data.length := hbyte
  have hhead : ((a :: b :: (4 + data.length).toUInt8 :: 1 :: data) ++ rest).headD 0 = a := rfl
  rw [feed, if_neg (by simp only [length_append, length_cons]; omega), hhead, if_neg ha]
  rw [hlength, dif_neg (by simp only [length_append, length_cons]; omega)]
  have hdata : (((a :: b :: (4 + data.length).toUInt8 :: 1 :: data) ++ rest).take
      (4 + data.length)).drop 4 = data := by
    rw [take_append_of_le_length (by simp only [length_cons]; omega), take_of_length_le
      (by simp only [length_cons]; omega)]
    rfl
  have hrest : ((a :: b :: (4 + data.length).toUInt8 :: 1 :: data) ++ rest).drop
      (4 + data.length) = rest := by
    rw [drop_left' (by simp only [length_cons]; omega)]
  have hsecond : ((a :: b :: (4 + data.length).toUInt8 :: 1 :: data) ++ rest).getD 1 0 = b := rfl
  have hversion : ((a :: b :: (4 + data.length).toUInt8 :: 1 :: data) ++ rest).getD 3 0 = 1 := rfl
  have hstop := entry_stop hst scan data
  have htake : scan.takeEntry (a :: b :: (4 + data.length).toUInt8 :: 1 :: data) =
    (scan.entry (.of a b) 1 data).2 := rfl
  rw [hdata, hrest, hsecond, hversion, htake]
  rcases hentry : scan.entry (.of a b) 1 data with ⟨stop, after⟩
  rw [hentry] at hstop
  cases hstop
  rfl

theorem feed_entries (h : ∀ e ∈ entries, IsEntry e) (scan : Scan) (rest : List UInt8) :
    scan.feed (entries.flatten ++ rest) = (entries.foldl takeEntry scan).feed rest := by
  induction entries generalizing scan with
  | nil => rfl
  | cons e entries ih =>
    rw [flatten_cons, append_assoc, feed_entry (h e mem_cons_self),
      ih (fun e he => h e (mem_cons_of_mem _ he)), foldl_cons]

/-- An entry that neither goes on elsewhere nor is malformed. -/
structure Plain (e : List UInt8) : Prop where
  isEntry : IsEntry e
  next : ∀ scan : Scan, (scan.takeEntry e).next = scan.next
  malformed : ∀ scan : Scan, (scan.takeEntry e).malformed = scan.malformed

theorem foldl_plain (h : ∀ e ∈ entries, Plain e) (scan : Scan) :
    (entries.foldl takeEntry scan).next = scan.next ∧
      (entries.foldl takeEntry scan).malformed = scan.malformed := by
  induction entries generalizing scan with
  | nil => exact ⟨rfl, rfl⟩
  | cons e entries ih =>
    obtain ⟨hnext, hmalformed⟩ := ih (fun e he => h e (mem_cons_of_mem _ he)) (scan.takeEntry e)
    have hplain := h e mem_cons_self
    exact ⟨hnext.trans (hplain.next scan), hmalformed.trans (hplain.malformed scan)⟩

theorem plain_entry {text : String} {a b : UInt8} {signature : Signature} {body : List UInt8}
    (htext : ascii text = [a, b]) (hof : Signature.of a b = signature) (ha : a ≠ 0)
    (hst : signature ≠ .st) (hbody : body.length ≤ 251)
    (hkeeps : ∀ scan : Scan, (scan.entry signature 1 body).2.next = scan.next ∧
      (scan.entry signature 1 body).2.malformed = scan.malformed) :
        Plain (Iso.entry text body) := by
  subst hof
  have htake : ∀ scan : Scan, scan.takeEntry (Iso.entry text body) =
      (scan.entry (.of a b) 1 body).2 := by
    intro scan
    rw [takeEntry, Iso.entry, htext]
    rfl
  refine ⟨⟨a, b, body, ?_, hbody, ha, hst⟩, fun scan => ?_, fun scan => ?_⟩
  · rw [Iso.entry, htext]
    rfl
  · rw [htake]
    exact (hkeeps scan).1
  · rw [htake]
    exact (hkeeps scan).2

end Scan

/-- What the writer puts in a system use area. -/
inductive Field where
  | sp
  | er
  | px (mode links uid gid serial : Nat)
  | pn (high low : Nat)
  | nm (name : List UInt8)
  | logicalDirectory
  | nmCurrent
  | nmParent
  | sl (target : List UInt8)
  | tf (created : Option DirDateTime) (modified accessed : DirDateTime)
  | cl (block : Nat)
  | pl (block : Nat)
  | re

def Field.entries : Field → SuBuilder
  | sp => .sp
  | er => .er
  | px mode links uid gid serial => .px mode links uid gid serial
  | pn high low => .pn high low
  | nm name => .nm name
  | logicalDirectory => .logicalDirectory
  | nmCurrent => .nmCurrent
  | nmParent => .nmParent
  | sl target => .sl target
  | tf created modified accessed => .tf created modified accessed
  | cl block => .cl block
  | pl block => .pl block
  | re => .re

namespace SuBuilder

open Scan

theorem chunks_spec {size : Nat} (hsize : 0 < size) {fuel : Nat} {rest : List UInt8}
    (h : rest.length ≤ fuel) :
    (chunks size fuel rest).flatten = rest ∧ ∀ chunk ∈ chunks size fuel rest, 0 < chunk.length ∧
      chunk.length ≤ size := by
  induction fuel generalizing rest with
  | zero =>
    rw [length_eq_zero_iff.mp (Nat.le_zero.mp h)]
    exact ⟨rfl, fun _ h => absurd h not_mem_nil⟩
  | succ fuel ih =>
    rw [chunks]
    split
    · rename_i hnil
      rw [hnil]
      exact ⟨rfl, fun _ h => absurd h not_mem_nil⟩
    · rename_i hnil
      have hpos := length_pos_iff.mpr hnil
      obtain ⟨hflatten, hchunks⟩ := @ih (rest.drop size) (by rw [length_drop]; omega)
      refine ⟨by rw [flatten_cons, hflatten, take_append_drop], fun chunk hchunk => ?_⟩
      rcases mem_cons.mp hchunk with rfl | hchunk
      · rw [length_take]
        omega
      · exact hchunks chunk hchunk

theorem keeps_checked {scan : Scan} {len : Nat} {data : List UInt8}
    {take : Scan → List UInt8 → Scan} (hlen : len ≤ data.length)
    (htake : (take scan data).next = scan.next ∧ (take scan data).malformed = scan.malformed) :
    (scan.checked len data take).next = scan.next ∧ (scan.checked len data take).malformed =
      scan.malformed := by
  rw [checked, if_pos hlen]
  exact htake

theorem keeps_alternateName (scan : Scan) (data : List UInt8) :
    (scan.alternateName data).next = scan.next ∧ (scan.alternateName data).malformed =
      scan.malformed := by
  rw [alternateName]
  dsimp only
  split <;> exact ⟨rfl, rfl⟩

theorem plain_nm {body : List UInt8} (hpos : 1 ≤ body.length) (hlen : body.length ≤ 251) :
    Plain (Iso.entry "NM" body) :=
  @plain_entry "NM" 0x4E 0x4D .nm body (by decide) (by decide) (by decide) (by decide) hlen
    fun scan => keeps_checked hpos (keeps_alternateName scan body)

theorem plain_nmChunks {pieces : List (List UInt8)} (h : ∀ chunk ∈ pieces, chunk.length ≤ 250) :
    ∀ e ∈ nmChunks pieces, Plain e := by
  induction pieces with
  | nil => exact fun _ h => absurd h not_mem_nil
  | cons chunk pieces ih =>
    intro e he
    rcases mem_cons.mp he with rfl | he
    · have hchunk := h chunk mem_cons_self
      exact plain_nm (by rw [length_cons]; omega) (by rw [length_cons]; omega)
    · exact ih (fun c hc => h c (mem_cons_of_mem _ hc)) e he

def encode (comps : List (UInt8 × List UInt8)) : List UInt8 :=
  comps.flatMap fun comp => comp.1 :: comp.2.length.toUInt8 :: comp.2

def joinComponent (state : Sink × Bool) (comp : UInt8 × List UInt8) : Sink × Bool :=
  (component state.1 state.2 comp.1 comp.2, comp.1 &&& SlComponentFlags.continue_ ≠ 0)

theorem components_encode {comps : List (UInt8 × List UInt8)}
    (h : ∀ comp ∈ comps, comp.2.length ≤ 248) (link : Option Sink) (open_ : Bool) :
    components link open_ (encode comps) =
      (link.map fun sink => (comps.foldl joinComponent (sink, open_)).1,
        (link.map fun sink => (comps.foldl joinComponent (sink, open_)).2).getD open_, true) := by
  induction comps generalizing link open_ with
  | nil =>
    change components link open_ [] = _
    rw [components.eq_def]
    cases link <;> rfl
  | cons comp comps ih =>
    obtain ⟨flags, content⟩ := comp
    have hcontent : content.length ≤ 248 := h _ mem_cons_self
    have hbyte : (content.length.toUInt8).toNat = content.length := by
      rw [Nat.toUInt8_eq, UInt8.toNat_ofNat_of_lt' (by rw [UInt8.size]; omega)]
    have hencode : encode ((flags, content) :: comps) =
        flags :: content.length.toUInt8 :: (content ++ encode comps) := rfl
    rw [hencode, components.eq_def]
    dsimp only
    rw [hbyte, if_neg (by rw [length_append]; omega), drop_left, take_left]
    have hih := ih fun comp hcomp => h comp (mem_cons_of_mem _ hcomp)
    cases link with
    | none => exact hih none open_
    | some sink => exact hih (some (component sink open_ flags content)) _

theorem slEntries_spec {comps held : List (UInt8 × List UInt8)} {pushed : Bool}
    (h : ∀ comp ∈ comps, comp.2.length ≤ 248) (hheld : (encode held).length ≤ 250)
    (hpushed : pushed = true ∨ held = []) :
    ∃ groups last, slEntries (0 :: encode held) pushed comps =
        groups.map (fun group => Iso.entry "SL" (1 :: encode group)) ++
          [Iso.entry "SL" (0 :: encode last)] ∧
      groups.flatten ++ last = held ++ comps ∧ ∀ group ∈ groups ++ [last],
        (encode group).length ≤ 250 := by
  induction comps generalizing held pushed with
  | nil =>
    refine ⟨[], held, ?_, by rw [append_nil]; rfl, fun group hgroup => ?_⟩
    · rw [slEntries, if_pos ?_]
      · rfl
      · rcases hpushed with h | rfl
        · exact .inl h
        · exact .inr rfl
    · rw [mem_singleton.mp hgroup]
      exact hheld
  | cons comp comps ih =>
    obtain ⟨flags, content⟩ := comp
    have hcontent : content.length ≤ 248 := h _ mem_cons_self
    have hsingle : encode [(flags, content)] = flags :: content.length.toUInt8 :: content := by
      rw [encode, flatMap_singleton]
    rw [slEntries]
    split
    · obtain ⟨groups, last, hentries, hflatten, hlengths⟩ := @ih [(flags, content)] true
        (fun comp hcomp => h comp (mem_cons_of_mem _ hcomp))
        (by rw [hsingle]; simp only [length_cons]; omega) (.inl rfl)
      rw [hsingle] at hentries
      refine ⟨held :: groups, last, ?_, ?_, fun group hgroup => ?_⟩
      · rw [hentries]
        rfl
      · rw [flatten_cons, append_assoc, hflatten]
        rfl
      · rcases mem_cons.mp hgroup with rfl | hgroup
        · exact hheld
        · exact hlengths group hgroup
    · rename_i hfits
      have happend : encode (held ++ [(flags, content)]) =
          encode held ++ flags :: content.length.toUInt8 :: content := by
        rw [encode, flatMap_append, flatMap_singleton]
        rfl
      obtain ⟨groups, last, hentries, hflatten, hlengths⟩ := @ih (held ++ [(flags, content)]) true
        (fun comp hcomp => h comp (mem_cons_of_mem _ hcomp))
        (by
          rw [happend]
          simp only [length_append, length_cons] at hfits ⊢
          omega) (.inl rfl)
      rw [happend] at hentries
      exact ⟨groups, last, hentries, by rw [hflatten, append_assoc]; rfl, hlengths⟩

theorem keeps_symlink (scan : Scan) (flag : UInt8) {comps : List (UInt8 × List UInt8)}
    (h : ∀ comp ∈ comps, comp.2.length ≤ 248) :
    (scan.symlink (flag :: encode comps)).next = scan.next ∧
      (scan.symlink (flag :: encode comps)).malformed = scan.malformed := by
  rw [symlink]
  split
  · exact ⟨rfl, rfl⟩
  · rw [tail_cons, components_encode h]
    exact ⟨rfl, Bool.or_false _⟩

theorem slChunks_content {pieces : List (List UInt8)} (h : ∀ chunk ∈ pieces, chunk.length ≤ 248) :
    ∀ comp ∈ slChunks pieces, comp.2.length ≤ 248 := by
  induction pieces with
  | nil => exact fun _ h => absurd h not_mem_nil
  | cons chunk pieces ih =>
    intro comp hcomp
    rcases mem_cons.mp hcomp with rfl | hcomp
    · exact h chunk mem_cons_self
    · exact ih (fun c hc => h c (mem_cons_of_mem _ hc)) comp hcomp

theorem slComponents_content (target : List UInt8) :
    ∀ comp ∈ slComponents target, comp.2.length ≤ 248 := by
  intro comp hcomp
  rcases mem_append.mp hcomp with hroot | hpart
  · split at hroot
    · rw [mem_singleton.mp hroot]
      exact Nat.zero_le _
    · exact absurd hroot not_mem_nil
  · obtain ⟨part, -, hpart⟩ := mem_flatMap.mp hpart
    rw [slPart] at hpart
    split at hpart
    · rw [mem_singleton.mp hpart]
      exact Nat.zero_le _
    · split at hpart
      · rw [mem_singleton.mp hpart]
        exact Nat.zero_le _
      · exact slChunks_content
          (fun chunk hchunk => ((chunks_spec (by decide) (Nat.le_refl _)).2 chunk hchunk).2)
            comp hpart

theorem plain_sl {flag : UInt8} {group : List (UInt8 × List UInt8)}
    (hlen : (encode group).length ≤ 250)
    (h : ∀ comp ∈ group, comp.2.length ≤ 248) : Plain (Iso.entry "SL" (flag :: encode group)) :=
  @plain_entry "SL" 0x53 0x4C .sl _ (by decide) (by decide) (by decide) (by decide)
    (by rw [length_cons]; omega)
    fun scan => keeps_checked (by rw [length_cons]; omega) (keeps_symlink scan flag h)

theorem length_toBytes (time : DirDateTime) : time.toBytes.length = 7 := rfl

theorem readTimes_whole {flags : UInt8} {slots : List (UInt8 × Option Nat)} {rest : List UInt8}
    {times : List (Option Stamp)}
    (h : (slots.filter fun slot => flags &&& slot.1 ≠ 0).length * 7 ≤ rest.length) :
    (readTimes flags false slots rest times).2 = true := by
  induction slots generalizing rest times with
  | nil => rfl
  | cons slot slots ih =>
    obtain ⟨flag, slot⟩ := slot
    rw [readTimes]
    dsimp only
    by_cases hflag : flags &&& flag = 0
    · rw [if_pos hflag]
      rw [filter_cons_of_neg (by simpa using hflag)] at h
      exact ih h
    · rw [filter_cons_of_pos (by simpa using hflag), length_cons] at h
      rw [if_neg hflag, if_neg (by simp only [Bool.false_eq_true, if_false]; omega)]
      exact ih (by rw [length_drop]; simp only [Bool.false_eq_true, if_false]; omega)

theorem keeps_readTimes (scan : Scan) {flags : UInt8} {rest : List UInt8}
    (hshort : flags &&& TfFlags.longForm = 0)
    (h : (TfFlags.slots.filter fun slot => flags &&& slot.1 ≠ 0).length * 7 ≤ rest.length) :
    (scan.times (flags :: rest)).next = scan.next ∧ (scan.times (flags :: rest)).malformed =
      scan.malformed := by
  refine ⟨rfl, ?_⟩
  change (scan.malformed ||
    !(readTimes flags (decide (flags &&& TfFlags.longForm ≠ 0)) TfFlags.slots rest
    scan.info.times).2) = _
  rw [hshort, decide_eq_false (not_not.mpr rfl), readTimes_whole h, Bool.not_true, Bool.or_false]

theorem keeps_times (scan : Scan) (created : Option DirDateTime)
    (modified accessed : DirDateTime) :
    (scan.times ((if created.isSome then 0x07 else 0x06) ::
      ((created.map DirDateTime.toBytes).getD [] ++ modified.toBytes ++ accessed.toBytes))).next =
        scan.next ∧
    (scan.times ((if created.isSome then 0x07 else 0x06) ::
      ((created.map DirDateTime.toBytes).getD [] ++ modified.toBytes ++
        accessed.toBytes))).malformed =
        scan.malformed := by
  rcases created with _ | created
  · exact keeps_readTimes scan (show (6 : UInt8) &&& TfFlags.longForm = 0 by decide)
      (show (TfFlags.slots.filter fun slot => (6 : UInt8) &&& slot.1 ≠ 0).length * 7 ≤
        14 by decide)
  · exact keeps_readTimes scan (show (7 : UInt8) &&& TfFlags.longForm = 0 by decide)
      (show (TfFlags.slots.filter fun slot => (7 : UInt8) &&& slot.1 ≠ 0).length * 7 ≤
        21 by decide)

theorem length_ascii_ofList (text : List Char) :
    (ascii (String.ofList text)).length = (Directory.encodeUtf8 text).length := by
  rw [ascii, String.toList_ofList]

-- The literals are unified with lists of characters, which the kernel takes apart at once.
set_option maxRecDepth 2000 in
theorem er_lengths : (ascii erId).length = 10 ∧ (ascii erDescriptor).length = 84 ∧
    (ascii erSource).length = 134 := by
  refine ⟨(length_ascii_ofList _).trans ?_, (length_ascii_ofList _).trans ?_,
    (length_ascii_ofList _).trans ?_⟩ <;>
    decide +kernel

theorem keeps_extension (scan : Scan) {a b c : UInt8} {rest : List UInt8}
    (h : 4 + a.toNat + b.toNat + c.toNat ≤ rest.length + 3) :
    (scan.extension (a :: b :: c :: rest)).next = scan.next ∧
      (scan.extension (a :: b :: c :: rest)).malformed = scan.malformed := by
  refine ⟨rfl, ?_⟩
  change (scan.malformed || decide (rest.length + 3 < 4 + a.toNat + b.toNat + c.toNat)) = _
  rw [decide_eq_false (Nat.not_lt.mpr h), Bool.or_false]

theorem plain_er {id descriptor source : List UInt8} (hid : id.length = 10)
    (hdescriptor : descriptor.length = 84) (hsource : source.length = 134) :
    Plain (entry "ER" ([id.length.toUInt8, descriptor.length.toUInt8, source.length.toUInt8, 1] ++
      id ++ descriptor ++ source)) := by
  simp only [cons_append, nil_append, append_assoc]
  refine @plain_entry "ER" 0x45 0x52 .er _ (by decide) (by decide) (by decide) (by decide) ?_
    fun scan => keeps_checked ?_ (keeps_extension scan ?_)
  all_goals
    simp only [length_append, length_cons, hid, hdescriptor, hsource]
    decide

end SuBuilder

namespace Field

open Scan SuBuilder

theorem plain (field : Field) : ∀ e ∈ field.entries, Plain e := by
  intro e he
  rcases field with _ | _ | ⟨mode, links, uid, gid, serial⟩ | ⟨high,
    low⟩ | name | _ | _ | _ | target |
    ⟨created, modified, accessed⟩ | block | block | _
  · rw [mem_singleton.mp he]
    exact @plain_entry "SP" 0x53 0x50 .sp _ (by decide) (by decide) (by decide)
      (by decide) (by decide)
      fun _ => ⟨rfl, rfl⟩
  · rw [mem_singleton.mp he]
    exact plain_er er_lengths.1 er_lengths.2.1 er_lengths.2.2
  · rw [mem_singleton.mp he]
    exact @plain_entry "PX" 0x50 0x58 .px _ (by decide) (by decide) (by decide) (by decide)
      (by simp only [length_append, length_both]; decide)
      fun _ => keeps_checked (by simp only [length_append, length_both]; decide) ⟨rfl, rfl⟩
  · rw [mem_singleton.mp he]
    exact @plain_entry "PN" 0x50 0x4E .pn _ (by decide) (by decide) (by decide) (by decide)
      (by simp only [length_append, length_both]; decide)
      fun _ => keeps_checked (by simp only [length_append, length_both]; decide) ⟨rfl, rfl⟩
  · refine plain_nmChunks (fun chunk hchunk => ?_) e he
    exact ((chunks_spec (by decide) (Nat.le_refl _)).2 chunk hchunk).2
  · rw [mem_singleton.mp he]
    refine @plain_entry "HD" 0x48 0x44 .hd _ (by decide) (by decide) (by decide)
      (by decide) (by decide)
      fun scan => ?_
    rw [show (scan.entry .hd 1 (ascii "hadris.logical-directory")).2 =
      { scan with info := { scan.info with logicalDirectory := true } } from rfl]
    exact ⟨rfl, rfl⟩
  · rw [mem_singleton.mp he]
    exact plain_nm (by decide) (by decide)
  · rw [mem_singleton.mp he]
    exact plain_nm (by decide) (by decide)
  · obtain ⟨groups, last, hentries, hflatten, hlengths⟩ :=
      @slEntries_spec (slComponents target) [] false
      (slComponents_content target) (by decide) (.inr rfl)
    have hcontent : ∀ group ∈ groups ++ [last], ∀ comp ∈ group, comp.2.length ≤ 248 := by
      intro group hgroup comp hcomp
      refine slComponents_content target comp ?_
      rw [nil_append] at hflatten
      rw [← hflatten]
      rcases mem_append.mp hgroup with hgroup | hgroup
      · exact mem_append_left _ (mem_flatten.mpr ⟨group, hgroup, hcomp⟩)
      · exact mem_append_right _ (mem_singleton.mp hgroup ▸ hcomp)
    change e ∈ slEntries (0 :: encode []) false (slComponents target) at he
    rw [hentries] at he
    rcases mem_append.mp he with he | he
    · obtain ⟨group, hgroup, rfl⟩ := mem_map.mp he
      have hmem := mem_append_left [last] hgroup
      exact plain_sl (hlengths group hmem) (hcontent group hmem)
    · rw [mem_singleton.mp he]
      have hmem := mem_append_right groups (mem_singleton_self last)
      exact plain_sl (hlengths last hmem) (hcontent last hmem)
  · rw [mem_singleton.mp he]
    refine @plain_entry "TF" 0x54 0x46 .tf _ (by decide) (by decide) (by decide) (by decide) ?_
      fun scan => keeps_checked ?_ (keeps_times scan created modified accessed)
    · cases created <;>
        simp only [length_cons, length_append, length_toBytes, Option.map_none, Option.map_some,
          Option.getD_none, Option.getD_some, length_nil] <;> decide
    · rw [length_cons]
      omega
  · rw [mem_singleton.mp he]
    exact @plain_entry "CL" 0x43 0x4C .cl _ (by decide) (by decide) (by decide) (by decide)
      (by rw [length_both]; decide) fun _ => keeps_checked (by rw [length_both]) ⟨rfl, rfl⟩
  · rw [mem_singleton.mp he]
    exact @plain_entry "PL" 0x50 0x4C .pl _ (by decide) (by decide) (by decide) (by decide)
      (by rw [length_both]; decide) fun _ => keeps_checked (by rw [length_both]) ⟨rfl, rfl⟩
  · rw [mem_singleton.mp he]
    exact @plain_entry "RE" 0x52 0x45 .re _ (by decide) (by decide) (by decide)
      (by decide) (by decide)
      fun _ => ⟨rfl, rfl⟩

end Field

def ceEntry (spot : Nat × Nat) (len : Nat) : List UInt8 :=
  entry "CE" (both 4 spot.1 ++ both 4 spot.2 ++ both 4 len)

def blankCe : List UInt8 := entry "CE" (replicate 24 0)

theorem length_ceEntry (spot : Nat × Nat) (len : Nat) : (ceEntry spot len).length = ceLen := by
  rw [ceEntry, SuBuilder.length_entry]
  simp only [length_append, length_both]
  rfl

theorem patch_blank (kept : List UInt8) (spot : Nat × Nat) (len : Nat) :
    SplitSu.patch (kept ++ blankCe) kept.length spot len = kept ++ ceEntry spot len := by
  have hblank : blankCe.length = ceLen := rfl
  rw [SplitSu.patch, drop_of_length_le (by rw [length_append, hblank]), append_nil,
    take_length_add_append, append_assoc]
  rfl

theorem u32At_both {n : Nat} (h : n < 2 ^ 32) (rest : List UInt8) :
    u32At (both 4 n ++ rest) 0 = n := by
  change (u8 n).toNat + (u8 (n / 256)).toNat * 256 +
    ((u8 (n / 256 / 256)).toNat + (u8 (n / 256 / 256 / 256)).toNat * 256) * 65536 = n
  simp only [u8, UInt8.toNat_ofNat']
  omega

theorem isConsistent_both (n : Nat) (rest : List UInt8) :
    isConsistent (both 4 n ++ rest) = true := by
  rw [isConsistent, both, append_assoc, take_left' (leBytes_length 4 n),
    drop_left' (leBytes_length 4 n),
    take_left' (by rw [length_reverse, leBytes_length]), reverse_reverse]
  exact beq_self_eq_true _

theorem drop_both (n : Nat) (rest : List UInt8) : (both 4 n ++ rest).drop 8 = rest :=
  drop_left' (length_both 4 n)

namespace Scan

variable {scan : Scan}

theorem takeEntry_ce {spot : Nat × Nat} {len : Nat} (hblock : spot.1 < 2 ^ 32)
    (hoffset : spot.2 < 2 ^ 32) (hlen : len < 2 ^ 32) (hnext : scan.next = none) :
    scan.takeEntry (ceEntry spot len) = { scan with next := some ⟨spot.1, spot.2, len⟩ } := by
  have hdata : (both 4 spot.1 ++ both 4 spot.2 ++ both 4 len).drop 8 = both 4 spot.2 ++
      (both 4 len ++ []) := by
    rw [append_assoc, drop_both, append_nil]
  have hlast : (both 4 spot.1 ++ both 4 spot.2 ++ both 4 len).drop 16 = both 4 len ++ [] := by
    rw [show 16 = 8 + 8 from rfl, ← drop_drop, hdata, drop_both]
  have hshift : ∀ (bytes : List UInt8) (i : Nat), u32At bytes i = u32At (bytes.drop i) 0 := by
    intro bytes i
    simp only [u32At, u16At, byteAt, getD_eq_getElem?_getD, getElem?_drop,
      Nat.zero_add, Nat.add_assoc]
    rfl
  have hconsistent : isConsistent (both 4 spot.1 ++ both 4 spot.2 ++ both 4 len) = true := by
    rw [append_assoc]
    exact isConsistent_both _ _
  have hfirst : u32At (both 4 spot.1 ++ both 4 spot.2 ++ both 4 len) 0 = spot.1 := by
    rw [append_assoc]
    exact u32At_both hblock _
  change scan.checked 24 (both 4 spot.1 ++ both 4 spot.2 ++ both 4 len) continuation = _
  rw [checked, if_pos (by simp only [length_append, length_both]; decide), continuation, hfirst,
    hshift _ 8, hshift _ 16, hdata, hlast, u32At_both hoffset, u32At_both hlen,
      hconsistent, isConsistent_both,
    isConsistent_both, hnext]
  simp

theorem isEntry_ce (spot : Nat × Nat) (len : Nat) : IsEntry (ceEntry spot len) := by
  refine ⟨0x43, 0x45, both 4 spot.1 ++ both 4 spot.2 ++ both 4 len, rfl, ?_, by decide, by decide⟩
  simp only [length_append, length_both]
  decide

end Scan

end Hadris.Iso
