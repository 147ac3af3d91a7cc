import Hadris.Iso.Fields
import Hadris.Numbered

namespace Hadris.Iso

open List
open Scan SuBuilder

/-- A buffer holds `text`, or as much of it as tells that it does not fit. -/
structure Sink.Holds (sink : Sink) (room : Nat) (text : List UInt8) : Prop where
  capacity : sink.capacity = room
  len : sink.len = text.length
  last : sink.last = text.getLast?
  overflow : sink.overflow = decide (room < text.length)
  bytes : text.length ≤ room → sink.bytes = text

theorem Sink.Holds.new (capacity : Nat) : (Sink.new capacity).Holds capacity [] :=
  ⟨rfl, rfl, rfl, (decide_eq_false (Nat.not_lt_zero _)).symm, fun _ => rfl⟩

theorem Sink.Holds.push {sink : Sink} {capacity : Nat} {text : List UInt8}
    (h : sink.Holds capacity text)
    (bytes : List UInt8) : (sink.push bytes).Holds capacity (text ++ bytes) := by
  rcases hnil : bytes.getLast? with _ | last
  · rw [getLast?_eq_none_iff.mp hnil, append_nil, Sink.push]
    exact h
  · obtain ⟨hcapacity, hlen, hlast, hoverflow, hbytes⟩ := h
    have hfits : (decide (sink.len + bytes.length ≤ sink.capacity) && !sink.overflow) =
        decide ((text ++ bytes).length ≤ capacity) := by
      rw [hlen, hcapacity, hoverflow, ← decide_not, ← Bool.decide_and, length_append]
      exact decide_eq_decide.mpr ⟨fun h => h.1, fun h => ⟨h, by omega⟩⟩
    rw [Sink.push, hnil]
    dsimp only
    rw [hfits]
    refine ⟨hcapacity, by rw [length_append, hlen], ?_, ?_, fun hle => ?_⟩
    · rw [getLast?_append, hnil]
      rfl
    · rw [← decide_not]
      exact decide_eq_decide.mpr Nat.not_le
    · dsimp only
      rw [if_pos (decide_eq_true hle), hbytes (by rw [length_append] at hle; omega)]

namespace Field

def name? : Field → Option (List UInt8)
  | nm name => if name = [] then none else some name
  | _ => none

def target? : Field → Option (List UInt8)
  | sl target => some target
  | _ => none

end Field

theorem takeEntry_entry {text : String} {a b : UInt8} {signature : Signature} {body : List UInt8}
    (htext : ascii text = [a, b]) (hof : Signature.of a b = signature) (scan : Scan) :
    scan.takeEntry (Iso.entry text body) = (scan.entry signature 1 body).2 := by
  rw [takeEntry, Iso.entry, htext, ← hof]
  rfl

theorem foldl_keeps {β : Type} {view : Scan → β} {entries : SuBuilder}
    (h : ∀ e ∈ entries, ∀ scan : Scan, view (scan.takeEntry e) = view scan) (scan : Scan) :
    view (entries.foldl takeEntry scan) = view scan := by
  induction entries generalizing scan with
  | nil => rfl
  | cons e entries ih =>
    rw [foldl_cons, ih fun e he => h e (mem_cons_of_mem _ he)]
    exact h e mem_cons_self scan

theorem checked_keeps {β : Type} {view : Scan → β} {scan : Scan} {len : Nat} {data : List UInt8}
    {take : Scan → List UInt8 → Scan} (hfail : view scan.fail = view scan)
    (htake : view (take scan data) = view scan) :
    view (scan.checked len data take) = view scan := by
  rw [checked]
  split
  · exact htake
  · exact hfail

section Names

def nameView (scan : Scan) : Option Sink × Bool × Bool :=
  (scan.name, scan.nameDone, scan.info.hasName)

theorem nameView_symlink (scan : Scan) (data : List UInt8) :
    nameView (scan.symlink data) = nameView scan := by
  rw [symlink]
  split <;> rfl

theorem nameView_entry {signature : Signature} (h : signature ≠ .nm)
    (scan : Scan) (version : UInt8)
    (data : List UInt8) : nameView (scan.entry signature version data).2 = nameView scan := by
  rw [Scan.entry.eq_def]
  split
  · rfl
  · cases signature with
    | nm => exact absurd rfl h
    | sp => dsimp only; split <;> rfl
    | hd => dsimp only; split <;> rfl
    | sl => exact checked_keeps rfl (nameView_symlink scan data)
    | ce | er | px | pn | tf | cl | pl => exact @checked_keeps _ nameView _ _ _ _ rfl rfl
    | st | rr | re | other => rfl

theorem nameView_slEntries {comps : List (UInt8 × List UInt8)}
    {body : List UInt8} {pushed : Bool} :
    ∀ e ∈ slEntries body pushed comps, ∀ scan : Scan,
      nameView (scan.takeEntry e) = nameView scan := by
  have hsl : ∀ body : List UInt8, ∀ scan : Scan,
      nameView (scan.takeEntry (Iso.entry "SL" body)) = nameView scan := by
    intro body scan
    rw [@takeEntry_entry "SL" 0x53 0x4C .sl _ (by decide) (by decide)]
    exact nameView_entry (by decide) scan 1 body
  induction comps generalizing body pushed with
  | nil =>
    intro e he
    rw [slEntries] at he
    split at he
    · rw [mem_singleton.mp he]
      exact hsl body
    · exact absurd he not_mem_nil
  | cons comp comps ih =>
    intro e he
    rw [slEntries] at he
    split at he
    · rcases mem_cons.mp he with rfl | he
      · exact hsl _
      · exact ih e he
    · exact ih e he

theorem nameView_flagged {flag : UInt8} (h : flag &&& (NmFlags.current ||| NmFlags.parent) ≠ 0)
    (scan : Scan) :
    nameView (scan.takeEntry (Iso.entry "NM" [flag])) = nameView scan := by
  rw [@takeEntry_entry "NM" 0x4E 0x4D .nm _ (by decide) (by decide)]
  change nameView (scan.checked 1 [flag] alternateName) = _
  refine checked_keeps rfl ?_
  rw [alternateName]
  dsimp only
  rw [if_pos (.inl h)]

theorem nameView_field {field : Field} (h : field.name? = none) :
    ∀ e ∈ field.entries, ∀ scan : Scan, nameView (scan.takeEntry e) = nameView scan := by
  have hof : ∀ {text : String} {a b : UInt8} {signature : Signature} {body : List UInt8},
      ascii text = [a, b] → Signature.of a b = signature → signature ≠ .nm →
        ∀ e ∈ [Iso.entry text body], ∀ scan : Scan,
          nameView (scan.takeEntry e) = nameView scan := by
    intro text a b signature body htext hof hne e he scan
    rw [mem_singleton.mp he, takeEntry_entry htext hof]
    exact nameView_entry hne scan 1 body
  cases field with
  | sp => exact @hof "SP" 0x53 0x50 .sp _ (by decide) (by decide) (by decide)
  | er => exact @hof "ER" 0x45 0x52 .er _ (by decide) (by decide) (by decide)
  | px => exact @hof "PX" 0x50 0x58 .px _ (by decide) (by decide) (by decide)
  | pn => exact @hof "PN" 0x50 0x4E .pn _ (by decide) (by decide) (by decide)
  | nm name =>
    have hname : name = [] := by
      rw [Field.name?] at h
      split at h
      · assumption
      · cases h
    rw [hname]
    exact fun _ h => absurd h not_mem_nil
  | logicalDirectory => exact @hof "HD" 0x48 0x44 .hd _ (by decide) (by decide) (by decide)
  | nmCurrent =>
    intro e he scan
    rw [mem_singleton.mp he]
    exact nameView_flagged (by decide) scan
  | nmParent =>
    intro e he scan
    rw [mem_singleton.mp he]
    exact nameView_flagged (by decide) scan
  | sl => exact nameView_slEntries
  | tf => exact @hof "TF" 0x54 0x46 .tf _ (by decide) (by decide) (by decide)
  | cl => exact @hof "CL" 0x43 0x4C .cl _ (by decide) (by decide) (by decide)
  | pl => exact @hof "PL" 0x50 0x4C .pl _ (by decide) (by decide) (by decide)
  | re => exact @hof "RE" 0x52 0x45 .re _ (by decide) (by decide) (by decide)

theorem nameView_done {scan : Scan} (h : scan.nameDone = true) (e : List UInt8) :
    nameView (scan.takeEntry e) = nameView scan := by
  rw [takeEntry]
  generalize Signature.of (e.headD 0) (e.getD 1 0) = signature
  generalize e.getD 3 0 = version
  generalize e.drop 4 = data
  by_cases hnm : signature = .nm
  · subst hnm
    rw [Scan.entry.eq_def]
    split
    · rfl
    · refine checked_keeps rfl ?_
      rw [alternateName]
      dsimp only
      rw [if_pos (.inr h)]
  · exact nameView_entry hnm scan version data

theorem foldl_done {scan : Scan} (h : scan.nameDone = true) (entries : SuBuilder) :
    nameView (entries.foldl takeEntry scan) = nameView scan := by
  induction entries generalizing scan with
  | nil => rfl
  | cons e entries ih =>
    have hkeeps := nameView_done h e
    have hdone : (scan.takeEntry e).nameDone = true :=
      (congrArg (fun view => view.2.1) hkeeps).trans h
    rw [foldl_cons, ih hdone, hkeeps]

theorem foldl_nmChunks {pieces : List (List UInt8)} (hne : pieces ≠ []) {scan : Scan}
    (hdone : scan.nameDone = false) :
    nameView ((nmChunks pieces).foldl takeEntry scan) =
      (scan.name.map fun sink => pieces.foldl Sink.push sink, true, true) := by
  have htake : ∀ (flag : UInt8) (chunk : List UInt8) (scan : Scan), scan.nameDone = false →
      flag &&& (NmFlags.current ||| NmFlags.parent) = 0 →
      nameView (scan.takeEntry (Iso.entry "NM" (flag :: chunk))) =
        (scan.name.map (·.push chunk), decide (flag &&& NmFlags.continue_ = 0), true) := by
    intro flag chunk scan hdone hflag
    rw [@takeEntry_entry "NM" 0x4E 0x4D .nm _ (by decide) (by decide)]
    change nameView (scan.checked 1 (flag :: chunk) alternateName) = _
    rw [checked, if_pos (by rw [length_cons]; omega), alternateName]
    have hnot : ¬(flag &&& (NmFlags.current ||| NmFlags.parent) ≠ 0 ∨ scan.nameDone = true) := by
      rw [hdone]
      exact not_or.mpr ⟨not_not.mpr hflag, Bool.false_ne_true⟩
    exact congrArg nameView (if_neg hnot)
  induction pieces generalizing scan with
  | nil => exact absurd rfl hne
  | cons chunk pieces ih =>
    rw [nmChunks, foldl_cons]
    rcases pieces with _ | ⟨next, pieces⟩
    · exact htake 0 chunk scan hdone (by decide)
    · have hfirst := htake 1 chunk scan hdone (by decide)
      rw [if_neg (cons_ne_nil _ _), ih (cons_ne_nil _ _) (congrArg (fun view => view.2.1) hfirst),
        show (scan.takeEntry (Iso.entry "NM" (1 :: chunk))).name =
          scan.name.map (·.push chunk) from
          congrArg (fun view => view.1) hfirst, Option.map_map]
      rfl

theorem foldl_push {sink : Sink} {capacity : Nat} {text : List UInt8}
    (h : sink.Holds capacity text)
    (pieces : List (List UInt8)) :
    (pieces.foldl Sink.push sink).Holds capacity (text ++ pieces.flatten) := by
  induction pieces generalizing sink text with
  | nil =>
    rw [flatten_nil, append_nil]
    exact h
  | cons piece pieces ih =>
    rw [flatten_cons, ← append_assoc]
    exact ih (h.push piece)

theorem nameOf_of {scan : Scan} {sink : Sink} (h : scan.name = some sink) :
    scan.nameOf = if sink.overflow then .error .nameTooLong
      else if scan.info.hasName ∧ 0 < sink.len then .ok (some sink.bytes) else .ok none := by
  rw [nameOf, h]

def readName (capacity : Nat) (fields : List Field) : Except ErrorKind (Option (List UInt8)) :=
  match fields.findSome? Field.name? with
  | none => .ok none
  | some name => if capacity < name.length then .error .nameTooLong else .ok (some name)

theorem nameOf_foldl {capacity : Nat} {fields : List Field} {scan : Scan}
    (hname : scan.name = some (.new capacity))
    (hdone : scan.nameDone = false) (hhas : scan.info.hasName = false) :
    ((fields.flatMap Field.entries).foldl takeEntry scan).nameOf = readName capacity fields := by
  induction fields generalizing scan with
  | nil =>
    rw [nameOf, show ([] : List Field).flatMap Field.entries = [] from rfl, foldl_nil, hname]
    dsimp only [Sink.new]
    rw [if_neg Bool.false_ne_true, if_neg (fun h => absurd h.2 (Nat.lt_irrefl 0))]
    rfl
  | cons field fields ih =>
    rw [flatMap_cons, foldl_append, readName, findSome?_cons]
    rcases hfield : field.name? with _ | name
    · have hkeeps := foldl_keeps (nameView_field hfield) scan
      exact ih ((congrArg (fun view => view.1) hkeeps).trans hname)
        ((congrArg (fun view => view.2.1) hkeeps).trans hdone)
        ((congrArg (fun view => view.2.2) hkeeps).trans hhas)
    · cases field with
      | nm text =>
        rw [Field.name?] at hfield
        split at hfield
        · cases hfield
        · rename_i hne
          cases hfield
          obtain ⟨hflatten, -⟩ := @chunks_spec 250 (by decide) name.length name (Nat.le_refl _)
          have hpieces : chunks 250 name.length name ≠ [] := by
            intro hnil
            rw [hnil] at hflatten
            exact hne hflatten.symm
          have hview := foldl_nmChunks hpieces hdone
          have hafter := (foldl_done (congrArg (fun view => view.2.1) hview)
            (fields.flatMap Field.entries)).trans hview
          have hholds := foldl_push (Sink.Holds.new capacity) (chunks 250 name.length name)
          rw [hflatten, nil_append] at hholds
          rw [hname, Option.map_some] at hafter
          have hlen := length_pos_iff.mpr hne
          rw [show (Field.nm name).entries = nmChunks (chunks 250 name.length name) from rfl,
            nameOf_of (congrArg (fun view => view.1) hafter)]
          dsimp only
          by_cases hfits : capacity < name.length
          · rw [hholds.overflow, decide_eq_true hfits, if_pos rfl, if_pos hfits]
          · rw [hholds.overflow, decide_eq_false hfits, if_neg Bool.false_ne_true,
              if_neg hfits, hholds.len,
              if_pos ⟨congrArg (fun view => view.2.2) hafter, hlen⟩,
                hholds.bytes (Nat.le_of_not_lt hfits)]
      | _ => cases hfield

end Names

section Targets

def linkView (scan : Scan) : Option Sink × Bool × Bool :=
  (scan.link, scan.linkDone, scan.componentOpen)

theorem linkView_alternateName (scan : Scan) (data : List UInt8) :
    linkView (scan.alternateName data) = linkView scan := by
  rw [alternateName]
  dsimp only
  split <;> rfl

theorem linkView_entry {signature : Signature} (h : signature ≠ .sl)
    (scan : Scan) (version : UInt8)
    (data : List UInt8) : linkView (scan.entry signature version data).2 = linkView scan := by
  rw [Scan.entry.eq_def]
  split
  · rfl
  · cases signature with
    | sl => exact absurd rfl h
    | sp => dsimp only; split <;> rfl
    | hd => dsimp only; split <;> rfl
    | nm => exact checked_keeps rfl (linkView_alternateName scan data)
    | ce | er | px | pn | tf | cl | pl => exact @checked_keeps _ linkView _ _ _ _ rfl rfl
    | st | rr | re | other => rfl

theorem linkView_nmChunks {pieces : List (List UInt8)} :
    ∀ e ∈ nmChunks pieces, ∀ scan : Scan, linkView (scan.takeEntry e) = linkView scan := by
  induction pieces with
  | nil => exact fun _ h => absurd h not_mem_nil
  | cons chunk pieces ih =>
    intro e he scan
    rcases mem_cons.mp he with rfl | he
    · rw [@takeEntry_entry "NM" 0x4E 0x4D .nm _ (by decide) (by decide)]
      exact linkView_entry (by decide) scan 1 _
    · exact ih e he scan

theorem linkView_field {field : Field} (h : field.target? = none) :
    ∀ e ∈ field.entries, ∀ scan : Scan, linkView (scan.takeEntry e) = linkView scan := by
  have hof : ∀ {text : String} {a b : UInt8} {signature : Signature} {body : List UInt8},
      ascii text = [a, b] → Signature.of a b = signature → signature ≠ .sl →
        ∀ e ∈ [Iso.entry text body], ∀ scan : Scan,
          linkView (scan.takeEntry e) = linkView scan := by
    intro text a b signature body htext hof hne e he scan
    rw [mem_singleton.mp he, takeEntry_entry htext hof]
    exact linkView_entry hne scan 1 body
  cases field with
  | sp => exact @hof "SP" 0x53 0x50 .sp _ (by decide) (by decide) (by decide)
  | er => exact @hof "ER" 0x45 0x52 .er _ (by decide) (by decide) (by decide)
  | px => exact @hof "PX" 0x50 0x58 .px _ (by decide) (by decide) (by decide)
  | pn => exact @hof "PN" 0x50 0x4E .pn _ (by decide) (by decide) (by decide)
  | nm => exact linkView_nmChunks
  | logicalDirectory => exact @hof "HD" 0x48 0x44 .hd _ (by decide) (by decide) (by decide)
  | nmCurrent => exact @hof "NM" 0x4E 0x4D .nm _ (by decide) (by decide) (by decide)
  | nmParent => exact @hof "NM" 0x4E 0x4D .nm _ (by decide) (by decide) (by decide)
  | sl => cases h
  | tf => exact @hof "TF" 0x54 0x46 .tf _ (by decide) (by decide) (by decide)
  | cl => exact @hof "CL" 0x43 0x4C .cl _ (by decide) (by decide) (by decide)
  | pl => exact @hof "PL" 0x50 0x4C .pl _ (by decide) (by decide) (by decide)
  | re => exact @hof "RE" 0x52 0x45 .re _ (by decide) (by decide) (by decide)

theorem linkView_done {scan : Scan} (h : scan.linkDone = true) (e : List UInt8) :
    linkView (scan.takeEntry e) = linkView scan := by
  rw [takeEntry]
  generalize Signature.of (e.headD 0) (e.getD 1 0) = signature
  generalize e.getD 3 0 = version
  generalize e.drop 4 = data
  by_cases hsl : signature = .sl
  · subst hsl
    rw [Scan.entry.eq_def]
    split
    · rfl
    · refine checked_keeps rfl ?_
      rw [symlink, if_pos h]
  · exact linkView_entry hsl scan version data

theorem foldl_linked {scan : Scan} (h : scan.linkDone = true) (entries : SuBuilder) :
    linkView (entries.foldl takeEntry scan) = linkView scan := by
  induction entries generalizing scan with
  | nil => rfl
  | cons e entries ih =>
    have hkeeps := linkView_done h e
    have hdone : (scan.takeEntry e).linkDone = true :=
      (congrArg (fun view => view.2.1) hkeeps).trans h
    rw [foldl_cons, ih hdone, hkeeps]

theorem linkView_sl {flag : UInt8} {group : List (UInt8 × List UInt8)}
    (h : ∀ comp ∈ group, comp.2.length ≤ 248)
    {scan : Scan} {sink : Sink} (hlink : scan.link = some sink) (hdone : scan.linkDone = false) :
    linkView (scan.takeEntry (Iso.entry "SL" (flag :: encode group))) =
      (some (group.foldl joinComponent (sink, scan.componentOpen)).1, decide (flag &&& 1 = 0),
        (group.foldl joinComponent (sink, scan.componentOpen)).2) := by
  rw [@takeEntry_entry "SL" 0x53 0x4C .sl _ (by decide) (by decide)]
  change linkView (scan.checked 1 (flag :: encode group) symlink) = _
  rw [checked, if_pos (by rw [length_cons]; omega), symlink, hdone, if_neg Bool.false_ne_true,
    tail_cons, components_encode h, hlink]
  rfl

theorem foldl_slGroups {groups : List (List (UInt8 × List UInt8))}
    {last : List (UInt8 × List UInt8)}
    (h : ∀ group ∈ groups ++ [last], ∀ comp ∈ group, comp.2.length ≤ 248)
    {scan : Scan} {sink : Sink} (hlink : scan.link = some sink) (hdone : scan.linkDone = false) :
    linkView ((groups.map (fun group => Iso.entry "SL" (1 :: encode group)) ++
        [Iso.entry "SL" (0 :: encode last)]).foldl takeEntry scan) =
      (some ((groups.flatten ++ last).foldl joinComponent (sink, scan.componentOpen)).1, true,
        ((groups.flatten ++ last).foldl joinComponent (sink, scan.componentOpen)).2) := by
  induction groups generalizing scan sink with
  | nil => exact linkView_sl (h last mem_cons_self) hlink hdone
  | cons group groups ih =>
    have hfirst := @linkView_sl 1 group (h group mem_cons_self) scan sink hlink hdone
    have hrest := @ih (fun group hgroup => h group (mem_cons_of_mem _ hgroup))
      (scan.takeEntry (Iso.entry "SL" (1 :: encode group))) _
        (congrArg (fun view => view.1) hfirst)
      (congrArg (fun view => view.2.1) hfirst)
    rw [show (scan.takeEntry (Iso.entry "SL" (1 :: encode group))).componentOpen = _ from
      congrArg (fun view => view.2.2) hfirst] at hrest
    have hjoin : (group ++ (groups.flatten ++ last)).foldl joinComponent
      (sink, scan.componentOpen) =
        (groups.flatten ++ last).foldl joinComponent
          (group.foldl joinComponent (sink, scan.componentOpen)) :=
      foldl_append
    rw [flatten_cons, append_assoc, hjoin]
    exact hrest

def parted (text : List UInt8) : List UInt8 :=
  if text.getLast?.any (· ≠ slash) then text ++ [slash] else text

def addComponent (state : List UInt8 × Bool) (comp : UInt8 × List UInt8) : List UInt8 × Bool :=
  (if state.2 then state.1 ++ comp.2
    else if comp.1 &&& SlComponentFlags.root ≠ 0 then if state.1.length = 0
      then [slash] else state.1
    else parted state.1 ++
      if comp.1 &&& SlComponentFlags.current ≠ 0 then [dot]
      else if comp.1 &&& SlComponentFlags.parent ≠ 0 then [dot, dot] else comp.2,
    comp.1 &&& SlComponentFlags.continue_ ≠ 0)

theorem holds_component {sink : Sink} {capacity : Nat} {text : List UInt8}
    (h : sink.Holds capacity text) (open_ : Bool) (comp : UInt8 × List UInt8) :
    (component sink open_ comp.1 comp.2).Holds capacity (addComponent (text, open_) comp).1 := by
  rw [component, addComponent]
  dsimp only
  by_cases hopen : open_ = true
  · rw [if_pos hopen, if_pos hopen]
    exact h.push _
  · rw [if_neg hopen, if_neg hopen]
    by_cases hroot : comp.1 &&& SlComponentFlags.root ≠ 0
    · rw [if_pos hroot, if_pos hroot, h.len]
      by_cases hnil : text.length = 0
      · rw [if_pos hnil, if_pos hnil]
        rw [length_eq_zero_iff.mp hnil] at h
        exact h.push [slash]
      · rw [if_neg hnil, if_neg hnil]
        exact h
    · have hparted : (if sink.last.any (· ≠ slash) then sink.push [slash] else sink).Holds
          capacity (parted text) := by
        rw [parted, h.last]
        split
        · exact h.push [slash]
        · exact h
      rw [if_neg hroot, if_neg hroot]
      by_cases hcurrent : comp.1 &&& SlComponentFlags.current ≠ 0
      · rw [if_pos hcurrent, if_pos hcurrent]
        exact hparted.push [dot]
      · rw [if_neg hcurrent, if_neg hcurrent]
        by_cases hparent : comp.1 &&& SlComponentFlags.parent ≠ 0
        · rw [if_pos hparent, if_pos hparent]
          exact hparted.push [dot, dot]
        · rw [if_neg hparent, if_neg hparent]
          exact hparted.push comp.2

theorem holds_components {capacity : Nat} (comps : List (UInt8 × List UInt8))
    {state : Sink × Bool} {text : List UInt8} (h : state.1.Holds capacity text) :
    (comps.foldl joinComponent state).1.Holds capacity
      (comps.foldl addComponent (text, state.2)).1 := by
  induction comps generalizing state text with
  | nil => exact h
  | cons comp comps ih => exact @ih (joinComponent state comp) _ (holds_component h state.2 comp)

def addPart (text part : List UInt8) : List UInt8 := parted text ++ part

theorem addComponent_content {flag : UInt8} (hroot : flag &&& SlComponentFlags.root = 0)
    (hcurrent : flag &&& SlComponentFlags.current = 0)
    (hparent : flag &&& SlComponentFlags.parent = 0)
    (text : List UInt8) (open_ : Bool) (content : List UInt8) :
    addComponent (text, open_) (flag, content) =
      ((if open_ then text else parted text) ++ content,
        decide (flag &&& SlComponentFlags.continue_ ≠ 0)) := by
  rw [addComponent]
  dsimp only
  rw [if_neg (not_not.mpr hroot), if_neg (not_not.mpr hcurrent), if_neg (not_not.mpr hparent)]
  cases open_ <;> rfl

theorem addComponent_chunk (text : List UInt8) (open_ : Bool) (more : Prop) [Decidable more]
    (chunk : List UInt8) :
    addComponent (text, open_) ((if more then 0 else 1), chunk) =
      ((if open_ then text else parted text) ++ chunk, !decide more) := by
  by_cases h : more
  · rw [if_pos h, decide_eq_true h, addComponent_content (by decide) (by decide) (by decide)]
    rfl
  · rw [if_neg h, decide_eq_false h, addComponent_content (by decide) (by decide) (by decide)]
    rfl

theorem foldl_slChunks {pieces : List (List UInt8)} (hne : pieces ≠ [])
    (text : List UInt8) (open_ : Bool) :
    (slChunks pieces).foldl addComponent (text, open_) =
      ((if open_ then text else parted text) ++ pieces.flatten, false) := by
  induction pieces generalizing text open_ with
  | nil => exact absurd rfl hne
  | cons chunk pieces ih =>
    rw [slChunks, foldl_cons, addComponent_chunk]
    rcases pieces with _ | ⟨next, pieces⟩
    · rw [flatten_singleton]
      rfl
    · rw [decide_eq_false (cons_ne_nil _ _), Bool.not_false, ih (cons_ne_nil _ _), if_pos rfl,
        flatten_cons (l := chunk), append_assoc]

theorem foldl_slPart {part : List UInt8} (hne : part ≠ []) (text : List UInt8) :
    (slPart part).foldl addComponent (text, false) = (addPart text part, false) := by
  rw [slPart]
  split
  · rename_i hdot
    rw [hdot]
    rfl
  · split
    · rename_i hdots
      rw [hdots]
      rfl
    · obtain ⟨hflatten, -⟩ := @chunks_spec 248 (by decide) part.length part (Nat.le_refl _)
      have hpieces : chunks 248 part.length part ≠ [] := by
        intro hnil
        rw [hnil] at hflatten
        exact hne hflatten.symm
      rw [foldl_slChunks hpieces, hflatten]
      rfl

theorem foldl_slParts {parts : List (List UInt8)} (h : ∀ part ∈ parts, part ≠ [])
    (text : List UInt8) :
    (parts.flatMap slPart).foldl addComponent (text, false) =
      (parts.foldl addPart text, false) := by
  induction parts generalizing text with
  | nil => rfl
  | cons part parts ih =>
    rw [flatMap_cons, foldl_append, foldl_slPart (h part mem_cons_self),
      ih fun part hpart => h part (mem_cons_of_mem _ hpart), foldl_cons]

theorem intercalate_slash (part : List UInt8) (parts : List (List UInt8)) :
    [slash].intercalate (part :: parts) = part ++ parts.flatMap (slash :: ·) := by
  induction parts generalizing part with
  | nil => rw [intercalate_singleton, flatMap_nil, append_nil]
  | cons next parts ih =>
    rw [intercalate_cons_cons, ih, flatMap_cons, append_assoc, singleton_append, cons_append]

def joinedTarget (target : List UInt8) : List UInt8 :=
  (if target.head? = some slash then [slash] else []) ++ [slash].intercalate
    ((target.splitOn slash).filter (· ≠ []))

theorem getLast?_part {part : List UInt8} (hne : part ≠ []) (hslash : slash ∉ part)
    (text : List UInt8) :
    (text ++ part).getLast?.any (· ≠ slash) = true := by
  rw [getLast?_append_of_ne_nil _ hne, getLast?_eq_some_getLast hne,
    Option.any_some, decide_eq_true_iff]
  exact fun heq => hslash (heq ▸ getLast_mem hne)

theorem foldl_addPart {parts : List (List UInt8)} (h : ∀ part ∈ parts, part ≠ [] ∧ slash ∉ part)
    {text : List UInt8}
    (htext : text.getLast?.any (· ≠ slash) = true) :
    parts.foldl addPart text = text ++ parts.flatMap (slash :: ·) := by
  induction parts generalizing text with
  | nil => rw [foldl_nil, flatMap_nil, append_nil]
  | cons part parts ih =>
    obtain ⟨hne, hslash⟩ := h part mem_cons_self
    have hpart : addPart text part = text ++ slash :: part := by
      rw [addPart, parted, if_pos htext, append_assoc, singleton_append]
    rw [foldl_cons, ih fun part hpart => h part (mem_cons_of_mem _ hpart), hpart, flatMap_cons,
      append_assoc]
    exact getLast?_part hne hslash _

theorem foldl_slComponents (target : List UInt8) :
    ((slComponents target).foldl addComponent ([], false)).1 = joinedTarget target := by
  have hparts : ∀ part ∈ (target.splitOn slash).filter (· ≠ []), part ≠ [] ∧ slash ∉ part := by
    intro part hpart
    obtain ⟨hmem, hne⟩ := mem_filter.mp hpart
    exact ⟨of_decide_eq_true hne, not_mem_splitOn hmem⟩
  have hroot :
      (if target.head? = some slash then [(0x08, [])] else ([] : List (UInt8 × List UInt8))).foldl
        addComponent ([], false) =
          ((if target.head? = some slash then [slash] else []), false) := by
    split <;> rfl
  rw [slComponents, joinedTarget, foldl_append, hroot]
  generalize hstart : (if target.head? = some slash then [slash] else ([] : List UInt8)) = start
  have hlast : start.getLast?.any (· ≠ slash) = false := by
    rw [← hstart]
    split <;> rfl
  rw [foldl_slParts fun part hpart => (hparts part hpart).1]
  rcases hfilter : (target.splitOn slash).filter (· ≠ []) with _ | ⟨part, parts⟩
  · exact (append_nil _).symm
  · rw [hfilter] at hparts
    obtain ⟨hne, hslash⟩ := hparts part mem_cons_self
    rw [foldl_cons, addPart, parted, if_neg (by rw [hlast]; exact Bool.false_ne_true),
      foldl_addPart (fun part hpart => hparts part (mem_cons_of_mem _ hpart))
        (getLast?_part hne hslash _),
      intercalate_slash, append_assoc]

def readLink (capacity : Nat) (fields : List Field) : Except ErrorKind (List UInt8) :=
  match fields.findSome? Field.target? with
  | none => .ok []
  | some target =>
    if capacity < (joinedTarget target).length then .error .limitExceeded
      else .ok (joinedTarget target)

theorem linkOf_of {scan : Scan} {sink : Sink} (h : scan.link = some sink) :
    scan.linkOf = if sink.overflow then .error .limitExceeded else .ok sink.bytes := by
  rw [linkOf, h]

theorem linkOf_foldl {capacity : Nat} {fields : List Field} {scan : Scan}
    (hlink : scan.link = some (.new capacity))
    (hdone : scan.linkDone = false) (hopen : scan.componentOpen = false) :
    ((fields.flatMap Field.entries).foldl takeEntry scan).linkOf = readLink capacity fields := by
  induction fields generalizing scan with
  | nil =>
    rw [show ([] : List Field).flatMap Field.entries = [] from rfl, foldl_nil, linkOf_of hlink]
    rfl
  | cons field fields ih =>
    rw [flatMap_cons, foldl_append, readLink, findSome?_cons]
    rcases hfield : field.target? with _ | target
    · have hkeeps := foldl_keeps (linkView_field hfield) scan
      exact ih ((congrArg (fun view => view.1) hkeeps).trans hlink)
        ((congrArg (fun view => view.2.1) hkeeps).trans hdone)
        ((congrArg (fun view => view.2.2) hkeeps).trans hopen)
    · cases field with
      | sl text =>
        cases hfield
        obtain ⟨groups, last, hentries, hflatten, -⟩ :=
          @slEntries_spec (slComponents target) [] false
          (slComponents_content target) (by decide) (.inr rfl)
        rw [nil_append] at hflatten
        have hcontent : ∀ group ∈ groups ++ [last], ∀ comp ∈ group, comp.2.length ≤ 248 := by
          intro group hgroup comp hcomp
          refine slComponents_content target comp ?_
          rw [← hflatten, ← flatten_concat]
          exact mem_flatten.mpr ⟨group, hgroup, hcomp⟩
        have hview := foldl_slGroups hcontent hlink hdone
        have hafter := (foldl_linked (congrArg (fun view => view.2.1) hview)
          (fields.flatMap Field.entries)).trans hview
        rw [hflatten, hopen] at hafter
        have hholds := @holds_components capacity (slComponents target) (.new capacity, false) []
          (Sink.Holds.new capacity)
        rw [foldl_slComponents] at hholds
        rw [show (Field.sl target).entries = _ from hentries,
          linkOf_of (congrArg (fun view => view.1) hafter)]
        dsimp only
        by_cases hfits : capacity < (joinedTarget target).length
        · rw [hholds.overflow, decide_eq_true hfits, if_pos rfl, if_pos hfits]
        · rw [hholds.overflow, decide_eq_false hfits, if_neg Bool.false_ne_true, if_neg hfits,
            hholds.bytes (Nat.le_of_not_lt hfits)]
      | _ => cases hfield

end Targets

end Hadris.Iso
