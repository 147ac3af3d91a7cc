import Mathlib.Data.List.GetD
import Mathlib.Data.List.Range
import Mathlib.Logic.Function.Basic
import Mathlib.Tactic.Common

namespace Hadris.Exfat

open List

/-- Where the decoding of one page of the up-case table starts: the table unit
to continue from, and the identity mappings left from an earlier run. -/
structure PageStart where
  unit : Nat
  run : Nat
deriving DecidableEq, Repr

/-- A mapping that is completed, with the state that resumes at it. -/
structure Mapping where
  code : Nat
  upper : Nat
  start : PageStart
deriving DecidableEq, Repr

/-- Decodes a compressed or plain up-case table one unit at a time. -/
structure UpcaseDecoder where
  code : Nat
  marker : Bool
  run : Nat
  next : Nat
deriving DecidableEq, Repr

namespace UpcaseDecoder

def new : UpcaseDecoder := ⟨0, false, 0, 0⟩

def resume (start : PageStart) (code : Nat) : UpcaseDecoder :=
  ⟨code, false, start.run, start.unit⟩

def drained (next : Nat) : Nat → Nat → List Mapping
  | 0, _ => []
  | run + 1, code =>
    if code ≤ 0xFFFF then ⟨code, code, ⟨next, run + 1⟩⟩ :: drained next run (code + 1) else []

def drain (d : UpcaseDecoder) : List Mapping × UpcaseDecoder :=
  let mappings := drained d.next d.run d.code
  (mappings, { d with code := d.code + mappings.length, run := 0 })

def feed (d : UpcaseDecoder) (unit : Nat) : List Mapping × UpcaseDecoder :=
  if d.marker then drain { d with marker := false, run := unit, next := d.next + 1 }
  else if 0xFFFF < d.code then ([], { d with next := d.next + 1 })
  else if unit = 0xFFFF ∧ d.code ≠ 0xFFFF then ([], { d with marker := true, next := d.next + 1 })
  else ([⟨d.code, unit, ⟨d.next, 0⟩⟩], { d with code := d.code + 1, next := d.next + 1 })

def feedAll : List Nat → UpcaseDecoder → List Mapping × UpcaseDecoder
  | [], d => ([], d)
  | unit :: rest, d =>
    ((d.feed unit).1 ++ (feedAll rest (d.feed unit).2).1, (feedAll rest (d.feed unit).2).2)

def mappingsFrom (units : List Nat) (d : UpcaseDecoder) : List Mapping :=
  d.drain.1 ++ (feedAll (units.drop d.next) d.drain.2).1

end UpcaseDecoder

def storeMapping (out : Nat → Nat) (m : Mapping) : Nat → Nat := Function.update out m.code m.upper

def mappings (units : List Nat) : List Mapping := (UpcaseDecoder.feedAll units .new).1

/-- The table of `units`, decoded as a whole. Code points it does not reach map
to themselves. -/
def decodeTable (units : List Nat) : Nat → Nat := (mappings units).foldl storeMapping id

def storeInPage (page : Nat) (out : Nat → Nat) (m : Mapping) : Nat → Nat :=
  if m.code / 256 = page then Function.update out (m.code % 256) m.upper else out

/-- Mappings of consecutive code points from `code` on. -/
def Consecutive (code : Nat) (ms : List Mapping) : Prop :=
  ms.map Mapping.code = range' code ms.length

namespace Consecutive

variable {code : Nat} {ms ms' : List Mapping}

theorem nil (code : Nat) : Consecutive code [] := rfl

theorem append (h : Consecutive code ms) (h' : Consecutive (code + ms.length) ms') :
    Consecutive code (ms ++ ms') := by
  rw [Consecutive] at *
  rw [map_append, h, h', length_append, ← range'_append_1]

theorem left (h : Consecutive code (ms ++ ms')) : Consecutive code ms := by
  rw [Consecutive, map_append, length_append, ← range'_append_1] at h
  exact append_inj_left h (by simp)

theorem right (h : Consecutive code (ms ++ ms')) : Consecutive (code + ms.length) ms' := by
  rw [Consecutive, map_append, length_append, ← range'_append_1] at h
  exact append_inj_right h (by simp)

theorem code_getElem (h : Consecutive code ms) {i : Nat} (hi : i < ms.length) :
    ms[i].code = code + i := by
  have hi' : i < (ms.map Mapping.code).length := by simpa using hi
  have hmap : (ms.map Mapping.code)[i] = code + i := by
    simp only [Consecutive] at h
    simp [h]
  simpa using hmap

theorem cons {m : Mapping} (h : Consecutive code (m :: ms)) :
    m.code = code ∧ Consecutive (code + 1) ms := by
  simp only [Consecutive, map_cons, length_cons, range'_succ, List.cons.injEq] at h
  exact h

theorem foldl_store {out : Nat → Nat} (h : Consecutive code ms) {k : Nat} :
    ms.foldl storeMapping out k =
      if hk : code ≤ k ∧ k - code < ms.length then ms[k - code].upper else out k := by
  induction ms generalizing code out with
  | nil => simp
  | cons m rest ih =>
    obtain ⟨hm, hrest⟩ := h.cons
    rw [foldl_cons, ih hrest, storeMapping, hm]
    rcases Nat.lt_trichotomy k code with hlt | rfl | hgt
    · rw [dif_neg (by omega), dif_neg (by omega), Function.update_of_ne (by omega)]
    · rw [dif_neg (by omega), dif_pos (by simp), Function.update_self]
      simp
    · obtain ⟨j, rfl⟩ := Nat.exists_eq_add_of_lt hgt
      have hj : code + j + 1 - code = j + 1 := by omega
      have hj' : code + j + 1 - (code + 1) = j := by omega
      simp only [hj, hj', length_cons, getElem_cons_succ]
      by_cases hin : j < rest.length
      · rw [dif_pos (by omega), dif_pos (by omega)]
      · rw [dif_neg (by omega), dif_neg (by omega), Function.update_of_ne (by omega)]

end Consecutive

namespace UpcaseDecoder

theorem drained_consecutive (next run code : Nat) : Consecutive code (drained next run code) := by
  induction run generalizing code with
  | zero => exact .nil code
  | succ run ih =>
    rw [drained]
    split
    · exact @Consecutive.append _ [_] _ rfl (ih (code + 1))
    · exact .nil code

theorem drained_resume {next run code : Nat} {before after : List Mapping} {m : Mapping}
    (h : drained next run code = before ++ m :: after) :
    m.start.unit = next ∧ drained next m.start.run m.code = m :: after := by
  induction run generalizing code before with
  | zero => simp [drained] at h
  | succ run ih =>
    have hall := h
    rw [drained] at h
    split at h
    · rcases before with _ | ⟨b, before⟩
      · simp only [nil_append, List.cons.injEq] at h
        obtain ⟨rfl, -⟩ := h
        exact ⟨rfl, hall⟩
      · simp only [cons_append, List.cons.injEq] at h
        exact ih h.2
    · simp at h

variable {d : UpcaseDecoder}

theorem drain_of_run (h : d.run = 0) : d.drain = ([], d) := by
  cases d
  subst h
  rfl

theorem drain_consecutive (d : UpcaseDecoder) : Consecutive d.code d.drain.1 :=
  drained_consecutive _ _ _

theorem drain_code (d : UpcaseDecoder) : d.drain.2.code = d.code + d.drain.1.length := rfl

theorem drain_resume {before after : List Mapping} {m : Mapping} (hmarker : d.marker = false)
    (h : d.drain.1 = before ++ m :: after) :
    (resume m.start m.code).drain = (m :: after, d.drain.2) := by
  obtain ⟨hunit, hrest⟩ := drained_resume h
  have hcode := (h ▸ d.drain_consecutive).code_getElem (i := before.length) (by simp)
  simp only [getElem_append_right (le_refl before.length), Nat.sub_self,
    getElem_cons_zero] at hcode
  have hlen : d.drain.1.length = before.length + (after.length + 1) := by
    rw [h, length_append, length_cons]
  simp only [drain, resume, hunit, hrest, Prod.mk.injEq, mk.injEq, true_and, hmarker,
    length_cons, and_true] at hlen ⊢
  omega

@[simp] theorem feed_next (d : UpcaseDecoder) (unit : Nat) :
    (d.feed unit).2.next = d.next + 1 := by
  simp only [feed]
  split
  · rfl
  split
  · rfl
  split <;> rfl

theorem feed_run (h : d.run = 0) (unit : Nat) : (d.feed unit).2.run = 0 := by
  simp only [feed]
  split
  · rfl
  split
  · exact h
  split <;> exact h

theorem feed_consecutive (d : UpcaseDecoder) (unit : Nat) :
    Consecutive d.code (d.feed unit).1 ∧
      (d.feed unit).2.code = d.code + (d.feed unit).1.length := by
  simp only [feed]
  split
  · exact ⟨drain_consecutive _, drain_code _⟩
  split
  · exact ⟨.nil _, rfl⟩
  split
  · exact ⟨.nil _, rfl⟩
  · exact ⟨rfl, rfl⟩

/-- A mapping completed by a unit is one of a run, which is drained anew, or the
unit itself, which is taken anew. -/
theorem feed_resume {unit : Nat} {before after : List Mapping} {m : Mapping} (hrun : d.run = 0)
    (h : (d.feed unit).1 = before ++ m :: after) :
    (resume m.start m.code).drain = (m :: after, (d.feed unit).2) ∨
      before = [] ∧ resume m.start m.code = d := by
  simp only [feed] at h ⊢
  split at h
  · rename_i hmarker
    rw [if_pos hmarker]
    exact .inl (drain_resume rfl h)
  rename_i hmarker
  split at h
  · simp at h
  split at h
  · simp at h
  rcases before with _ | ⟨b, before⟩
  · simp only [nil_append, List.cons.injEq] at h
    obtain ⟨rfl, -⟩ := h
    refine .inr ⟨rfl, ?_⟩
    cases d
    simp only [Bool.not_eq_true] at hmarker hrun
    subst hmarker hrun
    rfl
  · simp at h

theorem feedAll_consecutive (units : List Nat) (d : UpcaseDecoder) :
    Consecutive d.code (feedAll units d).1 ∧
      (feedAll units d).2.code = d.code + (feedAll units d).1.length := by
  induction units generalizing d with
  | nil => exact ⟨.nil _, rfl⟩
  | cons unit rest ih =>
    obtain ⟨hfeed, hcode⟩ := d.feed_consecutive unit
    obtain ⟨hrest, hend⟩ := ih (d.feed unit).2
    rw [hcode] at hrest hend
    refine ⟨hfeed.append hrest, ?_⟩
    rw [feedAll, hend, length_append, Nat.add_assoc]

theorem feedAll_resume {units rest : List Nat} {before after : List Mapping} {m : Mapping}
    (hrun : d.run = 0) (hrest : units.drop d.next = rest)
    (h : (feedAll rest d).1 = before ++ m :: after) :
    mappingsFrom units (resume m.start m.code) = m :: after := by
  induction rest generalizing d before with
  | nil => simp [feedAll] at h
  | cons unit rest ih =>
    have hnext : units.drop (d.feed unit).2.next = rest := by
      rw [feed_next, ← drop_drop, hrest, drop_one, tail_cons]
    have hall := h
    rw [feedAll] at h
    rcases append_eq_append_iff.mp h with ⟨before', rfl, hafter⟩ | ⟨found, hfound, hsplit⟩
    · exact ih (feed_run hrun unit) hnext hafter
    rcases found with _ | ⟨m', found⟩
    · exact @ih _ [] (feed_run hrun unit) hnext hsplit.symm
    simp only [cons_append, List.cons.injEq] at hsplit
    obtain ⟨rfl, rfl⟩ := hsplit
    rcases feed_resume hrun hfound with hdrain | ⟨rfl, hresume⟩
    · have hstart : (resume m.start m.code).next = (d.feed unit).2.next :=
        congrArg (fun r => r.2.next) hdrain
      rw [mappingsFrom, hdrain, hstart, hnext, cons_append]
    · rw [hresume, mappingsFrom, drain_of_run hrun, hrest]
      exact hall

theorem feedAll_append (units rest : List Nat) (d : UpcaseDecoder) :
    feedAll (units ++ rest) d = ((feedAll units d).1 ++ (feedAll rest (feedAll units d).2).1,
      (feedAll rest (feedAll units d).2).2) := by
  induction units generalizing d with
  | nil => rfl
  | cons unit units ih => simp only [cons_append, feedAll, ih, append_assoc]

end UpcaseDecoder

variable (units : List Nat)

theorem mappings_consecutive : Consecutive 0 (mappings units) :=
  (UpcaseDecoder.feedAll_consecutive units .new).1

theorem decodeTable_apply (code : Nat) : decodeTable units code =
    if h : code < (mappings units).length then (mappings units)[code].upper else code := by
  rw [decodeTable, (mappings_consecutive units).foldl_store]
  simp

theorem mappingsFrom_resume {code : Nat} (h : code < (mappings units).length) :
    UpcaseDecoder.mappingsFrom units
      (.resume (mappings units)[code].start code) = (mappings units).drop code := by
  have hsplit : (UpcaseDecoder.feedAll units .new).1 =
      (mappings units).take code ++ (mappings units)[code] ::
        (mappings units).drop (code + 1) := by
    rw [getElem_cons_drop, take_append_drop]
    rfl
  have hcode := (mappings_consecutive units).code_getElem h
  rw [Nat.zero_add] at hcode
  have hresume := @UpcaseDecoder.feedAll_resume .new units _ _ _ _ rfl rfl hsplit
  rw [hcode, getElem_cons_drop] at hresume
  exact hresume

theorem foldl_storeInPage {page first low : Nat} {ms : List Mapping} {out : Nat → Nat}
    (h : Consecutive (page * 256 + first) ms) (hlow : low < 256) :
    ms.foldl (storeInPage page) out low =
      if hin : first ≤ low ∧ low - first < ms.length then ms[low - first].upper else out low := by
  induction ms generalizing first out with
  | nil => simp
  | cons m rest ih =>
    obtain ⟨hm, hrest⟩ := h.cons
    rw [Nat.add_assoc] at hrest
    rw [foldl_cons, ih hrest]
    have hstore : first < 256 → storeInPage page out m = Function.update out first m.upper := by
      intro hfirst
      rw [storeInPage, hm, if_pos (by omega)]
      congr 1
      omega
    rcases Nat.lt_trichotomy low first with hlt | rfl | hgt
    · rw [dif_neg (by omega), dif_neg (by omega), storeInPage, hm]
      split
      · exact Function.update_of_ne (by omega) _ _
      · rfl
    · rw [dif_neg (by omega), dif_pos (by simp), hstore hlow, Function.update_self]
      simp
    · obtain ⟨j, rfl⟩ := Nat.exists_eq_add_of_lt hgt
      have hj : first + j + 1 - first = j + 1 := by omega
      have hj' : first + j + 1 - (first + 1) = j := by omega
      simp only [hj, hj', length_cons, getElem_cons_succ]
      by_cases hin : j < rest.length
      · rw [dif_pos (by omega), dif_pos (by omega)]
      · rw [dif_neg (by omega), dif_neg (by omega), hstore (by omega),
          Function.update_of_ne (by omega)]

/-- The first mappings from a page on, enough of them or all there are, give the
page as the whole table gives it. -/
theorem storeInPage_decodeTable {page : Nat} {ms : List Mapping}
    (hstart : ms <+: (mappings units).drop (page * 256))
    (hlen : 256 ≤ ms.length ∨ ms = (mappings units).drop (page * 256)) {low : Nat}
    (hlow : low < 256) :
    ms.foldl (storeInPage page) (fun i => page * 256 + i) low =
      decodeTable units (page * 256 + low) := by
  obtain ⟨rest, hrest⟩ := hstart
  have hall : Consecutive 0
      ((mappings units).take (page * 256) ++ (mappings units).drop (page * 256)) := by
    rw [take_append_drop]
    exact mappings_consecutive units
  rw [decodeTable_apply]
  by_cases hshort : (mappings units).length ≤ page * 256
  · have hnil : ms = [] := by
      rw [drop_eq_nil_of_le hshort] at hrest
      exact (append_eq_nil_iff.mp hrest).1
    rw [dif_neg (by omega), hnil]
    rfl
  have hcodes := hall.right
  rw [length_take, Nat.min_eq_left (by omega), Nat.zero_add, ← hrest] at hcodes
  have hfirst : Consecutive (page * 256 + 0) ms := by
    rw [Nat.add_zero]
    exact hcodes.left
  rw [foldl_storeInPage hfirst hlow]
  have hlength := congrArg List.length hrest
  rw [length_append, length_drop] at hlength
  have hget : ∀ h : low < ms.length, (mappings units)[page * 256 + low]? = some ms[low] := by
    intro h
    rw [← getElem?_drop, ← hrest, getElem?_append_left h, getElem?_eq_getElem h]
  simp only [Nat.zero_le, true_and, Nat.sub_zero]
  by_cases hin : low < ms.length
  · rw [dif_pos hin, dif_pos (by omega)]
    have heq := hget hin
    rw [getElem?_eq_getElem (by omega)] at heq
    rw [Option.some.inj heq]
  · have hend : ¬ page * 256 + low < (mappings units).length := by
      rcases hlen with hlen | hlen
      · omega
      · have hlen' := congrArg List.length hlen
        rw [length_drop] at hlen'
        omega
    rw [dif_neg hin, dif_neg hend]

end Hadris.Exfat
