import Hadris.FatView

namespace Hadris

namespace Medium

open Prog (Triple)

variable {m : Medium} {A : Outcome Stop → Prop} {rest : Nat → UInt8} {α : Type}

/-- The volume is as a view says of which `P` holds. -/
def Is (m : Medium) (A : Outcome Stop → Prop) (rest : Nat → UInt8) (P : View → Prop) (vol : Vol) :
    Prop :=
  ∃ v, P v ∧ m.At A rest v vol

theorem Is.mono {P Q : View → Prop} {vol : Vol} (h : m.Is A rest P vol) (hPQ : ∀ v, P v → Q v) :
    m.Is A rest Q vol := by
  obtain ⟨v, hv, hat⟩ := h
  exact ⟨v, hPQ v hv, hat⟩

theorem is_intro {P : View → Prop} {x : Prog Vol Stop α} {Q : α → Vol → Prop}
    {E : Stop → Vol → Prop}
    (h : ∀ v, P v → Triple (m.At A rest v) x Q E) : Triple (m.Is A rest P) x Q E := by
  rintro vol ⟨v, hv, hat⟩
  exact h v hv vol hat

/-- The table once the entries of `first` to `last` are copied to the FAT copies
before copy `copies`. -/
def copied (copies first last : Nat) (tbl : Nat → Nat → Nat) : Nat → Nat → Nat := fun step c =>
  if step < copies ∧ first ≤ c ∧ c ≤ last then tbl 0 c else tbl step c

theorem copied_active (copies first last : Nat) (tbl : Nat → Nat → Nat) :
    copied copies first last tbl 0 = tbl 0 := by
  funext c
  rw [copied]
  split <;> rfl

/-- The entries of the active FAT copy are as they were, and those of the others only
came closer to them. -/
structure Toward (v v' : View) : Prop where
  fat : v'.fat = v.fat
  held : v'.held = v.held
  active : v'.tbl 0 = v.tbl 0
  differs : ∀ step c, v'.tbl step c ≠ v'.tbl 0 c → v.tbl step c ≠ v.tbl 0 c

theorem Toward.refl (v : View) : Toward v v := ⟨rfl, rfl, rfl, fun _ _ h => h⟩

theorem Toward.trans {v v' v'' : View} (h : Toward v v') (h' : Toward v' v'') : Toward v v'' :=
  ⟨h'.fat.trans h.fat, h'.held.trans h.held, h'.active.trans h.active, fun step c hne =>
    h.differs step c (h'.differs step c hne)⟩

theorem Toward.copied (copies first last : Nat) (v : View) :
    Toward v { v with tbl := Medium.copied copies first last v.tbl } := by
  refine ⟨rfl, rfl, copied_active _ _ _ _, fun step c h => ?_⟩
  dsimp only at h
  rw [copied_active, Medium.copied] at h
  split at h
  · exact absurd rfl h
  · exact h

theorem Toward.stored {v : View} {step c : Nat} (hne : step ≠ 0)
    (hdiff : v.tbl step c ≠ v.tbl 0 c) (w : Nat) :
    Toward v { v with tbl := Geometry.stored step c w v.tbl } := by
  have hactive (c' : Nat) : Geometry.stored step c w v.tbl 0 c' = v.tbl 0 c' :=
    Geometry.stored_of_ne (.inl hne.symm) _ _
  refine ⟨rfl, rfl, funext hactive, fun step' c' h => ?_⟩
  by_cases hsame : step' = step ∧ c' = c
  · rw [hsame.1, hsame.2]
    exact hdiff
  · dsimp only at h
    rwa [hactive, Geometry.stored_of_ne (by omega)] at h

end Medium

namespace View

def settled (m : Medium) (v : View) : View :=
  match v.fat.split with
  | some (c, value, _) => v.put m 0 c value
  | none => v

def mirrored (m : Medium) (v : View) : View :=
  match v.fat.unmirrored with
  | some (first, last) => { v with
      tbl := Medium.copied m.geo.copies first (min last m.geo.maxCluster) v.tbl
      fat := { v.fat with unmirrored := none } }
  | none => v

end View

/-- What an interrupted write left to be completed are entries of data clusters. -/
structure Fat.Tracked (m : Medium) (fat : Fat) : Prop where
  split : ∀ c value free, fat.split = some (c, value, free) → m.geo.IsCluster c ∧ ¬ m.Whole 0 c
  range : ∀ first last, fat.unmirrored = some (first, last) → firstDataCluster ≤ first

namespace Vol

open Borrow (getState onIo reading setState setHeld)
open Device (Faulty Lands)
open Medium (Is Toward copied)
open Prog (Triple)

variable {m : Medium} {A : Outcome Stop → Prop} {rest : Nat → UInt8} {v : View}

theorem put_mirror {step : Nat} (hne : step ≠ 0) (c value : Nat) : v.put m step c value =
    { v with tbl := Geometry.stored step c (value &&& m.geo.kind.mask) v.tbl } := by
  have hskip {p : Prop} : ¬ (step = 0 ∧ p) := fun h => hne h.1
  simp only [View.put, View.written, View.pending, if_neg hskip]

theorem pending_mirror {step : Nat} (hne : step ≠ 0) (c value : Nat) :
    v.pending m step c value = v.fat := by
  rw [View.pending, if_neg fun h => hne h.1]

theorem at_masked {vol : Vol} (h : m.At A rest v vol) {step c : Nat} (hstep : step < m.geo.copies)
    (hc : m.geo.IsCluster c) : v.tbl step c &&& m.geo.kind.mask = v.tbl step c := by
  obtain ⟨img, hshows, -⟩ := h.io
  rw [← hshows.inside step hstep c hc, Geometry.value, Nat.and_assoc, Nat.and_self]

theorem at_mirrorEntry (hmirrored : m.geo.mirrored = true) {c : Nat} (hc : m.geo.IsCluster c) :
    Triple (m.At A rest v) (mirrorEntry c)
      (fun _ => m.At A rest { v with tbl := copied m.geo.copies c c v.tbl })
      fun _ vol => Faulty A ∧ m.Is A rest (Toward v) vol := by
  have hcopies : m.geo.copies = m.geo.fatCount := by rw [Geometry.copies, if_pos hmirrored]
  refine Medium.at_getState fun dirty info => Triple.of_forall fun vol₀ hvol => ?_
  have hgeo : (v.fat.marked dirty info).geo = m.geo := hvol.geo
  have hmasked := at_masked hvol (Geometry.copies_pos m.valid) hc
  refine Triple.bind
    ((Medium.at_reads (Fat.shown_get hgeo c)).conseq (fun vol heq => heq ▸ hvol) (fun _ _ h => h)
    fun _ vol h => ⟨h.1.resolve_right (not_not.mpr hc), v, .refl v, h.2⟩) fun stored =>
      Triple.assume fun hstored => ?_
  rw [hgeo, hstored.2]
  have hone : copied 1 c c v.tbl = v.tbl := by
    funext step c'
    rw [copied]
    split
    · obtain rfl : step = 0 := by omega
      rfl
    · rfl
  have hloop := Triple.each_range'
    (P := fun i => m.At A rest { v with tbl := copied i c c v.tbl })
    (E := fun _ vol => Faulty A ∧ m.Is A rest (Toward v) vol) (f := fun step => do
      let bytes ← onIo (Io.readBytes (m.geo.entryAt step c) m.geo.kind.entryLen)
      Prog.when (m.geo.kind.decode c bytes &&& m.geo.kind.mask ≠ v.tbl 0 c)
        (putEntry step c (v.tbl 0 c)))
    1 (m.geo.fatCount - 1) fun i hi hi' => ?_
  · have hcount : 1 + (m.geo.fatCount - 1) = m.geo.copies := by
      have := m.valid.fatCount
      omega
    rwa [hcount, hone] at hloop
  have htoward := Toward.copied i c c v
  have hi : i ≠ 0 := by omega
  have hcopy : i < m.geo.copies := by omega
  have hkept : copied i c c v.tbl i c = v.tbl i c := if_neg (by omega)
  refine Triple.bind
    ((Medium.at_reads (Fat.shown_entry hcopy hc)).weaken (fun _ _ h => h) fun _ vol h =>
    ⟨h.1, _, htoward, h.2⟩) fun bytes => Triple.assume fun hbytes => ?_
  have hbytes : m.geo.kind.decode c bytes &&& m.geo.kind.mask = v.tbl i c := hbytes.trans hkept
  refine Triple.when (fun hdiff => ?_) fun hsame vol hat => ?_
  · refine (at_putEntry hcopy hc _).weaken (fun _ vol hat => ?_) fun _ vol h => ⟨h.1, ?_⟩
    · rw [put_mirror hi, hmasked] at hat
      have htbl : Geometry.stored i c (v.tbl 0 c) (copied i c c v.tbl) =
          copied (i + 1) c c v.tbl := by
        funext step c'
        by_cases hnew : step = i ∧ c' = c
        · rw [hnew.1, hnew.2, Geometry.stored_self, copied, if_pos (by omega)]
        · rw [Geometry.stored_of_ne (by omega), copied, copied]
          congr 1
          rw [eq_iff_iff]
          omega
      rwa [htbl] at hat
    · rcases h.2 with hat | ⟨w, -, hat⟩
      · exact ⟨_, htoward, hat⟩
      · rw [pending_mirror hi] at hat
        refine ⟨_, htoward.trans (Toward.stored hi ?_ w), hat⟩
        dsimp only
        rwa [hkept, Medium.copied_active, ← hbytes]
  · have htbl : copied (i + 1) c c v.tbl = copied i c c v.tbl := by
      funext step c'
      by_cases hnew : step = i ∧ c' = c
      · rw [hnew.1, hnew.2, hkept, copied, if_pos (by omega), ← hbytes, not_not.mp hsame]
      · rw [copied, copied]
        congr 1
        rw [eq_iff_iff]
        omega
    rwa [htbl]

/-- What `mirror` leaves that fails. -/
def Unmirrored (m : Medium) (A : Outcome Stop → Prop) (rest : Nat → UInt8) (v : View)
    (vol : Vol) : Prop :=
  (∃ c value free, v.fat.split = some (c, value, free) ∧ Unput m A rest 0 c value v vol) ∨
    m.Is A rest (Toward (v.settled m)) vol

theorem settled_split (h : v.fat.Tracked m) : (v.settled m).fat.split = none := by
  rw [View.settled]
  split
  · rename_i c value free hsplit
    rw [View.put, View.written_split, if_pos ⟨rfl, (h.split _ _ _ hsplit).2⟩]
  · assumption

theorem settled_range (h : v.fat.Tracked m) {first last : Nat}
    (hrange : (v.settled m).fat.unmirrored = some (first, last)) : firstDataCluster ≤ first := by
  rw [View.settled] at hrange
  split at hrange
  · rename_i c value free hsplit
    have hc := h.split _ _ _ hsplit
    rw [View.put, View.written_unmirrored, if_pos ⟨rfl, hc.2⟩] at hrange
    cases hrange
    exact hc.1.1
  · exact h.range _ _ hrange

theorem at_mirror (h : v.fat.Tracked m) : Triple (m.At A rest v) mirror
    (fun _ => m.At A rest ((v.settled m).mirrored m)) fun _ vol => Faulty A ∧
      Unmirrored m A rest v vol := by
  refine Medium.at_getState fun dirty info => ?_
  refine Triple.bind (Q := fun _ => m.At A rest (v.settled m)) ?_ fun _ => ?_
  · rw [show (v.fat.marked dirty info).split = v.fat.split from rfl, View.settled]
    rcases hsplit : v.fat.split with _ | ⟨c, value, free⟩
    · exact Triple.pure fun _ hat => hat
    · exact (at_putEntry (Geometry.copies_pos m.valid) (h.split _ _ _ hsplit).1 value).weaken
        (fun _ _ hat => hat)
        fun _ _ hat => ⟨hat.1, .inl ⟨c, value, free, hsplit, hat.2⟩⟩
  have hrange {first last : Nat} (hrange : (v.settled m).fat.unmirrored = some (first, last)) :=
    settled_range h hrange
  generalize hu : v.settled m = u at hrange
  have hfail {E : Stop → Vol → Prop}
    (hE : ∀ e vol, E e vol → Faulty A ∧ m.Is A rest (Toward u) vol) (e : Stop) (vol : Vol)
      (h : E e vol) : Faulty A ∧ Unmirrored m A rest v vol :=
    ⟨(hE e vol h).1, .inr (hu.symm ▸ (hE e vol h).2)⟩
  refine Medium.at_getState fun dirty info => Triple.of_forall fun vol₀ hvol => ?_
  refine Triple.pre ?_ fun vol heq => show m.At A rest u vol from heq ▸ hvol
  have hgeo : (u.fat.marked dirty info).geo = m.geo := hvol.geo
  rw [show (u.fat.marked dirty info).unmirrored = u.fat.unmirrored from rfl, View.mirrored, hgeo]
  rcases hu : u.fat.unmirrored with _ | ⟨first, last⟩
  · exact Triple.pure fun _ hat => hat
  refine Triple.bind (Q := fun _ => m.At A rest { u with
    tbl := copied m.geo.copies first (min last m.geo.maxCluster) u.tbl }) ?_ fun _ =>
      Medium.at_setState (fun hgeo => hgeo) fun dirty info => ⟨dirty, info, rfl⟩
  have hfirst : 2 ≤ first := hrange hu
  have htop := Nat.min_le_right last m.geo.maxCluster
  generalize min last m.geo.maxCluster = top at htop ⊢
  refine Triple.when (fun hmirrored => ?_) fun hmirrored vol hat => ?_
  · have hloop := Triple.each_range' (f := mirrorEntry)
      (P := fun i => m.At A rest { u with tbl := copied m.geo.copies first (i - 1) u.tbl })
      (E := fun _ vol => Faulty A ∧ m.Is A rest (Toward u) vol) first
        (top + 1 - first) fun i hi hi' => ?_
    · have hstart : copied m.geo.copies first (first - 1) u.tbl = u.tbl := by
        funext step c
        exact if_neg (by omega)
      have hend : copied m.geo.copies first (first + (top + 1 - first) - 1) u.tbl =
          copied m.geo.copies first top u.tbl := by
        funext step c
        rw [copied, copied]
        congr 1
        rw [eq_iff_iff]
        omega
      rw [hstart, hend] at hloop
      exact hloop.weaken (fun _ _ h => h) (hfail fun _ _ h => h)
    · have hc : m.geo.IsCluster i := ⟨hfirst.trans hi, by omega⟩
      refine (at_mirrorEntry hmirrored hc).weaken (fun _ vol hat => ?_) fun _ vol hat =>
        ⟨hat.1, ?_⟩
      · have htbl : copied m.geo.copies i i (copied m.geo.copies first (i - 1) u.tbl) =
            copied m.geo.copies first (i + 1 - 1) u.tbl := by
          funext step c
          rw [copied]
          by_cases hnew : step < m.geo.copies ∧ i ≤ c ∧ c ≤ i
          · rw [if_pos hnew, Medium.copied_active, copied, if_pos (by omega)]
          · rw [if_neg hnew, copied, copied]
            congr 1
            rw [eq_iff_iff]
            omega
        rwa [htbl] at hat
      · exact hat.2.mono fun w hw => (Toward.copied _ _ _ u).trans hw
  · have hone : m.geo.copies = 1 := if_neg hmirrored
    have htbl : copied m.geo.copies first top u.tbl = u.tbl := by
      funext step c
      rw [copied]
      split
      · obtain rfl : step = 0 := by omega
        rfl
      · rfl
    rwa [htbl]

end Vol

end Hadris

namespace Hadris

namespace View

def upToDate (m : Medium) (due : Bool) (v : View) : View :=
  if due then (v.settled m).mirrored m else v

/-- The volume with the clusters of `range` recorded as unmirrored, where there are
copies to mirror. -/
def recorded (m : Medium) (range : Nat × Nat) (v : View) : View :=
  if 1 < m.geo.copies then { v with fat := { v.fat with unmirrored := some range } } else v

/-- The table with `values` as the entries of `clusters` in the FAT copies before
copy `copies`. -/
def overlaid (copies : Nat) (clusters : List Nat) (values : Nat → Nat) (tbl : Nat → Nat → Nat) :
    Nat → Nat → Nat :=
  fun step c => if step < copies ∧ c ∈ clusters then values c else tbl step c

variable {copies : Nat} {clusters : List Nat} {values : Nat → Nat} {tbl : Nat → Nat → Nat}

@[simp] theorem overlaid_zero : overlaid 0 clusters values tbl = tbl := by
  funext step c
  exact if_neg fun h => absurd h.1 (Nat.not_lt_zero _)

theorem overlaid_mem {step c : Nat} (hstep : step < copies) (hc : c ∈ clusters) :
    overlaid copies clusters values tbl step c = values c :=
  if_pos ⟨hstep, hc⟩

theorem overlaid_not_mem {c : Nat} (hc : c ∉ clusters) (step : Nat) :
    overlaid copies clusters values tbl step c = tbl step c :=
  if_neg fun h => hc h.2

theorem overlaid_congr {values' : Nat → Nat} (h : ∀ c ∈ clusters, values c = values' c) :
    overlaid copies clusters values tbl = overlaid copies clusters values' tbl := by
  funext step c
  by_cases hin : step < copies ∧ c ∈ clusters
  · rw [overlaid_mem hin.1 hin.2, overlaid_mem hin.1 hin.2, h c hin.2]
  · exact (if_neg hin).trans (if_neg hin).symm

theorem overlaid_succ {tbl' : Nat → Nat → Nat} (hself : ∀ c ∈ clusters, tbl' copies c = values c)
    (hother : ∀ step c, step ≠ copies ∨ c ∉ clusters →
      tbl' step c = overlaid copies clusters values tbl step c) :
    tbl' = overlaid (copies + 1) clusters values tbl := by
  funext step c
  by_cases hnew : step = copies ∧ c ∈ clusters
  · rw [hnew.1, hself c hnew.2, overlaid_mem (Nat.lt_succ_self _) hnew.2]
  · rw [hother step c (by rw [← not_and_or]; exact hnew), overlaid, overlaid]
    congr 1
    rw [eq_iff_iff]
    refine ⟨fun h => ⟨by omega, h.2⟩, fun h => ⟨?_, h.2⟩⟩
    have : step ≠ copies := fun heq => hnew ⟨heq, h.2⟩
    omega

def puts (m : Medium) (c value i : Nat) (v : View) : View :=
  if i = 0 then v
  else { v with
    tbl := overlaid i [c] (fun _ => value &&& m.geo.kind.mask) v.tbl
    fat := v.written m 0 c value }

theorem puts_tbl (m : Medium) (c value i : Nat) (v : View) :
    (v.puts m c value i).tbl = overlaid i [c] (fun _ => value &&& m.geo.kind.mask) v.tbl := by
  rw [puts]
  split
  · rename_i hi
    rw [hi, overlaid_zero]
  · rfl

def forgotten (v : View) : View := { v with fat := { v.fat with unmirrored := none } }

@[simp] theorem forgotten_tbl (v : View) : v.forgotten.tbl = v.tbl := rfl

@[simp] theorem forgotten_split (v : View) : v.forgotten.fat.split = v.fat.split := rfl

@[simp] theorem forgotten_unmirrored (v : View) : v.forgotten.fat.unmirrored = none := rfl

def due (c : Nat) (v : View) : Bool := v.fat.split.isSome || v.fat.unmirrored.any (· ≠ (c, c))

def readyFor (m : Medium) (c : Nat) (v : View) : View :=
  (v.upToDate m (v.due c)).recorded m (c, c)

theorem mirrored_active (m : Medium) (v : View) : (v.mirrored m).tbl 0 = v.tbl 0 := by
  rw [View.mirrored]
  split
  · exact Medium.copied_active _ _ _ _
  · rfl

theorem settled_of_none {m : Medium} {v : View} (h : v.fat.split = none) : v.settled m = v := by
  rw [View.settled, h]

theorem split_of_not_due {c : Nat} {v : View} (h : ¬ v.due c = true) : v.fat.split = none := by
  rw [due, Bool.or_eq_true, not_or, Bool.not_eq_true, Option.isSome_eq_false_iff,
    Option.isNone_iff_eq_none] at h
  exact h.1

theorem recorded_tbl (m : Medium) (range : Nat × Nat) (v : View) :
    (v.recorded m range).tbl = v.tbl := by
  rw [View.recorded]
  split <;> rfl

theorem recorded_split (m : Medium) (range : Nat × Nat) (v : View) :
    (v.recorded m range).fat.split = v.fat.split := by
  rw [View.recorded]
  split <;> rfl

theorem readyFor_active (m : Medium) (c : Nat) (v : View) :
    (v.readyFor m c).tbl 0 = (v.settled m).tbl 0 := by
  rw [readyFor, recorded_tbl, upToDate]
  split
  · exact mirrored_active m _
  · rename_i hdue
    rw [settled_of_none (split_of_not_due hdue)]

theorem set_active (m : Medium) (c value : Nat) (v : View) :
    ((v.readyFor m c).puts m c value m.geo.copies).forgotten.tbl 0 =
      Function.update ((v.settled m).tbl 0) c (value &&& m.geo.kind.mask) := by
  rw [forgotten_tbl, puts_tbl, ← readyFor_active m c]
  funext x
  by_cases hx : x = c
  · rw [hx, Function.update_self, overlaid_mem (Geometry.copies_pos m.valid)
      (List.mem_singleton_self c)]
  · rw [Function.update_of_ne hx, overlaid_not_mem (by rwa [List.mem_singleton])]

end View

namespace Vol

open Borrow (getState onIo reading setState setHeld)
open Device (Faulty Lands)
open Medium (Is Toward)
open Prog (Triple)
open View (overlaid)

variable {m : Medium} {A : Outcome Stop → Prop} {rest : Nat → UInt8} {v : View}

/-- What `set` leaves that fails. -/
def Unset (m : Medium) (A : Outcome Stop → Prop) (rest : Nat → UInt8) (c value : Nat) (v : View)
    (vol : Vol) : Prop :=
  Unmirrored m A rest v vol ∨ ∃ i < m.geo.copies, Unput m A rest i c value
    ((v.readyFor m c).puts m c value i) vol

theorem at_checkCluster (c : Nat) {fat : Fat} (hgeo : fat.geo = m.geo) :
    Triple (m.At A rest v) (fat.checkCluster c)
    (fun _ vol => m.geo.IsCluster c ∧ m.At A rest v vol) fun _ vol => ¬ m.geo.IsCluster c ∧
      m.At A rest v vol := by
  have hc : fat.isCluster c = true ↔ m.geo.IsCluster c := by
    rw [Fat.isCluster_iff, hgeo]
    rfl
  exact Triple.ite (fun h => Triple.pure fun _ hat => ⟨hc.mp h, hat⟩) fun h =>
    Triple.fail fun _ hat => ⟨fun h' => h (hc.mpr h'), hat⟩

theorem at_upToDate (h : v.fat.Tracked m) {p : Prop} [Decidable p] {due : Bool}
    (hdue : p ↔ due = true) :
    Triple (m.At A rest v) (Prog.when p mirror) (fun _ => m.At A rest (v.upToDate m due))
      fun _ vol => Faulty A ∧ Unmirrored m A rest v vol := by
  refine Triple.when (fun hp => ?_) fun hp vol hat => ?_
  · rw [View.upToDate, if_pos (hdue.mp hp)]
    exact at_mirror h
  · rwa [View.upToDate, if_neg fun h => hp (hdue.mpr h)]

theorem at_recorded (range : Nat × Nat) {E : Stop → Vol → Prop} :
    Triple (m.At A rest v)
      (Prog.when (1 < m.geo.copies) (setState fun fat => { fat with unmirrored := some range }))
      (fun _ => m.At A rest (v.recorded m range)) E := by
  refine Triple.when (fun h => ?_) fun h vol hat => ?_
  · rw [View.recorded, if_pos h]
    exact Medium.at_setState (fun hgeo => hgeo) fun dirty info => ⟨dirty, info, rfl⟩
  · rwa [View.recorded, if_neg h]

theorem at_forgotten {E : Stop → Vol → Prop} :
    Triple (m.At A rest v) (setState fun fat => { fat with unmirrored := none })
    (fun _ => m.At A rest v.forgotten) E :=
  Medium.at_setState (fun hgeo => hgeo) fun dirty info => ⟨dirty, info, rfl⟩

theorem puts_succ (m : Medium) (c value i : Nat) (v : View) :
    ((v.puts m c value i).put m i c value) = v.puts m c value (i + 1) := by
  have hother {j : Nat} {tbl : Nat → Nat → Nat} (step c' : Nat) (h : step ≠ j ∨ c' ∉ [c]) :
      Geometry.stored j c (value &&& m.geo.kind.mask) tbl step c' = tbl step c' :=
    Geometry.stored_of_ne (by rwa [List.mem_singleton] at h) _ _
  have hself {j : Nat} {tbl : Nat → Nat → Nat} (c' : Nat) (h : c' ∈ [c]) :
      Geometry.stored j c (value &&& m.geo.kind.mask) tbl j c' = value &&& m.geo.kind.mask := by
    rw [List.mem_singleton.mp h, Geometry.stored_self]
  rw [View.puts, View.puts, if_neg (Nat.succ_ne_zero i)]
  by_cases hi : i = 0
  · subst hi
    rw [if_pos rfl, View.put]
    congr 1
    exact View.overlaid_succ hself fun step c' h => by rw [hother step c' h, View.overlaid_zero]
  · rw [if_neg hi, put_mirror hi]
    congr 1
    exact View.overlaid_succ hself fun step c' h => by rw [hother step c' h]

theorem at_set (h : v.fat.Tracked m) (c value : Nat) : Triple (m.At A rest v) (set c value)
    (fun _ vol => m.geo.IsCluster c ∧
      m.At A rest ((v.readyFor m c).puts m c value m.geo.copies).forgotten vol)
    fun _ vol => ¬ m.geo.IsCluster c ∧ m.At A rest v vol ∨
      m.geo.IsCluster c ∧ Faulty A ∧ Unset m A rest c value v vol := by
  refine Medium.at_getState fun dirty info => Triple.of_forall fun vol₀ hvol => ?_
  refine Triple.pre ?_ fun vol heq => show m.At A rest v vol from heq ▸ hvol
  have hgeo : (v.fat.marked dirty info).geo = m.geo := hvol.geo
  refine Triple.bind ((at_checkCluster c hgeo).weaken (fun _ _ h => h) fun _ _ h => .inl h)
    fun _ =>
    Triple.assume fun hc => ?_
  rw [hgeo]
  refine Triple.weaken
    (Q := fun _ => m.At A rest ((v.readyFor m c).puts m c value m.geo.copies).forgotten)
    (E := fun _ vol => Faulty A ∧ Unset m A rest c value v vol) ?_ (fun _ _ hat => ⟨hc, hat⟩)
      fun _ _ h => .inr ⟨hc, h⟩
  have hdue : (v.fat.marked dirty info).split.isSome = true ∨
    (v.fat.marked dirty info).unmirrored.any (· ≠ (c, c)) = true ↔
      v.due c = true := (Bool.or_eq_true _ _).symm.to_iff
  refine Triple.bind ((at_upToDate h hdue).weaken (fun _ _ h => h) fun _ _ h => ⟨h.1, .inl h.2⟩)
    fun _ => ?_
  refine Triple.bind (at_recorded (c, c)) fun _ => ?_
  rw [← View.readyFor]
  refine Triple.bind (Q := fun _ => m.At A rest ((v.readyFor m c).puts m c value m.geo.copies)) ?_
    fun _ => at_forgotten
  have hloop := Triple.each_range' (f := fun step => putEntry step c value)
    (P := fun i => m.At A rest ((v.readyFor m c).puts m c value i))
    (E := fun _ vol => Faulty A ∧ Unset m A rest c value v vol) 0 m.geo.copies fun i _ hi => ?_
  · rwa [Nat.zero_add] at hloop
  · have hcopy : i < m.geo.copies := by omega
    rw [← puts_succ]
    exact (at_putEntry hcopy hc value).weaken (fun _ _ h => h) fun _ _ h =>
      ⟨h.1, .inr ⟨i, hcopy, h.2⟩⟩

end Vol

namespace View

def rangeOf (group : ClusterGroup) (tail : Option Nat) : Nat × Nat :=
  (min group.lowest (tail.getD group.lowest),
    max (group.highest?.getD group.lowest) (tail.getD (group.highest?.getD group.lowest)))

def readyForRange (m : Medium) (range : Nat × Nat) (v : View) : View :=
  if 1 < m.geo.copies then (v.upToDate m (v.fat.unmirrored.any (· ≠ range))).recorded m range
    else v

def valueOf (link : Bool) : List Nat → Nat → Nat → Nat
  | [], value, _ => value
  | cluster :: rest, value, c =>
    if c ∈ rest then valueOf link rest (if link then cluster else value) c else value

theorem valueOf_mem (members : List Nat) (value c : Nat) :
    valueOf true members value c ∈ members ∨ valueOf true members value c = value := by
  induction members generalizing value with
  | nil => exact .inr rfl
  | cons x rest ih =>
    rw [valueOf]
    split
    · rcases ih x with h | h
      · exact .inl (List.mem_cons_of_mem x h)
      · rw [if_pos rfl, h]
        exact .inl List.mem_cons_self
    · exact .inr rfl

def groupValue (m : Medium) (group : ClusterGroup) (chain tail : Option Nat) (c : Nat) : Nat :=
  (if c ∈ tail.toList then group.lowest else valueOf chain.isSome group.members
    (chain.getD 0) c) &&& m.geo.kind.mask

theorem storedAll_self (geo : Geometry) (step : Nat) (link : Bool)
    (members : List Nat) (value : Nat)
    (tbl : Nat → Nat → Nat) (c : Nat) : geo.storedAll step link members value tbl step c =
      if c ∈ members then valueOf link members value c &&& geo.kind.mask else tbl step c := by
  induction members generalizing value tbl with
  | nil => exact (if_neg List.not_mem_nil).symm
  | cons cluster members ih =>
    rw [Geometry.storedAll, ih, valueOf]
    by_cases hrest : c ∈ members
    · simp only [if_pos hrest, if_pos (List.mem_cons_of_mem cluster hrest)]
    · simp only [if_neg hrest]
      by_cases hc : c = cluster
      · rw [hc, Geometry.stored_self, if_pos List.mem_cons_self]
      · rw [Geometry.stored_of_ne (.inr hc), if_neg fun h =>
          hc ((List.mem_cons.mp h).resolve_right hrest)]

theorem storedAll_eq (geo : Geometry) (step : Nat) (link : Bool)
    (members : List Nat) (value : Nat)
    (tbl : Nat → Nat → Nat) (step' c : Nat) : geo.storedAll step link members value tbl step' c =
      if step' = step ∧ c ∈ members then valueOf link members value c &&& geo.kind.mask
        else tbl step' c := by
  by_cases hstep : step' = step
  · subst hstep
    simp only [storedAll_self, true_and]
  · rw [Geometry.storedAll_of_ne hstep, if_neg fun h => hstep h.1]

theorem groupLinked_eq (m : Medium) (step : Nat) (group : ClusterGroup) (chain tail : Option Nat)
    (tbl : Nat → Nat → Nat) (step' c : Nat) :
    Fat.groupLinked m.geo step group chain tail tbl step' c =
      if step' = step ∧ c ∈ Fat.groupEntries group tail then groupValue m group chain tail c
        else tbl step' c := by
  rw [Fat.groupLinked, storedAll_eq, Fat.groupMembers, storedAll_eq, Fat.groupEntries, groupValue]
  by_cases hstep : step' = step
  · by_cases htail : c ∈ tail.toList
    · have hone : valueOf false tail.toList group.lowest c = group.lowest := by
        cases tail with
        | none => rfl
        | some tail => simp [valueOf]
      rw [if_pos ⟨hstep, htail⟩, if_pos ⟨hstep, List.mem_append_right _ htail⟩,
        if_pos htail, hone]
    · rw [if_neg fun h => htail h.2]
      by_cases hgroup : c ∈ group.members
      · rw [if_pos ⟨hstep, hgroup⟩, if_pos ⟨hstep, List.mem_append_left _ hgroup⟩, if_neg htail]
      · rw [if_neg fun h => hgroup h.2, if_neg fun h =>
          (List.mem_append.mp h.2).elim hgroup htail]
  · rw [if_neg fun h => hstep h.1, if_neg fun h => hstep h.1, if_neg fun h => hstep h.1]

/-- The volume with a group stored in the FAT copies before copy `i`, and what that
took and freed counted. -/
def patches (m : Medium) (group : ClusterGroup) (chain tail : Option Nat) (taken freed i : Nat)
    (v : View) : View :=
  if i = 0 then v
  else { v with
    tbl := overlaid i (Fat.groupEntries group tail) (groupValue m group chain tail) v.tbl
    fat := if taken ≠ freed then v.fat.adjustFree freed taken else v.fat }

theorem patches_tbl (m : Medium) (group : ClusterGroup) (chain tail : Option Nat)
    (taken freed i : Nat) (v : View) :
    (v.patches m group chain tail taken freed i).tbl =
      overlaid i (Fat.groupEntries group tail) (groupValue m group chain tail) v.tbl := by
  rw [patches]
  split
  · rename_i hi
    rw [hi, overlaid_zero]
  · rfl

theorem patches_split (m : Medium) (group : ClusterGroup) (chain tail : Option Nat)
    (taken freed i : Nat) (v : View) :
    (v.patches m group chain tail taken freed i).fat.split = v.fat.split := by
  rw [patches]
  split
  · rfl
  · dsimp only
    split <;> rfl

theorem patches_unmirrored (m : Medium) (group : ClusterGroup) (chain tail : Option Nat)
    (taken freed i : Nat) (v : View) :
    (v.patches m group chain tail taken freed i).fat.unmirrored = v.fat.unmirrored := by
  rw [patches]
  split
  · rfl
  · dsimp only
    split <;> rfl

end View

namespace Vol

open Borrow (getState onIo reading setState setHeld)
open Device (Faulty Lands)
open Medium (Is Toward)
open Prog (Triple)
open View (overlaid)

variable {m : Medium} {A : Outcome Stop → Prop} {rest : Nat → UInt8} {v : View}

/-- What a group takes and frees. -/
def Counts (m : Medium) (group : ClusterGroup) (chain : Option Nat) (v : View)
    (taken freed : Nat) : Prop :=
  m.geo.freeCount (Fat.groupMembers m.geo 0 group chain v.tbl 0) + taken =
    m.geo.freeCount (v.tbl 0) + freed

/-- What `patch` leaves that fails in FAT copy `i`: the group is stored there or not. -/
def Torn (m : Medium) (A : Outcome Stop → Prop) (rest : Nat → UInt8) (group : ClusterGroup)
    (chain tail : Option Nat) (v : View) (i : Nat) (e : Stop) (vol : Vol) : Prop :=
  ∃ taken freed, (i ≠ 0 → Counts m group chain v taken freed) ∧
    (∀ j < i, Fat.Fits m group tail j) ∧
    ((¬ Fat.Fits m group tail i ∧ e = .ofKind .corrupt ∨ Faulty A) ∧
      m.At A rest (v.patches m group chain tail taken freed i) vol ∨
      (Fat.Fits m group tail i ∧ Lands A) ∧
        m.At A rest { v.patches m group chain tail taken freed i with
        tbl := overlaid (i + 1) (Fat.groupEntries group tail)
          (View.groupValue m group chain tail) v.tbl } vol)

theorem patches_succ (group : ClusterGroup) (chain tail : Option Nat) (taken freed i : Nat) :
    Fat.groupLinked m.geo i group chain tail (v.patches m group chain tail taken freed i).tbl =
      overlaid (i + 1) (Fat.groupEntries group tail)
        (View.groupValue m group chain tail) v.tbl := by
  rw [View.patches_tbl]
  refine View.overlaid_succ (fun c hc => ?_) fun step c h => ?_
  · rw [View.groupLinked_eq, if_pos ⟨rfl, hc⟩]
  · rw [View.groupLinked_eq, if_neg (by rw [not_and_or]; exact h)]

theorem at_patches {group : ClusterGroup} (chain : Option Nat) {tail : Option Nat}
    (hne : group.members ≠ []) (hmembers : ∀ c ∈ Fat.groupEntries group tail, m.geo.IsCluster c) :
    Triple (m.At A rest v) (Prog.each (patchCopy group chain tail) (List.range' 0 m.geo.copies))
      (fun _ vol => ∃ taken freed, Counts m group chain v taken freed ∧
        (∀ j < m.geo.copies, Fat.Fits m group tail j) ∧
        m.At A rest (v.patches m group chain tail taken freed m.geo.copies) vol)
      fun e vol => ∃ i < m.geo.copies, Torn m A rest group chain tail v i e vol := by
  have hloop := Triple.each_range' (f := patchCopy group chain tail)
    (P := fun i vol => ∃ taken freed, (i ≠ 0 → Counts m group chain v taken freed) ∧
      (∀ j < i, Fat.Fits m group tail j) ∧
      m.At A rest (v.patches m group chain tail taken freed i) vol)
    (E := fun e vol => ∃ i < m.geo.copies, Torn m A rest group chain tail v i e vol) 0
      m.geo.copies fun i _ hi => ?_
  · have hpos := Geometry.copies_pos m.valid
    refine (hloop.pre fun vol hat =>
      ⟨0, 0, fun h => absurd rfl h, fun j hj => absurd hj (Nat.not_lt_zero _), ?_⟩).post
      fun _ vol h => ?_
    · rwa [View.patches, if_pos rfl]
    · obtain ⟨taken, freed, hcounts, h⟩ := h
      rw [Nat.zero_add] at hcounts h
      exact ⟨taken, freed, hcounts hpos.ne', h⟩
  have hcopy : i < m.geo.copies := by omega
  rintro vol ⟨taken, freed, hcounts, hfits, hat⟩
  refine ((at_patchCopy chain hcopy hne hmembers).weaken (fun _ vol h => ?_) fun _ vol h =>
    ⟨i, hcopy, taken, freed, hcounts, hfits, ?_⟩) vol hat
  · obtain ⟨hfit, taken', freed', hcount, hat⟩ := h
    rw [patches_succ] at hat
    have hfits' (j : Nat) (hj : j < i + 1) : Fat.Fits m group tail j := by
      rcases Nat.lt_succ_iff_lt_or_eq.mp hj with hj | rfl
      · exact hfits j hj
      · exact hfit
    by_cases hi : i = 0
    · subst hi
      rw [View.patches, if_pos rfl] at hcount hat
      refine ⟨taken', freed', fun _ => hcount, hfits', ?_⟩
      rw [View.patches, if_neg (Nat.succ_ne_zero 0)]
      simpa only [true_and] using hat
    · refine ⟨taken, freed, fun _ => hcounts hi, hfits', ?_⟩
      rw [View.patches, if_neg hi] at hat
      rw [View.patches, if_neg (Nat.succ_ne_zero i)]
      simpa only [hi, false_and, if_false] using hat
  · rcases h with h | ⟨hwhy, hat⟩
    · exact .inl h
    · rw [patches_succ] at hat
      exact .inr ⟨hwhy, hat⟩

/-- What `patch` leaves that fails. -/
def Unstored (m : Medium) (A : Outcome Stop → Prop) (rest : Nat → UInt8) (group : ClusterGroup)
    (chain tail : Option Nat) (v : View) (e : Stop) (vol : Vol) : Prop :=
  Faulty A ∧ (m.At A rest v vol ∨ Unmirrored m A rest v vol) ∨
    ∃ i < m.geo.copies, Torn m A rest group chain tail
      (v.readyForRange m (View.rangeOf group tail)) i e vol

theorem at_patch (h : v.fat.Tracked m) {group : ClusterGroup}
    (chain : Option Nat) {tail : Option Nat}
    (hne : group.members ≠ []) (hmembers : ∀ c ∈ Fat.groupEntries group tail, m.geo.IsCluster c) :
    Triple (m.At A rest v) (patch group chain tail)
      (fun _ vol => ∃ taken freed, Counts m group chain
        (v.readyForRange m (View.rangeOf group tail)) taken freed ∧
        (∀ j < m.geo.copies, Fat.Fits m group tail j) ∧
        m.At A rest ((v.readyForRange m (View.rangeOf group tail)).patches
          m group chain tail taken freed m.geo.copies).forgotten vol)
      (Unstored m A rest group chain tail v) := by
  refine Triple.bind (at_beginWrite.weaken (fun _ _ h => h) fun _ _ h => .inl ⟨h.1, .inl h.2⟩)
    fun _ => ?_
  refine Medium.at_getState fun dirty info => Triple.of_forall fun vol₀ hvol => ?_
  refine Triple.pre ?_ fun vol heq => show m.At A rest v vol from heq ▸ hvol
  have hgeo : (v.fat.marked dirty info).geo = m.geo := hvol.geo
  rw [hgeo]
  refine Triple.bind (Q := fun _ => m.At A rest (v.readyForRange m (View.rangeOf group tail))) ?_
    fun _ => ?_
  · rw [View.readyForRange]
    refine Triple.when (fun hmany => ?_) fun hmany vol hat => ?_
    · rw [if_pos hmany]
      have hdue : v.fat.unmirrored.any (· ≠ View.rangeOf group tail) = true ↔
          v.fat.unmirrored.any (· ≠ View.rangeOf group tail) = true := Iff.rfl
      refine Triple.bind ((at_upToDate h hdue).weaken (fun _ _ h => h) fun _ _ h =>
        .inl ⟨h.1, .inr h.2⟩) fun _ => ?_
      rw [View.recorded, if_pos hmany]
      exact Medium.at_setState (fun hgeo => hgeo) fun dirty info => ⟨dirty, info, rfl⟩
    · rwa [if_neg hmany]
  · refine Triple.bind ((at_patches chain hne hmembers).weaken (fun _ _ h => h) fun _ _ h =>
      .inr h) fun _ => ?_
    rintro vol ⟨taken, freed, hcounts, hfits, hat⟩
    exact ⟨taken, freed, hcounts, hfits, at_forgotten (E := fun _ _ => False) vol hat⟩

end Vol

end Hadris
