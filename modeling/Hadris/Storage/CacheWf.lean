import Hadris.Storage.CacheSlots

namespace Hadris.Storage.CacheState

open List

variable {β : Type} [Inhabited β] {s t : CacheState β} {slot index : Nat} {order xs ys : List Nat}

/-- The list of recency, the map and the dirty set describe the same slots. -/
structure Wf (s : CacheState β) : Prop where
  recency : ∃ order, Recency s order ∧ ∀ slot < s.entries.length, slot ∈ order
  map : ∀ index slot,
    s.slots index = some slot ↔ slot < s.entries.length ∧ (s.entry slot).index = some index
  dirty : ∀ index ∈ s.dirty, s.slots index ≠ none
  length : s.entries.length ≤ s.capacity
  capacity : 0 < s.capacity ∧ s.capacity ≤ nilSlot
  bound : ∀ index, s.slots index ≠ none → index < 2 ^ 64 - 1

def cached (s : CacheState β) (index : Nat) : Option β := (s.slots index).map s.data

theorem Recency.congr (h : Recency s order) (hnext : t.nextLink = s.nextLink)
    (hprev : t.prevLink = s.prevLink) (hlength : t.entries.length = s.entries.length) :
    Recency t order :=
  ⟨by rw [hnext, hprev]; exact h.doubly, by rw [hlength]; exact h.mem, by
    rw [hlength]; exact h.length⟩

theorem nextLink_congr (hhead : t.head = s.head)
    (hnext : ∀ slot, (t.entry slot).next = (s.entry slot).next) : t.nextLink = s.nextLink := by
  funext o
  cases o with
  | none => simp only [nextLink, hhead]
  | some slot => simp only [nextLink, hnext]

theorem prevLink_congr (htail : t.tail = s.tail)
    (hprev : ∀ slot, (t.entry slot).prev = (s.entry slot).prev) : t.prevLink = s.prevLink := by
  funext o
  cases o with
  | none => simp only [prevLink, htail]
  | some slot => simp only [prevLink, hprev]

theorem Relinks.cached (h : Relinks s t) : t.cached = s.cached := by
  have hdata : t.data = s.data := funext h.data
  funext index
  simp only [CacheState.cached, h.slots, hdata]

theorem Relinks.wf (hrel : Relinks s t) (h : Wf s)
    (hrecency : ∃ order, Recency t order ∧ ∀ slot < s.entries.length, slot ∈ order) : Wf t where
  recency := by
    rw [hrel.length]
    exact hrecency
  map := by
    intro index slot
    rw [hrel.slots, hrel.length, hrel.index, h.map]
  dirty := by
    rw [hrel.dirty, hrel.slots]
    exact h.dirty
  length := by
    rw [hrel.length, hrel.capacity]
    exact h.length
  capacity := by
    rw [hrel.capacity]
    exact h.capacity
  bound := by
    rw [hrel.slots]
    exact h.bound

theorem Wf.split (h : Wf s) (hslot : slot < s.entries.length) :
    ∃ xs ys, Recency s (xs ++ slot :: ys) ∧ slot ∉ xs ++ ys ∧
      ∀ other < s.entries.length, other = slot ∨ other ∈ xs ++ ys := by
  obtain ⟨order, hrec, hall⟩ := h.recency
  obtain ⟨xs, ys, rfl⟩ := append_of_mem (hall slot hslot)
  refine ⟨xs, ys, hrec, ?_, fun other hother => ?_⟩
  · exact (nodup_middle.mp hrec.doubly.nodup |> nodup_cons.mp).1
  · have hmem := hall other hother
    simp only [mem_append, mem_cons] at hmem ⊢
    tauto

theorem touch_wf (h : Wf s) (hslot : slot < s.entries.length) :
    Wf (s.touch slot) ∧ Relinks s (s.touch slot) := by
  rw [touch]
  split
  · obtain ⟨xs, ys, hrec, hnot, hall⟩ := h.split hslot
    obtain ⟨hrec₁, hrel₁, -, hprev⟩ := hrec.unlink
    obtain ⟨hrec₂, hrel₂⟩ := hrec₁.pushFront (hrel₁.length ▸ hslot) hnot hprev
    have hrel := hrel₁.trans hrel₂
    refine ⟨hrel.wf h ⟨_, hrec₂, fun other hother => ?_⟩, hrel⟩
    rcases hall other hother with rfl | hmem
    · exact mem_cons_self
    · exact mem_cons_of_mem _ hmem
  · exact ⟨h, .refl s⟩

theorem unlink_pushBack_wf (h : Wf s) (hslot : slot < s.entries.length) :
    Wf ((s.unlink slot).pushBack slot) ∧ Relinks s ((s.unlink slot).pushBack slot) := by
  obtain ⟨xs, ys, hrec, hnot, hall⟩ := h.split hslot
  obtain ⟨hrec₁, hrel₁, hnext, -⟩ := hrec.unlink
  obtain ⟨hrec₂, hrel₂⟩ := hrec₁.pushBack (hrel₁.length ▸ hslot) hnot hnext
  have hrel := hrel₁.trans hrel₂
  refine ⟨hrel.wf h ⟨_, hrec₂, fun other hother => ?_⟩, hrel⟩
  rcases hall other hother with rfl | hmem
  · exact mem_append_right _ (mem_singleton_self _)
  · exact mem_append_left _ hmem

/-- What dropping the block of a slot changes. -/
structure Forgets (s t : CacheState β) (slot : Nat) : Prop where
  wf : Wf t
  length : t.entries.length = s.entries.length
  capacity : t.capacity = s.capacity
  run : t.run = s.run
  slots : ∀ index, t.slots index = if s.slots index = some slot then none else s.slots index
  dirty : ∀ index, index ∈ t.dirty ↔ index ∈ s.dirty ∧ s.slots index ≠ some slot
  index : ∀ other, (t.entry other).index = if other = slot then none else (s.entry other).index
  data : t.data = s.data

theorem Forgets.cached (h : Forgets s t slot) (index : Nat) :
    t.cached index = if s.slots index = some slot then none else s.cached index := by
  simp only [CacheState.cached, h.slots, h.data]
  split <;> rfl

theorem forget_wf (h : Wf s) (hslot : slot < s.entries.length) :
    Forgets s (s.forget slot) slot := by
  obtain ⟨u, hu⟩ : ∃ u, u = (s.entry slot).index.elim s fun index =>
      { s.modifyEntry slot (fun e => { e with index := none }) with
        slots := Function.update s.slots index none
        dirty := s.dirty.erase index } := ⟨_, rfl⟩
  have hforget : s.forget slot = (u.unlink slot).pushBack slot := by
    rw [hu, forget]
    cases (s.entry slot).index <;> rfl
  have hstep : Forgets s u slot := by
    cases hindex : (s.entry slot).index with
    | none =>
      simp only [hindex, Option.elim] at hu
      have hfree : ∀ index, s.slots index ≠ some slot := by
        intro index hmap
        have hsome := ((h.map index slot).mp hmap).2
        rw [hindex] at hsome
        cases hsome
      rw [hu]
      exact {
        wf := h
        length := rfl
        capacity := rfl
        run := rfl
        slots := fun index => (if_neg (hfree index)).symm
        dirty := fun index => (and_iff_left (hfree index)).symm
        index := fun other => by
          split
          · rename_i heq
            rw [heq, hindex]
          · rfl
        data := rfl }
    | some index =>
      simp only [hindex, Option.elim] at hu
      have hentry : ∀ other, u.entry other =
          if other = slot then { s.entry slot with index := none } else s.entry other := by
        rw [hu]
        exact fun other => entry_modifyEntry _ hslot
      have hmap : ∀ i, s.slots i = some slot ↔ i = index := by
        intro i
        rw [h.map, hindex]
        simp only [hslot, true_and, Option.some.injEq]
        exact eq_comm
      have hslots : ∀ i, u.slots i = if s.slots i = some slot then none else s.slots i := by
        intro i
        simp only [hu, Function.update_apply, hmap]
      have hdirty : ∀ i, i ∈ u.dirty ↔ i ∈ s.dirty ∧ s.slots i ≠ some slot := by
        intro i
        simp only [hu, Finset.mem_erase, ne_eq, hmap]
        exact and_comm
      have hlength : u.entries.length = s.entries.length := by rw [hu]; simp
      have hindex' : ∀ other, (u.entry other).index =
          if other = slot then none else (s.entry other).index := by
        intro other
        rw [hentry]
        split <;> rfl
      have hnext : u.nextLink = s.nextLink := by
        refine nextLink_congr (by rw [hu]; rfl) fun other => ?_
        rw [hentry]
        split
        · rename_i heq
          rw [heq]
        · rfl
      have hprev : u.prevLink = s.prevLink := by
        refine prevLink_congr (by rw [hu]; rfl) fun other => ?_
        rw [hentry]
        split
        · rename_i heq
          rw [heq]
        · rfl
      obtain ⟨order, hrec, hall⟩ := h.recency
      have hcapacity : u.capacity = s.capacity := by rw [hu]; rfl
      refine ⟨⟨⟨order, hrec.congr hnext hprev hlength, hlength ▸ hall⟩, ?_, ?_, ?_, ?_, ?_⟩,
        hlength, hcapacity, by rw [hu]; rfl, hslots, hdirty, hindex', ?_⟩
      · intro i other
        rw [hslots, hindex', hlength]
        have hiff := h.map i other
        by_cases heq : other = slot
        · rw [if_pos heq, heq]
          split <;> simp_all
        · rw [if_neg heq, ← hiff]
          split
          · rename_i hmem
            rw [hmem]
            simp [Ne.symm heq]
          · rfl
      · intro i hi
        rw [hslots, if_neg ((hdirty i).mp hi).2]
        exact h.dirty i ((hdirty i).mp hi).1
      · rw [hlength, hcapacity]
        exact h.length
      · rw [hcapacity]
        exact h.capacity
      · intro i hi
        refine h.bound i fun hnone => hi ?_
        rw [hslots, hnone]
        rfl
      · funext other
        simp only [data, hentry]
        split
        · rename_i heq
          rw [heq]
        · rfl
  obtain ⟨hwf, hrel⟩ := unlink_pushBack_wf hstep.wf (hstep.length ▸ hslot)
  rw [← hforget] at hwf hrel
  exact {
    wf := hwf
    length := hrel.length.trans hstep.length
    capacity := hrel.capacity.trans hstep.capacity
    run := hrel.run.trans hstep.run
    slots := fun i => by rw [hrel.slots]; exact hstep.slots i
    dirty := fun i => by rw [hrel.dirty]; exact hstep.dirty i
    index := fun other => (hrel.index other).trans (hstep.index other)
    data := (funext hrel.data).trans hstep.data }

theorem Wf.lt_of_slots (h : Wf s) (hslots : s.slots index = some slot) :
    slot < s.entries.length := ((h.map index slot).mp hslots).1

theorem Wf.index_of_slots (h : Wf s) (hslots : s.slots index = some slot) :
    (s.entry slot).index = some index := ((h.map index slot).mp hslots).2

theorem Wf.slots_inj (h : Wf s) {other : Nat} (hslots : s.slots index = some slot)
    (hother : s.slots other = some slot) : other = index :=
  Option.some.inj ((h.index_of_slots hother).symm.trans (h.index_of_slots hslots))

theorem Wf.withDirty (h : Wf s) {dirty : Finset Nat} (hdirty : ∀ i ∈ dirty, s.slots i ≠ none) :
    Wf { s with dirty := dirty } := by
  obtain ⟨order, hrec, hall⟩ := h.recency
  exact ⟨⟨order, hrec.congr rfl rfl rfl, hall⟩, h.map, hdirty, h.length, h.capacity, h.bound⟩

theorem new_wf {capacity : Nat} (h : capacity ≤ nilSlot) : Wf (new capacity : CacheState β) where
  recency := ⟨[], ⟨Doubly.nil_iff.mpr ⟨link_nilSlot, link_nilSlot⟩, by simp, Nat.zero_le _⟩, by
    simp [new]⟩
  map := by simp [new]
  dirty := by simp [new]
  length := Nat.zero_le _
  capacity := by
    have hone : 1 ≤ nilSlot := by decide
    simp only [new]
    omega
  bound := by simp [new]

theorem Wf.victim_lt (h : Wf s) (hvictim : s.victim = some slot) : slot < s.entries.length := by
  simp only [victim] at hvictim
  split at hvictim
  · cases hvictim
  rename_i hfull
  obtain ⟨order, hrec, hall⟩ := h.recency
  have hpos : 0 < s.entries.length := by
    have hcapacity := h.capacity.1
    omega
  rcases hrec.tail_lt with htail | htail
  · have hnil := hrec.doubly.tail
    rw [prevLink, htail, link_nilSlot] at hnil
    rw [getLast?_eq_none_iff.mp hnil.symm] at hall
    cases hall 0 hpos
  · rw [← Option.some.inj hvictim]
    exact htail

theorem grow_wf (h : Wf s) (hvictim : s.victim = none) :
    Wf s.grow.2 ∧ s.grow.1 < s.grow.2.entries.length ∧ s.grow.2.slots = s.slots ∧
      s.grow.2.dirty = s.dirty ∧ s.grow.2.cached = s.cached ∧
      (s.grow.2.entry s.grow.1).index = none := by
  have hroom : s.entries.length < s.capacity := by
    by_contra hfull
    rw [victim, if_neg hfull] at hvictim
    cases hvictim
  obtain ⟨u, hu⟩ : ∃ u, u = { s with entries := s.entries ++ [Entry.vacant] } := ⟨_, rfl⟩
  have hgrow : s.grow = (s.entries.length, u.pushFront s.entries.length) := by rw [hu]; rfl
  have hlength : u.entries.length = s.entries.length + 1 := by rw [hu]; simp
  have hentry : u.entry = s.entry := by
    funext slot
    rw [hu]
    simp only [entry, getD_eq_getElem?_getD, getElem?_append]
    split
    · rfl
    · rename_i hout
      rw [getElem?_eq_none (Nat.le_of_not_lt hout)]
      cases slot - s.entries.length <;> rfl
  have hvacant : s.entry s.entries.length = Entry.vacant := by
    rw [entry, getD_eq_default _ _ (Nat.le_refl _)]
  obtain ⟨order, hrec, hall⟩ := h.recency
  have hnot : s.entries.length ∉ order := fun hmem => Nat.lt_irrefl _ (hrec.mem _ hmem)
  have hrec' : Recency u order := by
    refine ⟨?_, fun slot hslot => ?_, ?_⟩
    · have hnext : u.nextLink = s.nextLink :=
        nextLink_congr (by rw [hu]) fun other => by rw [hentry]
      have hprev : u.prevLink = s.prevLink :=
        prevLink_congr (by rw [hu]) fun other => by rw [hentry]
      rw [hnext, hprev]
      exact hrec.doubly
    · have hlt := hrec.mem slot hslot
      omega
    · have hcapacity := h.capacity.2
      omega
  have hroom' : s.entries.length < u.entries.length := by omega
  obtain ⟨hrec₂, hrel⟩ := hrec'.pushFront hroom' hnot (by
    simp only [prevLink, hentry, hvacant]
    exact link_nilSlot)
  have hslots : u.slots = s.slots := by rw [hu]
  have hdirty : u.dirty = s.dirty := by rw [hu]
  have hcapacity : u.capacity = s.capacity := by rw [hu]
  have hfree : ∀ i, s.slots i ≠ some s.entries.length := fun i hi =>
    Nat.lt_irrefl _ (h.lt_of_slots hi)
  rw [hgrow]
  refine ⟨⟨⟨_, hrec₂, fun slot hslot => ?_⟩, fun i slot => ?_, ?_, ?_, ?_, ?_⟩, ?_, ?_,
    ?_, ?_, ?_⟩
  · rw [hrel.length, hlength] at hslot
    rcases Nat.lt_succ_iff_lt_or_eq.mp hslot with hlt | rfl
    · exact mem_cons_of_mem _ (hall slot hlt)
    · exact mem_cons_self
  · rw [hrel.slots, hrel.length, hrel.index, hslots, hlength, hentry, h.map]
    refine ⟨fun hi => ⟨by omega, hi.2⟩, fun hi => ⟨?_, hi.2⟩⟩
    rcases Nat.lt_succ_iff_lt_or_eq.mp hi.1 with hlt | rfl
    · exact hlt
    · rw [hvacant] at hi
      cases hi.2
  · rw [hrel.dirty, hrel.slots, hdirty, hslots]
    exact h.dirty
  · rw [hrel.length, hrel.capacity, hlength, hcapacity]
    exact hroom
  · rw [hrel.capacity, hcapacity]
    exact h.capacity
  · rw [hrel.slots, hslots]
    exact h.bound
  · rw [hrel.length, hlength]
    exact Nat.lt_succ_self _
  · exact hrel.slots.trans hslots
  · exact hrel.dirty.trans hdirty
  · rw [hrel.cached]
    funext i
    have hdata : u.data = s.data := by
      funext slot
      simp only [data, hentry]
    rw [cached, cached, hslots, hdata]
  · rw [hrel.index, hentry, hvacant]
    rfl

theorem assign_wf (h : Wf s) (hslot : slot < s.entries.length)
    (hvacant : (s.entry slot).index = none) (hindex : s.slots index = none)
    (hbound : index < 2 ^ 64 - 1) :
    Wf (s.assign slot index) ∧
      (s.assign slot index).slots = Function.update s.slots index (some slot) ∧
      (s.assign slot index).dirty = s.dirty ∧ (s.assign slot index).data = s.data := by
  obtain ⟨u, hu⟩ : ∃ u, u = { s.modifyEntry slot (fun e => { e with index := some index }) with
      slots := Function.update s.slots index (some slot) } := ⟨_, rfl⟩
  have hassign : s.assign slot index = u.touch slot := by
    rw [hu]
    rfl
  have hentry : ∀ other, u.entry other =
      if other = slot then { s.entry slot with index := some index } else s.entry other := by
    rw [hu]
    exact fun other => entry_modifyEntry _ hslot
  have hlength : u.entries.length = s.entries.length := by rw [hu]; simp
  have hcapacity : u.capacity = s.capacity := by rw [hu]; rfl
  have hdirty : u.dirty = s.dirty := by rw [hu]; rfl
  have hslots : u.slots = Function.update s.slots index (some slot) := by rw [hu]
  have hdata : u.data = s.data := by
    funext other
    simp only [data, hentry]
    split
    · rename_i heq
      rw [heq]
    · rfl
  have hnext : u.nextLink = s.nextLink := by
    refine nextLink_congr (by rw [hu]; rfl) fun other => ?_
    rw [hentry]
    split
    · rename_i heq
      rw [heq]
    · rfl
  have hprev : u.prevLink = s.prevLink := by
    refine prevLink_congr (by rw [hu]; rfl) fun other => ?_
    rw [hentry]
    split
    · rename_i heq
      rw [heq]
    · rfl
  have hwf : Wf u := by
    obtain ⟨order, hrec, hall⟩ := h.recency
    refine ⟨⟨order, hrec.congr hnext hprev hlength, hlength ▸ hall⟩,
      fun i other => ?_, fun i hi => ?_, ?_, ?_, fun i hi => ?_⟩
    · rw [hslots, Function.update_apply, hentry, hlength]
      have hiff := h.map i other
      by_cases hi : i = index
      · rw [if_pos hi, hi]
        by_cases hother : other = slot
        · rw [if_pos hother, hother]
          simp [hslot]
        · rw [if_neg hother]
          rw [hi, hindex] at hiff
          simp only [Option.some.injEq, Ne.symm hother, false_iff]
          simpa using hiff
      · rw [if_neg hi, hiff]
        by_cases hother : other = slot
        · rw [if_pos hother, hother, hvacant]
          simp [Ne.symm hi]
        · rw [if_neg hother]
    · rw [hslots, Function.update_apply]
      split
      · exact Option.some_ne_none _
      · exact h.dirty i (hdirty ▸ hi)
    · rw [hlength, hcapacity]
      exact h.length
    · rw [hcapacity]
      exact h.capacity
    · rw [hslots, Function.update_apply] at hi
      split at hi
      · rename_i heq
        rw [heq]
        exact hbound
      · exact h.bound i hi
  obtain ⟨hwf', hrel⟩ := touch_wf hwf (hlength ▸ hslot)
  rw [hassign]
  exact ⟨hwf', hrel.slots.trans hslots, hrel.dirty.trans hdirty, (funext hrel.data).trans hdata⟩

theorem setData_wf (h : Wf s) (hslots : s.slots index = some slot) (block : β) :
    Wf (s.setData slot block) ∧ (s.setData slot block).slots = s.slots ∧
      (s.setData slot block).dirty = s.dirty ∧
      (s.setData slot block).cached = Function.update s.cached index (some block) := by
  have hslot := h.lt_of_slots hslots
  have hentry : ∀ other, (s.setData slot block).entry other =
      if other = slot then { s.entry slot with data := block } else s.entry other :=
    fun other => entry_modifyEntry _ hslot
  have hlength : (s.setData slot block).entries.length = s.entries.length := modifyEntry_length _
  have hindex : ∀ other, ((s.setData slot block).entry other).index = (s.entry other).index := by
    intro other
    rw [hentry]
    split
    · rename_i heq
      rw [heq]
    · rfl
  have hnext : (s.setData slot block).nextLink = s.nextLink := by
    refine nextLink_congr rfl fun other => ?_
    rw [hentry]
    split
    · rename_i heq
      rw [heq]
    · rfl
  have hprev : (s.setData slot block).prevLink = s.prevLink := by
    refine prevLink_congr rfl fun other => ?_
    rw [hentry]
    split
    · rename_i heq
      rw [heq]
    · rfl
  obtain ⟨order, hrec, hall⟩ := h.recency
  refine ⟨⟨⟨order, hrec.congr hnext hprev hlength, hlength ▸ hall⟩, fun i other => ?_, h.dirty,
    hlength ▸ h.length, h.capacity, h.bound⟩, rfl, rfl, ?_⟩
  · rw [hlength, hindex]
    exact h.map i other
  · funext i
    rw [Function.update_apply]
    by_cases hi : i = index
    · rw [if_pos hi, hi, cached]
      change (s.slots index).map _ = _
      rw [hslots, Option.map_some, data, hentry, if_pos rfl]
    · rw [if_neg hi, cached, cached]
      change (s.slots i).map _ = _
      cases hsi : s.slots i with
      | none => rfl
      | some other =>
        have hother : other ≠ slot := by
          intro heq
          rw [heq] at hsi
          exact hi (h.slots_inj hslots hsi)
        rw [Option.map_some, Option.map_some, data, hentry, if_neg hother]
        rfl

theorem markDirty_wf (h : Wf s) (hslots : s.slots index = some slot) :
    Wf (s.markDirty slot) ∧ (s.markDirty slot).slots = s.slots ∧
      (s.markDirty slot).dirty = insert index s.dirty ∧
      (s.markDirty slot).cached = s.cached := by
  have heq : s.markDirty slot = { s with dirty := insert index s.dirty } := by
    simp only [markDirty, h.index_of_slots hslots]
  rw [heq]
  refine ⟨h.withDirty fun i hi => ?_, rfl, rfl, rfl⟩
  rcases Finset.mem_insert.mp hi with rfl | hi
  · rw [hslots]
    exact Option.some_ne_none _
  · exact h.dirty i hi

omit [Inhabited β] in
theorem mem_cleanRange {start len i : Nat} : i ∈ (s.cleanRange start len).dirty ↔
    i ∈ s.dirty ∧ ¬ (start ≤ i ∧ i < start + len) := Finset.mem_filter

theorem cleanRange_wf (h : Wf s) (start len : Nat) : Wf (s.cleanRange start len) :=
  h.withDirty fun i hi => h.dirty i (Finset.mem_filter.mp hi).1

theorem gather_wf (h : Wf s) (start len : Nat) : Wf (s.gather start len) := by
  obtain ⟨order, hrec, hall⟩ := h.recency
  exact ⟨⟨order, hrec.congr rfl rfl rfl, hall⟩, h.map, h.dirty, h.length, h.capacity, h.bound⟩

end Hadris.Storage.CacheState
