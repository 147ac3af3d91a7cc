import Hadris.Storage.CacheWf
import Hadris.Storage.Device

namespace Hadris.Storage

open List
open CacheState

variable {β : Type} [Inhabited β]

/-- A cache over a device holds the blocks `v`: every cached copy is what the
block holds, and so is the device's copy of a block that is not dirty. -/
structure Coherent (v : Nat → β) (contents : Nat → β) (s : CacheState β) : Prop where
  wf : s.Wf
  cached : ∀ i b, s.cached i = some b → b = v i
  device : ∀ i, i ∉ s.dirty → contents i = v i

namespace Coherent

variable {v v' contents contents' : Nat → β} {s t : CacheState β} {slot index first : Nat}
variable {data : List β}

theorem new {capacity : Nat} (h : capacity ≤ nilSlot) :
    Coherent contents contents (CacheState.new capacity) where
  wf := new_wf h
  cached := by simp [CacheState.cached, CacheState.new]
  device := fun _ _ => rfl

theorem of_relinks (h : Coherent v contents s) (hwf : t.Wf) (hrel : Relinks s t) :
    Coherent v contents t where
  wf := hwf
  cached := by
    rw [hrel.cached]
    exact h.cached
  device := by
    rw [hrel.dirty]
    exact h.device

theorem not_dirty (h : Coherent v contents s) (hindex : s.slots index = none) : index ∉ s.dirty :=
  fun hmem => h.wf.dirty index hmem hindex

theorem device_eq (h : Coherent v contents s) (hindex : s.slots index = none) :
    contents index = v index := h.device index (h.not_dirty hindex)

theorem data_eq (h : Coherent v contents s) (hslots : s.slots index = some slot) :
    s.data slot = v index :=
  h.cached index _ (by rw [CacheState.cached, hslots, Option.map_some])

theorem blockData_eq (h : Coherent v contents s) (hslots : s.slots index ≠ none) :
    s.blockData index = v index := by
  obtain ⟨slot, hslot⟩ := Option.ne_none_iff_exists'.mp hslots
  rw [blockData, hslot, Option.getD_some]
  exact h.data_eq hslot

theorem lookup (h : Coherent v contents s) (index : Nat) :
    Coherent v contents (s.lookup index).2 ∧ Relinks s (s.lookup index).2 ∧
      (s.lookup index).1 = s.slots index := by
  rw [CacheState.lookup]
  cases hslots : s.slots index with
  | none => exact ⟨h, .refl s, rfl⟩
  | some slot =>
    obtain ⟨hwf, hrel⟩ := touch_wf h.wf (h.wf.lt_of_slots hslots)
    exact ⟨h.of_relinks hwf hrel, hrel, rfl⟩

theorem forget (h : Coherent v contents s) (hslot : slot < s.entries.length)
    (hclean : ∀ i ∈ s.dirty, s.slots i ≠ some slot) : Coherent v contents (s.forget slot) := by
  have hforgets := forget_wf h.wf hslot
  refine ⟨hforgets.wf, fun i b hb => ?_, fun i hi => ?_⟩
  · rw [hforgets.cached] at hb
    split at hb
    · cases hb
    · exact h.cached i b hb
  · refine h.device i fun hmem => hi ((hforgets.dirty i).mpr ⟨hmem, hclean i hmem⟩)

theorem withContents (h : Coherent v contents s)
    (heq : ∀ i, i ∉ s.dirty → contents' i = contents i) : Coherent v contents' s :=
  ⟨h.wf, h.cached, fun i hi => (heq i hi).trans (h.device i hi)⟩

theorem lands (h : Coherent v contents s) (hdirty : ∀ i, first ≤ i → i < first + data.length →
    i ∈ s.dirty) (hlands : Lands contents (putBlocks contents first data) contents') :
    Coherent v contents' s := by
  refine h.withContents fun i hi => ?_
  have hout : ¬ (first ≤ i ∧ i < first + data.length) := fun hin => hi (hdirty i hin.1 hin.2)
  rcases hlands i with heq | heq
  · exact heq
  · rw [heq, putBlocks_outside hout]

theorem cleaned (h : Coherent v contents s) (hdata : ∀ i, first ≤ i → i < first + data.length →
    data.getD (i - first) default = v i) :
    Coherent v (putBlocks contents first data) (s.cleanRange first data.length) := by
  refine ⟨cleanRange_wf h.wf _ _, h.cached, fun i hi => ?_⟩
  by_cases hin : first ≤ i ∧ i < first + data.length
  · rw [putBlocks, if_pos hin]
    exact hdata i hin.1 hin.2
  · rw [putBlocks_outside hin]
    exact h.device i fun hmem => hi (mem_cleanRange.mpr ⟨hmem, hin⟩)

theorem putBlocks (h : Coherent v contents s)
    (hcached : ∀ i, first ≤ i → i < first + data.length → s.slots i = none) :
    Coherent (putBlocks v first data) (putBlocks contents first data) s := by
  refine ⟨h.wf, fun i b hb => ?_, fun i hi => ?_⟩
  · by_cases hin : first ≤ i ∧ i < first + data.length
    · rw [CacheState.cached, hcached i hin.1 hin.2] at hb
      cases hb
    · rw [putBlocks_outside hin]
      exact h.cached i b hb
  · by_cases hin : first ≤ i ∧ i < first + data.length
    · simp only [Storage.putBlocks, if_pos hin]
    · rw [putBlocks_outside hin, putBlocks_outside hin]
      exact h.device i hi

theorem landBlocks (h : Coherent v contents s)
    (hcached : ∀ i, first ≤ i → i < first + data.length → s.slots i = none)
    (hlands : Lands contents (Storage.putBlocks contents first data) contents') :
    ∃ v', Lands v (Storage.putBlocks v first data) v' ∧ Coherent v' contents' s := by
  refine ⟨fun i => if i ∈ s.dirty then v i else contents' i, fun i => ?_, h.wf, fun i b hb => ?_,
    fun i hi => (if_neg hi).symm⟩
  · by_cases hdirty : i ∈ s.dirty
    · exact .inl (if_pos hdirty)
    · simp only [if_neg hdirty]
      have hput : Storage.putBlocks contents first data i = Storage.putBlocks v first data i := by
        simp only [Storage.putBlocks, h.device i hdirty]
      rcases hlands i with heq | heq
      · exact .inl (heq.trans (h.device i hdirty))
      · exact .inr (heq.trans hput)
  · have hout : ¬ (first ≤ i ∧ i < first + data.length) := by
      intro hin
      rw [CacheState.cached, hcached i hin.1 hin.2] at hb
      cases hb
    by_cases hdirty : i ∈ s.dirty
    · rw [if_pos hdirty]
      exact h.cached i b hb
    · rw [if_neg hdirty, h.cached i b hb]
      rcases hlands i with heq | heq
      · exact ((h.device i hdirty).symm.trans heq.symm)
      · rw [heq, putBlocks_outside hout]
        exact (h.device i hdirty).symm

theorem grow (h : Coherent v contents s) (hvictim : s.victim = none) :
    Coherent v contents s.grow.2 := by
  obtain ⟨hwf, -, -, hdirty, hcached, -⟩ := grow_wf h.wf hvictim
  exact ⟨hwf, hcached ▸ h.cached, hdirty ▸ h.device⟩

/-- A slot has been given to a block, whose contents are to be copied there. -/
structure Assigned (v contents : Nat → β) (index slot : Nat) (s : CacheState β) : Prop where
  wf : s.Wf
  slots : s.slots index = some slot
  cached : ∀ i b, i ≠ index → s.cached i = some b → b = v i
  device : ∀ i, i ∉ s.dirty → contents i = v i

theorem assigned (h : Coherent v contents s) (hslots : s.slots index = some slot) :
    Assigned v contents index slot s :=
  ⟨h.wf, hslots, fun i b _ hb => h.cached i b hb, h.device⟩

theorem assign (h : Coherent v contents s) (hslot : slot < s.entries.length)
    (hvacant : (s.entry slot).index = none) (hindex : s.slots index = none)
    (hbound : index < 2 ^ 64 - 1) : Assigned v contents index slot (s.assign slot index) := by
  obtain ⟨hwf, hslots, hdirty, hdata⟩ := assign_wf h.wf hslot hvacant hindex hbound
  refine ⟨hwf, ?_, fun i b hi hb => h.cached i b ?_, fun i hi => h.device i (hdirty ▸ hi)⟩
  · rw [hslots, Function.update_self]
  · rw [CacheState.cached, hslots, hdata, Function.update_of_ne hi] at hb
    exact hb

namespace Assigned

variable (h : Assigned v contents index slot s)
include h

theorem setData {block : β} (hblock : block = v index) :
    Coherent v contents (s.setData slot block) := by
  obtain ⟨hwf, -, hdirty, hcached⟩ := setData_wf h.wf h.slots block
  refine ⟨hwf, fun i b hb => ?_, hdirty ▸ h.device⟩
  rw [hcached, Function.update_apply] at hb
  split at hb
  · rename_i heq
    rw [heq, ← hblock]
    exact (Option.some.inj hb).symm
  · rename_i hne
    exact h.cached i b hne hb

theorem write (block : β) :
    Coherent (Function.update v index block) contents
      ((s.setData slot block).markDirty slot) := by
  obtain ⟨hwf, hslots, hdirty, hcached⟩ := setData_wf h.wf h.slots block
  obtain ⟨hwf', -, hdirty', hcached'⟩ := markDirty_wf hwf (hslots ▸ h.slots)
  refine ⟨hwf', fun i b hb => ?_, fun i hi => ?_⟩
  · rw [hcached', hcached, Function.update_apply] at hb
    rw [Function.update_apply]
    split at hb
    · rename_i heq
      rw [if_pos heq]
      exact (Option.some.inj hb).symm
    · rename_i hne
      rw [if_neg hne]
      exact h.cached i b hne hb
  · rw [hdirty', Finset.mem_insert, hdirty, not_or] at hi
    rw [Function.update_of_ne hi.1]
    exact h.device i hi.2

end Assigned

section Ranges

variable {count : Nat}

theorem mem_blocks {i : Nat} : i ∈ blocks first count ↔ first ≤ i ∧ i < rangeEnd first count := by
  simp only [blocks, mem_range'_1]
  omega

/-- A cached block of a range is one of its blocks, which end at the last
64-bit number. -/
theorem cached_mem_blocks (h : s.Wf) {i : Nat} (hi : s.slots i ≠ none)
    (hlow : first ≤ i) (hhigh : i < first + count) : i ∈ blocks first count := by
  have hbound := h.bound i hi
  rw [Coherent.mem_blocks, rangeEnd]
  omega

theorem forget_clean (h : Coherent v contents s) (hslots : s.slots index = some slot)
    (hclean : index ∉ s.dirty) :
    Coherent v contents (s.forget slot) ∧ (s.forget slot).dirty = s.dirty ∧
      (s.forget slot).slots index = none ∧
      ∀ i, s.slots i = none → (s.forget slot).slots i = none := by
  have hslot := h.wf.lt_of_slots hslots
  have hforgets := forget_wf h.wf hslot
  have hne : ∀ i ∈ s.dirty, s.slots i ≠ some slot := by
    intro i hi heq
    exact hclean (h.wf.slots_inj hslots heq ▸ hi)
  refine ⟨h.forget hslot hne, ?_, ?_, fun i hi => ?_⟩
  · ext i
    rw [hforgets.dirty]
    exact ⟨fun hi => hi.1, fun hi => ⟨hi, hne i hi⟩⟩
  · rw [hforgets.slots, if_pos hslots]
  · rw [hforgets.slots, hi]
    rfl

theorem invalidate_eq (first count : Nat) : s.invalidate first count =
    (blocks first count).foldl (fun s index => (s.slots index).elim s s.forget) s := by
  refine congrFun (congrArg₂ foldl ?_ rfl) _
  funext s index
  cases s.slots index <;> rfl

theorem invalidate (first count : Nat) (h : Coherent v contents s)
    (hclean : ∀ i, first ≤ i → i < first + count → i ∉ s.dirty) :
    Coherent v contents (s.invalidate first count) ∧ (s.invalidate first count).dirty = s.dirty ∧
      ∀ i, first ≤ i → i < first + count → (s.invalidate first count).slots i = none := by
  rw [invalidate_eq]
  have hfold : ∀ (l : List Nat) (u : CacheState β), Coherent v contents u →
      (∀ i ∈ l, i ∉ u.dirty) →
      ∀ w, w = l.foldl (fun s index => (s.slots index).elim s s.forget) u →
      Coherent v contents w ∧ w.dirty = u.dirty ∧ (∀ i ∈ l, w.slots i = none) ∧
        ∀ i, u.slots i = none → w.slots i = none := by
    intro l
    induction l with
    | nil =>
      rintro u hu - w rfl
      exact ⟨hu, rfl, by simp, fun _ hi => hi⟩
    | cons index rest ih =>
      rintro u hu hl w rfl
      rw [foldl_cons]
      cases hslots : u.slots index with
      | none =>
        simp only [Option.elim]
        obtain ⟨hc, hd, hr, hn⟩ := ih u hu (fun i hi => hl i (mem_cons_of_mem _ hi)) _ rfl
        refine ⟨hc, hd, fun i hi => ?_, hn⟩
        rcases mem_cons.mp hi with rfl | hi
        · exact hn i hslots
        · exact hr i hi
      | some slot =>
        simp only [Option.elim]
        obtain ⟨hu', hd', hi', hn'⟩ := hu.forget_clean hslots (hl index mem_cons_self)
        obtain ⟨hc, hd, hr, hn⟩ := ih (u.forget slot) hu' (fun i hi => by
          rw [hd']
          exact hl i (mem_cons_of_mem _ hi)) _ rfl
        refine ⟨hc, hd.trans hd', fun i hi => ?_, fun i hi => hn i (hn' i hi)⟩
        rcases mem_cons.mp hi with rfl | hi
        · exact hn i hi'
        · exact hr i hi
  obtain ⟨hc, hd, hr, hn⟩ := hfold (blocks first count) s h (fun i hi => by
    obtain ⟨hlow, hhigh⟩ := mem_blocks.mp hi
    refine hclean i hlow ?_
    rw [rangeEnd] at hhigh
    omega) _ rfl
  refine ⟨hc, hd, fun i hlow hhigh => ?_⟩
  by_cases hslots : s.slots i = none
  · exact hn i hslots
  · exact hr i (cached_mem_blocks h.wf hslots hlow hhigh)

theorem dropClean_eq : s.dropClean = (List.range s.entries.length).foldl
    (fun s slot => (s.entry slot).index.elim s
      fun index => if index ∈ s.dirty then s else s.forget slot) s := by
  refine congrFun (congrArg₂ foldl ?_ rfl) _
  funext s slot
  cases (s.entry slot).index <;> rfl

theorem dropClean (h : Coherent v contents s) :
    Coherent v contents s.dropClean ∧ s.dropClean.dirty = s.dirty ∧
      ∀ i, s.dropClean.slots i ≠ none → i ∈ s.dirty := by
  rw [dropClean_eq]
  have hfold : ∀ (l : List Nat) (u : CacheState β), Coherent v contents u →
      (∀ slot ∈ l, slot < u.entries.length) →
      ∀ w, w = l.foldl (fun s slot => (s.entry slot).index.elim s
        fun index => if index ∈ s.dirty then s else s.forget slot) u →
      Coherent v contents w ∧ w.dirty = u.dirty ∧ w.entries.length = u.entries.length ∧
        (∀ slot ∈ l, ∀ i, (w.entry slot).index = some i → i ∈ u.dirty) ∧
        ∀ slot, (∀ i, (u.entry slot).index = some i → i ∈ u.dirty) →
          ∀ i, (w.entry slot).index = some i → i ∈ u.dirty := by
    intro l
    induction l with
    | nil =>
      rintro u hu - w rfl
      exact ⟨hu, rfl, rfl, by simp, fun _ hslot => hslot⟩
    | cons slot rest ih =>
      rintro u hu hl w rfl
      rw [foldl_cons]
      have hrest : ∀ other ∈ rest, other < u.entries.length := fun other hother =>
        hl other (mem_cons_of_mem _ hother)
      cases hindex : (u.entry slot).index with
      | none =>
        simp only [Option.elim]
        obtain ⟨hc, hd, hlen, hr, hn⟩ := ih u hu hrest _ rfl
        refine ⟨hc, hd, hlen, fun other hother => ?_, hn⟩
        rcases mem_cons.mp hother with rfl | hother
        · exact hn other fun i hi => by rw [hindex] at hi; cases hi
        · exact hr other hother
      | some index =>
        simp only [Option.elim]
        split
        · rename_i hmem
          obtain ⟨hc, hd, hlen, hr, hn⟩ := ih u hu hrest _ rfl
          refine ⟨hc, hd, hlen, fun other hother => ?_, hn⟩
          rcases mem_cons.mp hother with rfl | hother
          · refine hn other fun i hi => ?_
            rw [hindex] at hi
            exact Option.some.inj hi ▸ hmem
          · exact hr other hother
        · rename_i hclean
          have hslots := (hu.wf.map index slot).mpr ⟨hl slot mem_cons_self, hindex⟩
          obtain ⟨hu', hd', -, -⟩ := hu.forget_clean hslots hclean
          have hforgets := forget_wf hu.wf (hl slot mem_cons_self)
          obtain ⟨hc, hd, hlen, hr, hn⟩ := ih (u.forget slot) hu' (fun other hother => by
            rw [hforgets.length]
            exact hrest other hother) _ rfl
          have hkeep : ∀ other, (∀ i, (u.entry other).index = some i → i ∈ u.dirty) →
              ∀ i, ((u.forget slot).entry other).index = some i → i ∈ (u.forget slot).dirty := by
            intro other hother i hi
            rw [hforgets.index] at hi
            split at hi
            · cases hi
            · rw [hd']
              exact hother i hi
          refine ⟨hc, hd.trans hd', hlen.trans hforgets.length, fun other hother i hi => ?_,
            fun other hother i hi => ?_⟩
          · rw [← hd']
            rcases mem_cons.mp hother with rfl | hother
            · refine hn other (fun j hj => ?_) i hi
              rw [hforgets.index, if_pos rfl] at hj
              cases hj
            · exact hr other hother i hi
          · rw [← hd']
            exact hn other (hkeep other hother) i hi
  obtain ⟨hc, hd, hlen, hr, -⟩ := hfold (List.range s.entries.length) s h
    (fun slot hslot => mem_range.mp hslot) _ rfl
  refine ⟨hc, hd, fun i hi => ?_⟩
  obtain ⟨slot, hslot⟩ := Option.ne_none_iff_exists'.mp hi
  have hindex := (hc.wf.map i slot).mp hslot
  refine hr slot ?_ i hindex.2
  rw [mem_range, ← hlen]
  exact hindex.1

theorem changed (h : Coherent v contents s) (hdirty : ∀ i, s.slots i ≠ none → i ∈ s.dirty)
    (contents' : Nat → β) :
    Coherent (fun i => if i ∈ s.dirty then v i else contents' i) contents' s where
  wf := h.wf
  cached := by
    intro i b hb
    have hslots : s.slots i ≠ none := by
      intro hnone
      rw [CacheState.cached, hnone] at hb
      cases hb
    rw [if_pos (hdirty i hslots)]
    exact h.cached i b hb
  device := fun i hi => (if_neg hi).symm

omit [Inhabited β] in
theorem getElem?_foldl_set (f : Nat → β) (l : List Nat) (hl : ∀ i ∈ l, first ≤ i) (buf : List β)
    (j : Nat) :
    (l.foldl (fun buf i => buf.set (i - first) (f i)) buf)[j]? =
      if first + j ∈ l ∧ j < buf.length then some (f (first + j)) else buf[j]? := by
  induction l generalizing buf with
  | nil => simp
  | cons i rest ih =>
    have hi := hl i mem_cons_self
    rw [foldl_cons, ih fun k hk => hl k (mem_cons_of_mem _ hk), length_set,
      getElem?_set]
    by_cases hij : first + j = i
    · rw [show i - first = j by omega, if_pos rfl]
      by_cases hj : j < buf.length
      · simp [hj, hij]
      · simp [hj]
    · rw [if_neg (show ¬ i - first = j by omega)]
      simp [hij]

theorem overlayDirty (h : Coherent v contents s) (first count : Nat) :
    s.overlayDirty first ((range' first count).map contents) =
      (range' first count).map v := by
  apply ext_getElem?
  intro j
  have hlow : ∀ i ∈ s.dirtyIn first ((range' first count).map contents).length, first ≤ i :=
    fun i hi => (mem_blocks.mp (mem_filter.mp hi).1).1
  rw [CacheState.overlayDirty, getElem?_foldl_set s.blockData _ hlow]
  simp only [length_map, length_range', getElem?_map]
  by_cases hj : j < count
  · rw [getElem?_range' hj, Option.map_some, Option.map_some, Nat.one_mul]
    by_cases hdirty : first + j ∈ s.dirty
    · have hslots := h.wf.dirty _ hdirty
      have hmem : first + j ∈ s.dirtyIn first count := mem_filter.mpr
        ⟨cached_mem_blocks h.wf hslots (Nat.le_add_right _ _) (by omega), by simpa using hdirty⟩
      rw [if_pos ⟨hmem, hj⟩, h.blockData_eq hslots]
    · have hmem : first + j ∉ s.dirtyIn first count := fun hmem =>
        hdirty (by simpa using (mem_filter.mp hmem).2)
      rw [if_neg fun hin => hmem hin.1, h.device _ hdirty]
  · rw [if_neg fun hin => hj hin.2, getElem?_eq_none (by simp; omega)]
    rfl

end Ranges

end Coherent

namespace CacheState

variable {β : Type} {s : CacheState β} {start first count : Nat}

theorem uncachedEnd_go (s : CacheState β) (first count : Nat) (fuel stop : Nat) :
    stop ≤ uncachedEnd.go s first count fuel stop ∧
      (stop ≤ count → uncachedEnd.go s first count fuel stop ≤ count) ∧
      ∀ k, stop ≤ k → k < uncachedEnd.go s first count fuel stop →
        s.slots (first + k) = none := by
  induction fuel generalizing stop with
  | zero => exact ⟨Nat.le_refl _, fun h => h, fun k hk hk' => absurd hk' (Nat.not_lt.mpr hk)⟩
  | succ fuel ih =>
    rw [uncachedEnd.go]
    split
    · rename_i hstop
      obtain ⟨hlow, hhigh, hnone⟩ := ih (stop + 1)
      refine ⟨by omega, fun _ => hhigh hstop.1, fun k hk hk' => ?_⟩
      rcases Nat.eq_or_lt_of_le hk with rfl | hlt
      · exact hstop.2
      · exact hnone k hlt hk'
    · exact ⟨Nat.le_refl _, fun h => h, fun k hk hk' => absurd hk' (Nat.not_lt.mpr hk)⟩

theorem uncachedEnd_spec (s : CacheState β) (first : Nat) (hstart : start < count) :
    start < s.uncachedEnd first start count ∧ s.uncachedEnd first start count ≤ count ∧
      ∀ k, start < k → k < s.uncachedEnd first start count → s.slots (first + k) = none := by
  obtain ⟨hlow, hhigh, hnone⟩ := uncachedEnd_go s first count (count - start) (start + 1)
  exact ⟨hlow, hhigh hstart, hnone⟩

theorem firstDirty_eq_none : s.firstDirty = none ↔ s.dirty = ∅ := by
  rw [firstDirty]
  split
  · rename_i h
    simp [Finset.nonempty_iff_ne_empty.mp h]
  · rename_i h
    simpa using h

theorem firstDirty_mem (h : s.firstDirty = some start) : start ∈ s.dirty := by
  rw [firstDirty] at h
  split at h
  · rw [← Option.some.inj h]
    exact Finset.min'_mem _ _
  · cases h

theorem dirtyRun_go (s : CacheState β) (start fuel len : Nat)
    (h : ∀ k < len, start + k ∈ s.dirty) :
    len ≤ dirtyRun.go s start fuel len ∧
      ∀ k < dirtyRun.go s start fuel len, start + k ∈ s.dirty := by
  induction fuel generalizing len with
  | zero => exact ⟨Nat.le_refl _, h⟩
  | succ fuel ih =>
    rw [dirtyRun.go]
    split
    · rename_i hmem
      have hrest := ih (len + 1) fun k hk => by
        rcases Nat.lt_succ_iff_lt_or_eq.mp hk with hlt | rfl
        · exact h k hlt
        · exact hmem
      exact ⟨by omega, hrest.2⟩
    · exact ⟨Nat.le_refl _, h⟩

theorem dirtyRun_spec (h : start ∈ s.dirty) :
    1 ≤ s.dirtyRun start ∧ ∀ i, start ≤ i → i < start + s.dirtyRun start → i ∈ s.dirty := by
  obtain ⟨hlow, hmem⟩ := dirtyRun_go s start (maxRun - 1) 1 fun k hk => by
    rw [Nat.lt_one_iff.mp hk]
    exact h
  refine ⟨hlow, fun i hi hi' => ?_⟩
  obtain ⟨k, rfl⟩ := Nat.exists_eq_add_of_le hi
  exact hmem k (by rw [dirtyRun] at hi'; omega)

theorem cleanRange_card (h : start ∈ s.dirty) (hcount : 1 ≤ count) :
    (s.cleanRange start count).dirty.card < s.dirty.card := by
  refine Finset.card_lt_card (Finset.filter_ssubset.mpr ⟨start, h, ?_⟩)
  rw [not_not]
  omega

end CacheState

end Hadris.Storage
