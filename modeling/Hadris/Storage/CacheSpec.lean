import Hadris.Storage.Cache

namespace Hadris.Storage

namespace Cache

open List
open Prog (Triple)
open Coherent

variable {β : Type} [Inhabited β] {v : Nat → β} {c : Cache β} {s : CacheState β}
variable {first count index slot : Nat} {data : List β} {whole : Bool}

/-- The cache holds the blocks `v`. -/
def Shows (v : Nat → β) (c : Cache β) : Prop := Coherent v c.inner.contents c.state

theorem run_deviceRead (c : Cache β) : (deviceRead first count whole).run c =
    ((c.inner.readBlocks first count whole).1,
      { c with inner := (c.inner.readBlocks first count whole).2 }) := rfl

theorem run_deviceWrite (c : Cache β) : (deviceWrite first data whole).run c =
    ((c.inner.writeBlocks first data whole).1,
      { c with inner := (c.inner.writeBlocks first data whole).2 }) := rfl

theorem run_deviceFlush (c : Cache β) : deviceFlush.run c =
    (c.inner.flush.1, { c with inner := c.inner.flush.2 }) := rfl

theorem deviceRead_spec (v : Nat → β) (s : CacheState β) (first len : Nat) (whole : Bool) :
    Triple (fun c => c.state = s ∧ Shows v c) (deviceRead first len whole)
      (fun buf c => (c.state = s ∧ Shows v c) ∧ buf = c.inner.read first len ∧
        ∃ count : UInt64, checkBlocks count.toNat first len whole = .ok ())
      (fun _ c => c.state = s ∧ Shows v c) := by
  rintro c ⟨hs, hc⟩
  have hread := c.inner.readBlocks_spec first len whole
  rw [run_deviceRead]
  rcases hrun : c.inner.readBlocks first len whole with ⟨_ | buf, d⟩ <;> rw [hrun] at hread
  · refine ⟨hs, ?_⟩
    simp only [Shows, hread]
    exact hc
  · obtain ⟨hcontents, hbuf, hcheck⟩ := hread
    refine ⟨⟨hs, ?_⟩, ?_, c.inner.count, hcheck⟩
    · simp only [Shows, hcontents]
      exact hc
    · rw [hbuf, Device.read, Device.read, hcontents]

theorem writeDirty_spec (s : CacheState β) (first : Nat) (data : List β)
    (hdirty : ∀ i, first ≤ i → i < first + data.length → i ∈ s.dirty)
    (hdata : ∀ i, first ≤ i → i < first + data.length → data.getD (i - first) default = v i) :
    Triple (fun c => c.state = s ∧ Shows v c)
      (do deviceWrite first data true
          modifyState (·.cleanRange first data.length))
      (fun _ c => c.state = s.cleanRange first data.length ∧ Shows v c)
      (fun _ c => c.state = s ∧ Shows v c) := by
  rintro c ⟨rfl, hc⟩
  have hwrite := c.inner.writeBlocks_spec first data true
  rw [Prog.run_bind, run_deviceWrite]
  rcases hrun : c.inner.writeBlocks first data true with ⟨_ | _, d⟩ <;> rw [hrun] at hwrite
  · exact ⟨rfl, hc.lands hdirty hwrite⟩
  · refine ⟨rfl, ?_⟩
    have hclean := hc.cleaned hdata
    rw [← hwrite] at hclean
    exact hclean

theorem writeBack_spec (hindex : index ∈ s.dirty) :
    Triple (fun c => c.state = s ∧ Shows v c) (writeBack index)
      (fun _ c => c.state = s.cleanRange index 1 ∧ Shows v c)
      (fun _ c => c.state = s ∧ Shows v c) := by
  refine Triple.of_forall fun c₀ h₀ => ?_
  obtain ⟨hs, hc⟩ := h₀
  have hdata : s.data ((s.slots index).getD 0) = v index := by
    rw [← hs] at hindex ⊢
    exact hc.blockData_eq (hc.wf.dirty index hindex)
  have hwrite := writeDirty_spec (v := v) s index [v index]
    (fun i hi hi' => by
      rw [length_singleton] at hi'
      rwa [show i = index by omega])
    (fun i hi hi' => by
      rw [length_singleton] at hi'
      rw [show i = index by omega, Nat.sub_self]
      rfl)
  refine Triple.bind (Q := fun slot c => slot = (s.slots index).getD 0 ∧ c.state = s ∧ Shows v c)
    (Triple.gets fun c hc' => ?_) fun slot => Triple.assume fun hslot => ?_
  · subst hc'
    exact ⟨by rw [hs]; rfl, hs, hc⟩
  refine Triple.bind (Q := fun block c => block = v index ∧ c.state = s ∧ Shows v c)
    (Triple.gets fun c hc' => ⟨?_, hc'⟩) fun block => Triple.assume fun hblock => ?_
  · rw [hc'.1, hslot]
    exact hdata
  rw [hblock]
  exact hwrite

theorem lookup_spec (v : Nat → β) (index : Nat) :
    Triple (Shows v) (lookup index)
      (fun hit c => Shows v c ∧ c.state.slots index = hit) (fun _ _ => False) := by
  intro c hc
  obtain ⟨hco, hrel, hhit⟩ := hc.lookup index
  refine ⟨hco, ?_⟩
  change (c.state.lookup index).2.slots index = _
  rw [hrel.slots, hhit]

/-- What a slot must be to be given to another block. -/
structure Vacant (v : Nat → β) (index slot : Nat) (c : Cache β) : Prop where
  shows : Shows v c
  slots : c.state.slots index = none
  lt : slot < c.state.entries.length
  clean : ∀ i ∈ c.state.dirty, c.state.slots i ≠ some slot

theorem dirtyIndex_eq_some {s : CacheState β} (hs : s.Wf) :
    s.dirtyIndex slot = some index → index ∈ s.dirty ∧ (slot < s.entries.length →
      s.slots index = some slot) := by
  intro h
  rw [CacheState.dirtyIndex, Option.filter_eq_some_iff] at h
  exact ⟨of_decide_eq_true h.2, fun hslot => (hs.map index slot).mpr ⟨hslot, h.1⟩⟩

theorem dirtyIndex_eq_none {s : CacheState β} (hs : s.Wf) (h : s.dirtyIndex slot = none) :
    ∀ i ∈ s.dirty, s.slots i ≠ some slot := by
  intro i hi hslots
  rw [CacheState.dirtyIndex, hs.index_of_slots hslots] at h
  simp [hi] at h

theorem vacate_spec (v : Nat → β) (index : Nat) :
    Triple (fun c => Shows v c ∧ c.state.slots index = none) vacate
      (fun slot c => Vacant v index slot c) (fun _ => Shows v) := by
  refine Triple.bind (Q := fun victim c => (Shows v c ∧ c.state.slots index = none) ∧
    c.state.victim = victim) (Triple.gets fun c hc => ⟨hc, rfl⟩) fun victim => ?_
  cases victim with
  | none =>
    rintro c ⟨⟨hc, hindex⟩, hvictim⟩
    obtain ⟨hwf, hlt, hslots, hdirty, -, hvacant⟩ := CacheState.grow_wf hc.wf hvictim
    refine ⟨hc.grow hvictim, ?_, hlt, fun i hi hslot => ?_⟩
    · exact (congrFun hslots index).trans hindex
    · have hsome := hwf.index_of_slots hslot
      rw [hvacant] at hsome
      cases hsome
  | some slot =>
    refine Triple.bind (Q := fun evicted c => ((Shows v c ∧ c.state.slots index = none) ∧
      c.state.victim = some slot) ∧ c.state.dirtyIndex slot = evicted)
      (Triple.gets fun c hc => ⟨hc, rfl⟩) fun evicted => ?_
    refine Triple.bind (Q := fun _ c => Vacant v index slot c) ?_ fun _ =>
      Triple.pure fun c hc => hc
    refine Triple.of_forall fun c₀ h₀ => ?_
    obtain ⟨⟨⟨hc, hindex⟩, hvictim⟩, hevicted⟩ := h₀
    have hlt := hc.wf.victim_lt hvictim
    cases evicted with
    | none =>
      refine Triple.pure fun c heq => ?_
      subst heq
      exact ⟨hc, hindex, hlt, dirtyIndex_eq_none hc.wf hevicted⟩
    | some other =>
      obtain ⟨hmem, hslots⟩ := dirtyIndex_eq_some hc.wf hevicted
      refine ((writeBack_spec (v := v) hmem).conseq (fun c heq => ?_) (fun _ c h => ?_)
        fun _ c h => h.2)
      · subst heq
        exact ⟨rfl, hc⟩
      · refine ⟨h.2, ?_, ?_, fun i hi hslot => ?_⟩
        · rw [h.1]
          exact hindex
        · rw [h.1]
          exact hlt
        · rw [h.1] at hi hslot
          have heq := hc.wf.slots_inj (hslots hlt) hslot
          have hclean := (CacheState.mem_cleanRange.mp hi).2
          omega

/-- `slotFor` gives a slot to the block, unless it cannot write back the block
it evicts. -/
theorem slotFor_spec (v : Nat → β) (hbound : index < 2 ^ 64 - 1) :
    Triple (Shows v) (slotFor index false)
      (fun slot c => Assigned v c.inner.contents index slot c.state) (fun _ => Shows v) := by
  refine Triple.bind ((lookup_spec v index).weaken (fun _ _ h => h) fun _ _ h => h.elim)
    fun hit => ?_
  cases hit with
  | some slot => exact Triple.pure fun c hc => hc.1.assigned hc.2
  | none =>
    refine Triple.bind (vacate_spec v index) fun slot => ?_
    intro c hc
    have hforgets := CacheState.forget_wf hc.shows.wf hc.lt
    have hforget := hc.shows.forget hc.lt hc.clean
    refine hforget.assign (hforgets.length ▸ hc.lt) ?_ ?_ hbound
    · rw [hforgets.index, if_pos rfl]
    · rw [hforgets.slots, hc.slots]
      rfl

def Slotted (v : Nat → β) (index : Nat) : Except Error Nat → Cache β → Prop
  | .ok slot, c => Assigned v c.inner.contents index slot c.state
  | .error _, c => Shows v c

theorem fill_spec {buf : List β} {k : Nat} (hbound : first + k < 2 ^ 64 - 1)
    (hbuf : buf.getD k default = v (first + k)) :
    Triple (Shows v) (fill first buf k) (fun _ => Shows v) (fun _ => Shows v) := by
  refine Triple.bind (Triple.attempt (R := Slotted v (first + k)) (slotFor_spec v hbound)
    (fun _ _ h => h) fun _ _ h => h) fun result => ?_
  cases result with
  | ok slot => exact Triple.modify fun c hc => hc.setData hbuf
  | error error =>
    exact Triple.ite (fun _ => Triple.pure fun c hc => hc) fun _ =>
      Triple.fail fun c hc => hc

/-- What a buffer holds once its first `i` blocks are read. -/
def Filled (v : Nat → β) (first count i : Nat) (buf : List β) : Prop :=
  buf.length = count ∧ ∀ k < i, buf.getD k default = v (first + k)

theorem Filled.eq {buf : List β} (h : Filled v first count count buf) :
    buf = (range' first count).map v := by
  apply ext_getElem
  · rw [h.1, length_map, length_range']
  · intro k hk hk'
    have hget := h.2 k (h.1 ▸ hk)
    rw [getD_eq_getElem _ _ hk] at hget
    rw [hget, getElem_map, getElem_range', Nat.one_mul]

theorem Filled.set {buf : List β} {i : Nat} {block : β} (h : Filled v first count i buf)
    (hi : i < count) (hblock : block = v (first + i)) :
    Filled v first count (i + 1) (buf.set i block) := by
  refine ⟨by rw [length_set, h.1], fun k hk => ?_⟩
  rw [getD_eq_getElem?_getD, getElem?_set]
  split
  · rename_i heq
    rw [← heq, if_pos (by rw [h.1]; exact hi), Option.getD_some, hblock]
  · rw [← getD_eq_getElem?_getD]
    exact h.2 k (by omega)

theorem Filled.splice {buf data : List β} {i stop : Nat} (h : Filled v first count i buf)
    (hi : i ≤ stop) (hstop : stop ≤ count)
    (hdata : data = (range' (first + i) (stop - i)).map v) :
    Filled v first count stop (buf.take i ++ data ++ buf.drop stop) := by
  have htake : (buf.take i).length = i := by
    rw [length_take, h.1]
    omega
  have hlen : data.length = stop - i := by rw [hdata, length_map, length_range']
  refine ⟨?_, fun k hk => ?_⟩
  · rw [length_append, length_append, htake, hlen, length_drop, h.1]
    omega
  rw [getD_append _ _ _ _ (by rw [length_append, htake, hlen]; omega)]
  by_cases hki : k < i
  · rw [getD_append _ _ _ _ (by rw [htake]; exact hki), getD_eq_getElem?_getD,
      getElem?_take_of_lt hki, ← getD_eq_getElem?_getD]
    exact h.2 k hki
  · rw [getD_append_right _ _ _ _ (by rw [htake]; omega), htake, hdata,
      getD_eq_getElem?_getD, getElem?_map, getElem?_range' (by omega)]
    simp only [Option.map_some, Option.getD_some]
    congr 1
    omega

theorem Shows.read_eq (h : Shows v c) {start len : Nat}
    (hslots : ∀ k < len, c.state.slots (start + k) = none) :
    c.inner.read start len = (range' start len).map v := by
  refine map_congr_left fun i hi => ?_
  obtain ⟨hlow, hhigh⟩ := mem_range'_1.mp hi
  obtain ⟨k, rfl⟩ := Nat.exists_eq_add_of_le hlow
  exact h.device_eq (hslots k (by omega))

theorem readLoop_spec (hbound : first + count ≤ 2 ^ 64 - 1) (fuel i : Nat) (buf : List β)
    (hi : i ≤ count) (hfuel : count ≤ i + fuel) (hbuf : Filled v first count i buf) :
    Triple (Shows v) (readLoop first count fuel i buf)
      (fun result c => Shows v c ∧ Filled v first count count result) (fun _ => Shows v) := by
  induction fuel generalizing i buf with
  | zero =>
    obtain rfl : i = count := by omega
    exact Triple.pure fun c hc => ⟨hc, hbuf⟩
  | succ fuel ih =>
    refine Triple.ite (fun hlt => ?_) fun hge => ?_
    · refine Triple.bind ((lookup_spec v _).weaken (fun _ _ h => h) fun _ _ h => h.elim)
        fun hit => ?_
      cases hit with
      | some slot =>
        refine Triple.bind (Q := fun block c => block = v (first + i) ∧ Shows v c)
          (Triple.gets fun c hc => ⟨hc.1.data_eq hc.2, hc.1⟩) fun block =>
            Triple.assume fun hblock => ?_
        exact ih (i + 1) _ (by omega) (by omega) (hbuf.set hlt hblock)
      | none =>
        refine Triple.of_forall fun c₀ h₀ => ?_
        obtain ⟨hc₀, hslots⟩ := h₀
        obtain ⟨hstop, hend, hnone⟩ := CacheState.uncachedEnd_spec c₀.state first hlt
        obtain ⟨stop, heq⟩ : ∃ stop, c₀.state.uncachedEnd first i count = stop := ⟨_, rfl⟩
        rw [heq] at hstop hend hnone
        refine Triple.bind (Q := fun s c => s = stop ∧ c.state = c₀.state ∧ Shows v c)
          (Triple.gets fun c hc => by subst hc; exact ⟨heq, rfl, hc₀⟩) fun s =>
            Triple.assume fun hs => ?_
        subst hs
        refine Triple.bind (Q := fun data c =>
          data = (range' (first + i) (s - i)).map v ∧ Shows v c)
          ((deviceRead_spec v c₀.state _ _ _).weaken (fun data c h => ?_) fun _ c h => h.2)
          fun data => Triple.assume fun hdata => ?_
        · refine ⟨?_, h.1.2⟩
          rw [h.2.1]
          refine h.1.2.read_eq fun k hk => ?_
          rw [h.1.1, Nat.add_assoc]
          rcases Nat.eq_zero_or_pos k with rfl | hpos
          · exact hslots
          · exact hnone (i + k) (by omega) (by omega)
        have hfilled := hbuf.splice (Nat.le_of_lt hstop) hend hdata
        refine Triple.bind (Q := fun _ => Shows v) ?_ fun _ =>
          ih s _ hend (by omega) hfilled
        refine Prog.keeps_iff_triple.mp (Prog.Keeps.each _ fun k hk => ?_)
        obtain ⟨hlow, hhigh⟩ := mem_range'_1.mp hk
        exact Prog.keeps_iff_triple.mpr
          (fill_spec (by omega) (hfilled.2 k (by omega)))
    · obtain rfl : i = count := by omega
      exact Triple.pure fun c hc => ⟨hc, hbuf⟩

theorem checkBlocks_ok {count first len : Nat} (h : checkBlocks count first len whole = .ok ()) :
    first + len ≤ count := by
  simp only [checkBlocks] at h
  split at h
  · cases h
  split at h
  · assumption
  · cases h

omit [Inhabited β] in
theorem inRange_iff : c.inRange first count whole = true ↔
    checkBlocks c.inner.count.toNat first count whole = .ok () := by
  rw [inRange]
  cases checkBlocks c.inner.count.toNat first count whole with
  | ok u => exact ⟨fun _ => rfl, fun _ => rfl⟩
  | error e =>
    constructor <;> intro h <;> cases h

omit [Inhabited β] in
theorem inRange_le (h : c.inRange first count whole = true) : first + count ≤ 2 ^ 64 - 1 := by
  have hlt : c.inner.count.toNat < 2 ^ 64 := c.inner.count.toNat_lt
  have hle := checkBlocks_ok (inRange_iff.mp h)
  omega

theorem readBlocks_spec (v : Nat → β) (first count : Nat) (whole : Bool) :
    Triple (Shows v) (readBlocks first count whole)
      (fun buf c => Shows v c ∧ buf = (range' first count).map v) (fun _ => Shows v) := by
  refine Triple.of_forall fun c₀ hc₀ => ?_
  refine Triple.bind (Q := fun r c => r = c₀.inRange first count whole ∧ c = c₀)
    (Triple.gets fun c hc => by subst hc; exact ⟨rfl, rfl⟩) fun r =>
      Triple.assume fun hr => ?_
  refine Triple.bind (Q := fun _ c => c = c₀) (Triple.gets fun c hc => hc)
    fun capacity => ?_
  refine Triple.ite (fun hout => ?_) fun hin => Triple.ite (fun _ => ?_) fun _ => ?_
  · rintro c rfl
    have hfail : checkBlocks c.inner.count.toNat first count whole ≠ .ok () := by
      intro hok
      rw [hr, inRange_iff.mpr hok] at hout
      cases hout
    rw [run_deviceRead, Device.readBlocks]
    cases hcheck : checkBlocks c.inner.count.toNat first count whole with
    | ok u => exact (hfail hcheck).elim
    | error e => exact hc₀
  · refine Triple.bind (((deviceRead_spec v c₀.state first count whole).pre ?_).weaken
      (fun _ _ h => h) fun _ c h => h.2) fun buf => Triple.gets fun c hc => ?_
    · rintro c rfl
      exact ⟨rfl, hc₀⟩
    · refine ⟨hc.1.2, ?_⟩
      rw [hc.2.1]
      exact hc.1.2.overlayDirty first count
  · have hbound : first + count ≤ 2 ^ 64 - 1 := by
      have hrange : c₀.inRange first count whole = true := by
        rw [← hr]
        simpa using hin
      exact inRange_le hrange
    refine ((readLoop_spec hbound count 0 (replicate count default) (Nat.zero_le _)
      (by omega) ⟨length_replicate .., fun k hk => absurd hk (Nat.not_lt_zero k)⟩).pre
        (by rintro c rfl; exact hc₀)).post fun buf c h => ⟨h.1, h.2.eq⟩

theorem writeBackDirty_spec (D : Nat → Prop) (index : Nat) :
    Triple (fun c => Shows v c ∧ ∀ i ∈ c.state.dirty, D i) (writeBackDirty index)
      (fun _ c => Shows v c ∧ ∀ i ∈ c.state.dirty, D i ∧ i ≠ index) (fun _ => Shows v) := by
  refine Triple.of_forall fun c₀ h₀ => ?_
  refine Triple.bind (Q := fun dirty c => dirty = decide (index ∈ c₀.state.dirty) ∧ c = c₀)
    (Triple.gets fun c hc => by subst hc; exact ⟨rfl, rfl⟩) fun dirty =>
      Triple.assume fun hdirty => ?_
  subst hdirty
  refine Triple.when (fun hmem => ?_) fun hnot => ?_
  · refine (writeBack_spec (v := v) (of_decide_eq_true hmem)).conseq ?_ (fun _ c h => ?_)
      fun _ c h => h.2
    · rintro c rfl
      exact ⟨rfl, h₀.1⟩
    · refine ⟨h.2, fun i hi => ?_⟩
      rw [h.1, CacheState.mem_cleanRange] at hi
      exact ⟨h₀.2 i hi.1, by omega⟩
  · rintro c rfl
    refine ⟨h₀.1, fun i hi => ⟨h₀.2 i hi, ?_⟩⟩
    rintro rfl
    exact hnot (decide_eq_true hi)

theorem each_writeBackDirty_spec (D : Nat → Prop) (l : List Nat) :
    Triple (fun c => Shows v c ∧ ∀ i ∈ c.state.dirty, D i) (Prog.each writeBackDirty l)
      (fun _ c => Shows v c ∧ ∀ i ∈ c.state.dirty, D i ∧ i ∉ l) (fun _ => Shows v) := by
  induction l generalizing D with
  | nil => exact Triple.pure fun c hc => ⟨hc.1, fun i hi => ⟨hc.2 i hi, not_mem_nil⟩⟩
  | cons index rest ih =>
    refine Triple.bind (writeBackDirty_spec D index) fun _ => ?_
    refine (ih fun i => D i ∧ i ≠ index).post fun _ c hc => ⟨hc.1, fun i hi => ?_⟩
    obtain ⟨⟨hD, hne⟩, hnot⟩ := hc.2 i hi
    exact ⟨hD, fun hmem => (mem_cons.mp hmem).elim hne hnot⟩

/-- A failed write leaves each of its blocks with its old or its new contents. -/
def ShowsPart (v : Nat → β) (first : Nat) (data : List β) (c : Cache β) : Prop :=
  ∃ v', Lands v (putBlocks v first data) v' ∧ Shows v' c

theorem Shows.part (h : Shows v c) (first : Nat) (data : List β) : ShowsPart v first data c :=
  ⟨v, Lands.refl _ _, h⟩

theorem writeThrough_spec (v : Nat → β) (first : Nat) (data : List β) (whole : Bool) :
    Triple (Shows v) (writeThrough first data whole)
      (fun _ => Shows (putBlocks v first data)) (fun _ => ShowsPart v first data) := by
  refine Triple.bind (((each_writeBackDirty_spec (fun _ => True)
    (blocks first data.length)).pre fun c hc => ⟨hc, fun _ _ => trivial⟩).weaken
      (fun _ _ h => h) fun _ c h => h.part first data) fun _ => ?_
  refine Triple.bind (Q := fun _ c => Shows v c ∧
    ∀ i, first ≤ i → i < first + data.length → c.state.slots i = none)
    (Triple.modify fun c hc => ?_) fun _ => ?_
  · obtain ⟨hco, -, hslots⟩ := hc.1.invalidate first data.length
      fun i hlow hhigh hi => (hc.2 i hi).2
        (cached_mem_blocks hc.1.wf (hc.1.wf.dirty i hi) hlow hhigh)
    exact ⟨hco, hslots⟩
  refine Triple.bind (Q := fun _ => Shows (putBlocks v first data)) ?_ fun _ =>
    Triple.modify fun c hc => hc
  rintro c ⟨hc, hslots⟩
  have hwrite := c.inner.writeBlocks_spec first data whole
  rw [run_deviceWrite]
  rcases hrun : c.inner.writeBlocks first data whole with ⟨_ | _, d⟩ <;> rw [hrun] at hwrite
  · exact hc.landBlocks hslots hwrite
  · simp only [Shows, hwrite]
    exact hc.putBlocks hslots

theorem putBlocks_take_succ {i : Nat} (hi : i < data.length) :
    Function.update (putBlocks v first (data.take i)) (first + i) (data.getD i default) =
      putBlocks v first (data.take (i + 1)) := by
  funext k
  rw [Function.update_apply]
  have htake : (data.take i).length = i := by rw [length_take]; omega
  have htake' : (data.take (i + 1)).length = i + 1 := by rw [length_take]; omega
  simp only [putBlocks, htake, htake', getD_eq_getElem?_getD]
  by_cases hk : k = first + i
  · rw [if_pos hk, if_pos (by omega), getElem?_take_of_lt (by omega)]
    congr 2
    omega
  · rw [if_neg hk]
    by_cases hin : first ≤ k ∧ k < first + i
    · rw [if_pos hin, if_pos (by omega), getElem?_take_of_lt (by omega),
        getElem?_take_of_lt (by omega)]
    · rw [if_neg hin, if_neg (by omega)]

theorem lands_take (v : Nat → β) (first : Nat) (data : List β) (i : Nat) :
    Lands v (putBlocks v first data) (putBlocks v first (data.take i)) := by
  intro k
  by_cases hk : first ≤ k ∧ k < first + (data.take i).length
  · right
    have hk' := hk.2
    rw [length_take] at hk'
    simp only [putBlocks]
    rw [if_pos hk, if_pos (by omega), getD_eq_getElem?_getD,
      getElem?_take_of_lt (by omega), getD_eq_getElem?_getD]
  · exact .inl (putBlocks_outside hk)

theorem writeCached_spec {i : Nat} (hi : i < data.length) (hbound : first + i < 2 ^ 64 - 1) :
    Triple (Shows (putBlocks v first (data.take i))) (writeCached first data i)
      (fun _ => Shows (putBlocks v first (data.take (i + 1))))
      (fun _ => ShowsPart v first data) := by
  refine Triple.bind ((slotFor_spec _ hbound).weaken (fun _ _ h => h)
    fun _ c h => ⟨_, lands_take v first data i, h⟩) fun slot => ?_
  intro c hc
  have hwrite := hc.write (data.getD i default)
  rw [putBlocks_take_succ hi] at hwrite
  exact hwrite

/-- A write that succeeds stores its blocks, and one that fails may have stored
some of them. -/
theorem writeBlocks_spec (v : Nat → β) (first : Nat) (data : List β) (whole : Bool) :
    Triple (Shows v) (writeBlocks first data whole)
      (fun _ => Shows (putBlocks v first data)) (fun _ => ShowsPart v first data) := by
  refine Triple.of_forall fun c₀ hc₀ => ?_
  refine Triple.bind (Q := fun through c => (through = false →
    c₀.inRange first data.length whole = true) ∧ c = c₀) (Triple.gets fun c hc => ?_)
    fun through => Triple.assume fun hthrough => ?_
  · subst hc
    refine ⟨fun h => ?_, rfl⟩
    simp only [Bool.or_eq_false_iff, Bool.not_eq_false'] at h
    exact h.1.2
  refine Triple.ite (fun _ => ?_) fun hcached => ?_
  · exact (writeThrough_spec v first data whole).pre (by rintro c rfl; exact hc₀)
  · have hbound := inRange_le (hthrough (by simpa using hcached))
    have hloop := Triple.each_range' (P := fun i => Shows (putBlocks v first (data.take i)))
      (E := fun _ => ShowsPart v first data) (f := writeCached first data) 0 data.length
      fun i _ hi => writeCached_spec (by omega) (by omega)
    refine hloop.conseq ?_ (fun _ c hc => ?_) fun _ _ h => h
    · rintro c rfl
      simpa using hc₀
    · simpa using hc

theorem flushLoop_spec (v : Nat → β) (fuel : Nat) :
    Triple (fun c => Shows v c ∧ c.state.dirty.card ≤ fuel) (flushLoop fuel)
      (fun _ c => Shows v c ∧ c.state.dirty = ∅) (fun _ => Shows v) := by
  induction fuel with
  | zero =>
    exact Triple.pure fun c hc =>
      ⟨hc.1, Finset.card_eq_zero.mp (Nat.le_zero.mp hc.2)⟩
  | succ fuel ih =>
    refine Triple.of_forall fun c₀ h₀ => ?_
    refine Triple.bind (Q := fun start c => start = c₀.state.firstDirty ∧ c = c₀)
      (Triple.gets fun c hc => by subst hc; exact ⟨rfl, rfl⟩) fun start =>
        Triple.assume fun hstart => ?_
    cases start with
    | none =>
      refine Triple.pure fun c hc => ?_
      subst hc
      exact ⟨h₀.1, CacheState.firstDirty_eq_none.mp hstart.symm⟩
    | some start =>
      have hmem := CacheState.firstDirty_mem hstart.symm
      obtain ⟨hpos, hrun⟩ := CacheState.dirtyRun_spec hmem
      obtain ⟨len, hlen⟩ : ∃ len, c₀.state.dirtyRun start = len := ⟨_, rfl⟩
      rw [hlen] at hpos hrun
      refine Triple.bind (Q := fun n c => n = len ∧ c = c₀)
        (Triple.gets fun c hc => by subst hc; exact ⟨hlen, rfl⟩) fun n =>
          Triple.assume fun hn => ?_
      subst hn
      have hrunLength : (c₀.state.gather start n).run.length = n := by
        rw [CacheState.gather, length_map, length_range']
      refine Triple.bind (Q := fun _ c => c.state = c₀.state.gather start n ∧ Shows v c)
        (Triple.modify fun c hc => ?_) fun _ => ?_
      · subst hc
        exact ⟨rfl, CacheState.gather_wf h₀.1.wf start n, h₀.1.cached, h₀.1.device⟩
      refine Triple.bind (Q := fun run c => run = (c₀.state.gather start n).run ∧
        c.state = c₀.state.gather start n ∧ Shows v c)
        (Triple.gets fun c hc => ⟨by rw [hc.1], hc⟩) fun run =>
          Triple.assume fun hrun' => ?_
      have hwrite := writeDirty_spec (v := v) (c₀.state.gather start n) start run
        (fun i hi hi' => hrun i hi (by rw [hrun', hrunLength] at hi'; exact hi'))
        fun i hi hi' => by
          rw [hrun', hrunLength] at hi'
          rw [hrun', CacheState.gather, getD_eq_getElem?_getD, getElem?_map,
            getElem?_range' (by omega)]
          simp only [Option.map_some, Option.getD_some]
          rw [show start + 1 * (i - start) = i by omega]
          exact h₀.1.blockData_eq (h₀.1.wf.dirty i (hrun i hi hi'))
      have hlength : run.length = n := by rw [hrun', hrunLength]
      rw [hlength] at hwrite
      have hassoc : (do
          deviceWrite start run true
          modifyState (·.cleanRange start n)
          flushLoop fuel : Run β Unit) = (do
          (do deviceWrite start run true
              modifyState (·.cleanRange start n))
          flushLoop fuel) := by rw [bind_assoc]
      rw [hassoc]
      refine Triple.bind (hwrite.weaken (fun _ _ h => h) fun _ c h => h.2) fun _ => ?_
      refine ih.pre fun c hc => ⟨hc.2, ?_⟩
      have hcard : c.state.dirty.card < c₀.state.dirty.card := by
        rw [hc.1]
        exact CacheState.cleanRange_card (s := c₀.state.gather start n) hmem hpos
      omega

theorem flush_spec (v : Nat → β) : Triple (Shows v) flush
    (fun _ c => Shows v c ∧ c.state.dirty = ∅) (fun _ => Shows v) := by
  refine Triple.bind (Q := fun n c => Shows v c ∧ c.state.dirty.card ≤ n)
    (Triple.gets fun c hc => ⟨hc, Nat.le_refl _⟩) fun n => ?_
  refine Triple.bind (flushLoop_spec v n) fun _ => ?_
  rintro c ⟨hc, hdirty⟩
  have hwait := Device.wait_spec c.inner.script c.inner 0 []
  rw [run_deviceFlush, Device.flush]
  rcases hrun : Device.wait 0 [] c.inner.script c.inner with ⟨_ | _, d⟩ <;> rw [hrun] at hwait
  · have heq := hwait.eq_of_nil
    simp only [Shows, heq]
    exact hc
  · rw [putBlocks_nil] at hwait
    simp only [Shows, hwait]
    exact ⟨hc, hdirty⟩

theorem Shows.contents_eq (h : Shows v c) (hdirty : c.state.dirty = ∅) :
    c.inner.contents = v := by
  funext i
  exact h.device i (by simp [hdirty])

/-- A device that is handed out shows every block that is not dirty, and the
cache shows what becomes of those. -/
theorem getMut_spec (h : Shows v c) (inner : Device β) :
    Shows (fun i => if i ∈ c.state.dirty then v i else inner.contents i) (c.getMut inner) := by
  obtain ⟨hc, hd, hdirty⟩ := h.dropClean
  have hchanged := hc.changed (fun i hi => hd ▸ hdirty i hi) inner.contents
  rw [hd] at hchanged
  exact hchanged

end Cache

end Hadris.Storage
