import Hadris.Storage.CacheSpec
import Hadris.Storage.Cache

namespace Hadris.Storage.Polled

open Prog (Keeps Triple)
open Cache Coherent

variable {β : Type} [Inhabited β] [DecidableEq β] {v : Nat → β} {p p₀ : Polled β}
variable {first count index slot : Nat} {data : List β} {call : Call β} {U : Nat → Prop}

/-- A poll of a device call goes on with that call, or begins it. -/
def Resumes (call : Call β) (p : Polled β) : Prop := p.op.child = .fresh ∨ p.op.child = .busy call

/-- What a poll of a device call leaves alone. -/
structure Advanced (p₀ p : Polled β) : Prop where
  state : p.cache.state = p₀.cache.state
  phase : p.op.phase = p₀.op.phase
  slot : p.op.slot = p₀.op.slot
  done : p.op.done = p₀.op.done
  loadedEnd : p.op.loadedEnd = p₀.op.loadedEnd
  buf : p.buf = p₀.buf
  start : p.op.start = p₀.op.start
  len : p.op.len = p₀.op.len

theorem device_advance_spec (d : Device β) {child : Child β}
    (hchild : child = .fresh ∨ child = .busy call) :
    match d.advance child call with
    | (.done, _, d') => d'.contents = putBlocks d.contents call.first call.data
    | (answer, child', d') => Lands d.contents
      (putBlocks d.contents call.first call.data) d'.contents ∧
        ∀ _ : answer = .pending, child' = .busy call := by
  have hpoll := d.poll_spec call.first call.data
  rw [Device.advance]
  cases d.check call with
  | error error => exact ⟨Lands.refl _ _, nofun⟩
  | ok u =>
    simp only
    rw [if_pos hchild]
    rcases hrun : d.poll call.first call.data with ⟨_ | _ | _, d'⟩ <;> rw [hrun] at hpoll
    · exact hpoll
    · exact ⟨hpoll, nofun⟩
    · exact ⟨hpoll, fun _ => rfl⟩

theorem advance_spec (hchild : Resumes call p₀) :
    Triple (fun p => p = p₀) (advance call)
      (fun _ p => Advanced p₀ p ∧
        p.cache.inner.contents = putBlocks p₀.cache.inner.contents call.first call.data)
      (fun i p => Advanced p₀ p ∧ Lands p₀.cache.inner.contents
        (putBlocks p₀.cache.inner.contents call.first call.data) p.cache.inner.contents ∧
        ∀ _ : i = .pending, p.op.child = .busy call) := by
  rintro p rfl
  have hdevice := device_advance_spec p.cache.inner hchild
  simp only [advance]
  rcases hrun : p.cache.inner.advance p.op.child call with ⟨_ | _ | _, child, d⟩ <;>
    rw [hrun] at hdevice
  · exact ⟨⟨rfl, rfl, rfl, rfl, rfl, rfl, rfl, rfl⟩, hdevice⟩
  · exact ⟨⟨rfl, rfl, rfl, rfl, rfl, rfl, rfl, rfl⟩, hdevice.1, fun h => by cases h⟩
  · exact ⟨⟨rfl, rfl, rfl, rfl, rfl, rfl, rfl, rfl⟩, hdevice.1, fun _ => hdevice.2 rfl⟩

/-- What a poll leaves when it returns early: `J` of a call that is to be polled
again, and the blocks as they were otherwise. -/
def Stopped (v : Nat → β) (J : Polled β → Prop) : Interrupt → Polled β → Prop
  | .pending, p => J p
  | .error _, p => Shows v p.cache

omit [DecidableEq β] in
theorem Stopped.mono {J J' : Polled β → Prop} (hJ : ∀ p, J p → J' p) :
    ∀ i p, Stopped v J i p → Stopped v J' i p
  | .pending, p, h => hJ p h
  | .error _, _, h => h

def Uncached (U : Nat → Prop) (p : Polled β) : Prop := ∀ i, U i → p.cache.state.slots i = none

theorem advance_write_spec (hshows : Shows v p₀.cache) (hchild : Resumes (.write first data) p₀)
    (hdirty : ∀ i, first ≤ i → i < first + data.length → i ∈ p₀.cache.state.dirty)
    (hdata : ∀ i, first ≤ i → i < first + data.length → data.getD (i - first) default = v i) :
    Triple (fun p => p = p₀)
      (do advance (.write first data)
          modifyState (·.cleanRange first data.length)
          resetChild)
      (fun _ p => Shows v p.cache ∧ p.op.child = .fresh ∧
        p.cache.state = p₀.cache.state.cleanRange first data.length ∧
        p.op.phase = p₀.op.phase ∧ p.op.slot = p₀.op.slot)
      (fun i p => Shows v p.cache ∧ Advanced p₀ p ∧
        ∀ _ : i = .pending, p.op.child = .busy (.write first data)) := by
  refine Triple.bind ((advance_spec hchild).weaken (fun _ _ h => h) fun i p h => ?_) fun _ => ?_
  · obtain ⟨hadv, hlands, hbusy⟩ := h
    refine ⟨?_, hadv, hbusy⟩
    rw [Shows, hadv.state]
    exact hshows.lands hdirty hlands
  · rintro p ⟨hadv, hcontents⟩
    have hclean := hshows.cleaned hdata
    refine ⟨?_, rfl, congrArg (·.cleanRange first data.length) hadv.state, hadv.phase, hadv.slot⟩
    change Coherent v p.cache.inner.contents (p.cache.state.cleanRange first data.length)
    rw [hadv.state, hcontents]
    exact hclean

theorem advance_block_spec (hshows : Shows v p₀.cache) (hdirty : index ∈ p₀.cache.state.dirty)
    (hchild : Resumes (.write index [v index]) p₀) :
    Triple (fun p => p = p₀)
      (do advance (.write index [v index])
          modifyState (·.cleanRange index 1)
          resetChild)
      (fun _ p => Shows v p.cache ∧ p.op.child = .fresh ∧
        p.cache.state = p₀.cache.state.cleanRange index 1 ∧
        p.op.phase = p₀.op.phase ∧ p.op.slot = p₀.op.slot)
      (fun i p => Shows v p.cache ∧ Advanced p₀ p ∧
        ∀ _ : i = .pending, p.op.child = .busy (.write index [v index])) := by
  refine advance_write_spec hshows hchild (fun i hi hi' => ?_) fun i hi hi' => ?_
  · rw [List.length_singleton] at hi'
    rwa [show i = index by omega]
  · rw [List.length_singleton] at hi'
    rw [show i = index by omega, Nat.sub_self]
    rfl

section SlotFor

/-- No slot is looked for yet. -/
structure Seeking (v : Nat → β) (index : Nat) (p : Polled β) : Prop where
  shows : Shows v p.cache
  phase : p.op.phase = 0 ∨ p.op.phase = 3 ∧ p.cache.state.slots index = none
  child : p.op.child = .fresh

/-- A slot is to be vacated for a block, and its own may be being written back. -/
structure Claimed (v : Nat → β) (index : Nat) (p : Polled β) : Prop where
  shows : Shows v p.cache
  phase : p.op.phase = 1
  slots : p.cache.state.slots index = none
  lt : p.op.slot < p.cache.state.entries.length
  child : p.op.child = .fresh ∨ ∃ evicted, p.cache.state.dirtyIndex p.op.slot = some evicted ∧
    p.op.child = .busy (.write evicted [v evicted])

/-- A block has its slot. -/
structure Given (v : Nat → β) (index slot : Nat) (p : Polled β) : Prop where
  assigned : Assigned v p.cache.inner.contents index slot p.cache.state
  phase : p.op.phase = 0
  child : p.op.child = .fresh

def Slotting (v : Nat → β) (index : Nat) (p : Polled β) : Prop :=
  Seeking v index p ∨ Claimed v index p

omit [DecidableEq β] in
theorem Slotting.shows (h : Slotting v index p) : Shows v p.cache := by
  rcases h with h | h
  · exact h.shows
  · exact h.shows

omit [DecidableEq β] in
theorem lookup_spec (hshows : Shows v p₀.cache) (index : Nat) :
    Triple (fun p => p = p₀) (lookup index)
      (fun hit p => hit = p₀.cache.state.slots index ∧ Shows v p.cache ∧
        p.cache.state.slots = p₀.cache.state.slots ∧ p.op = p₀.op ∧ p.buf = p₀.buf)
      (fun _ _ => False) := by
  rintro p rfl
  obtain ⟨hco, hrel, hhit⟩ := hshows.lookup index
  exact ⟨hhit, hco, hrel.slots, rfl, rfl⟩

omit [DecidableEq β] in
theorem claim_spec (v : Nat → β) (index : Nat) (U : Nat → Prop) :
    Triple (fun p => Slotting v index p ∧ Uncached U p) (claim index)
      (fun hit p => match hit with
        | some slot => Given v index slot p ∧ Uncached U p
        | none => Claimed v index p ∧ Uncached U p)
      (fun _ _ => False) := by
  refine Triple.of_forall fun p₀ h₀ => ?_
  refine Triple.bind (Q := fun phase p => phase = p₀.op.phase ∧ p = p₀)
    (Triple.gets fun p hp => by subst hp; exact ⟨rfl, rfl⟩) fun phase =>
      Triple.assume fun hphase => ?_
  subst hphase
  refine Triple.ite (fun hone => ?_) fun hone => ?_
  · refine Triple.pure fun p hp => ?_
    subst hp
    rcases h₀.1 with h | h
    · rcases h.phase with hphase | hphase
      · rw [hone] at hphase
        cases hphase
      · rw [hone] at hphase
        cases hphase.1
    · exact ⟨h, h₀.2⟩
  have hseek : Seeking v index p₀ := h₀.1.resolve_right fun h => hone h.phase
  refine Triple.bind (lookup_spec hseek.shows index |>.weaken (fun _ _ h => h)
    fun _ _ h => h.elim) fun hit => Triple.assume fun hhit => ?_
  cases hit with
  | some slot =>
    refine Triple.pure fun p hp => ?_
    obtain ⟨hshows, hslots, hop, -⟩ := hp
    have hphase : p₀.op.phase = 0 := hseek.phase.resolve_right fun h => by
      rw [← hhit] at h
      cases h.2
    refine ⟨⟨hshows.assigned ?_, hop ▸ hphase, hop ▸ hseek.child⟩, fun i hi => ?_⟩
    · rw [hslots, hhit]
    · rw [hslots]
      exact h₀.2 i hi
  | none =>
    rintro p ⟨hshows, hslots, hop, -⟩
    have hindex : p.cache.state.slots index = none := by rw [hslots, hhit]
    have huncached : Uncached U p := fun i hi => by
      rw [hslots]
      exact h₀.2 i hi
    have hchild : p.op.child = .fresh := hop ▸ hseek.child
    cases hvictim : p.cache.state.victim with
    | some slot =>
      rw [Prog.run_bind_ok (by rw [getsState, Prog.run_gets, hvictim])]
      exact ⟨⟨hshows, rfl, hindex, hshows.wf.victim_lt hvictim, .inl hchild⟩, huncached⟩
    | none =>
      obtain ⟨hwf, hlt, hgrown, -⟩ := CacheState.grow_wf hshows.wf hvictim
      rw [Prog.run_bind_ok (by rw [getsState, Prog.run_gets, hvictim])]
      refine ⟨⟨hshows.grow hvictim, rfl, ?_, hlt, .inl hchild⟩, fun i hi => ?_⟩
      · exact (congrFun hgrown index).trans hindex
      · exact (congrFun hgrown i).trans (huncached i hi)

theorem evict_spec (v : Nat → β) (index slot : Nat) (U : Nat → Prop) :
    Triple (fun p => p.op.slot = slot ∧ Claimed v index p ∧ Uncached U p) (evict slot)
      (fun _ p => (Vacant v index slot p.cache ∧ p.op.child = .fresh) ∧ Uncached U p)
      (Stopped v fun p => Claimed v index p ∧ Uncached U p) := by
  refine Triple.of_forall fun p₀ h₀ => ?_
  obtain ⟨rfl, hclaimed, huncached⟩ := h₀
  refine Triple.bind (Q := fun evicted p => evicted = p₀.cache.state.dirtyIndex p₀.op.slot ∧
    p = p₀) (Triple.gets fun p hp => by subst hp; exact ⟨rfl, rfl⟩) fun evicted =>
      Triple.assume fun hevicted => ?_
  cases evicted with
  | none =>
    refine Triple.pure fun p hp => ?_
    subst hp
    refine ⟨⟨⟨hclaimed.shows, hclaimed.slots, hclaimed.lt,
      dirtyIndex_eq_none hclaimed.shows.wf hevicted.symm⟩, ?_⟩, huncached⟩
    refine hclaimed.child.resolve_right fun h => ?_
    obtain ⟨other, hother, -⟩ := h
    rw [← hevicted] at hother
    cases hother
  | some evicted =>
    obtain ⟨hmem, hslot⟩ := dirtyIndex_eq_some hclaimed.shows.wf hevicted.symm
    have hdata : p₀.cache.state.data p₀.op.slot = v evicted :=
      hclaimed.shows.data_eq (hslot hclaimed.lt)
    have hchild : Resumes (.write evicted [v evicted]) p₀ := by
      rcases hclaimed.child with h | ⟨other, hother, hbusy⟩
      · exact .inl h
      · rw [← hevicted] at hother
        rw [← Option.some.inj hother] at hbusy
        exact .inr hbusy
    refine Triple.bind (Q := fun block p => block = v evicted ∧ p = p₀)
      (Triple.gets fun p hp => by subst hp; exact ⟨hdata, rfl⟩) fun block =>
        Triple.assume fun hblock => ?_
    subst hblock
    refine (advance_block_spec hclaimed.shows hmem hchild).weaken
      (fun _ p h => ?_) fun i p h => ?_
    · obtain ⟨hshows, hfresh, hstate, -, -⟩ := h
      refine ⟨⟨⟨hshows, ?_, ?_, fun i hi heq => ?_⟩, hfresh⟩, fun i hi => ?_⟩
      · rw [hstate]
        exact hclaimed.slots
      · rw [hstate]
        exact hclaimed.lt
      · rw [hstate] at hi heq
        have hsame := hclaimed.shows.wf.slots_inj (hslot hclaimed.lt) heq
        have hclean := (CacheState.mem_cleanRange.mp hi).2
        omega
      · rw [hstate]
        exact huncached i hi
    · obtain ⟨hshows, hadv, hbusy⟩ := h
      cases i with
      | error error => exact hshows
      | pending =>
        refine ⟨⟨hshows, hadv.phase.trans hclaimed.phase, ?_, ?_, .inr ⟨evicted, ?_, hbusy rfl⟩⟩,
          fun i hi => ?_⟩
        · rw [hadv.state]
          exact hclaimed.slots
        · rw [hadv.state, hadv.slot]
          exact hclaimed.lt
        · rw [hadv.state, hadv.slot]
          exact hevicted.symm
        · rw [hadv.state]
          exact huncached i hi

theorem slotFor_spec (hbound : index < 2 ^ 64 - 1) (v : Nat → β) (U : Nat → Prop) :
    Triple (fun p => Slotting v index p ∧ Uncached U p) (slotFor index)
      (fun slot p => Given v index slot p ∧ Uncached (fun i => U i ∧ i ≠ index) p)
      (Stopped v fun p => Claimed v index p ∧ Uncached U p) := by
  refine Triple.bind ((claim_spec v index U).weaken (fun _ _ h => h) fun _ _ h => h.elim)
    fun hit => ?_
  cases hit with
  | some slot => exact Triple.pure fun p hp => ⟨hp.1, fun i hi => hp.2 i hi.1⟩
  | none =>
    refine Triple.bind (Q := fun slot p => p.op.slot = slot ∧ Claimed v index p ∧ Uncached U p)
      (Triple.gets fun p hp => ⟨rfl, hp⟩) fun slot => ?_
    refine Triple.bind (evict_spec v index slot U) fun _ => ?_
    rintro p ⟨⟨hvacant, hfresh⟩, huncached⟩
    have hforgets := CacheState.forget_wf hvacant.shows.wf hvacant.lt
    have hforget := hvacant.shows.forget hvacant.lt hvacant.clean
    have hentry : ((p.cache.state.forget slot).entry slot).index = none := by
      rw [hforgets.index, if_pos rfl]
    have hindex : (p.cache.state.forget slot).slots index = none := by
      rw [hforgets.slots, hvacant.slots]
      rfl
    refine ⟨⟨hforget.assign (hforgets.length ▸ hvacant.lt) hentry hindex hbound, rfl, hfresh⟩,
      fun i hi => ?_⟩
    obtain ⟨-, hslots, -⟩ := CacheState.assign_wf hforget.wf (hforgets.length ▸ hvacant.lt) hentry
      hindex hbound
    refine (congrFun hslots i).trans ?_
    rw [Function.update_of_ne hi.2, hforgets.slots, huncached i hi.1]
    rfl

/-- What giving a slot to a block leaves alone. -/
structure Kept (p₀ p : Polled β) : Prop where
  done : p.op.done = p₀.op.done
  loadedEnd : p.op.loadedEnd = p₀.op.loadedEnd
  buf : p.buf = p₀.buf
  capacity : p.cache.state.capacity = p₀.cache.state.capacity

omit [Inhabited β] [DecidableEq β] in
theorem Kept.of_modifyState {f : CacheState β → CacheState β}
    (h : ∀ s, (f s).capacity = s.capacity) : Keeps (Kept p₀) (modifyState f) :=
  Keeps.modify fun _ hp => ⟨hp.done, hp.loadedEnd, hp.buf, (h _).trans hp.capacity⟩

omit [Inhabited β] [DecidableEq β] in
theorem Kept.of_modifyOp {f : CacheOperation β → CacheOperation β}
    (hdone : ∀ op, (f op).done = op.done) (hend : ∀ op, (f op).loadedEnd = op.loadedEnd) :
    Keeps (Kept p₀) (modifyOp f) :=
  Keeps.modify fun _ hp => ⟨(hdone _).trans hp.done, (hend _).trans hp.loadedEnd, hp.buf,
    hp.capacity⟩

theorem advance_kept (call : Call β) : Keeps (Kept p₀) (advance call) := by
  intro p hp
  simp only [advance]
  rcases p.cache.inner.advance p.op.child call with ⟨_ | _ | _, child, d⟩ <;>
    exact ⟨hp.done, hp.loadedEnd, hp.buf, hp.capacity⟩

theorem slotFor_kept (p₀ : Polled β) (index : Nat) : Keeps (Kept p₀) (slotFor index) := by
  refine Keeps.bind (Keeps.bind (Keeps.gets _) fun phase => Keeps.ite
    (Keeps.pure _) (Keeps.bind (fun p hp => ?_) fun hit => ?_)) fun hit => ?_
  · exact ⟨hp.done, hp.loadedEnd, hp.buf, CacheState.lookup_capacity.trans hp.capacity⟩
  · cases hit with
    | some slot => exact Keeps.pure _
    | none =>
      have hmark : ∀ slot, Keeps (Kept p₀)
          (modifyOp fun op : CacheOperation β => { op with slot := slot, phase := 1 }) :=
        fun slot => Kept.of_modifyOp (fun _ => rfl) fun _ => rfl
      refine Keeps.bind (Keeps.gets _) fun victim => ?_
      cases victim with
      | some slot =>
        exact Keeps.bind (Keeps.pure slot) fun slot =>
          Keeps.bind (hmark slot) fun _ => Keeps.pure _
      | none =>
        refine Keeps.bind (fun p hp => ?_) fun slot =>
          Keeps.bind (hmark slot) fun _ => Keeps.pure _
        exact ⟨hp.done, hp.loadedEnd, hp.buf, CacheState.grow_capacity.trans hp.capacity⟩
  · cases hit with
    | some slot => exact Keeps.pure _
    | none =>
      refine Keeps.bind (Keeps.gets _) fun slot => Keeps.bind
        (Keeps.bind (Keeps.gets _) fun evicted => Keeps.whenSome fun other _ =>
          Keeps.bind (Keeps.gets _) fun block =>
            Keeps.bind (advance_kept _) fun _ => Keeps.bind ?_ fun _ => ?_)
        fun _ => Keeps.bind ?_ fun _ => Keeps.bind ?_ fun _ =>
          Keeps.bind ?_ fun _ => Keeps.pure _
      · exact Kept.of_modifyState fun _ => CacheState.cleanRange_capacity
      · exact Kept.of_modifyOp (fun _ => rfl) fun _ => rfl
      · exact Kept.of_modifyState fun _ => CacheState.forget_capacity
      · exact Kept.of_modifyState fun _ => CacheState.assign_capacity
      · exact Kept.of_modifyOp (fun _ => rfl) fun _ => rfl

theorem advance_capacity (cap : Nat) (call : Call β) :
    Keeps (fun p => p.cache.state.capacity = cap) (advance call) :=
  fun p hp => (advance_kept call p ⟨rfl, rfl, rfl, rfl⟩).capacity.trans hp

theorem slotFor_capacity (cap index : Nat) :
    Keeps (fun p : Polled β => p.cache.state.capacity = cap) (slotFor index) :=
  fun p hp => (slotFor_kept p index p ⟨rfl, rfl, rfl, rfl⟩).capacity.trans hp

end SlotFor

end Hadris.Storage.Polled
