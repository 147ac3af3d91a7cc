import Hadris.Storage.PollRead

namespace Hadris.Storage.Polled

open List

open Prog (Triple)
open Cache Coherent

variable {β : Type} [Inhabited β] {v : Nat → β} {p p₀ : Polled β}
variable {first count : Nat} {data : List β}

/-- A write to the device waits for the first dirty block it covers. -/
def Awaits (v : Nat → β) (l : List Nat) (p : Polled β) : Prop :=
  ∃ index, l.find? (· ∈ p.cache.state.dirty) = some index ∧
    p.op.child = .busy (.write index [v index])

variable [DecidableEq β]

theorem writeBackDirty_spec (v : Nat → β) (D : Nat → Prop) (index : Nat)
    (rest : List Nat) (phase : Nat) :
    Triple (fun p => (Shows v p.cache ∧ p.op.phase = phase) ∧ (∀ i ∈ p.cache.state.dirty, D i) ∧
        (p.op.child = .fresh ∨ Awaits v (index :: rest) p))
      (writeBackDirty index)
      (fun _ p => (Shows v p.cache ∧ p.op.phase = phase) ∧
        (∀ i ∈ p.cache.state.dirty, D i ∧ i ≠ index) ∧ (p.op.child = .fresh ∨ Awaits v rest p))
      (fun i p => Shows v p.cache ∧ ∀ _ : i = .pending, p.op.phase = phase ∧
        (∀ i ∈ p.cache.state.dirty, D i) ∧ Awaits v (index :: rest) p) := by
  refine Triple.of_forall fun p₀ h₀ => ?_
  obtain ⟨⟨hshows, hphase⟩, hD, hchild⟩ := h₀
  refine Triple.bind (Q := fun dirty p => dirty = decide (index ∈ p₀.cache.state.dirty) ∧ p = p₀)
    (Triple.gets fun p hp => by subst hp; exact ⟨rfl, rfl⟩) fun dirty =>
      Triple.assume fun hdirty => ?_
  subst hdirty
  refine Triple.when (fun hmem => ?_) fun hnot => ?_
  · have hindex : index ∈ p₀.cache.state.dirty := of_decide_eq_true hmem
    have hfind : (index :: rest).find? (· ∈ p₀.cache.state.dirty) = some index :=
      find?_cons_of_pos hmem
    have hresumes : Resumes (.write index [v index]) p₀ := by
      rcases hchild with h | ⟨other, hother, hbusy⟩
      · exact .inl h
      · rw [hfind] at hother
        rw [← Option.some.inj hother] at hbusy
        exact .inr hbusy
    refine Triple.bind (Q := fun slot p => slot = (p₀.cache.state.slots index).getD 0 ∧ p = p₀)
      (Triple.gets fun p hp => by subst hp; exact ⟨rfl, rfl⟩) fun slot =>
        Triple.assume fun hslot => ?_
    refine Triple.bind (Q := fun block p => block = v index ∧ p = p₀)
      (Triple.gets fun p hp => ?_) fun block => Triple.assume fun hblock => ?_
    · subst hp hslot
      exact ⟨hshows.blockData_eq (hshows.wf.dirty index hindex), rfl⟩
    subst hblock
    refine (advance_block_spec hshows hindex hresumes).weaken (fun _ p h => ?_) fun i p h => ?_
    · obtain ⟨hshows', hfresh, hstate, hphase', -⟩ := h
      refine ⟨⟨hshows', hphase'.trans hphase⟩, fun i hi => ?_, .inl hfresh⟩
      rw [hstate] at hi
      obtain ⟨hmem', hne⟩ := CacheState.mem_cleanRange.mp hi
      exact ⟨hD i hmem', by omega⟩
    · obtain ⟨hshows', hadv, hbusy⟩ := h
      refine ⟨hshows', fun hi => ⟨hadv.phase.trans hphase, ?_, index, ?_, hbusy hi⟩⟩
      · rw [hadv.state]
        exact hD
      · rw [hadv.state]
        exact hfind
  · rintro p rfl
    have hfind : (index :: rest).find? (· ∈ p.cache.state.dirty) =
        rest.find? (· ∈ p.cache.state.dirty) := find?_cons_of_neg hnot
    refine ⟨⟨hshows, hphase⟩, fun i hi => ⟨hD i hi, ?_⟩, ?_⟩
    · rintro rfl
      exact hnot (decide_eq_true hi)
    · rcases hchild with h | ⟨other, hother, hbusy⟩
      · exact .inl h
      · exact .inr ⟨other, hfind.symm.trans hother, hbusy⟩

theorem each_writeBackDirty_spec (v : Nat → β) (D : Nat → Prop) (l : List Nat) (phase : Nat) :
    Triple (fun p => (Shows v p.cache ∧ p.op.phase = phase) ∧ (∀ i ∈ p.cache.state.dirty, D i) ∧
        (p.op.child = .fresh ∨ Awaits v l p))
      (Prog.each writeBackDirty l)
      (fun _ p => Shows v p.cache ∧ (∀ i ∈ p.cache.state.dirty, D i ∧ i ∉ l) ∧
        p.op.child = .fresh)
      (fun i p => Shows v p.cache ∧ ∀ _ : i = .pending, p.op.phase = phase ∧
        (∀ i ∈ p.cache.state.dirty, D i) ∧ Awaits v l p) := by
  induction l generalizing D with
  | nil =>
    refine Triple.pure fun p hp => ⟨hp.1.1, fun i hi => ⟨hp.2.1 i hi, not_mem_nil⟩, ?_⟩
    refine hp.2.2.resolve_right fun h => ?_
    obtain ⟨index, hindex, -⟩ := h
    cases hindex
  | cons index rest ih =>
    refine Triple.bind (writeBackDirty_spec v D index rest phase) fun _ => ?_
    refine (ih fun i => D i ∧ i ≠ index).weaken (fun _ p hp => ?_) fun i p hp => ?_
    · refine ⟨hp.1, fun i hi => ?_, hp.2.2⟩
      obtain ⟨⟨hD, hne⟩, hnot⟩ := hp.2.1 i hi
      exact ⟨hD, fun hmem => (mem_cons.mp hmem).elim hne hnot⟩
    · refine ⟨hp.1, fun hi => ?_⟩
      obtain ⟨hphase, hD, other, hother, hbusy⟩ := hp.2 hi
      refine ⟨hphase, fun i hi => (hD i hi).1, other, ?_, hbusy⟩
      have hnot : index ∉ p.cache.state.dirty := fun hmem => (hD index hmem).2 rfl
      rw [find?_cons_of_neg (by simpa using hnot)]
      exact hother

/-- Where a write that goes straight to the device stands between two polls. -/
def ThroughAt (v : Nat → β) (first : Nat) (data : List β) (p : Polled β) : Prop :=
  if p.op.phase = passThrough then
    ∃ v', Lands v (putBlocks v first data) v' ∧ Shows v' p.cache ∧
      Uncached (fun i => first ≤ i ∧ i < first + data.length) p ∧ Resumes (.write first data) p
  else Shows v p.cache ∧ (p.op.child = .fresh ∨ Awaits v (blocks first data.length) p)

/-- What an early return of a write leaves. -/
def StoppedWrite (v : Nat → β) (first : Nat) (data : List β) (J : Polled β → Prop) (i : Interrupt)
    (p : Polled β) : Prop :=
  ShowsPart v first data p.cache ∧ ∀ _ : i = .pending, J p

theorem through_start_spec (h : ThroughAt v first data p₀) :
    Triple (fun p => p = p₀) (Prog.when (p₀.op.phase ≠ passThrough) do
        Prog.each writeBackDirty (blocks first data.length)
        modifyState (·.invalidate first data.length)
        setPhase passThrough : Run β Unit)
      (fun _ p => ThroughAt v first data p ∧ p.op.phase = passThrough)
      (StoppedWrite v first data (ThroughAt v first data)) := by
  refine Triple.when (fun hphase => ?_) fun hphase => ?_
  · rw [ThroughAt, if_neg hphase] at h
    refine Triple.bind (((each_writeBackDirty_spec v (fun _ => True) (blocks first data.length)
      p₀.op.phase).pre fun p hp => ?_).weaken (fun _ _ h => h) fun i p hp => ?_) fun _ => ?_
    · subst hp
      exact ⟨⟨h.1, rfl⟩, fun _ _ => trivial, h.2⟩
    · refine ⟨hp.1.part first data, fun hi => ?_⟩
      obtain ⟨hsame, -, hawaits⟩ := hp.2 hi
      rw [ThroughAt, if_neg (by rw [hsame]; exact hphase)]
      exact ⟨hp.1, .inr hawaits⟩
    · rintro p ⟨hshows, hclean, hfresh⟩
      obtain ⟨hco, -, hslots⟩ := hshows.invalidate first data.length
        fun i hlow hhigh hi => (hclean i hi).2
          (cached_mem_blocks hshows.wf (hshows.wf.dirty i hi) hlow hhigh)
      refine ⟨?_, rfl⟩
      rw [ThroughAt, if_pos rfl]
      exact ⟨v, Lands.refl _ _, hco, fun i hi => hslots i hi.1 hi.2, .inl hfresh⟩
  · rintro p rfl
    exact ⟨h, not_not.mp hphase⟩

theorem writeThrough_spec (v : Nat → β) (first : Nat) (data : List β) :
    Triple (ThroughAt v first data) (writeThrough first data)
      (fun _ p => Shows (putBlocks v first data) p.cache)
      (StoppedWrite v first data (ThroughAt v first data)) := by
  refine Triple.of_forall fun p₀ h₀ => ?_
  refine Triple.bind (Q := fun phase p => phase = p₀.op.phase ∧ p = p₀)
    (Triple.gets fun p hp => by subst hp; exact ⟨rfl, rfl⟩) fun phase =>
      Triple.assume fun hphase => ?_
  subst hphase
  refine Triple.bind (through_start_spec h₀) fun _ => ?_
  refine Triple.of_forall fun p₁ h₁ => ?_
  obtain ⟨hat, hphase⟩ := h₁
  rw [ThroughAt, if_pos hphase] at hat
  obtain ⟨v', hlands, hshows, huncached, hresumes⟩ := hat
  have hslots : ∀ i, first ≤ i → i < first + data.length → p₁.cache.state.slots i = none :=
    fun i hlow hhigh => huncached i ⟨hlow, hhigh⟩
  refine Triple.bind ((advance_spec hresumes).weaken (fun _ _ h => h) fun i p h => ?_)
    fun _ => Triple.modify fun p hp => ?_
  · obtain ⟨hadv, hlands', hbusy⟩ := h
    obtain ⟨v'', hpart, hco⟩ := hshows.landBlocks hslots hlands'
    have hshows'' : Shows v'' p.cache := by
      rw [Shows, hadv.state]
      exact hco
    have hboth : Lands v (putBlocks v first data) v'' := hlands.trans hpart
    refine ⟨⟨v'', hboth, hshows''⟩, fun hi => ?_⟩
    rw [ThroughAt, if_pos (hadv.phase.trans hphase)]
    refine ⟨v'', hboth, hshows'', fun i hi => ?_, .inr (hbusy hi)⟩
    rw [hadv.state]
    exact huncached i hi
  · obtain ⟨hadv, hcontents⟩ := hp
    have hput := hshows.putBlocks hslots
    rw [hlands.put] at hput
    change Coherent (putBlocks v first data) p.cache.inner.contents p.cache.state
    rw [hadv.state, hcontents]
    exact hput

/-- Where a write to the cache stands between two polls. -/
structure CachedAt (v : Nat → β) (first : Nat) (data : List β) (p : Polled β) : Prop where
  le : p.op.done ≤ data.length
  slotting : Slotting (putBlocks v first (data.take p.op.done)) (first + p.op.done) p

omit [DecidableEq β] in
theorem CachedAt.part (h : CachedAt v first data p) : ShowsPart v first data p.cache :=
  ⟨_, lands_take v first data p.op.done, h.slotting.shows⟩

theorem writeStep_spec (hbound : first + data.length ≤ 2 ^ 64 - 1) (h : CachedAt v first data p₀)
    (hlt : p₀.op.done < data.length) :
    Triple (fun p => p = p₀) (writeStep first data)
      (fun _ p => CachedAt v first data p ∧ p.op.done = p₀.op.done + 1)
      (StoppedWrite v first data (CachedAt v first data)) := by
  refine Triple.bind (Q := fun done p => done = p₀.op.done ∧ p = p₀)
    (Triple.gets fun p hp => by subst hp; exact ⟨rfl, rfl⟩) fun done =>
      Triple.assume fun hdone => ?_
  subst hdone
  have hslot := (slotFor_spec (by omega) (putBlocks v first (data.take p₀.op.done))
    fun _ => False).frame (slotFor_kept p₀ (first + p₀.op.done))
  refine Triple.bind ((hslot.pre fun p hp => ?_).weaken (fun _ _ h => h) fun i p hp => ?_)
    fun slot => ?_
  · subst hp
    exact ⟨⟨h.slotting, nofun⟩, rfl, rfl, rfl, rfl⟩
  · obtain ⟨hstopped, hkept⟩ := hp
    cases i with
    | error error => exact ⟨⟨_, lands_take v first data p₀.op.done, hstopped⟩, nofun⟩
    | pending =>
      have hat : CachedAt v first data p := by
        refine ⟨hkept.done ▸ h.le, .inr ?_⟩
        rw [hkept.done]
        exact hstopped.1
      exact ⟨hat.part, fun _ => hat⟩
  · rintro p ⟨⟨hgiven, -⟩, hkept⟩
    have hwrite := hgiven.assigned.write (data.getD p₀.op.done default)
    rw [putBlocks_take_succ hlt] at hwrite
    refine ⟨⟨?_, .inl ⟨?_, .inl hgiven.phase, hgiven.child⟩⟩, congrArg (· + 1) hkept.done⟩
    · change p.op.done + 1 ≤ data.length
      rw [hkept.done]
      exact hlt
    · change Coherent (putBlocks v first (data.take (p.op.done + 1))) _ _
      rw [hkept.done]
      exact hwrite

theorem writeLoop_spec (hbound : first + data.length ≤ 2 ^ 64 - 1) (fuel : Nat)
    (h : CachedAt v first data p₀) (hfuel : data.length ≤ p₀.op.done + fuel) :
    Triple (fun p => p = p₀) (writeLoop first data fuel)
      (fun _ p => Shows (putBlocks v first data) p.cache)
      (StoppedWrite v first data (CachedAt v first data)) := by
  have hfull : ∀ {p : Polled β}, CachedAt v first data p → data.length ≤ p.op.done →
      Shows (putBlocks v first data) p.cache := by
    intro p h hdone
    have hshows := h.slotting.shows
    rwa [take_of_length_le hdone] at hshows
  induction fuel generalizing p₀ with
  | zero =>
    rintro p rfl
    exact hfull h hfuel
  | succ fuel ih =>
    refine Triple.bind (Q := fun done p => done = p₀.op.done ∧ p = p₀)
      (Triple.gets fun p hp => by subst hp; exact ⟨rfl, rfl⟩) fun done =>
        Triple.assume fun hdone => ?_
    subst hdone
    refine Triple.when (fun hlt => ?_) fun hge => ?_
    · refine Triple.bind (writeStep_spec hbound h hlt) fun _ => ?_
      refine Triple.of_forall fun p₁ h₁ => ih h₁.1 ?_
      rw [h₁.2]
      omega
    · rintro p rfl
      exact hfull h (Nat.le_of_not_lt hge)

def goesThrough (first : Nat) (data : List β) (whole : Bool) (c : Cache β) : Bool :=
  through c (c.inRange first data.length whole) data.length

/-- Where a write that takes a path stands between two polls. -/
def WriteAt (v : Nat → β) (first : Nat) (data : List β) (path : Bool) (p : Polled β) : Prop :=
  if path then ThroughAt v first data p else CachedAt v first data p

omit [DecidableEq β] in
theorem WriteAt.part {path : Bool} (h : WriteAt v first data path p) :
    ShowsPart v first data p.cache := by
  rw [WriteAt, ThroughAt] at h
  split at h
  · split at h
    · obtain ⟨v', hlands, hshows, -⟩ := h
      exact ⟨v', hlands, hshows⟩
    · exact h.1.part first data
  · exact h.part

theorem pollWrite_spec (v : Nat → β) (first : Nat) (data : List β) (whole path : Bool) :
    Triple (fun p => WriteAt v first data path p ∧ goesThrough first data whole p.cache = path)
      (pollWrite first data whole)
      (fun _ p => Shows (putBlocks v first data) p.cache)
      (StoppedWrite v first data (WriteAt v first data path)) := by
  refine Triple.of_forall fun p₀ h₀ => ?_
  obtain ⟨hat, hpath⟩ := h₀
  refine Triple.bind (Q := fun blocks p => p = p₀)
    (Triple.gets fun p hp => hp) fun blocks => ?_
  refine Triple.bind ((check_spec (P := fun p => p = p₀) blocks whole).weaken
    (fun _ _ h => h.2) fun i p h => ?_) fun _ => ?_
  · obtain ⟨rfl, hne⟩ := h
    exact ⟨hat.part, fun hi => (hne hi).elim⟩
  refine Triple.bind (Q := fun r p => r = path ∧ p = p₀)
    (Triple.gets fun p hp => by subst hp; exact ⟨hpath, rfl⟩) fun r =>
      Triple.assume fun hr => ?_
  subst hr
  refine Triple.ite (fun hthrough => ?_) fun hcached => ?_
  · rw [WriteAt, if_pos hthrough] at hat
    refine ((writeThrough_spec v first data).pre fun p hp => ?_).weaken (fun _ _ h => h)
      fun i p h => ⟨h.1, fun hi => ?_⟩
    · subst hp
      exact hat
    · rw [WriteAt, if_pos hthrough]
      exact h.2 hi
  · rw [WriteAt, if_neg hcached] at hat
    have hin : p₀.cache.inRange first data.length whole = true := by
      rw [Bool.not_eq_true, ← hpath, goesThrough, through] at hcached
      simp only [Bool.or_eq_false_iff, Bool.not_eq_false'] at hcached
      exact hcached.1.2
    refine (writeLoop_spec (inRange_le hin) data.length hat (Nat.le_add_left _ _)).weaken
      (fun _ _ h => h) fun i p h => ⟨h.1, fun hi => ?_⟩
    rw [WriteAt, if_neg hcached]
    exact h.2 hi

end Hadris.Storage.Polled

namespace Hadris.Storage.Polled

open List

open Prog (Triple)
open Cache Coherent

variable {β : Type} [Inhabited β] {v : Nat → β} {p p₀ : Polled β}
variable {first count : Nat} {data : List β}

section Flush

/-- Where a flush stands between two polls. -/
inductive FlushAt (v : Nat → β) (p : Polled β) : Prop
  | next (shows : Shows v p.cache) (phase : p.op.phase = 0) (child : p.op.child = .fresh)
  | writing (shows : Shows v p.cache) (phase : p.op.phase = 1) (pos : 1 ≤ p.op.len)
      (dirty : ∀ i, p.op.start ≤ i → i < p.op.start + p.op.len → i ∈ p.cache.state.dirty)
      (run : p.cache.state.run = (range' p.op.start p.op.len).map v)
      (child : Resumes (.write p.op.start p.cache.state.run) p)
  | device (shows : Shows v p.cache) (phase : p.op.phase = 2) (dirty : p.cache.state.dirty = ∅)
      (child : Resumes .flush p)

theorem FlushAt.shows (h : FlushAt v p) : Shows v p.cache := by
  cases h <;> assumption

theorem flush_start_spec (h : FlushAt v p₀) :
    Triple (fun p => p = p₀) (Prog.when (p₀.op.phase = 0) do
        let start ← getsState (·.firstDirty)
        match start with
        | some start => do
          let len ← getsState (·.dirtyRun start)
          modifyOp fun op => { op with start := start, len := len, phase := 1 }
          modifyState (·.gather start len)
        | none => setPhase 2 : Run β Unit)
      (fun _ p => FlushAt v p ∧ p.op.phase ≠ 0 ∧ p.cache.state.dirty = p₀.cache.state.dirty)
      (fun _ _ => False) := by
  refine Triple.when (fun hphase => ?_) fun hphase => ?_
  · have hchild : p₀.op.child = .fresh := by
      cases h with
      | next _ _ child => exact child
      | writing _ phase => omega
      | device _ phase => omega
    rintro p rfl
    cases hstart : p.cache.state.firstDirty with
    | none =>
      rw [Prog.run_bind_ok (by rw [getsState, Prog.run_gets, hstart])]
      exact ⟨.device h.shows rfl (CacheState.firstDirty_eq_none.mp hstart) (.inl hchild),
        Nat.succ_ne_zero 1, rfl⟩
    | some start =>
      have hmem := CacheState.firstDirty_mem hstart
      obtain ⟨hpos, hdirty⟩ := CacheState.dirtyRun_spec hmem
      rw [Prog.run_bind_ok (by rw [getsState, Prog.run_gets, hstart])]
      refine ⟨.writing ?_ rfl hpos hdirty ?_ (.inl hchild), Nat.succ_ne_zero 0, rfl⟩
      · exact ⟨CacheState.gather_wf h.shows.wf _ _, h.shows.cached, h.shows.device⟩
      · refine map_congr_left fun i hi => ?_
        obtain ⟨hlow, hhigh⟩ := mem_range'_1.mp hi
        exact h.shows.blockData_eq (h.shows.wf.dirty i (hdirty i hlow hhigh))
  · rintro p rfl
    exact ⟨h, hphase, rfl⟩

variable [DecidableEq β]

theorem flushLoop_spec (fuel : Nat) (h : FlushAt v p₀)
    (hfuel : p₀.cache.state.dirty.card < fuel) :
    Triple (fun p => p = p₀) (flushLoop fuel)
      (fun _ p => Shows v p.cache ∧ p.cache.state.dirty = ∅) (Stopped v (FlushAt v)) := by
  induction fuel generalizing p₀ with
  | zero => omega
  | succ fuel ih =>
    refine Triple.bind (Q := fun phase p => phase = p₀.op.phase ∧ p = p₀)
      (Triple.gets fun p hp => by subst hp; exact ⟨rfl, rfl⟩) fun phase =>
        Triple.assume fun hphase => ?_
    subst hphase
    refine Triple.bind ((flush_start_spec h).weaken (fun _ _ h => h) fun _ _ h => h.elim)
      fun _ => Triple.of_forall fun p₁ h₁ => ?_
    obtain ⟨hat, hnonzero, hdirty₁⟩ := h₁
    rw [← hdirty₁] at hfuel
    refine Triple.bind (Q := fun phase p => phase = p₁.op.phase ∧ p = p₁)
      (Triple.gets fun p hp => by subst hp; exact ⟨rfl, rfl⟩) fun phase =>
        Triple.assume fun hphase => ?_
    subst hphase
    cases hat with
    | next _ phase => exact (hnonzero phase).elim
    | device shows phase dirty child =>
      rw [if_neg (by omega)]
      refine (advance_spec child).weaken (fun _ p hp => ?_) fun i p hp => ?_
      · obtain ⟨hadv, hcontents⟩ := hp
        have hshows : Shows v p.cache := by
          rw [Shows, hadv.state, hcontents.trans (putBlocks_nil _ _)]
          exact shows
        exact ⟨hshows, by rw [hadv.state]; exact dirty⟩
      · obtain ⟨hadv, hlands, hbusy⟩ := hp
        have hshows : Shows v p.cache := by
          rw [Shows, hadv.state, hlands.eq_of_nil]
          exact shows
        cases i with
        | error error => exact hshows
        | pending =>
          refine .device hshows (hadv.phase.trans phase) ?_ (.inr (hbusy rfl))
          rw [hadv.state]
          exact dirty
    | writing shows phase pos dirty run child =>
      have hlength : p₁.cache.state.run.length = p₁.op.len := by
        rw [run, length_map, length_range']
      have hdata : ∀ i, p₁.op.start ≤ i → i < p₁.op.start + p₁.cache.state.run.length →
          p₁.cache.state.run.getD (i - p₁.op.start) default = v i := by
        intro i hlow hhigh
        rw [hlength] at hhigh
        rw [run, getD_eq_getElem?_getD, getElem?_map, getElem?_range' (by omega)]
        simp only [Option.map_some, Option.getD_some]
        rw [show p₁.op.start + 1 * (i - p₁.op.start) = i by omega]
      have hrange : ∀ i, p₁.op.start ≤ i → i < p₁.op.start + p₁.cache.state.run.length →
          i ∈ p₁.cache.state.dirty := by
        rw [hlength]
        exact dirty
      rw [if_pos phase]
      refine Triple.bind (Q := fun start p => start = p₁.op.start ∧ p = p₁)
        (Triple.gets fun p hp => by subst hp; exact ⟨rfl, rfl⟩) fun start =>
          Triple.assume fun hstart => ?_
      refine Triple.bind (Q := fun len p => len = p₁.op.len ∧ p = p₁)
        (Triple.gets fun p hp => by subst hp; exact ⟨rfl, rfl⟩) fun len =>
          Triple.assume fun hlen => ?_
      refine Triple.bind (Q := fun run p => run = p₁.cache.state.run ∧ p = p₁)
        (Triple.gets fun p hp => by subst hp; exact ⟨rfl, rfl⟩) fun run' =>
          Triple.assume fun hrun => ?_
      subst hstart hlen hrun
      have hwrite := advance_write_spec shows child hrange hdata
      rw [hlength] at hwrite
      have hassoc : (do
          advance (.write p₁.op.start p₁.cache.state.run)
          modifyState (·.cleanRange p₁.op.start p₁.op.len)
          resetChild
          setPhase 0
          flushLoop fuel : Run β Unit) = (do
          (do advance (.write p₁.op.start p₁.cache.state.run)
              modifyState (·.cleanRange p₁.op.start p₁.op.len)
              resetChild)
          setPhase 0
          flushLoop fuel) := by rw [bind_assoc]; simp only [bind_assoc]
      rw [hassoc]
      refine Triple.bind (hwrite.weaken (fun _ _ h => h) fun i p hp => ?_) fun _ => ?_
      · obtain ⟨hshows, hadv, hbusy⟩ := hp
        cases i with
        | error error => exact hshows
        | pending =>
          refine .writing hshows (hadv.phase.trans phase) ?_ ?_ ?_ (.inr ?_)
          · rw [hadv.len]
            exact pos
          · rw [hadv.start, hadv.len, hadv.state]
            exact dirty
          · rw [hadv.start, hadv.len, hadv.state]
            exact run
          · rw [hadv.start, hadv.state]
            exact hbusy rfl
      · refine Triple.bind (Q := fun _ p => FlushAt v p ∧
          p.cache.state.dirty.card < fuel) (Triple.modify fun p hp => ?_) fun _ =>
            Triple.of_forall fun p₂ h₂ => ih h₂.1 h₂.2
        obtain ⟨hshows, hfresh, hstate, -, -⟩ := hp
        refine ⟨.next hshows rfl hfresh, ?_⟩
        have hcard := CacheState.cleanRange_card (s := p₁.cache.state)
          (dirty p₁.op.start (Nat.le_refl _) (by omega)) pos
        change p.cache.state.dirty.card < fuel
        rw [hstate]
        omega

theorem pollFlush_spec (v : Nat → β) :
    Triple (FlushAt v) (pollFlush : Run β Unit)
      (fun _ p => Shows v p.cache ∧ p.cache.state.dirty = ∅) (Stopped v (FlushAt v)) := by
  refine Triple.of_forall fun p₀ h₀ => ?_
  refine Triple.bind (Q := fun dirty p => dirty = p₀.cache.state.dirty.card ∧ p = p₀)
    (Triple.gets fun p hp => by subst hp; exact ⟨rfl, rfl⟩) fun dirty =>
      Triple.assume fun hdirty => ?_
  subst hdirty
  exact flushLoop_spec _ h₀ (Nat.lt_succ_self _)

end Flush

section Cancel

variable (landed : Nat → Bool)

/-- Whatever lands of a call that is stopped, the cache shows the same blocks. -/
def Harmless (v : Nat → β) (p : Polled β) (call : Call β) : Prop :=
  ∀ contents, Lands p.cache.inner.contents
    (putBlocks p.cache.inner.contents call.first call.data) contents →
      Coherent v contents p.cache.state

theorem harmless_of_data (hshows : Shows v p.cache) {call : Call β} (hdata : call.data = []) :
    Harmless v p call := by
  intro contents hlands
  rw [hdata] at hlands
  rw [hlands.eq_of_nil]
  exact hshows

theorem harmless_of_dirty (hshows : Shows v p.cache)
    (hdirty : ∀ i, first ≤ i → i < first + data.length → i ∈ p.cache.state.dirty) :
    Harmless v p (.write first data) :=
  fun _ hlands => hshows.lands hdirty hlands

theorem harmless_of_block (hshows : Shows v p.cache) {index : Nat} {block : β}
    (hindex : index ∈ p.cache.state.dirty) : Harmless v p (.write index [block]) := by
  refine harmless_of_dirty hshows fun i hi hi' => ?_
  rw [length_singleton] at hi'
  rwa [show i = index by omega]

theorem cancel_spec (hshows : Shows v p.cache)
    (hchild : ∀ call, p.op.child = .busy call → Harmless v p call) :
    Shows v (cancel landed p).cache := by
  rw [cancel]
  split
  · split
    · rename_i call hbusy
      exact hchild call hbusy _ (landBlocks_lands _ _ _ _)
    · exact hshows
  · exact hshows

omit [Inhabited β] in
theorem Resumes.eq {call call' : Call β} (h : Resumes call p) (hbusy : p.op.child = .busy call') :
    call' = call := by
  rcases h with h | h
  · rw [h] at hbusy
    cases hbusy
  · rw [h] at hbusy
    exact (Child.busy.inj hbusy).symm

theorem Slotting.cancel {index : Nat} (h : Slotting v index p) :
    Shows v (cancel landed p).cache := by
  refine cancel_spec landed h.shows fun call hbusy => ?_
  rcases h with h | h
  · rw [h.child] at hbusy
    cases hbusy
  · rcases h.child with hchild | ⟨evicted, hevicted, hchild⟩
    · rw [hchild] at hbusy
      cases hbusy
    · rw [hchild] at hbusy
      rw [← Child.busy.inj hbusy]
      exact harmless_of_block h.shows (dirtyIndex_eq_some h.shows.wf hevicted).1

theorem ReadAt.cancel (h : ReadAt v first count p) : Shows v (cancel landed p).cache := by
  rw [ReadAt] at h
  split at h
  · exact cancel_spec landed h.1 fun call hbusy => harmless_of_data h.1
      (by rw [h.2.eq hbusy]; rfl)
  · rcases h with h | h | h
    · refine cancel_spec landed h.shows fun call hbusy => ?_
      rw [h.child] at hbusy
      cases hbusy
    · exact cancel_spec landed h.shows fun call hbusy =>
        harmless_of_data h.shows (by rw [h.child.eq hbusy]; rfl)
    · exact h.slotting.cancel landed

theorem WriteAt.cancel {path : Bool} (h : WriteAt v first data path p) :
    ShowsPart v first data (cancel landed p).cache := by
  rw [WriteAt, ThroughAt] at h
  split at h
  · split at h
    · obtain ⟨v', hlands, hshows, huncached, hresumes⟩ := h
      rw [Polled.cancel]
      split
      · split
        · rename_i call hbusy
          rw [hresumes.eq hbusy]
          obtain ⟨v'', hpart, hco⟩ := hshows.landBlocks
            (fun i hlow hhigh => huncached i ⟨hlow, hhigh⟩)
            (landBlocks_lands landed p.cache.inner.contents first data)
          exact ⟨v'', hlands.trans hpart, hco⟩
        · exact ⟨v', hlands, hshows⟩
      · exact ⟨v', hlands, hshows⟩
    · refine Shows.part (cancel_spec landed h.1 fun call hbusy => ?_) first data
      rcases h.2 with hfresh | ⟨index, hindex, hchild⟩
      · rw [hfresh] at hbusy
        cases hbusy
      · rw [hchild] at hbusy
        rw [← Child.busy.inj hbusy]
        have hmem := find?_some hindex
        exact harmless_of_block h.1 (by simpa using hmem)
  · exact ⟨_, lands_take v first data p.op.done, h.slotting.cancel landed⟩

theorem FlushAt.cancel (h : FlushAt v p) : Shows v (cancel landed p).cache := by
  refine cancel_spec landed h.shows fun call hbusy => ?_
  cases h with
  | next shows phase child =>
    rw [child] at hbusy
    cases hbusy
  | writing shows phase pos dirty run child =>
    rw [child.eq hbusy]
    refine harmless_of_dirty shows fun i hlow hhigh => dirty i hlow ?_
    rwa [run, length_map, length_range'] at hhigh
  | device shows phase dirty child =>
    exact harmless_of_data shows (by rw [child.eq hbusy]; rfl)

end Cancel

end Hadris.Storage.Polled
