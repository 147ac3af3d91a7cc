import Hadris.Storage.PollSlot

namespace Hadris.Storage.Polled

open Prog (Keeps Triple)
open Cache Coherent

variable {β : Type} [Inhabited β] {v : Nat → β} {p p₀ : Polled β}
variable {first count : Nat} {data : List β}

/-- The blocks of the run a read is at. -/
def InRun (first : Nat) (op : CacheOperation β) (i : Nat) : Prop :=
  first + op.done ≤ i ∧ i < first + op.loadedEnd

/-- A read is at a turn of its loop. -/
structure Turning (v : Nat → β) (first count : Nat) (p : Polled β) : Prop where
  shows : Shows v p.cache
  phase : p.op.phase = 0
  child : p.op.child = .fresh
  le : p.op.done ≤ count
  filled : Filled v first count p.op.done p.buf

/-- A read is reading a run of blocks. -/
structure Loading (v : Nat → β) (first count : Nat) (p : Polled β) : Prop where
  shows : Shows v p.cache
  phase : p.op.phase = 2
  child : Resumes (.read (first + p.op.done) (p.op.loadedEnd - p.op.done)) p
  lt : p.op.done < p.op.loadedEnd
  le : p.op.loadedEnd ≤ count
  uncached : Uncached (InRun first p.op) p
  filled : Filled v first count p.op.done p.buf

/-- A read is caching a run of blocks it has read. -/
structure Filling (v : Nat → β) (first count : Nat) (p : Polled β) : Prop where
  slotting : Slotting v (first + p.op.done) p
  phase : p.op.phase = 1 ∨ p.op.phase = 3
  lt : p.op.done < p.op.loadedEnd
  le : p.op.loadedEnd ≤ count
  uncached : Uncached (InRun first p.op) p
  filled : Filled v first count p.op.loadedEnd p.buf

/-- Where a read that goes through the cache stands. -/
def Reading (v : Nat → β) (first count : Nat) (p : Polled β) : Prop :=
  Turning v first count p ∨ Loading v first count p ∨ Filling v first count p

theorem Reading.shows (h : Reading v first count p) : Shows v p.cache := by
  rcases h with h | h | h
  · exact h.shows
  · exact h.shows
  · exact h.slotting.shows

theorem Filled.mono {i j : Nat} {buf : List β} (h : Filled v first count j buf) (hij : i ≤ j) :
    Filled v first count i buf :=
  ⟨h.1, fun k hk => h.2 k (by omega)⟩

theorem Reading.filled (h : Reading v first count p) : Filled v first count p.op.done p.buf := by
  rcases h with h | h | h
  · exact h.filled
  · exact h.filled
  · exact Filled.mono h.filled (Nat.le_of_lt h.lt)

theorem Reading.le (h : Reading v first count p) : p.op.done ≤ count := by
  rcases h with h | h | h
  · exact h.le
  · exact Nat.le_trans (Nat.le_of_lt h.lt) h.le
  · exact Nat.le_trans (Nat.le_of_lt h.lt) h.le

theorem load_start_spec (hdone : p₀.op.done < count) (h : Reading v first count p₀)
    (hmiss : p₀.op.phase = 0 → p₀.cache.state.slots (first + p₀.op.done) = none) :
    Triple (fun p => p = p₀) (Prog.when (p₀.op.phase = 0) do
        let done ← getsOp (·.done)
        let stop ← getsState (·.uncachedEnd first done count)
        modifyOp fun op => { op with loadedEnd := stop, phase := 2 } : Run β Unit)
      (fun _ p => (Loading v first count p ∨ Filling v first count p) ∧ p.op.done = p₀.op.done)
      (fun _ _ => False) := by
  refine Triple.when (fun hphase => ?_) fun hphase => ?_
  · rintro p rfl
    have hturn : Turning v first count p := by
      rcases h with h | h | h
      · exact h
      · have htwo := h.phase
        omega
      · have hslot := h.phase
        omega
    obtain ⟨hstop, hend, hnone⟩ := CacheState.uncachedEnd_spec p.cache.state first hdone
    refine ⟨.inl ⟨hturn.shows, rfl, .inl hturn.child, hstop, hend, fun i hi => ?_, hturn.filled⟩,
      rfl⟩
    obtain ⟨k, rfl⟩ := Nat.exists_eq_add_of_le hi.1
    change p.cache.state.slots (first + p.op.done + k) = none
    rcases Nat.eq_zero_or_pos k with rfl | hpos
    · exact hmiss hphase
    · have hlt : first + p.op.done + k < first +
        p.cache.state.uncachedEnd first p.op.done count :=
        hi.2
      rw [Nat.add_assoc]
      exact hnone (p.op.done + k) (by omega) (by omega)
  · rintro p rfl
    exact ⟨h.resolve_left fun h => hphase h.phase, rfl⟩

variable [DecidableEq β]

theorem load_finish_spec (h : Loading v first count p₀ ∨ Filling v first count p₀) :
    Triple (fun p => p = p₀) (Prog.when (p₀.op.phase = 2) do
        let done ← getsOp (·.done)
        let stop ← getsOp (·.loadedEnd)
        advance (.read (first + done) (stop - done))
        Prog.modify fun p => { p with
          buf := p.buf.take done ++ p.cache.inner.read (first + done) (stop - done) ++
            p.buf.drop stop }
        resetChild
        setPhase 3 : Run β Unit)
      (fun _ p => Filling v first count p ∧ p.op.done = p₀.op.done)
      (Stopped v (Loading v first count)) := by
  refine Triple.when (fun hphase => ?_) fun hphase => ?_
  · have hload : Loading v first count p₀ := by
      refine h.resolve_right fun h => ?_
      have hslot := h.phase
      omega
    refine Triple.bind (Q := fun done p => done = p₀.op.done ∧ p = p₀)
      (Triple.gets fun p hp => by subst hp; exact ⟨rfl, rfl⟩) fun done =>
        Triple.assume fun hdone => ?_
    refine Triple.bind (Q := fun stop p => stop = p₀.op.loadedEnd ∧ p = p₀)
      (Triple.gets fun p hp => by subst hp; exact ⟨rfl, rfl⟩) fun stop =>
        Triple.assume fun hstop => ?_
    subst hdone hstop
    refine Triple.bind ((advance_spec hload.child).weaken (fun _ _ h => h) fun i p h => ?_)
      fun _ => ?_
    · obtain ⟨hadv, hlands, hbusy⟩ := h
      have hshows : Shows v p.cache := by
        rw [Shows, hadv.state, hlands.eq_of_nil]
        exact hload.shows
      cases i with
      | error error => exact hshows
      | pending =>
        refine ⟨hshows, hadv.phase.trans hload.phase, .inr ?_, ?_, ?_, fun i hi => ?_, ?_⟩
        · rw [hadv.done, hadv.loadedEnd]
          exact hbusy rfl
        · rw [hadv.done, hadv.loadedEnd]
          exact hload.lt
        · rw [hadv.loadedEnd]
          exact hload.le
        · rw [InRun, hadv.done, hadv.loadedEnd] at hi
          rw [hadv.state]
          exact hload.uncached i hi
        · rw [hadv.done, hadv.buf]
          exact hload.filled
    · rintro p ⟨hadv, hcontents⟩
      have hequal : p.cache.inner.contents = p₀.cache.inner.contents :=
        hcontents.trans (putBlocks_nil _ _)
      have hshows : Shows v p.cache := by
        rw [Shows, hadv.state, hequal]
        exact hload.shows
      have huncached : Uncached (InRun first p₀.op) p := fun i hi => by
        rw [hadv.state]
        exact hload.uncached i hi
      have hlt := hload.lt
      refine ⟨⟨.inl ⟨hshows, .inr ⟨rfl, ?_⟩, rfl⟩, .inr rfl, ?_, ?_, fun i hi => ?_, ?_⟩,
        hadv.done⟩
      · change p.cache.state.slots (first + p.op.done) = none
        rw [hadv.done]
        exact huncached _ ⟨Nat.le_refl _, by omega⟩
      · change p.op.done < p.op.loadedEnd
        rw [hadv.done, hadv.loadedEnd]
        exact hload.lt
      · change p.op.loadedEnd ≤ count
        rw [hadv.loadedEnd]
        exact hload.le
      · change first + p.op.done ≤ i ∧ i < first + p.op.loadedEnd at hi
        rw [hadv.done, hadv.loadedEnd] at hi
        exact huncached i hi
      · change Filled v first count p.op.loadedEnd (p.buf.take p₀.op.done ++
          p.cache.inner.read (first + p₀.op.done) (p₀.op.loadedEnd - p₀.op.done) ++
            p.buf.drop p₀.op.loadedEnd)
        rw [hadv.loadedEnd, hadv.buf]
        refine hload.filled.splice (Nat.le_of_lt hload.lt) hload.le
          (hshows.read_eq fun k hk => ?_)
        exact huncached _ ⟨Nat.le_add_right _ _, by omega⟩
  · rintro p rfl
    exact ⟨h.resolve_left fun h => hphase h.phase, rfl⟩

theorem load_spec (hdone : p₀.op.done < count) (h : Reading v first count p₀)
    (hmiss : p₀.op.phase = 0 → p₀.cache.state.slots (first + p₀.op.done) = none) :
    Triple (fun p => p = p₀) (load first count)
      (fun _ p => Filling v first count p ∧ p.op.done = p₀.op.done)
      (Stopped v (Reading v first count)) := by
  refine Triple.bind (Q := fun phase p => phase = p₀.op.phase ∧ p = p₀)
    (Triple.gets fun p hp => by subst hp; exact ⟨rfl, rfl⟩) fun phase =>
      Triple.assume fun hphase => ?_
  subst hphase
  refine Triple.bind ((load_start_spec hdone h hmiss).weaken (fun _ _ h => h)
    fun _ _ h => h.elim) fun _ => ?_
  refine Triple.of_forall fun p₁ h₁ => ?_
  refine Triple.bind (Q := fun phase p => phase = p₁.op.phase ∧ p = p₁)
    (Triple.gets fun p hp => by subst hp; exact ⟨rfl, rfl⟩) fun phase =>
      Triple.assume fun hphase => ?_
  subst hphase
  exact (load_finish_spec h₁.1).weaken (fun _ p h => ⟨h.1, h.2.trans h₁.2⟩)
    (Stopped.mono fun _ h => .inr (.inl h))

omit [DecidableEq β] in
theorem fill_given (h : Filling v first count p₀) {slot : Nat} (hkept : Kept p₀ p)
    (hgiven : Given v (first + p₀.op.done) slot p)
    (huncached : Uncached (fun i => InRun first p₀.op i ∧ i ≠ first + p₀.op.done) p) :
    Reading v first count { p with
      cache := { p.cache with
        state := p.cache.state.setData slot (p.buf.getD p₀.op.done default) }
      op := { p.op with
        done := p.op.done + 1
        phase := if p.op.done + 1 < p.op.loadedEnd then 3 else p.op.phase } } := by
  have hblock : p.buf.getD p₀.op.done default = v (first + p₀.op.done) := by
    rw [hkept.buf]
    exact h.filled.2 _ h.lt
  have hshows := hgiven.assigned.setData hblock
  obtain ⟨-, hslots, -⟩ := CacheState.setData_wf hgiven.assigned.wf hgiven.assigned.slots
    (p.buf.getD p₀.op.done default)
  have hlt := h.lt
  have hdone := hkept.done
  have hend := hkept.loadedEnd
  by_cases hmore : p.op.done + 1 < p.op.loadedEnd
  · have hnone : ∀ i, first + (p.op.done + 1) ≤ i → i < first + p.op.loadedEnd →
        (p.cache.state.setData slot (p.buf.getD p₀.op.done default)).slots i = none := by
      intro i hlow hhigh
      rw [hslots]
      exact huncached i ⟨⟨by omega, by omega⟩, by omega⟩
    rw [if_pos hmore]
    refine .inr (.inr ⟨.inl ⟨hshows, .inr ⟨rfl, ?_⟩, hgiven.child⟩, .inr rfl, hmore, ?_,
      fun i hi => hnone i hi.1 hi.2, ?_⟩)
    · exact hnone (first + (p.op.done + 1)) (Nat.le_refl _) (by omega)
    · exact hend ▸ h.le
    · change Filled v first count p.op.loadedEnd p.buf
      rw [hend, hkept.buf]
      exact h.filled
  · rw [if_neg hmore]
    have hle := h.le
    have hsucc : p.op.done + 1 ≤ count := by omega
    refine .inl ⟨hshows, hgiven.phase, hgiven.child, hsucc, ?_⟩
    change Filled v first count (p.op.done + 1) p.buf
    rw [hkept.buf]
    exact Filled.mono h.filled (by omega)

theorem fill_spec (hbound : first + count ≤ 2 ^ 64 - 1) (h : Filling v first count p₀) :
    Triple (fun p => p = p₀) (fill first)
      (fun _ p => Reading v first count p ∧ p.op.done = p₀.op.done + 1)
      (Stopped v (Reading v first count)) := by
  have hlt := h.lt
  have hle := h.le
  refine Triple.bind (Q := fun done p => done = p₀.op.done ∧ p = p₀)
    (Triple.gets fun p hp => by subst hp; exact ⟨rfl, rfl⟩) fun done =>
      Triple.assume fun hdone => ?_
  subst hdone
  have hslot := (slotFor_spec (by omega) v (InRun first p₀.op)).frame
    (slotFor_kept p₀ (first + p₀.op.done))
  refine Triple.bind (Triple.attempt (R := fun result p => match result with
    | .ok slot => (Given v (first + p₀.op.done) slot p ∧
        Uncached (fun i => InRun first p₀.op i ∧ i ≠ first + p₀.op.done) p) ∧ Kept p₀ p
    | .error i => Stopped v (fun p => Claimed v (first + p₀.op.done) p ∧
        Uncached (InRun first p₀.op) p) i p ∧ Kept p₀ p)
    (hslot.pre fun p hp => ?_) (fun _ _ h => h) fun _ _ h => h) fun result => ?_
  · subst hp
    exact ⟨⟨h.slotting, h.uncached⟩, rfl, rfl, rfl, rfl⟩
  cases result with
  | ok slot =>
    rintro p ⟨⟨hgiven, huncached⟩, hkept⟩
    exact ⟨fill_given h hkept hgiven huncached, congrArg (· + 1) hkept.done⟩
  | error i =>
    cases i with
    | pending =>
      refine Triple.fail fun p hp => ?_
      obtain ⟨⟨hclaimed, huncached⟩, hkept⟩ := hp
      refine .inr (.inr ⟨.inr ?_, .inl hclaimed.phase, ?_, ?_, fun i hi => ?_, ?_⟩)
      · rw [hkept.done]
        exact hclaimed
      · rw [hkept.done, hkept.loadedEnd]
        exact h.lt
      · rw [hkept.loadedEnd]
        exact h.le
      · rw [InRun, hkept.done, hkept.loadedEnd] at hi
        exact huncached i hi
      · rw [hkept.loadedEnd, hkept.buf]
        exact h.filled
    | error error =>
      refine Triple.ite (fun _ => Triple.modify fun p hp => ?_) fun _ =>
        Triple.fail fun p hp => hp.1
      obtain ⟨hshows, hkept⟩ := hp
      have hsucc : p.op.done + 1 ≤ count := by
        rw [hkept.done]
        omega
      refine ⟨.inl ⟨hshows, rfl, rfl, hsucc, ?_⟩, congrArg (· + 1) hkept.done⟩
      change Filled v first count (p.op.done + 1) p.buf
      rw [hkept.done, hkept.buf]
      exact Filled.mono h.filled hlt

theorem readStep_spec (hbound : first + count ≤ 2 ^ 64 - 1) (hdone : p₀.op.done < count)
    (h : Reading v first count p₀) :
    Triple (fun p => p = p₀) (readStep first count)
      (fun _ p => Reading v first count p ∧ p.op.done = p₀.op.done + 1)
      (Stopped v (Reading v first count)) := by
  have hmiss : ∀ p₁ : Polled β, Reading v first count p₁ → p₁.op.done = p₀.op.done →
      (p₁.op.phase = 0 → p₁.cache.state.slots (first + p₁.op.done) = none) →
      Triple (fun p => p = p₁) (do load first count; fill first)
        (fun _ p => Reading v first count p ∧ p.op.done = p₀.op.done + 1)
        (Stopped v (Reading v first count)) := by
    intro p₁ h₁ hdone₁ hnone
    refine Triple.bind (load_spec (hdone₁ ▸ hdone) h₁ hnone) fun _ => ?_
    refine Triple.of_forall fun p₂ h₂ => ?_
    refine (fill_spec hbound h₂.1).post fun _ p h => ⟨h.1, ?_⟩
    rw [h.2, h₂.2, hdone₁]
  refine Triple.bind (Q := fun phase p => phase = p₀.op.phase ∧ p = p₀)
    (Triple.gets fun p hp => by subst hp; exact ⟨rfl, rfl⟩) fun phase =>
      Triple.assume fun hphase => ?_
  subst hphase
  refine Triple.bind (Q := fun done p => done = p₀.op.done ∧ p = p₀)
    (Triple.gets fun p hp => by subst hp; exact ⟨rfl, rfl⟩) fun done =>
      Triple.assume fun hdone₀ => ?_
  subst hdone₀
  by_cases hphase : p₀.op.phase = 0
  · rw [if_pos hphase]
    refine Triple.bind ((lookup_spec h.shows _).weaken (fun _ _ h => h) fun _ _ h => h.elim)
      fun hit => Triple.assume fun hhit => ?_
    have hchild : p₀.op.child = .fresh := by
      rcases h with h | h | h
      · exact h.child
      · have htwo := h.phase
        omega
      · have hslot := h.phase
        omega
    cases hit with
    | some slot =>
      rintro p ⟨hshows, hslots, hop, hbuf⟩
      refine ⟨.inl ⟨hshows, ?_, ?_, hdone, ?_⟩, rfl⟩
      · change p.op.phase = 0
        rw [hop, hphase]
      · change p.op.child = .fresh
        rw [hop, hchild]
      · change Filled v first count (p₀.op.done + 1)
          (p.buf.set p₀.op.done (p.cache.state.data slot))
        rw [hbuf]
        refine h.filled.set hdone (hshows.data_eq ?_)
        rw [hslots, hhit]
    | none =>
      refine Triple.of_forall fun p₁ h₁ => ?_
      obtain ⟨hshows, hslots, hop, hbuf⟩ := h₁
      refine hmiss p₁ (.inl ⟨hshows, ?_, ?_, hop ▸ h.le, ?_⟩) (by rw [hop]) fun _ => ?_
      · rw [hop, hphase]
      · rw [hop, hchild]
      · rw [hop, hbuf]
        exact h.filled
      · rw [hop, hslots, ← hhit]
  · rw [if_neg hphase]
    exact hmiss p₀ h rfl fun hzero => absurd hzero hphase

theorem readLoop_spec (hbound : first + count ≤ 2 ^ 64 - 1) (fuel : Nat)
    (h : Reading v first count p₀) (hfuel : count ≤ p₀.op.done + fuel) :
    Triple (fun p => p = p₀) (readLoop first count fuel)
      (fun _ p => Shows v p.cache ∧ Filled v first count count p.buf)
      (Stopped v (Reading v first count)) := by
  have hle := h.le
  induction fuel generalizing p₀ with
  | zero =>
    refine Triple.pure fun p hp => ?_
    subst hp
    obtain rfl : count = p.op.done := by omega
    exact ⟨h.shows, h.filled⟩
  | succ fuel ih =>
    refine Triple.bind (Q := fun done p => done = p₀.op.done ∧ p = p₀)
      (Triple.gets fun p hp => by subst hp; exact ⟨rfl, rfl⟩) fun done =>
        Triple.assume fun hdone => ?_
    subst hdone
    refine Triple.when (fun hlt => ?_) fun hge => ?_
    · refine Triple.bind (readStep_spec hbound hlt h) fun _ => ?_
      refine Triple.of_forall fun p₁ h₁ => ih h₁.1 ?_ h₁.1.le
      rw [h₁.2]
      omega
    · rintro p rfl
      obtain rfl : count = p.op.done := by omega
      exact ⟨h.shows, h.filled⟩

theorem load_capacity (cap : Nat) :
    Keeps (fun p : Polled β => p.cache.state.capacity = cap) (load first count) := by
  refine Keeps.bind (Keeps.gets _) fun phase => Keeps.bind
    (Keeps.when fun _ => Keeps.bind (Keeps.gets _) fun done =>
      Keeps.bind (Keeps.gets _) fun stop => Keeps.modify fun _ hp => hp) fun _ =>
        Keeps.bind (Keeps.gets _) fun phase => Keeps.when fun _ => ?_
  exact Keeps.bind (Keeps.gets _) fun done => Keeps.bind (Keeps.gets _)
    fun stop => Keeps.bind (advance_capacity cap _) fun _ =>
      Keeps.bind (Keeps.modify fun _ hp => hp) fun _ =>
        Keeps.bind (Keeps.modify fun _ hp => hp) fun _ =>
          Keeps.modify fun _ hp => hp

theorem fill_capacity (cap : Nat) :
    Keeps (fun p : Polled β => p.cache.state.capacity = cap) (fill first) := by
  refine Keeps.bind (Keeps.gets _) fun done => Keeps.bind
    (Keeps.attempt (slotFor_capacity cap _)) fun result => ?_
  cases result with
  | ok slot =>
    exact Keeps.bind (Keeps.modify fun _ hp => CacheState.setData_capacity.trans hp)
      fun _ => Keeps.modify fun _ hp => hp
  | error i =>
    cases i with
    | pending => exact Keeps.fail _
    | error error =>
      exact Keeps.ite (Keeps.modify fun _ hp => hp) (Keeps.fail _)

theorem readLoop_capacity (cap fuel : Nat) :
    Keeps (fun p : Polled β => p.cache.state.capacity = cap) (readLoop first count fuel) := by
  have hmiss : Keeps (fun p : Polled β => p.cache.state.capacity = cap)
      (do load first count; fill first) :=
    Keeps.bind (load_capacity cap) fun _ => fill_capacity cap
  have hstep : Keeps (fun p : Polled β => p.cache.state.capacity = cap)
      (readStep first count) := by
    refine Keeps.bind (Keeps.gets _) fun phase => Keeps.bind (Keeps.gets _)
      fun done => ?_
    split
    · refine Keeps.bind (fun p hp => CacheState.lookup_capacity.trans hp) fun hit => ?_
      cases hit with
      | some slot =>
        exact Keeps.bind (Keeps.gets _) fun block => Keeps.modify fun _ hp => hp
      | none => exact hmiss
    · exact hmiss
  induction fuel with
  | zero => exact Keeps.pure _
  | succ fuel ih =>
    exact Keeps.bind (Keeps.gets _) fun done => Keeps.when fun _ =>
      Keeps.bind hstep fun _ => ih

/-- Where a read stands between two polls. -/
def ReadAt (v : Nat → β) (first count : Nat) (p : Polled β) : Prop :=
  if p.cache.state.capacity ≤ count then Shows v p.cache ∧ Resumes (.read first count) p
  else Reading v first count p

omit [DecidableEq β] in
theorem ReadAt.shows (h : ReadAt v first count p) : Shows v p.cache := by
  rw [ReadAt] at h
  split at h
  · exact h.1
  · exact h.shows

omit [Inhabited β] [DecidableEq β] in
theorem check_spec {P : Polled β → Prop} (n : Nat) (whole : Bool) :
    Triple P (check n first count whole) (fun _ p => first + count ≤ n ∧ P p)
      (fun i p => P p ∧ ∀ _ : i = .pending, False) := by
  rw [check]
  cases hcheck : checkBlocks n first count whole with
  | ok u => exact Triple.pure fun p hp => ⟨checkBlocks_ok hcheck, hp⟩
  | error error => exact Triple.fail fun p hp => ⟨hp, nofun⟩

theorem pollRead_spec (v : Nat → β) (first count : Nat) (whole : Bool) :
    Triple (ReadAt v first count) (pollRead first count whole)
      (fun _ p => Shows v p.cache ∧ p.buf = (List.range' first count).map v)
      (Stopped v (ReadAt v first count)) := by
  refine Triple.of_forall fun p₀ h₀ => ?_
  refine Triple.bind (Q := fun blocks p => blocks = p₀.cache.inner.count.toNat ∧ p = p₀)
    (Triple.gets fun p hp => by subst hp; exact ⟨rfl, rfl⟩) fun blocks =>
      Triple.assume fun hblocks => ?_
  refine Triple.bind ((check_spec (P := fun p => p = p₀) blocks whole).weaken (fun _ _ h => h)
    fun i p h => ?_) fun _ => Triple.assume fun hle => ?_
  · obtain ⟨rfl, hne⟩ := h
    cases i with
    | pending => exact (hne rfl).elim
    | error error => exact h₀.shows
  have hcount : p₀.cache.inner.count.toNat < 2 ^ 64 := p₀.cache.inner.count.toNat_lt
  have hbound : first + count ≤ 2 ^ 64 - 1 := by omega
  refine Triple.bind (Q := fun cap p => cap = p₀.cache.state.capacity ∧ p = p₀)
    (Triple.gets fun p hp => by subst hp; exact ⟨rfl, rfl⟩) fun cap =>
      Triple.assume fun hcap => ?_
  subst hcap
  refine Triple.ite (fun hwide => ?_) fun hnarrow => ?_
  · rw [ReadAt, if_pos hwide] at h₀
    obtain ⟨hshows, hresumes⟩ := h₀
    refine Triple.bind ((advance_spec hresumes).weaken (fun _ _ h => h) fun i p h => ?_)
      fun _ => ?_
    · obtain ⟨hadv, hlands, hbusy⟩ := h
      have hshows' : Shows v p.cache := by
        rw [Shows, hadv.state, hlands.eq_of_nil]
        exact hshows
      cases i with
      | error error => exact hshows'
      | pending =>
        change ReadAt v first count p
        rw [ReadAt, if_pos (by rw [hadv.state]; exact hwide)]
        exact ⟨hshows', .inr (hbusy rfl)⟩
    · refine Triple.modify fun p hp => ?_
      obtain ⟨hadv, hcontents⟩ := hp
      have hshows' : Shows v p.cache := by
        rw [Shows, hadv.state, hcontents.trans (putBlocks_nil _ _)]
        exact hshows
      exact ⟨hshows', hshows'.overlayDirty first count⟩
  · rw [ReadAt, if_neg hnarrow] at h₀
    have hloop := (readLoop_spec hbound count h₀ (by omega)).frame
      (readLoop_capacity p₀.cache.state.capacity count)
    refine (hloop.pre fun p hp => ?_).weaken (fun _ p h => ⟨h.1.1, h.1.2.eq⟩) fun i p h => ?_
    · subst hp
      exact ⟨rfl, rfl⟩
    · cases i with
      | error error => exact h.1
      | pending =>
        change ReadAt v first count p
        rw [ReadAt, if_neg (by rw [h.2]; exact hnarrow)]
        exact h.1

end Hadris.Storage.Polled
