import Mathlib.Data.List.GetD
import Mathlib.Data.Nat.Bitwise
import Mathlib.Tactic.Common

namespace Hadris

/-- A computation over a mutable state. The state a failing run leaves behind
is kept, as borrowed data is when a function returns early with an error. -/
@[ext] structure Prog (σ ε α : Type) : Type where
  run : σ → Except ε α × σ

namespace Prog

variable {σ τ ε α β γ : Type}

protected def pure (a : α) : Prog σ ε α := ⟨fun s => (.ok a, s)⟩

protected def bind (x : Prog σ ε α) (f : α → Prog σ ε β) : Prog σ ε β := ⟨fun s =>
  match x.run s with
  | (.ok a, t) => (f a).run t
  | (.error e, t) => (.error e, t)⟩

instance : Monad (Prog σ ε) where
  pure := Prog.pure
  bind := Prog.bind

def fail (e : ε) : Prog σ ε α := ⟨fun s => (.error e, s)⟩

def gets (f : σ → α) : Prog σ ε α := ⟨fun s => (.ok (f s), s)⟩

def modify (f : σ → σ) : Prog σ ε Unit := ⟨fun s => (.ok (), f s)⟩

def attempt (x : Prog σ ε α) : Prog σ ε (Except ε α) := ⟨fun s =>
  (.ok (x.run s).1, (x.run s).2)⟩

def ofExcept : Except ε α → Prog σ ε α
  | .ok a => pure a
  | .error e => fail e

@[simp] theorem run_pure (a : α) (s : σ) : (pure a : Prog σ ε α).run s = (.ok a, s) := rfl

theorem run_bind (x : Prog σ ε α) (f : α → Prog σ ε β) (s : σ) :
    (x >>= f).run s = match x.run s with
      | (.ok a, t) => (f a).run t
      | (.error e, t) => (.error e, t) := rfl

theorem run_bind_ok {x : Prog σ ε α} {s t : σ} {a : α} (h : x.run s = (.ok a, t))
    (f : α → Prog σ ε β) : (x >>= f).run s = (f a).run t := by
  rw [run_bind, h]

theorem run_bind_error {x : Prog σ ε α} {s t : σ} {e : ε} (h : x.run s = (.error e, t))
    (f : α → Prog σ ε β) : (x >>= f).run s = (.error e, t) := by
  rw [run_bind, h]

theorem bind_ok {x : Prog σ ε α} {f : α → Prog σ ε β} {s t : σ} {b : β}
    (h : (x >>= f).run s = (.ok b, t)) :
    ∃ a u, x.run s = (.ok a, u) ∧ (f a).run u = (.ok b, t) := by
  rw [run_bind] at h
  rcases hx : x.run s with ⟨e | a, u⟩
  · rw [hx] at h
    cases h
  · rw [hx] at h
    exact ⟨a, u, rfl, h⟩

theorem ofExcept_ok {r : Except ε α} {s t : σ} {a : α}
    (h : (ofExcept r : Prog σ ε α).run s = (.ok a, t)) : r = .ok a ∧ s = t := by
  cases r with
  | error e => cases h
  | ok b =>
    cases h
    exact ⟨rfl, rfl⟩

@[simp] theorem run_fail (e : ε) (s : σ) : (fail e : Prog σ ε α).run s = (.error e, s) := rfl

@[simp] theorem run_gets (f : σ → α) (s : σ) :
    (gets f : Prog σ ε α).run s = (.ok (f s), s) := rfl

@[simp] theorem run_modify (f : σ → σ) (s : σ) :
    (modify f : Prog σ ε Unit).run s = (.ok (), f s) := rfl

instance : LawfulMonad (Prog σ ε) := LawfulMonad.mk' _
  (by
    intro α x
    ext1
    funext s
    change (match x.run s with | (.ok a, t) => (.ok a, t) | (.error e, t) => (.error e, t)) =
      x.run s
    rcases x.run s with ⟨_ | _, _⟩ <;> rfl)
  (fun _ _ => rfl)
  (by
    intro α β γ x f g
    ext1
    funext s
    simp only [run_bind]
    rcases x.run s with ⟨_ | _, _⟩ <;> rfl)

/-- A part of a state that can be read and replaced. -/
structure Lens (σ τ : Type) where
  get : σ → τ
  set : τ → σ → σ
  get_set : ∀ t s, get (set t s) = t

def zoom (L : Lens σ τ) (x : Prog τ ε α) : Prog σ ε α := ⟨fun s =>
  ((x.run (L.get s)).1, L.set (x.run (L.get s)).2 s)⟩

@[simp] theorem run_zoom (L : Lens σ τ) (x : Prog τ ε α) (s : σ) :
    (zoom L x).run s = ((x.run (L.get s)).1, L.set (x.run (L.get s)).2 s) := rfl

def when (c : Prop) [Decidable c] (x : Prog σ ε Unit) : Prog σ ε Unit :=
  if c then x else pure ()

def whenSome (o : Option α) (f : α → Prog σ ε Unit) : Prog σ ε Unit :=
  match o with
  | some a => f a
  | none => pure ()

def each (f : α → Prog σ ε Unit) : List α → Prog σ ε Unit
  | [] => pure ()
  | a :: rest => do
      f a
      each f rest

/-- `x`, started where `P` holds, ends where `Q` holds of its result, or where
`E` holds of its error. -/
def Triple (P : σ → Prop) (x : Prog σ ε α) (Q : α → σ → Prop) (E : ε → σ → Prop) : Prop :=
  ∀ s, P s →
    match x.run s with
    | (.ok a, t) => Q a t
    | (.error e, t) => E e t

namespace Triple

variable {P P' : σ → Prop} {Q Q' : α → σ → Prop} {E E' : ε → σ → Prop} {R : β → σ → Prop}
variable {x : Prog σ ε α}

theorem of_ok (h : ∀ s, P s → ∃ a t, x.run s = (.ok a, t) ∧ Q a t) : Triple P x Q E := by
  intro s hs
  obtain ⟨a, t, hx, hq⟩ := h s hs
  rw [hx]
  exact hq

theorem ok_of (h : Triple P x Q (fun _ _ => False)) {s : σ} (hs : P s) :
    ∃ a t, x.run s = (.ok a, t) ∧ Q a t := by
  have hx := h s hs
  rcases hrun : x.run s with ⟨e | a, t⟩
  · rw [hrun] at hx
    exact hx.elim
  · rw [hrun] at hx
    exact ⟨a, t, rfl, hx⟩

theorem conseq (h : Triple P x Q E) (hP : ∀ s, P' s → P s) (hQ : ∀ a s, Q a s → Q' a s)
    (hE : ∀ e s, E e s → E' e s) : Triple P' x Q' E' := by
  intro s hs
  have hx := h s (hP s hs)
  rcases hrun : x.run s with ⟨e | a, t⟩ <;> rw [hrun] at hx
  · exact hE e t hx
  · exact hQ a t hx

theorem of_state {J : σ → Prop} (h : ∀ s, P s → J (x.run s).2) :
    Triple P x (fun _ => J) (fun _ => J) := by
  intro s hs
  have hx := h s hs
  rcases hrun : x.run s with ⟨e | a, t⟩ <;> rw [hrun] at hx <;> exact hx

theorem state_of {J : σ → Prop} (h : Triple P x (fun _ => J) (fun _ => J)) {s : σ} (hs : P s) :
    J (x.run s).2 := by
  have hx := h s hs
  rcases hrun : x.run s with ⟨e | a, t⟩ <;> rw [hrun] at hx <;> exact hx

theorem weaken (h : Triple P x Q E) (hQ : ∀ a s, Q a s → Q' a s)
    (hE : ∀ e s, E e s → E' e s) : Triple P x Q' E' :=
  h.conseq (fun _ hs => hs) hQ hE

theorem pre (h : Triple P x Q E) (hP : ∀ s, P' s → P s) : Triple P' x Q E :=
  h.conseq hP (fun _ _ hq => hq) (fun _ _ he => he)

theorem and (h : Triple P x Q E) (h' : Triple P' x Q' E') :
    Triple (fun s => P s ∧ P' s) x (fun a s => Q a s ∧ Q' a s) fun e s => E e s ∧ E' e s := by
  rintro s ⟨hs, hs'⟩
  have hx := h s hs
  have hx' := h' s hs'
  rcases hrun : x.run s with ⟨e | a, t⟩ <;> rw [hrun] at hx hx'
  · exact ⟨hx, hx'⟩
  · exact ⟨hx, hx'⟩

theorem post (h : Triple P x Q E) (hQ : ∀ a s, Q a s → Q' a s) : Triple P x Q' E :=
  h.weaken hQ (fun _ _ he => he)

theorem pure {a : α} (h : ∀ s, P s → Q a s) : Triple P (Pure.pure a : Prog σ ε α) Q E :=
  fun s hs => h s hs

theorem fail {e : ε} (h : ∀ s, P s → E e s) : Triple P (Prog.fail e : Prog σ ε α) Q E :=
  fun s hs => h s hs

theorem bind {f : α → Prog σ ε β} (hx : Triple P x Q E)
    (hf : ∀ a, Triple (Q a) (f a) R E) : Triple P (x >>= f) R E := by
  intro s hs
  have h := hx s hs
  rw [run_bind]
  rcases hrun : x.run s with ⟨e | a, t⟩ <;> rw [hrun] at h
  · exact h
  · exact hf a t h

theorem gets {f : σ → α} (h : ∀ s, P s → Q (f s) s) :
    Triple P (Prog.gets f : Prog σ ε α) Q E :=
  fun s hs => h s hs

theorem modify {f : σ → σ} {Q : Unit → σ → Prop} (h : ∀ s, P s → Q () (f s)) :
    Triple P (Prog.modify f : Prog σ ε Unit) Q E :=
  fun s hs => h s hs

theorem attempt {R : Except ε α → σ → Prop} (h : Triple P x Q E)
    (hok : ∀ a s, Q a s → R (.ok a) s) (herr : ∀ e s, E e s → R (.error e) s) :
    Triple P (Prog.attempt x) R E' := by
  intro s hs
  have hx := h s hs
  change R (x.run s).1 (x.run s).2
  rcases hrun : x.run s with ⟨e | a, t⟩ <;> rw [hrun] at hx
  · exact herr e t hx
  · exact hok a t hx

theorem ite {c : Prop} [Decidable c] {y : Prog σ ε α} (hthen : c → Triple P x Q E)
    (helse : ¬ c → Triple P y Q E) : Triple P (if c then x else y) Q E := by
  split
  · exact hthen ‹_›
  · exact helse ‹_›

theorem when {c : Prop} [Decidable c] {x : Prog σ ε Unit} {Q : Unit → σ → Prop}
    (hx : c → Triple P x Q E) (hskip : ¬ c → ∀ s, P s → Q () s) : Triple P (Prog.when c x) Q E :=
  ite hx fun hc => pure (hskip hc)

theorem of_forall (h : ∀ s, P s → Triple (fun t => t = s) x Q E) : Triple P x Q E :=
  fun s hs => h s hs s rfl

theorem assume {p : Prop} (h : p → Triple P x Q E) : Triple (fun s => p ∧ P s) x Q E :=
  fun s hs => h hs.1 s hs.2

/-- The turns of `each` over numbers from `first` on, each of which takes the
state from one of a sequence of predicates to the next. -/
theorem each_range' {P : Nat → σ → Prop} {E : ε → σ → Prop} {f : Nat → Prog σ ε Unit}
    (first len : Nat)
    (h : ∀ i, first ≤ i → i < first + len → Triple (P i) (f i) (fun _ => P (i + 1)) E) :
    Triple (P first) (Prog.each f (List.range' first len)) (fun _ => P (first + len)) E := by
  induction len generalizing first with
  | zero => exact pure fun s hs => hs
  | succ len ih =>
    refine bind (h first (Nat.le_refl _) (by omega)) fun _ => ?_
    have hrest := ih (first + 1) fun i hi hi' => h i (by omega) (by omega)
    rwa [Nat.add_assoc, Nat.add_comm 1] at hrest

end Triple

/-- `x` keeps `I`, whether it succeeds or fails. -/
def Keeps (I : σ → Prop) (x : Prog σ ε α) : Prop := ∀ s, I s → I (x.run s).2

theorem keeps_iff_triple {I : σ → Prop} {x : Prog σ ε α} :
    Keeps I x ↔ Triple I x (fun _ => I) (fun _ => I) :=
  ⟨fun h => Triple.of_state h, fun h _ hs => h.state_of hs⟩

theorem Triple.frame {P I : σ → Prop} {x : Prog σ ε α} {Q : α → σ → Prop} {E : ε → σ → Prop}
    (h : Triple P x Q E) (hI : Keeps I x) :
    Triple (fun s => P s ∧ I s) x (fun a s => Q a s ∧ I s) (fun e s => E e s ∧ I s) := by
  intro s hs
  have hx := h s hs.1
  have hk := hI s hs.2
  rcases hrun : x.run s with ⟨e | a, t⟩ <;> rw [hrun] at hx hk <;> exact ⟨hx, hk⟩

namespace Keeps

variable {I : σ → Prop} {x : Prog σ ε α}

theorem pure (a : α) : Keeps I (Pure.pure a : Prog σ ε α) := fun _ hs => hs

theorem fail (e : ε) : Keeps I (Prog.fail e : Prog σ ε α) := fun _ hs => hs

theorem gets (f : σ → α) : Keeps I (Prog.gets f : Prog σ ε α) := fun _ hs => hs

theorem modify {f : σ → σ} (h : ∀ s, I s → I (f s)) : Keeps I (Prog.modify f : Prog σ ε Unit) :=
  fun s hs => h s hs

theorem bind {f : α → Prog σ ε β} (hx : Keeps I x) (hf : ∀ a, Keeps I (f a)) :
    Keeps I (x >>= f) := by
  intro s hs
  have h := hx s hs
  rw [run_bind]
  rcases hrun : x.run s with ⟨e | a, t⟩ <;> rw [hrun] at h
  · exact h
  · exact hf a t h

theorem attempt (hx : Keeps I x) : Keeps I (Prog.attempt x) := hx

theorem ite {c : Prop} [Decidable c] {y : Prog σ ε α} (hx : Keeps I x) (hy : Keeps I y) :
    Keeps I (if c then x else y) := by
  split
  · exact hx
  · exact hy

theorem ite' {c : Prop} [Decidable c] {y : Prog σ ε α} (hx : c → Keeps I x)
    (hy : ¬ c → Keeps I y) : Keeps I (if c then x else y) := by
  split
  · exact hx ‹_›
  · exact hy ‹_›

theorem when {c : Prop} [Decidable c] {x : Prog σ ε Unit} (hx : c → Keeps I x) :
    Keeps I (Prog.when c x) :=
  ite' hx fun _ => pure ()

theorem whenSome {o : Option α} {f : α → Prog σ ε Unit} (h : ∀ a, o = some a → Keeps I (f a)) :
    Keeps I (Prog.whenSome o f) := by
  cases o with
  | none => exact pure ()
  | some a => exact h a rfl

theorem each {f : α → Prog σ ε Unit} (l : List α) (h : ∀ a ∈ l, Keeps I (f a)) :
    Keeps I (Prog.each f l) := by
  induction l with
  | nil => exact pure ()
  | cons a rest ih =>
    exact bind (h a (by simp)) fun _ => ih fun b hb => h b (by simp [hb])

end Keeps

/-- `x` keeps `I`, and its results satisfy `Q`. -/
def Yields (I : σ → Prop) (x : Prog σ ε α) (Q : α → Prop) : Prop :=
  Triple I x (fun a s => Q a ∧ I s) (fun _ => I)

namespace Yields

variable {I : σ → Prop} {x : Prog σ ε α} {Q Q' : α → Prop} {R : β → Prop}

theorem of_keeps (h : Keeps I x) : Yields I x fun _ => True :=
  (keeps_iff_triple.mp h).post fun _ _ hs => ⟨trivial, hs⟩

theorem keeps (h : Yields I x Q) : Keeps I x :=
  keeps_iff_triple.mpr (h.post fun _ _ hs => hs.2)

theorem pure {a : α} (h : Q a) : Yields I (Pure.pure a : Prog σ ε α) Q := fun _ hs => ⟨h, hs⟩

theorem fail (e : ε) : Yields I (Prog.fail e : Prog σ ε α) Q := fun _ hs => hs

theorem bind {f : α → Prog σ ε β} (hx : Yields I x Q) (hf : ∀ a, Q a → Yields I (f a) R) :
    Yields I (x >>= f) R :=
  Triple.bind hx fun a => Triple.assume fun ha => hf a ha

theorem ite {c : Prop} [Decidable c] {y : Prog σ ε α} (hx : c → Yields I x Q)
    (hy : ¬ c → Yields I y Q) : Yields I (if c then x else y) Q := by
  split
  · exact hx ‹_›
  · exact hy ‹_›

theorem keeps_bind {f : α → Prog σ ε β} (hx : Yields I x Q) (hf : ∀ a, Q a → Keeps I (f a)) :
    Keeps I (x >>= f) :=
  (bind hx fun a ha => of_keeps (hf a ha)).keeps

end Yields

end Prog

end Hadris

namespace Hadris.Prog

variable {σ ε α β : Type}

/-- A program that leaves the state alone, whatever its outcome. -/
def Reads (x : Prog σ ε α) : Prop := ∀ s, (x.run s).2 = s

/-- A program that leaves the state alone when it fails. -/
def Quiet (x : Prog σ ε α) : Prop := ∀ s e t, x.run s = (.error e, t) → t = s

/-- A program that never fails. -/
def Total (x : Prog σ ε α) : Prop := ∀ s, ∃ a t, x.run s = (.ok a, t)

theorem reads_gets (f : σ → α) : Reads (gets f : Prog σ ε α) := fun _ => rfl

theorem reads_fail (e : ε) : Reads (fail e : Prog σ ε α) := fun _ => rfl

theorem reads_ofExcept (r : Except ε α) : Reads (ofExcept r : Prog σ ε α) := by
  intro s
  cases r with
  | error e => rfl
  | ok a => rfl

theorem Reads.quiet {x : Prog σ ε α} (h : Reads x) : Quiet x := by
  intro s e t hrun
  rw [← h s, hrun]

theorem total_pure (a : α) : Total (pure a : Prog σ ε α) := fun s => ⟨a, s, rfl⟩

theorem quiet_modify (f : σ → σ) : Quiet (modify f : Prog σ ε Unit) := by
  intro s e t hrun
  cases hrun

theorem Reads.bind {x : Prog σ ε α} {f : α → Prog σ ε β} (hx : Reads x) (hf : ∀ a, Quiet (f a)) :
    Quiet (x >>= f) := by
  intro s e t hrun
  have hstate := hx s
  rw [run_bind] at hrun
  rcases hx' : x.run s with ⟨e' | a, u⟩
  · rw [hx'] at hrun hstate
    cases hrun
    exact hstate
  · rw [hx'] at hrun hstate
    dsimp only at hrun hstate
    rw [hstate] at hrun
    exact hf a s e t hrun

theorem Quiet.bind {x : Prog σ ε α} {f : α → Prog σ ε β} (hx : Quiet x) (hf : ∀ a, Total (f a)) :
    Quiet (x >>= f) := by
  intro s e t hrun
  rw [run_bind] at hrun
  rcases hx' : x.run s with ⟨e' | a, u⟩
  · rw [hx'] at hrun
    cases hrun
    exact hx s _ _ hx'
  · rw [hx'] at hrun
    dsimp only at hrun
    obtain ⟨b, v, htotal⟩ := hf a u
    rw [htotal] at hrun
    cases hrun

theorem ofExcept_bind_ok {r : Except ε α} {f : α → Prog σ ε β} {s t : σ} {b : β}
    (h : (ofExcept r >>= f).run s = (.ok b, t)) : ∃ a, r = .ok a ∧ (f a).run s = (.ok b, t) := by
  cases r with
  | error e => cases h
  | ok a => exact ⟨a, rfl, h⟩

end Hadris.Prog

namespace Hadris

namespace Prog

variable {σ τ ε α α' β β' : Type}

/-- `x` ends as `y` does: started in states that `R` relates, both succeed and
`Q` relates what they leave, or both fail with one error and `E` does. Runs of
`y` that end in a state that is `Bad` do not count. -/
def Simulates (Bad : τ → Prop) (R : σ → τ → Prop) (x : Prog σ ε α) (y : Prog τ ε β)
    (Q : α → β → σ → τ → Prop) (E : σ → τ → Prop) : Prop :=
  ∀ s t, R s t → ¬ Bad (y.run t).2 →
    (∃ a b, (x.run s).1 = .ok a ∧ (y.run t).1 = .ok b ∧ Q a b (x.run s).2 (y.run t).2) ∨
    ∃ e, (x.run s).1 = .error e ∧ (y.run t).1 = .error e ∧ E (x.run s).2 (y.run t).2

namespace Simulates

variable {Bad : τ → Prop} {R R' : σ → τ → Prop} {Q Q' : α → β → σ → τ → Prop} {E : σ → τ → Prop}
variable {S : α' → β' → σ → τ → Prop} {x : Prog σ ε α} {y : Prog τ ε β}

theorem pure {a : α} {b : β} (h : ∀ s t, R s t → Q a b s t) :
    Simulates Bad R (Pure.pure a : Prog σ ε α) (Pure.pure b) Q E :=
  fun s t hst _ => .inl ⟨a, b, rfl, rfl, h s t hst⟩

theorem fail {e : ε} (h : ∀ s t, R s t → E s t) :
    Simulates Bad R (Prog.fail e : Prog σ ε α) (Prog.fail e : Prog τ ε β) Q E :=
  fun s t hst _ => .inr ⟨e, rfl, rfl, h s t hst⟩

theorem bind {f : α → Prog σ ε α'} {g : β → Prog τ ε β'} (hx : Simulates Bad R x y Q E)
    (hg : ∀ b, Keeps Bad (g b)) (hf : ∀ a b, Simulates Bad (Q a b) (f a) (g b) S E) :
    Simulates Bad R (x >>= f) (y >>= g) S E := by
  intro s t hst hbad
  have h := hx s t hst
  rw [run_bind] at hbad
  rw [run_bind, run_bind]
  rcases hxr : x.run s with ⟨e | a, s'⟩ <;> rcases hyr : y.run t with ⟨e' | b, t'⟩ <;>
    rw [hyr] at hbad <;> rw [hxr, hyr] at h
  · obtain ⟨_, _, hok, _⟩ | ⟨_, herror, herror', hE⟩ := h hbad
    · cases hok
    · cases herror
      cases herror'
      exact .inr ⟨e, rfl, rfl, hE⟩
  · obtain ⟨_, _, hok, _⟩ | ⟨_, _, herror', _⟩ := h fun hb => hbad (hg b t' hb)
    · cases hok
    · cases herror'
  · obtain ⟨_, _, _, hok', _⟩ | ⟨_, herror, _⟩ := h hbad
    · cases hok'
    · cases herror
  · obtain ⟨_, _, hok, hok', hQ⟩ | ⟨_, herror, _⟩ := h fun hb => hbad (hg b t' hb)
    · cases hok
      cases hok'
      exact hf a b s' t' hQ hbad
    · cases herror

theorem ite {c c' : Prop} [Decidable c] [Decidable c'] {x' : Prog σ ε α} {y' : Prog τ ε β}
    (hc : c ↔ c') (hthen : c → Simulates Bad R x y Q E)
    (helse : ¬ c → Simulates Bad R x' y' Q E) :
    Simulates Bad R (if c then x else x') (if c' then y else y') Q E := by
  by_cases h : c
  · rw [if_pos h, if_pos (hc.mp h)]
    exact hthen h
  · rw [if_neg h, if_neg (mt hc.mpr h)]
    exact helse h

theorem assume {p : Prop} (h : p → Simulates Bad R x y Q E) :
    Simulates Bad (fun s t => p ∧ R s t) x y Q E :=
  fun s t hst => h hst.1 s t hst.2

theorem of_forall (h : ∀ s t, R s t → Simulates Bad (fun s' t' => s' = s ∧ t' = t) x y Q E) :
    Simulates Bad R x y Q E :=
  fun s t hst => h s t hst s t ⟨rfl, rfl⟩

theorem result {T : β → Prop} (h : Simulates Bad R x y Q E)
    (hT : ∀ s t, R s t → ∀ b, (y.run t).1 = .ok b → T b) :
    Simulates Bad R x y (fun a b s t => T b ∧ Q a b s t) E := by
  intro s t hst hbad
  obtain ⟨a, b, hx, hy, hQ⟩ | herror := h s t hst hbad
  · exact .inl ⟨a, b, hx, hy, hT s t hst b hy, hQ⟩
  · exact .inr herror

theorem of_bad (h : ∀ s t, R s t → Bad (y.run t).2) : Simulates Bad R x y Q E :=
  fun s t hst hbad => absurd (h s t hst) hbad

theorem left {x : Prog σ ε α} {f : α → Prog σ ε α'} {y : Prog τ ε β'} {P : α → σ → τ → Prop}
    (hx : ∀ s t, R s t → ∃ a, (x.run s).1 = .ok a ∧ P a (x.run s).2 t)
    (hf : ∀ a, Simulates Bad (P a) (f a) y S E) : Simulates Bad R (x >>= f) y S E := by
  intro s t hst
  obtain ⟨a, hok, hP⟩ := hx s t hst
  rw [run_bind]
  rcases hxr : x.run s with ⟨e | a', s'⟩ <;> rw [hxr] at hok hP <;> cases hok
  exact hf a s' t hP

theorem right {y : Prog τ ε β} {g : β → Prog τ ε β'} {x : Prog σ ε α'} {P : β → σ → τ → Prop}
    (hy : ∀ s t, R s t → ∃ b, (y.run t).1 = .ok b ∧ P b s (y.run t).2)
    (hg : ∀ b, Simulates Bad (P b) x (g b) S E) : Simulates Bad R x (y >>= g) S E := by
  intro s t hst
  obtain ⟨b, hok, hP⟩ := hy s t hst
  rw [run_bind]
  rcases hyr : y.run t with ⟨e | b', t'⟩ <;> rw [hyr] at hok hP <;> cases hok
  exact hg b s t' hP

end Simulates

end Prog

end Hadris
