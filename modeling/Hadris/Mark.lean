import Mathlib.Data.List.GetD
import Mathlib.Data.Nat.Bitwise
import Mathlib.Tactic.Common

namespace Hadris

namespace Past

variable {E : Type}

/-- Every event of a log, the newest first, satisfies `p` of itself and the
events before it. -/
def Always (p : E → List E → Prop) : List E → Prop
  | [] => True
  | e :: older => p e older ∧ Always p older

/-- `p` held of an event and the events before it, or `start` held before any
event, and every event since satisfies `q`. -/
def Since (start : Prop) (q : E → Prop) (p : E → List E → Prop) : List E → Prop
  | [] => start
  | e :: older => p e older ∨ (q e ∧ Since start q p older)

instance Always.decidable (p : E → List E → Prop) [∀ e older, Decidable (p e older)] :
    DecidablePred (Always p)
  | [] => isTrue trivial
  | e :: older =>
    have := Always.decidable p older
    inferInstanceAs (Decidable (p e older ∧ Always p older))

instance Since.decidable (start : Prop) (q : E → Prop) (p : E → List E → Prop) [Decidable start]
    [DecidablePred q] [∀ e older, Decidable (p e older)] : DecidablePred (Since start q p)
  | [] => inferInstanceAs (Decidable start)
  | e :: older =>
    have := Since.decidable start q p older
    inferInstanceAs (Decidable (p e older ∨ (q e ∧ Since start q p older)))

end Past

/-- The events by which a medium comes to carry a dirty mark, loses it, and
makes what was written before durable. -/
structure Mark (E : Type) where
  puts : E → Prop
  lifts : E → Prop
  flushes : E → Prop

namespace Mark

open Past

variable {E : Type} (m : Mark E)

/-- The mark was put on, or there from the start, and not taken off since. -/
def Set (start : Prop) : List E → Prop :=
  Since start (fun e => ¬ m.lifts e) fun e _ => m.puts e

/-- The mark was made durable, or there from the start, and not taken off
since. -/
def Covered (start : Prop) : List E → Prop :=
  Since start (fun e => ¬ m.lifts e) fun e older => m.flushes e ∧ m.Set start older

/-- Everything was made durable, except events that satisfy `lifting`. -/
def Settled (lifting : E → Prop) : List E → Prop :=
  Since False lifting fun e _ => m.flushes e

variable {m} {start : Prop} {e : E} {l : List E}

theorem set_cons_of_puts (h : m.puts e) : m.Set start (e :: l) := Or.inl h

theorem set_cons_of_not_lifts (hl : m.Set start l) (h : ¬ m.lifts e) : m.Set start (e :: l) :=
  Or.inr ⟨h, hl⟩

theorem covered_cons_of_flushes (hl : m.Set start l) (h : m.flushes e) :
    m.Covered start (e :: l) :=
  Or.inl ⟨h, hl⟩

theorem covered_cons_of_not_lifts (hl : m.Covered start l) (h : ¬ m.lifts e) :
    m.Covered start (e :: l) :=
  Or.inr ⟨h, hl⟩

theorem settled_cons_of_flushes {lifting : E → Prop} (h : m.flushes e) :
    m.Settled lifting (e :: l) :=
  Or.inl h

theorem settled_cons_of_lifting {lifting : E → Prop} (hl : m.Settled lifting l) (h : lifting e) :
    m.Settled lifting (e :: l) :=
  Or.inr ⟨h, hl⟩

/-- What a protocol promises of each event: an ordinary one comes only after
the mark is durable, and the mark is taken off only when everything before is
durable, except events that satisfy `allowed`. -/
structure Obeys (start : Prop) (ordinary lifting allowed : E → Prop) (e : E) (older : List E) :
    Prop where
  ordinary : ordinary e → m.Covered start older
  lifting : lifting e → m.Settled allowed older

instance (start : Prop) (ordinary lifting allowed : E → Prop) (e : E) (older : List E)
    [Decidable (ordinary e)] [Decidable (lifting e)] [Decidable (m.Covered start older)]
    [Decidable (m.Settled allowed older)] :
    Decidable (m.Obeys start ordinary lifting allowed e older) :=
  decidable_of_iff ((ordinary e → m.Covered start older) ∧ (lifting e → m.Settled allowed older))
    ⟨fun h => ⟨h.1, h.2⟩, fun h => ⟨h.ordinary, h.lifting⟩⟩

end Mark

end Hadris
