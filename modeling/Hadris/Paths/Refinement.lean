import Hadris.Paths.Posix
import Hadris.Paths.Components
import Hadris.Program

namespace Hadris.Paths

open Prog

section

variable {σ ω ν α : Type}

/-- A text met does not fit the buffer, or a link with an empty target comes
before more of the path. -/
def Astray (root : ν) (w : ω × List (Met ν)) : Prop := ∃ met ∈ w.2, ¬ met.Fits ∨ met.Vanishes root

/-! What was met stays met. -/

theorem keeps_ask (root : ν) (x : Prog ω Halt α) :
    Keeps (Astray root) (ask x : Prog (ω × List (Met ν)) Halt α) := fun _ hw => hw

theorem keeps_note (root : ν) (met : Met ν) :
    Keeps (Astray root) (note met : Prog (ω × List (Met ν)) Halt Unit) := by
  apply Keeps.modify
  rintro w ⟨other, hmem, hother⟩
  exact ⟨other, List.mem_append_left _ hmem, hother⟩

variable (answers : Answers ω ν)

theorem keeps_expectDir (node : ν) : Keeps (Astray answers.root) (expectDir answers node) :=
  Keeps.bind (keeps_ask _ _) fun _ => Keeps.ite (Keeps.pure _) (Keeps.fail _)

theorem keeps_readTarget (dir link : ν) (rest : Nat) :
    Keeps (Astray answers.root) (readTarget answers dir link rest) :=
  Keeps.bind (keeps_note _ _) fun _ => Keeps.bind (keeps_ask _ _) fun _ =>
    Keeps.bind (keeps_note _ _) fun _ => Keeps.pure _

theorem keeps_expectLast (reached : ν × Bool) :
    Keeps (Astray answers.root) (expectLast answers reached) :=
  Keeps.ite (Keeps.bind (keeps_expectDir answers _) fun _ => Keeps.pure _) (Keeps.pure _)

theorem link_mem_readTarget (dir link : ν) (rest : Nat) (w : ω × List (Met ν)) :
    Met.link rest ∈ ((readTarget answers dir link rest).run w).2.2 := by
  rcases hx : (answers.readlink link).run w.1 with ⟨e | target, v⟩ <;>
    simp only [readTarget, note, ask, run_bind, run_modify, run_pure, hx] <;> simp

theorem target_mem_readTarget {dir link : ν} {rest : Nat} {w : ω × List (Met ν)}
    {target : List UInt8} (h : ((answers.readlink link).run w.1).1 = .ok target) :
    Met.target dir target rest ∈ ((readTarget answers dir link rest).run w).2.2 := by
  rcases hx : (answers.readlink link).run w.1 with ⟨e | text, v⟩ <;> rw [hx] at h <;> cases h
  simp only [readTarget, note, ask, run_bind, run_modify, run_pure, hx]
  simp

theorem keeps_walkFrom (followLast : Bool)
    (followed : Option (List Component → Bool → ν → Prog (ω × List (Met ν)) Halt (ν × Bool)))
    (hfollowed : ∀ f, followed = some f → ∀ comps wantDir node, Keeps (Astray answers.root)
      (f comps wantDir node))
    (comps : List Component) (wantDir : Bool) (node : ν) :
    Keeps (Astray answers.root) (walkFrom answers followLast followed comps wantDir node) := by
  induction comps generalizing wantDir node with
  | nil => exact Keeps.pure _
  | cons comp rest ih =>
    rw [walkFrom]
    refine Keeps.ite (Keeps.bind (keeps_expectDir answers _) fun _ => ih _ _) ?_
    refine Keeps.ite (Keeps.bind (keeps_ask _ _) fun _ => ih _ _) ?_
    refine Keeps.bind (keeps_ask _ _) fun child => Keeps.bind (keeps_ask _ _) fun type => ?_
    refine Keeps.ite (ih _ _) ?_
    cases followed with
    | none => exact Keeps.fail _
    | some f => exact Keeps.bind (keeps_readTarget answers _ _ _) fun _ => hfollowed f rfl _ _ _

def afterLink (followLast : Bool) (links : Nat) :
    Option (List Component → Bool → ν → Prog (ω × List (Met ν)) Halt (ν × Bool)) :=
  match links with
  | 0 => none
  | links + 1 => some (walk answers followLast links)

theorem walk_eq (followLast : Bool) (links : Nat) :
    walk answers followLast links = walkFrom answers followLast
      (afterLink answers followLast links) := by
  cases links <;> rfl

theorem keeps_walk (followLast : Bool) (links : Nat) (comps : List Component) (wantDir : Bool)
    (node : ν) : Keeps (Astray answers.root)
      (walk answers followLast links comps wantDir node) := by
  induction links generalizing comps wantDir node with
  | zero => exact keeps_walkFrom answers followLast none (fun _ h => nomatch h) comps wantDir node
  | succ links ih =>
    apply keeps_walkFrom
    intro f hf
    obtain rfl : walk answers followLast links = f := Option.some.inj hf
    exact ih

end

section

variable {σ ω ν α : Type} [DecidableEq ν] {fs : FileSystem σ ν} {answers : Answers ω ν}
variable {world : σ → ω} {pins : σ → ν → Nat} {base : ν → Nat} {extra : List ν} {held : Pins ν}

/-- A resolution and the reference have come to one state of the file system. -/
def Abreast (fs : FileSystem σ ν) (world : σ → ω) (pins : σ → ν → Nat) (base : ν → Nat)
    (extra : List ν) (held : Pins ν) (s : σ × Pins ν) (w : ω × List (Met ν)) : Prop :=
  Holding fs pins base extra held s ∧ world s.1 = w.1

/-- Both fail in one state of the file system. -/
def SameWorld (world : σ → ω) (s : σ × Pins ν) (w : ω × List (Met ν)) : Prop := world s.1 = w.1

theorem simulates_call {added : α → List ν} {x : Prog σ Halt α} {y : Prog ω Halt α}
    {R : σ × Pins ν → ω × List (Met ν) → Prop}
    (hR : ∀ s w, R s w → Abreast fs world pins base [] held s w)
    (hcall : ∀ s w, R s w → Agrees fs.root world pins added x y s.1) :
    Simulates (Astray answers.root) R (onFs x) (ask y)
      (fun a b s w => a = b ∧ Abreast fs world pins base (added a) held s w)
        (SameWorld world) := by
  intro s w hsw _
  have hagrees := hcall s w hsw
  obtain ⟨hs, hworld⟩ := hR s w hsw
  have hresult := hagrees.result
  have hafter := hagrees.world
  rw [hworld] at hresult hafter
  rcases hx : (x.run s.1).1 with e | a
  · exact .inr ⟨e, hx, hresult.symm.trans hx, hafter⟩
  · exact .inl ⟨a, a, hx, hresult.symm.trans hx, rfl, hs.adds (hagrees.ok a hx), hafter⟩

theorem simulates_pins {extra' : List ν} {held' : Pins ν} {β : Type}
    {x : Prog (σ × Pins ν) Halt Unit} {f : Unit → Prog (σ × Pins ν) Halt α}
    {y : Prog (ω × List (Met ν)) Halt β} {S : α → β → σ × Pins ν → ω × List (Met ν) → Prop}
    (hx : Triple (Holding fs pins base extra held) x
      (fun _ => Holding fs pins base extra' held') fun _ _ => False)
    (hworld : ∀ s, world (x.run s).2.1 = world s.1)
    (hf : Simulates (Astray answers.root) (Abreast fs world pins base extra' held') (f ()) y S
      (SameWorld world)) :
    Simulates (Astray answers.root) (Abreast fs world pins base extra held) (x >>= f) y S
      (SameWorld world) := by
  refine Simulates.left (P := fun _ => Abreast fs world pins base extra' held') ?_ fun _ => hf
  rintro s w ⟨hs, hw⟩
  obtain ⟨a, t, hrun, hq⟩ := hx.ok_of hs
  have hkept := hworld s
  rw [hrun] at hkept ⊢
  exact ⟨a, rfl, hq, hkept.trans hw⟩

variable (h : Contract fs answers world pins)

include h

theorem simulates_lookup {node : ν} (name : List UInt8)
    (hnode : node ∈ held.current :: held.child.toList) :
    Simulates (Astray answers.root) (Abreast fs world pins base [] held)
      (onFs (fs.lookup node name))
      (ask (answers.lookup node name))
      (fun a b s w => a = b ∧ Abreast fs world pins base [a] held s w) (SameWorld world) :=
  simulates_call (fun _ _ hsw => hsw) fun s _ hsw => h.lookup s.1 node name (hsw.1.pinned hnode)

theorem simulates_parent {node : ν} (hnode : node ∈ held.current :: held.child.toList) :
    Simulates (Astray answers.root) (Abreast fs world pins base [] held) (onFs (fs.parent node))
      (ask (answers.parent node))
      (fun a b s w => a = b ∧ Abreast fs world pins base [a] held s w) (SameWorld world) :=
  simulates_call (fun _ _ hsw => hsw) fun s _ hsw => h.parent s.1 node (hsw.1.pinned hnode)

theorem simulates_stat {node : ν} (hnode : node ∈ held.current :: held.child.toList) :
    Simulates (Astray answers.root) (Abreast fs world pins base [] held) (onFs (fs.stat node))
      (ask (answers.stat node))
      (fun a b s w => a = b ∧ Abreast fs world pins base [] held s w) (SameWorld world) :=
  simulates_call (fun _ _ hsw => hsw) fun s _ hsw => h.stat s.1 node (hsw.1.pinned hnode)

theorem simulates_requireDir {node : ν} (hnode : node ∈ held.current :: held.child.toList) :
    Simulates (Astray answers.root) (Abreast fs world pins base [] held) (requireDir fs node)
      (expectDir answers node) (fun _ _ => Abreast fs world pins base [] held)
        (SameWorld world) := by
  refine Simulates.bind (simulates_stat h hnode) (fun type => ?_) fun type type' =>
    Simulates.assume ?_
  · exact Keeps.ite (Keeps.pure _) (Keeps.fail _)
  · rintro rfl
    apply Simulates.ite Iff.rfl
    · exact fun _ => Simulates.pure fun _ _ hsw => hsw
    · exact fun _ => Simulates.fail fun _ _ hsw => hsw.2

theorem world_step (node : ν) (s : σ × Pins ν) :
    world ((Pins.step fs node).run s).2.1 = world s.1 :=
  h.forget_world s.1 s.2.current 1

/-- What the loop has once it followed a link. -/
structure Followed (path : List UInt8) (before after : Cursor) (target rest : List UInt8) :
    Prop where
  buf : after.buf.length = linkBuffer
  pos : after.pos = 0
  links : after.links = before.links
  wantDir : after.wantDir = before.wantDir
  pending : after.pending path = target ++ ((if 0 < rest.length then [slash] else []) ++ rest)
  length : (after.pending path).length ≤ linkBuffer

omit h [DecidableEq ν] in
theorem followed_of_fits {cursor : Cursor} {path target rest : List UInt8} {stop : Nat}
    (hbuf : cursor.buf.length = linkBuffer) (hrest : (cursor.pending path).drop stop = rest)
    (hfits : (Met.target current target rest.length).Fits) :
    Followed path cursor
      { cursor with
        buf := Cursor.withTarget (cursor.withRest rest) target
          (linkBuffer - (rest.length + if 0 < rest.length then 1 else 0)) (0 < rest.length)
        spliced := some
          (linkBuffer - (rest.length + if 0 < rest.length then 1 else 0) - target.length)
        pos := 0 } target rest := by
  simp only [Met.Fits, Met.taken] at hfits
  have hlen : (cursor.withRest rest).length = linkBuffer := Cursor.withRest_length hbuf (by omega)
  have htext := Cursor.drop_withTarget target rest
    (linkBuffer - (rest.length + if 0 < rest.length then 1 else 0))
    (0 < rest.length) hlen (by omega) (by simp only [decide_eq_true_eq]; omega)
    (Cursor.drop_withRest hbuf hrest (by omega))
  have hafter := Cursor.withTarget_length target
    (linkBuffer - (rest.length + if 0 < rest.length then 1 else 0))
    (0 < rest.length) hlen (by omega) (by simp only [decide_eq_true_eq]; omega)
  simp only [decide_eq_true_eq] at htext
  refine ⟨hafter, rfl, rfl, rfl, htext, ?_⟩
  rw [Cursor.pending, List.length_drop, hafter]
  exact Nat.sub_le _ _

omit h [DecidableEq ν] in
/-- Whether the text after a link starts with a slash: the separator is taken for
one when the target is empty. -/
theorem starts_slash (target rest : List UInt8) :
    (target ++ ((if 0 < rest.length then [slash] else []) ++ rest)).head? = some slash ↔
      isAbsolute target = true ∨ target = [] ∧ 0 < rest.length := by
  rw [isAbsolute, beq_iff_eq]
  cases target with
  | cons byte target => simp
  | nil =>
    by_cases hrest : 0 < rest.length
    · simp [hrest]
    · obtain rfl : rest = [] := List.eq_nil_of_length_eq_zero (Nat.eq_zero_of_not_pos hrest)
      simp

omit h [DecidableEq ν] in
theorem starts_root {current : ν} {target rest : List UInt8}
    (hvanish : ¬ (Met.target current target rest.length).Vanishes answers.root)
    (hstart : (target ++ ((if 0 < rest.length then [slash] else []) ++ rest)).head? =
      some slash) :
    (if isAbsolute target then answers.root else current) = answers.root := by
  obtain habsolute | ⟨hnil, hpos⟩ := (starts_slash target rest).mp hstart
  · rw [if_pos habsolute]
  · have hroot : current = answers.root := by
      by_contra hne
      exact hvanish ⟨hnil, hpos, hne⟩
    rw [hroot, ite_self]

theorem simulates_readlink (child : ν) (room : Nat) (fits : List UInt8 → Prop)
    (base : ν → Nat) (held : Pins ν) {R : σ × Pins ν → ω × List (Met ν) → Prop}
    (hR : ∀ s w, R s w → Abreast fs world pins base [] held s w)
    (hchild : child ∈ held.current :: held.child.toList)
    (hfits : ∀ s w, R s w → ∀ target, ((answers.readlink child).run w.1).1 = .ok target →
      fits target)
    (hroom : ∀ target, fits target → target.length ≤ room) :
    Simulates (Astray answers.root) R (onFs (fs.readlink child room))
      (ask (answers.readlink child))
      (fun a b s w => fits b ∧ a = b ∧ Abreast fs world pins base [] held s w)
        (SameWorld world) := by
  refine Simulates.result (simulates_call hR ?_) hfits
  intro s w hsw
  obtain ⟨hs, hw⟩ := hR s w hsw
  apply h.readlink s.1 child room (hs.pinned hchild)
  intro target hanswer
  rw [hw] at hanswer
  exact hroom target (hfits s w hsw target hanswer)

theorem simulates_follow {cursor : Cursor} (path : List UInt8) {rest : List UInt8}
    {stop : Nat} {current child : ν}
    (hbuf : cursor.buf.length = linkBuffer) (hrest : (cursor.pending path).drop stop = rest) :
    Simulates (Astray answers.root) (Abreast fs world pins base [] ⟨current, some child⟩)
      (follow fs cursor child rest) (readTarget answers current child rest.length)
      (fun after target s w => Followed path cursor after target rest ∧
        Abreast fs world pins base [] ⟨if isAbsolute target then answers.root
          else current, none⟩ s w)
      (SameWorld world) := by
  apply Simulates.of_forall
  rintro s w ⟨hs, hw⟩
  by_cases hroom : (Met.link (ν := ν) rest.length).Fits
  case neg =>
    apply Simulates.of_bad
    rintro _ _ ⟨rfl, rfl⟩
    exact ⟨_, link_mem_readTarget answers current child rest.length _, .inl hroom⟩
  by_cases hfits : ∀ target, ((answers.readlink child).run w.1).1 = .ok target →
      ¬ (¬ (Met.target current target rest.length).Fits ∨
        (Met.target current target rest.length).Vanishes answers.root)
  case neg =>
    push Not at hfits
    obtain ⟨target, hanswer, hastray⟩ := hfits
    apply Simulates.of_bad
    rintro _ _ ⟨rfl, rfl⟩
    exact ⟨_, target_mem_readTarget answers hanswer, hastray⟩
  rw [follow, readTarget]
  simp only [Met.Fits, Met.taken] at hroom
  dsimp only
  rw [if_neg (Nat.not_lt.mpr hroom)]
  apply Simulates.right (P := fun _ s' w' => s' = s ∧ w'.1 = w.1)
  · rintro _ _ ⟨rfl, rfl⟩
    exact ⟨(), rfl, rfl, rfl⟩
  intro _
  have hread := simulates_readlink h child
    (linkBuffer - (rest.length + if 0 < rest.length then 1 else 0))
    (fun target => ¬ (¬ (Met.target current target rest.length).Fits ∨
      (Met.target current target rest.length).Vanishes answers.root)) base ⟨current, some child⟩
    (R := fun s' w' => s' = s ∧ w'.1 = w.1) ?_
      (List.mem_cons_of_mem _ (List.mem_singleton.mpr rfl)) ?_ ?_
  · refine Simulates.bind hread (fun _ => Keeps.bind (keeps_note _ _) fun _ => Keeps.pure _) ?_
    intro target target'
    apply Simulates.assume
    intro hfit
    obtain ⟨hfit, hvanish⟩ := not_or.mp hfit
    apply Simulates.assume
    rintro rfl
    apply Simulates.right (P := fun _ => Abreast fs world pins base [] ⟨current, some child⟩)
    · rintro s' w' hsw
      exact ⟨(), rfl, hsw⟩
    intro _
    apply simulates_pins holding_clearChild (fun _ => rfl)
    apply simulates_pins (holding_forget h) (fun s => h.forget_world s.1 child 1)
    have hfollowed := followed_of_fits hbuf hrest (not_not.mp hfit)
    have htext := congrArg List.head? hfollowed.pending
    rw [Cursor.pending, List.head?_drop] at htext
    dsimp only at htext
    rw [htext]
    by_cases hstart : (target ++ ((if 0 < rest.length then [slash] else []) ++ rest)).head? =
      some slash
    · rw [if_pos hstart]
      apply simulates_pins (holding_step h (.inr ⟨rfl, rfl⟩)) (world_step h fs.root)
      refine Simulates.pure fun _ _ hsw => ⟨hfollowed, ?_⟩
      rwa [starts_root hvanish hstart, ← h.root]
    · have hrelative : ¬ isAbsolute target = true := fun hroot =>
        hstart ((starts_slash target rest).mpr (.inl hroot))
      rw [if_neg hstart]
      exact Simulates.pure fun _ _ hsw => ⟨hfollowed, by rwa [if_neg hrelative]⟩
  · rintro _ _ ⟨rfl, hw'⟩
    exact ⟨hs, hw.trans hw'.symm⟩
  · rintro _ _ ⟨rfl, hw'⟩ target hanswer
    rw [hw'] at hanswer
    exact hfits target hanswer
  · intro target hfit
    have hfit := not_not.mp (not_or.mp hfit).1
    simp only [Met.Fits, Met.taken] at hfit
    omega

/-- The cursor stands where the reference has the components `comps` left and may
follow `left` more links. -/
structure Reads (path : List UInt8) (steps : Nat) (cursor : Cursor) (left : Nat)
    (comps : List Component) : Prop where
  buf : cursor.buf.length = linkBuffer
  pos : cursor.pos ≤ (cursor.pending path).length
  comps : components ((cursor.pending path).drop cursor.pos) = comps
  links : cursor.links + left = maxLinks
  steps : ((cursor.pending path).drop cursor.pos).length + left * (linkBuffer + 1) < steps

omit h [DecidableEq ν] in
theorem Reads.advance {path : List UInt8} {steps left : Nat} {cursor : Cursor} {comp : Component}
    {comps : List Component} {stop : Nat} (hreads : Reads path (steps + 1) cursor left comps)
    (wantDir : Bool) (hstop : stop ≤ (cursor.pending path).length)
    (htakes : TakesOff ((cursor.pending path).drop cursor.pos) comp
      ((cursor.pending path).drop stop)) :
    Reads path steps { cursor with wantDir := wantDir, pos := stop } left
      (components ((cursor.pending path).drop stop)) := by
  refine ⟨hreads.buf, hstop, rfl, hreads.links, ?_⟩
  have hshorter := htakes.shorter
  have hsteps := hreads.steps
  change ((cursor.pending path).drop stop).length + _ < steps
  omega

omit h [DecidableEq ν] in
theorem Reads.follow {path target rest : List UInt8} {steps left : Nat} {before after : Cursor}
    {comp : Component} {text : List UInt8} {comps : List Component}
    (hreads : Reads path steps before left comps) (htakes : TakesOff text comp rest)
    (hfollowed : Followed path { before with links := before.links + 1 } after target rest)
    (hleft : left ≠ 0) :
    Reads path steps after (left - 1) (splice target comp (components rest)) := by
  obtain ⟨left, rfl⟩ := Nat.exists_eq_succ_of_ne_zero hleft
  have hlinks := hfollowed.links
  have hbefore := hreads.links
  have hsteps := hreads.steps
  have hlength := hfollowed.length
  refine ⟨hfollowed.buf, ?_, ?_, ?_, ?_⟩
  · rw [hfollowed.pos]
    exact Nat.zero_le _
  · rw [hfollowed.pos, List.drop_zero, hfollowed.pending]
    exact components_spliced htakes.slashes htakes.more
  · dsimp only at hlinks
    omega
  · rw [hfollowed.pos, List.drop_zero]
    rw [Nat.succ_mul] at hsteps
    rw [Nat.succ_sub_one]
    omega

/-- A turn of the loop does what the reference does with a component, when the
turns after it do. -/
theorem simulates_loop (path : List UInt8) (followLast : Bool) (steps : Nat) (cursor : Cursor)
    (left : Nat) (comps : List Component) (current : ν)
    (hreads : Reads path steps cursor left comps) :
    Simulates (Astray answers.root) (Abreast fs world pins base [] ⟨current, none⟩)
      (posixLoop fs path followLast steps cursor)
      (walk answers followLast left comps cursor.wantDir current)
      (fun wantDir reached s w => reached.2 = wantDir ∧
        Abreast fs world pins base [] ⟨reached.1, none⟩ s w) (SameWorld world) := by
  induction steps generalizing cursor left comps current with
  | zero => exact absurd hreads.steps (Nat.not_lt_zero _)
  | succ steps ih =>
    rw [posixLoop, walk_eq]
    dsimp only
    obtain ⟨hend, hnil⟩ | ⟨hend, slashes, htakes⟩ := cursor.turn (cursor.pending path) hreads.pos
    · rw [if_pos hend, ← hreads.comps, hnil]
      exact Simulates.pure fun _ _ hsw => ⟨rfl, hsw⟩
    rw [if_neg hend, ← hreads.comps, htakes.components, walkFrom]
    have hstop := Cursor.componentEnd_le _ (cursor.skipped_le _ hreads.pos)
    generalize Cursor.componentEnd (cursor.pending path)
      (cursor.skipped (cursor.pending path)) = stop
      at hstop htakes ⊢
    generalize ((cursor.pending path).drop (cursor.skipped (cursor.pending path))).take
      (stop - cursor.skipped (cursor.pending path)) = name at htakes ⊢
    generalize hrest : (cursor.pending path).drop stop = rest at htakes ⊢
    have hadvance : ∀ wantDir, Reads path steps
        { cursor with wantDir := wantDir, pos := stop } left
          (components rest) := by
      intro wantDir
      have htaken := hreads.advance wantDir hstop (by rwa [hrest])
      rwa [hrest] at htaken
    have hwant : decide (0 < slashes) = decide (0 < rest.length) :=
      decide_eq_decide.mpr htakes.more.symm
    have hnext := fun node => ih _ _ _ node (hadvance (decide (0 < rest.length)))
    simp only [walk_eq, ← hwant] at hnext
    rw [← hwant]
    have hkeep : ∀ node, Keeps (Astray answers.root)
        (walkFrom answers followLast (afterLink answers followLast left)
          (components rest) (decide (0 < slashes)) node) := by
      intro node
      rw [← walk_eq]
      exact keeps_walk answers followLast left _ _ _
    apply Simulates.left (P := fun node s w => node = current ∧
      Abreast fs world pins base [] ⟨current, none⟩ s w)
    · rintro s w hsw
      exact ⟨_, rfl, congrArg Pins.current hsw.1.same, hsw⟩
    intro node
    apply Simulates.assume
    rintro rfl
    apply Simulates.ite Iff.rfl
    · intro _
      exact Simulates.bind (simulates_requireDir h List.mem_cons_self) (fun _ => hkeep _)
        fun _ _ => hnext _
    intro _
    apply Simulates.ite Iff.rfl
    · intro _
      refine Simulates.bind (simulates_parent h List.mem_cons_self)
        (fun _ => hkeep _) fun up up' => ?_
      apply Simulates.assume
      rintro rfl
      exact simulates_pins (holding_step h (.inl rfl)) (world_step h up) (hnext up)
    intro _
    refine Simulates.bind (simulates_lookup h name List.mem_cons_self) (fun child => ?_)
      fun child child' => ?_
    · refine Keeps.bind (keeps_ask _ _) fun type => Keeps.ite (hkeep child) ?_
      cases left with
      | zero => exact Keeps.fail _
      | succ left =>
        exact Keeps.bind (keeps_readTarget answers _ _ _) fun _ => keeps_walk answers _ _ _ _ _
    apply Simulates.assume
    rintro rfl
    apply simulates_pins holding_setChild (fun _ => rfl)
    refine Simulates.bind (simulates_stat h (List.mem_cons_of_mem _ (List.mem_singleton.mpr rfl)))
      (fun type => ?_) fun type type' => ?_
    · apply Keeps.ite (hkeep child)
      cases left with
      | zero => exact Keeps.fail _
      | succ left =>
        exact Keeps.bind (keeps_readTarget answers _ _ _) fun _ => keeps_walk answers _ _ _ _ _
    apply Simulates.assume
    rintro rfl
    apply Simulates.ite
    · rw [hwant, decide_eq_false_iff_not, Nat.not_lt, Nat.le_zero]
    · intro _
      apply simulates_pins holding_clearChild (fun _ => rfl)
      exact simulates_pins (holding_step h (.inl rfl)) (world_step h child) (hnext child)
    intro _
    cases left with
    | zero =>
      have hlinks := hreads.links
      rw [if_pos (by omega)]
      exact Simulates.fail fun _ _ hsw => hsw.2
    | succ left =>
      have hlinks := hreads.links
      rw [if_neg (by omega)]
      have hlength : slashes + textLength (components rest) = rest.length := by
        rw [parse_length rest, ← htakes.slashes]
      simp only [afterLink]
      rw [hlength]
      have htaken := hadvance (decide (0 < slashes))
      refine Simulates.bind (simulates_follow h path htaken.buf hrest)
        (fun target => keeps_walk answers _ _ _ _ _) fun after target => ?_
      apply Simulates.assume
      intro hfollowed
      have hreads' := htaken.follow htakes hfollowed (Nat.succ_ne_zero left)
      have hnext' := ih after left _ (if isAbsolute target then answers.root else node) hreads'
      rw [hfollowed.wantDir] at hnext'
      exact hnext'

end

end Hadris.Paths
