import Mathlib.Data.List.GetD
import Mathlib.Data.Nat.Bitwise
import Mathlib.Tactic.Common
import Hadris.BlockBuf

namespace Hadris

/-- Brent's cycle detection over the clusters of one walk along a chain. -/
structure ChainGuard where
  mark : Nat
  power : Nat
  steps : Nat
deriving DecidableEq, Repr

namespace ChainGuard

def u32Max : Nat := 4294967295

def new (first : Nat) : ChainGuard := ⟨first, 1, 0⟩

/-- Records a move to `cluster`; `none` when the walk has come back to a
cluster it passed. -/
def step (guard : ChainGuard) (cluster : Nat) : Option ChainGuard :=
  if cluster = guard.mark then none
  else if guard.steps + 1 = guard.power then
    some ⟨cluster, min (guard.power * 2) u32Max, 0⟩
  else some { guard with steps := guard.steps + 1 }

end ChainGuard

/-- A position in a cluster chain, with the guard of the walk that reached it.
Cluster 0 is no known position. -/
structure ChainPos where
  index : Nat
  cluster : Nat
  guard : ChainGuard
deriving DecidableEq, Repr

namespace ChainPos

def none : ChainPos := ⟨0, 0, ChainGuard.new 0⟩

/-- The cluster `cluster` at index `index` of a chain, where a walk from it
detects loops from there on. -/
def new (index cluster : Nat) : ChainPos := ⟨index, cluster, ChainGuard.new cluster⟩

def start (first : Nat) : ChainPos := ⟨0, first, ChainGuard.new first⟩

/-- Moves to `next`, the cluster after this one; `none` when the chain has
looped. -/
def advance (pos : ChainPos) (next : Nat) : Option ChainPos :=
  (pos.guard.step next).map fun guard => ⟨pos.index + 1, next, guard⟩

end ChainPos

/-- Clusters whose entries share a device block, within a span from `base`, the
highest first. -/
structure ClusterGroup where
  base : Nat
  members : List Nat
deriving DecidableEq, Repr

namespace ClusterGroup

def span : Nat := 2048

def new (base : Nat) : ClusterGroup := ⟨base, []⟩

def spans (group : ClusterGroup) (cluster : Nat) : Bool :=
  group.base ≤ cluster && cluster - group.base < span

def has (group : ClusterGroup) (cluster : Nat) : Bool := group.members.contains cluster

def add (group : ClusterGroup) (cluster : Nat) : ClusterGroup :=
  if group.spans cluster && !group.has cluster then
    { group with
      members := group.members.filter (cluster < ·) ++
        cluster :: group.members.filter (· < cluster) }
  else group

def count (group : ClusterGroup) : Nat := group.members.length

def lowest (group : ClusterGroup) : Nat := group.members.getLastD group.base

def highest? (group : ClusterGroup) : Option Nat := group.members.head?

end ClusterGroup

/-- The clusters an unfinished allocation or free holds: `head` starts a chain
still to be linked or freed, and `extra` is one more cluster `head` does not
reach. 0 means none. -/
structure Held where
  head : Nat
  extra : Nat
deriving DecidableEq, Repr

namespace Held

def none : Held := ⟨0, 0⟩

end Held

end Hadris

namespace Hadris

/-- What a primitive borrows: the device with the buffer, the state the driver
tracks of the volume, and the record of what an operation holds, `none` when
the caller wants none. -/
structure Borrow (σ : Type) where
  io : Io
  state : σ
  held : Option Held

namespace Borrow

open Prog (Keeps Lens Triple)

variable {σ α β : Type}

def ioLens : Lens (Borrow σ) Io where
  get vol := vol.io
  set io vol := { vol with io := io }
  get_set _ _ := rfl

def onIo (x : Prog Io Stop α) : Prog (Borrow σ) Stop α := Prog.zoom ioLens x

def getState : Prog (Borrow σ) Stop σ := Prog.gets fun vol => vol.state

def setState (f : σ → σ) : Prog (Borrow σ) Stop Unit :=
  Prog.modify fun vol => { vol with state := f vol.state }

def setHeld (f : Held → Held) : Prog (Borrow σ) Stop Unit :=
  Prog.modify fun vol => { vol with held := vol.held.map f }

def reading (x : σ → Prog Io Stop α) : Prog (Borrow σ) Stop α := do
  let s ← getState
  onIo (x s)

/-- `T` holds of the state, and `I` of it and the device. -/
structure Sound (T : σ → Prop) (I : σ → Device Stop → Prop) (vol : Borrow σ) : Prop where
  io : Io.Sound (I vol.state) vol.io
  state : T vol.state

variable {T T' : σ → Prop} {I I' : σ → Device Stop → Prop}

theorem Sound.mono {vol : Borrow σ} (h : Sound T I vol) (hT : ∀ s, T s → T' s)
    (hI : ∀ s d, T s → I s d → I' s d) : Sound T' I' vol :=
  ⟨⟨h.io.1, hI _ _ h.state h.io.2⟩, hT _ h.state⟩

theorem triple_getState {f : σ → Prog (Borrow σ) Stop α} {Q : α → Borrow σ → Prop}
    {E : Stop → Borrow σ → Prop} (h : ∀ s, T s → Triple (Sound T I) (f s) Q E) :
    Triple (Sound T I) (getState >>= f) Q E :=
  fun vol hvol => h vol.state hvol.state vol hvol

theorem triple_getState_eq {f : σ → Prog (Borrow σ) Stop α} {Q : α → Borrow σ → Prop}
    {E : Stop → Borrow σ → Prop}
    (h : ∀ s, T s → Triple (Sound (fun t => t = s) I) (f s) Q E) :
    Triple (Sound T I) (getState >>= f) Q E :=
  fun vol hvol => h vol.state hvol.state vol ⟨hvol.io, rfl⟩

theorem keeps_getState {f : σ → Prog (Borrow σ) Stop α}
    (h : ∀ s, T s → Keeps (Sound T I) (f s)) : Keeps (Sound T I) (getState >>= f) :=
  fun vol hvol => h vol.state hvol.state vol hvol

theorem triple_setState {f : σ → σ} {E : Stop → Borrow σ → Prop} {U : σ → Prop}
    {J : σ → Device Stop → Prop} (hT : ∀ s d, T s → I s d → U (f s))
    (hI : ∀ s d, T s → I s d → J (f s) d) :
    Triple (Sound T I) (setState f) (fun _ => Sound U J) E := fun _ h =>
  ⟨⟨h.io.1, hI _ _ h.state h.io.2⟩, hT _ _ h.state h.io.2⟩

theorem keeps_setState {f : σ → σ} (hT : ∀ s, T s → T (f s))
    (hI : ∀ s d, T s → I s d → I (f s) d) : Keeps (Sound T I) (setState f) := fun _ h =>
  ⟨⟨h.io.1, hI _ _ h.state h.io.2⟩, hT _ h.state⟩

theorem keeps_setHeld (f : Held → Held) :
    Keeps (Sound T I) (setHeld f : Prog (Borrow σ) Stop Unit) :=
  fun _ h => ⟨h.io, h.state⟩

theorem triple_onIo {x : Prog Io Stop α} {Q : α → σ → Device Stop → Prop}
    {J : σ → Device Stop → Prop}
    (h : ∀ s, T s → Triple (Io.Sound (I s)) x (fun a => Io.Sound (Q a s)) fun _ =>
      Io.Sound (J s)) :
    Triple (Sound T I) (onIo x) (fun a => Sound T (Q a)) (fun _ => Sound T J) := by
  intro vol hvol
  have hio := h vol.state hvol.state vol.io hvol.io
  rcases hrun : x.run vol.io with ⟨e | a, io⟩ <;> rw [hrun] at hio <;>
    simp only [onIo, Prog.run_zoom, ioLens, hrun]
  · exact ⟨hio, hvol.state⟩
  · exact ⟨hio, hvol.state⟩

theorem keeps_onIo {x : Prog Io Stop α} (h : ∀ s, T s → Keeps (Io.Sound (I s)) x) :
    Keeps (Sound T I) (onIo x) :=
  Prog.keeps_iff_triple.mpr (triple_onIo fun s hs => Prog.keeps_iff_triple.mp (h s hs))

theorem triple_reads {x : Prog Io Stop α} {Q : α → Prop} (hx : Io.Reads x Q)
    (hI : ∀ s d rest, I s d → I s { d with script := rest }) :
    Triple (Sound T I) (onIo x) (fun a vol => Q a ∧ Sound T I vol) (fun _ => Sound T I) := by
  intro vol hvol
  have hio := hx (I vol.state) (hI vol.state) vol.io hvol.io
  rcases hrun : x.run vol.io with ⟨e | a, io⟩ <;> rw [hrun] at hio <;>
    simp only [onIo, Prog.run_zoom, ioLens, hrun]
  · exact ⟨hio, hvol.state⟩
  · exact ⟨hio.1, hio.2, hvol.state⟩

theorem keeps_reads {x : Prog Io Stop α} {Q : α → Prop} {f : α → Prog (Borrow σ) Stop β}
    (hI : ∀ s d rest, I s d → I s { d with script := rest }) (hx : Io.Reads x Q)
    (hf : ∀ a, Q a → Keeps (Sound T I) (f a)) : Keeps (Sound T I) (onIo x >>= f) :=
  Prog.keeps_iff_triple.mpr (Triple.bind (triple_reads hx hI) fun a =>
    Triple.assume fun ha => Prog.keeps_iff_triple.mp (hf a ha))

theorem keeps_reading {x : σ → Prog Io Stop α} {Q : σ → α → Prop}
    {f : α → Prog (Borrow σ) Stop β} (hI : ∀ s d rest, I s d → I s { d with script := rest })
    (hx : ∀ s, Io.Reads (x s) (Q s)) (hf : ∀ s a, T s → Q s a → Keeps (Sound T I) (f a)) :
    Keeps (Sound T I) (reading x >>= f) := by
  have hassoc : reading x >>= f = getState >>= fun s => onIo (x s) >>= f := by
    simp only [reading, bind_assoc]
  rw [hassoc]
  exact keeps_getState fun s hs => keeps_reads hI (hx s) fun a ha => hf s a hs ha

theorem triple_blockSize {size : Nat} {f : Nat → Prog (Borrow σ) Stop α}
    {Q : α → Borrow σ → Prop} {E : Stop → Borrow σ → Prop}
    (hsize : ∀ s d, I s d → d.blockSize = size) (h : Triple (Sound T I) (f size) Q E) :
    Triple (Sound T I) (onIo Io.blockSize >>= f) Q E := by
  intro vol hvol
  have hrun := h vol hvol
  rw [← hsize _ _ hvol.io.2] at hrun
  exact hrun

theorem keeps_blockSize {size : Nat} {f : Nat → Prog (Borrow σ) Stop α}
    (hsize : ∀ s d, I s d → d.blockSize = size) (h : Keeps (Sound T I) (f size)) :
    Keeps (Sound T I) (onIo Io.blockSize >>= f) :=
  Prog.keeps_iff_triple.mpr (triple_blockSize hsize (Prog.keeps_iff_triple.mp h))

theorem keeps_onIo_blockSize {size : Nat} {f : Nat → Prog Io Stop α}
    (hsize : ∀ s d, I s d → d.blockSize = size)
    (h : Keeps (Sound T I) (onIo (f size) : Prog (Borrow σ) Stop α)) :
    Keeps (Sound T I) (onIo (Io.blockSize >>= f) : Prog (Borrow σ) Stop α) := by
  intro vol hvol
  have hrun := h vol hvol
  rw [← hsize _ _ hvol.io.2] at hrun
  exact hrun

end Borrow

end Hadris
