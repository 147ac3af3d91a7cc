import Hadris.Program
import Hadris.Storage.Coherent

namespace Hadris.Storage

/-- A write-back LRU cache of whole blocks. -/
structure Cache (β : Type) where
  inner : Device β
  state : CacheState β
  written : Bool

namespace Cache

variable {β : Type} [Inhabited β]

abbrev Run (β : Type) := Prog (Cache β) Error

def new (inner : Device β) (capacity : UInt64) : Cache β where
  inner := inner
  state := CacheState.new capacity.toNat
  written := false

/-- Hands the device out, once the cache has dropped its clean blocks; what
becomes of the device is up to the caller. -/
def getMut (c : Cache β) (inner : Device β) : Cache β :=
  { c with state := c.state.dropClean, inner := inner }

def modifyState (f : CacheState β → CacheState β) : Run β Unit :=
  Prog.modify fun c => { c with state := f c.state }

def deviceRead (first len : Nat) (whole : Bool) : Run β (List β) :=
  ⟨fun c => ((c.inner.readBlocks first len whole).1,
    { c with inner := (c.inner.readBlocks first len whole).2 })⟩

def deviceWrite (first : Nat) (data : List β) (whole : Bool) : Run β Unit :=
  ⟨fun c => ((c.inner.writeBlocks first data whole).1,
    { c with inner := (c.inner.writeBlocks first data whole).2 })⟩

def deviceFlush : Run β Unit :=
  ⟨fun c => (c.inner.flush.1, { c with inner := c.inner.flush.2 })⟩

def lookup (index : Nat) : Run β (Option Nat) :=
  ⟨fun c => (.ok (c.state.lookup index).1, { c with state := (c.state.lookup index).2 })⟩

def grow : Run β Nat := ⟨fun c => (.ok c.state.grow.1, { c with state := c.state.grow.2 })⟩

def inRange (c : Cache β) (first len : Nat) (whole : Bool) : Bool :=
  (checkBlocks c.inner.count.toNat first len whole).isOk

def writeBack (index : Nat) : Run β Unit := do
  let slot ← Prog.gets fun c => (c.state.peek index).getD 0
  let block ← Prog.gets fun c => c.state.data slot
  deviceWrite index [block] true
  modifyState (·.cleanRange index 1)

/-- A slot to hold another block: the least recently used one, written back
when it is dirty, or a new one. -/
def vacate : Run β Nat := do
  let victim ← Prog.gets fun c => c.state.victim
  match victim with
  | none => grow
  | some slot => do
    let evicted ← Prog.gets fun c => c.state.dirtyIndex slot
    Prog.whenSome evicted writeBack
    pure slot

def slotFor (index : Nat) (load : Bool) : Run β Nat := do
  let hit ← lookup index
  match hit with
  | some slot => pure slot
  | none => do
    let slot ← vacate
    modifyState (·.forget slot)
    Prog.when load do
      let block ← deviceRead index 1 true
      modifyState (·.setData slot (block.getD 0 default))
    modifyState (·.assign slot index)
    pure slot

/-- Caches block `k` of what was read. A device that refuses the write of the
block it evicts keeps it uncached. -/
def fill (first : Nat) (buf : List β) (k : Nat) : Run β Unit := do
  let result ← Prog.attempt (slotFor (first + k) false)
  match result with
  | .ok slot => modifyState (·.setData slot (buf.getD k default))
  | .error error => if error.kind = .readOnly then pure () else Prog.fail error

/-- Reads blocks `i..count` of a request into `buf`, with a step for every block
at most. -/
def readLoop (first count : Nat) : Nat → Nat → List β → Run β (List β)
  | 0, _, buf => pure buf
  | fuel + 1, i, buf =>
    if i < count then do
      let hit ← lookup (first + i)
      match hit with
      | some slot => do
        let block ← Prog.gets fun c => c.state.data slot
        readLoop first count fuel (i + 1) (buf.set i block)
      | none => do
        let stop ← Prog.gets fun c => c.state.uncachedEnd first i count
        let data ← deviceRead (first + i) (stop - i) true
        let buf := buf.take i ++ data ++ buf.drop stop
        Prog.each (fill first buf) (List.range' i (stop - i))
        readLoop first count fuel stop buf
    else pure buf

/-- Reads into a buffer of `count` blocks, or one that is no whole number of
them. -/
def readBlocks (first count : Nat) (whole : Bool) : Run β (List β) := do
  let inRange ← Prog.gets fun c => c.inRange first count whole
  let capacity ← Prog.gets fun c => c.state.capacity
  if !inRange then deviceRead first count whole
  else if capacity ≤ count then do
    let buf ← deviceRead first count whole
    Prog.gets fun c => c.state.overlayDirty first buf
  else readLoop first count count 0 (List.replicate count default)

def writeBackDirty (index : Nat) : Run β Unit := do
  let dirty ← Prog.gets fun c => decide (index ∈ c.state.dirty)
  Prog.when dirty (writeBack index)

/-- Writes straight to the device, once the dirty blocks of the range are
written back and all of its blocks are dropped. -/
def writeThrough (first : Nat) (data : List β) (whole : Bool) : Run β Unit := do
  Prog.each writeBackDirty (blocks first data.length)
  modifyState (·.invalidate first data.length)
  deviceWrite first data whole
  Prog.modify fun c => { c with written := true }

def writeCached (first : Nat) (data : List β) (i : Nat) : Run β Unit := do
  let slot ← slotFor (first + i) false
  modifyState (·.setData slot (data.getD i default))
  modifyState (·.markDirty slot)

def writeBlocks (first : Nat) (data : List β) (whole : Bool) : Run β Unit := do
  let through ← Prog.gets fun c =>
    !c.written || !c.inRange first data.length whole || decide (c.state.capacity ≤ data.length)
  if through then writeThrough first data whole
  else Prog.each (writeCached first data) (List.range' 0 data.length)

def flushLoop : Nat → Run β Unit
  | 0 => pure ()
  | fuel + 1 => do
    let start ← Prog.gets fun c => c.state.firstDirty
    Prog.whenSome start fun start => do
      let len ← Prog.gets fun c => c.state.dirtyRun start
      modifyState (·.gather start len)
      let run ← Prog.gets fun c => c.state.run
      deviceWrite start run true
      modifyState (·.cleanRange start len)
      flushLoop fuel

def flush : Run β Unit := do
  let dirty ← Prog.gets fun c => c.state.dirty.card
  flushLoop dirty
  deviceFlush

end Cache

end Hadris.Storage

namespace Hadris.Storage

/-- A call of the device under a cache. -/
inductive Call (β : Type) where
  | read (first len : Nat)
  | write (first : Nat) (data : List β)
  | flush
deriving DecidableEq

/-- The state of a device operation: of one that has not begun, of a call that
is pending, or of one that has ended. -/
inductive Child (β : Type) where
  | fresh
  | busy (call : Call β)
  | over
deriving DecidableEq

namespace Call

variable {β : Type}

def first : Call β → Nat
  | .read first _ => first
  | .write first _ => first
  | .flush => 0

def data : Call β → List β
  | .write _ data => data
  | _ => []

end Call

namespace Device

variable {β : Type} [Inhabited β] [DecidableEq β]

def check (d : Device β) : Call β → Except Error Unit
  | .read first len => checkBlocks d.count.toNat first len true
  | .write first data => checkBlocks d.maxCount.toNat first data.length true
  | .flush => .ok ()

/-- Advances a call. A device that is given the state of another call goes on
from where that call is, and stores nothing of this one. -/
def advance (d : Device β) (child : Child β) (call : Call β) : Answer × Child β × Device β :=
  match d.check call with
  | .error error => (.failed error, .over, d)
  | .ok () =>
    let (answer, d) :=
      if child = .fresh ∨ child = .busy call then d.poll call.first call.data else d.poll 0 []
    match answer with
    | .pending => (answer, .busy call, d)
    | _ => (answer, .over, d)

end Device

/-- How a poll returns early. -/
inductive Interrupt where
  | pending
  | error (error : Error)

/-- Independent progress of a cached operation. -/
structure CacheOperation (β : Type) where
  child : Child β
  pending : Bool
  done : Nat
  loadedEnd : Nat
  phase : Nat
  slot : Nat
  start : Nat
  len : Nat

def CacheOperation.new {β : Type} : CacheOperation β := ⟨.fresh, false, 0, 0, 0, 0, 0, 0⟩

/-- The phase of a write that goes straight to the device once the dirty
blocks it covers are written back. -/
def passThrough : Nat := 4

/-- A cache, an operation on it and the buffer the operation reads into. -/
structure Polled (β : Type) where
  cache : Cache β
  op : CacheOperation β
  buf : List β

namespace Polled

variable {β : Type} [Inhabited β] [DecidableEq β]

abbrev Run (β : Type) := Prog (Polled β) Interrupt

def getsCache {α : Type} (f : Cache β → α) : Run β α := Prog.gets fun p => f p.cache

def getsState {α : Type} (f : CacheState β → α) : Run β α := Prog.gets fun p => f p.cache.state

def getsOp {α : Type} (f : CacheOperation β → α) : Run β α := Prog.gets fun p => f p.op

def modifyState (f : CacheState β → CacheState β) : Run β Unit :=
  Prog.modify fun p => { p with cache := { p.cache with state := f p.cache.state } }

def modifyOp (f : CacheOperation β → CacheOperation β) : Run β Unit :=
  Prog.modify fun p => { p with op := f p.op }

def setPhase (phase : Nat) : Run β Unit := modifyOp fun op => { op with phase := phase }

def resetChild : Run β Unit := modifyOp fun op => { op with child := .fresh }

def lookup (index : Nat) : Run β (Option Nat) := ⟨fun p =>
  (.ok (p.cache.state.lookup index).1,
    { p with cache := { p.cache with state := (p.cache.state.lookup index).2 } })⟩

def grow : Run β Nat := ⟨fun p =>
  (.ok p.cache.state.grow.1, { p with cache := { p.cache with state := p.cache.state.grow.2 } })⟩

def advance (call : Call β) : Run β Unit := ⟨fun p =>
  match p.cache.inner.advance p.op.child call with
  | (.done, child, d) =>
    (.ok (), { p with cache := { p.cache with inner := d },
                      op := { p.op with child := child, pending := false } })
  | (.failed error, child, d) =>
    (.error (.error error), { p with cache := { p.cache with inner := d },
                                     op := { p.op with child := child, pending := false } })
  | (.pending, child, d) =>
    (.error .pending, { p with cache := { p.cache with inner := d },
                               op := { p.op with child := child, pending := true } })⟩

def check (count first len : Nat) (whole : Bool) : Run β Unit :=
  match checkBlocks count first len whole with
  | .ok () => pure ()
  | .error error => Prog.fail (.error error)

def claim (index : Nat) : Run β (Option Nat) := do
  let phase ← getsOp (·.phase)
  if phase = 1 then pure none
  else do
    let hit ← lookup index
    match hit with
    | some slot => pure (some slot)
    | none => do
      let victim ← getsState (·.victim)
      let slot ← match victim with
        | some slot => pure slot
        | none => grow
      modifyOp fun op => { op with slot := slot, phase := 1 }
      pure none

def evict (slot : Nat) : Run β Unit := do
  let evicted ← getsState (·.dirtyIndex slot)
  Prog.whenSome evicted fun evicted => do
    let block ← getsState (·.data slot)
    advance (.write evicted [block])
    modifyState (·.cleanRange evicted 1)
    resetChild

def slotFor (index : Nat) : Run β Nat := do
  let hit ← claim index
  match hit with
  | some slot => pure slot
  | none => do
    let slot ← getsOp (·.slot)
    evict slot
    modifyState (·.forget slot)
    modifyState (·.assign slot index)
    setPhase 0
    pure slot

def load (first count : Nat) : Run β Unit := do
  let phase ← getsOp (·.phase)
  Prog.when (phase = 0) do
    let done ← getsOp (·.done)
    let stop ← getsState (·.uncachedEnd first done count)
    modifyOp fun op => { op with loadedEnd := stop, phase := 2 }
  let phase ← getsOp (·.phase)
  Prog.when (phase = 2) do
    let done ← getsOp (·.done)
    let stop ← getsOp (·.loadedEnd)
    advance (.read (first + done) (stop - done))
    Prog.modify fun p => { p with
      buf := p.buf.take done ++ p.cache.inner.read (first + done) (stop - done) ++
        p.buf.drop stop }
    resetChild
    setPhase 3

/-- Caches the next block of what was read. A device that refuses the write of
the block it evicts keeps it uncached. -/
def fill (first : Nat) : Run β Unit := do
  let done ← getsOp (·.done)
  let result ← Prog.attempt (slotFor (first + done))
  match result with
  | .error .pending => Prog.fail .pending
  | .error (.error error) =>
    if error.kind = .readOnly then
      modifyOp fun op => { op with phase := 0, child := .fresh, done := op.done + 1 }
    else Prog.fail (.error error)
  | .ok slot => do
    Prog.modify fun p => { p with
      cache := { p.cache with state := p.cache.state.setData slot (p.buf.getD done default) } }
    modifyOp fun op => { op with
      done := op.done + 1
      phase := if op.done + 1 < op.loadedEnd then 3 else op.phase }

def readStep (first count : Nat) : Run β Unit := do
  let phase ← getsOp (·.phase)
  let done ← getsOp (·.done)
  let hit ← if phase = 0 then lookup (first + done) else pure none
  match hit with
  | some slot => do
    let block ← getsState (·.data slot)
    Prog.modify fun p => { p with
      buf := p.buf.set done block, op := { p.op with done := done + 1 } }
  | none => do
    load first count
    fill first

def readLoop (first count : Nat) : Nat → Run β Unit
  | 0 => pure ()
  | fuel + 1 => do
    let done ← getsOp (·.done)
    Prog.when (done < count) do
      readStep first count
      readLoop first count fuel

def pollRead (first count : Nat) (whole : Bool) : Run β Unit := do
  let blocks ← getsCache (·.inner.count.toNat)
  check blocks first count whole
  let capacity ← getsState (·.capacity)
  if capacity ≤ count then do
    advance (.read first count)
    Prog.modify fun p => { p with
      buf := p.cache.state.overlayDirty first (p.cache.inner.read first count) }
  else readLoop first count count

def writeBackDirty (index : Nat) : Run β Unit := do
  let dirty ← getsState fun s => decide (index ∈ s.dirty)
  Prog.when dirty do
    let slot ← getsState fun s => (s.peek index).getD 0
    let block ← getsState (·.data slot)
    advance (.write index [block])
    modifyState (·.cleanRange index 1)
    resetChild

/-- Writes straight to the device, once the dirty blocks of the range are
written back and all of its blocks are dropped. -/
def writeThrough (first : Nat) (data : List β) : Run β Unit := do
  let phase ← getsOp (·.phase)
  Prog.when (phase ≠ passThrough) do
    Prog.each writeBackDirty (blocks first data.length)
    modifyState (·.invalidate first data.length)
    setPhase passThrough
  advance (.write first data)
  Prog.modify fun p => { p with cache := { p.cache with written := true } }

def writeStep (first : Nat) (data : List β) : Run β Unit := do
  let done ← getsOp (·.done)
  let slot ← slotFor (first + done)
  modifyState (·.setData slot (data.getD done default))
  modifyState (·.markDirty slot)
  modifyOp fun op => { op with done := op.done + 1 }

def writeLoop (first : Nat) (data : List β) : Nat → Run β Unit
  | 0 => pure ()
  | fuel + 1 => do
    let done ← getsOp (·.done)
    Prog.when (done < data.length) do
      writeStep first data
      writeLoop first data fuel

def through (c : Cache β) (inRange : Bool) (len : Nat) : Bool :=
  !c.written || !inRange || decide (c.state.capacity ≤ len)

def pollWrite (first : Nat) (data : List β) (whole : Bool) : Run β Unit := do
  let blocks ← getsCache (·.inner.maxCount.toNat)
  check blocks first data.length whole
  let through ← getsCache fun c => through c (c.inRange first data.length whole) data.length
  if through then writeThrough first data
  else writeLoop first data data.length

def flushLoop : Nat → Run β Unit
  | 0 => pure ()
  | fuel + 1 => do
    let phase ← getsOp (·.phase)
    Prog.when (phase = 0) do
      let start ← getsState (·.firstDirty)
      match start with
      | some start => do
        let len ← getsState (·.dirtyRun start)
        modifyOp fun op => { op with start := start, len := len, phase := 1 }
        modifyState (·.gather start len)
      | none => setPhase 2
    let phase ← getsOp (·.phase)
    if phase = 1 then do
      let start ← getsOp (·.start)
      let len ← getsOp (·.len)
      let run ← getsState (·.run)
      advance (.write start run)
      modifyState (·.cleanRange start len)
      resetChild
      setPhase 0
      flushLoop fuel
    else advance .flush

def pollFlush : Run β Unit := do
  let dirty ← getsState (·.dirty.card)
  flushLoop (dirty + 1)

/-- Stops the device call of an operation that is dropped. Blocks it was
storing may have landed. -/
def cancel (landed : Nat → Bool) (p : Polled β) : Polled β :=
  if p.op.pending then
    match p.op.child with
    | .busy call =>
      { p with
        cache := { p.cache with
          inner := { p.cache.inner with
            contents := landBlocks landed p.cache.inner.contents call.first call.data } }
        op := { p.op with pending := false } }
    | _ => { p with op := { p.op with pending := false } }
  else p

end Polled

end Hadris.Storage
