import Hadris.Storage.CacheRun
import Mathlib.Data.List.FinRange

namespace Hadris.Storage

open List

/-- What a device says of itself: the size of its blocks in bytes, their number, and
the number it can hold when written past its end. -/
structure Shape where
  size : Nat
  pos : 0 < size
  count : UInt64
  maxCount : UInt64

/-- What a disk answers when a call is polled: what the buffer of a read that is not done
holds, which bytes of a write have landed, and what the disk says of itself from then on. -/
inductive DiskReply (β : Type) where
  | done (shape : Shape)
  | failed (error : Error) (garbled : List β) (landed : Nat → Bool) (shape : Shape)
  | pending (garbled : List β) (landed : Nat → Bool) (shape : Shape)

/-- A disk of bytes: the contents of its blocks and, beyond, what a growth makes visible,
with the replies to the calls to come. It succeeds at once when the script is used up. -/
structure Disk (β : Type) where
  contents : Nat → β
  shape : Shape
  script : List (DiskReply β)

def bytesOf {β : Type} (v : Nat → β) (start len : Nat) : List β := (range' start len).map v

def splat {β : Type} (buf garbled : List β) : List β :=
  garbled.take buf.length ++ buf.drop garbled.length

def Call.len {β : Type} : Call β → Nat
  | .read _ len => len
  | _ => 0

def Answer.isPending : Answer → Bool
  | .pending => true
  | _ => false

/-- The state of a disk operation: of one that has not begun, or the byte where it began,
with the call that is pending. -/
inductive Ticket (β : Type) where
  | fresh
  | busy (start : Nat) (call : Call β)
  | over (start : Nat)
deriving DecidableEq

namespace Disk

variable {β : Type} [Inhabited β]

def checkRange (shape : Shape) (count : UInt64) (first len : Nat) : Except Error Unit :=
  checkBlocks count.toNat first (len / shape.size) (decide (len % shape.size = 0))

def check (d : Disk β) : Call β → Except Error Unit
  | .read first len => checkRange d.shape d.shape.count first len
  | .write first data => checkRange d.shape d.shape.maxCount first data.length
  | .flush => .ok ()

def start (d : Disk β) (call : Call β) : Nat := call.first * d.shape.size

def settle (d : Disk β) (start : Nat) (call : Call β) (reply : DiskReply β)
    (rest : List (DiskReply β)) : Disk β :=
  match reply with
  | .done shape => ⟨putBlocks d.contents start call.data, shape, rest⟩
  | .failed _ _ landed shape => ⟨landBlocks landed d.contents start call.data, shape, rest⟩
  | .pending _ landed shape => ⟨landBlocks landed d.contents start call.data, shape, rest⟩

def received (d : Disk β) (start : Nat) (call : Call β) (buf : List β) : List β :=
  splat buf (bytesOf d.contents start call.len)

def wait (start : Nat) (call : Call β) :
    List (DiskReply β) → Disk β → List β → Except Error Unit × List β × Disk β
  | [], d, buf => (.ok (), d.received start call buf, d.settle start call (.done d.shape) [])
  | .done shape :: rest, d, buf =>
    (.ok (), d.received start call buf, d.settle start call (.done shape) rest)
  | .failed error garbled landed shape :: rest, d, buf =>
    (.error error, splat buf garbled,
      d.settle start call (.failed error garbled landed shape) rest)
  | .pending garbled landed shape :: rest, d, buf =>
    wait start call rest (d.settle start call (.pending garbled landed shape) rest)
      (splat buf garbled)

def serve (d : Disk β) (call : Call β) (buf : List β) : Except Error Unit × List β × Disk β :=
  match d.check call with
  | .error error => (.error error, buf, d)
  | .ok () => wait (d.start call) call d.script d buf

def poll (d : Disk β) (start : Nat) (call : Call β) (buf : List β) : Answer × List β × Disk β :=
  match d.script with
  | [] => (.done, d.received start call buf, d.settle start call (.done d.shape) [])
  | .done shape :: rest =>
    (.done, d.received start call buf, d.settle start call (.done shape) rest)
  | .failed error garbled landed shape :: rest =>
    (.failed error, splat buf garbled,
      d.settle start call (.failed error garbled landed shape) rest)
  | .pending garbled landed shape :: rest =>
    (.pending, splat buf garbled, d.settle start call (.pending garbled landed shape) rest)

def begins (d : Disk β) (call : Call β) : Ticket β → Nat
  | .fresh => d.start call
  | .busy start _ => start
  | .over start => start

/-- Polls the call that an operation is at. A disk that is given the state of another call
goes on from where that call is, and does nothing of this one. -/
def proceed [DecidableEq β] (d : Disk β) (child : Ticket β) (call : Call β) (buf : List β) :
    Answer × List β × Disk β :=
  let start := d.begins call child
  if child = .fresh ∨ child = .busy start call then d.poll start call buf else d.poll 0 .flush buf

def advance [DecidableEq β] (d : Disk β) (child : Ticket β) (call : Call β) (buf : List β) :
    Answer × Ticket β × List β × Disk β :=
  let start := d.begins call child
  match d.check call with
  | .error error => (.failed error, .over start, buf, d)
  | .ok () =>
    let (answer, buf, d) := d.proceed child call buf
    (answer, if answer.isPending then .busy start call else .over start, buf, d)

end Disk

/-- Consecutive blocks that were read. -/
structure Window (β : Type) where
  first : Nat
  count : Nat
  data : List β

namespace Window

variable {β : Type} [Inhabited β]

def new : Window β := ⟨0, 0, []⟩

def holds (window : Window β) (first count : Nat) : Bool :=
  decide (window.first ≤ first) && decide (first - window.first ≤ window.count) &&
    decide (count ≤ window.count - (first - window.first))

def isAdjacent (window : Window β) (first : Nat) : Bool :=
  window.count != 0 && window.first + window.count == first

def drop (window : Window β) : Window β := { window with count := 0 }

def vacate (window : Window β) (len : Nat) : Window β :=
  { window with count := 0, data := window.data.takeD len default }

def overlaps (window : Window β) (first stop : Nat) : Bool :=
  decide (window.first < stop) && decide (first < window.first + window.count)

end Window

/-- What a read does after `plan`. -/
inductive Plan (β : Type) where
  | hit (buf : List β)
  | bypass
  | fetch (slot : Fin 2) (fetched : Nat)

/-- The two windows of a device that reads ahead. -/
structure Windows (β : Type) where
  capacity : Nat
  blockSize : Nat
  windows : Fin 2 → Window β
  recent : Fin 2

def isizeMax : Nat := 2 ^ 63 - 1

namespace Windows

variable {β : Type} [Inhabited β]

def new (blockSize capacity blockCount : Nat) : Windows β where
  capacity := min (min capacity (isizeMax / blockSize)) blockCount
  blockSize := blockSize
  windows := fun _ => .new
  recent := 1

def clear (w : Windows β) : Windows β := { w with windows := fun slot => (w.windows slot).drop }

def resize (w : Windows β) (size : Nat) : Windows β :=
  if size = w.blockSize then w
  else { w with
    windows := fun _ => .new, blockSize := size, capacity := min w.capacity (isizeMax / size) }

def slotFor (w : Windows β) (adjacent : Option (Fin 2)) : Fin 2 :=
  adjacent.getD (if w.capacity = 1 then 0 else 1 - w.recent)

def share (w : Windows β) (slot : Fin 2) : Nat :=
  if slot = 0 then w.capacity - w.capacity / 2 else w.capacity / 2

def planFetch (w : Windows β) (size blockCount first count : Nat) : Plan β × Windows β :=
  let adjacent := (finRange 2).find? fun slot => (w.windows slot).isAdjacent first
  let slot := w.slotFor adjacent
  if w.share slot < count then (.bypass, w)
  else
    let fetched := if adjacent.isSome then min (w.share slot) (blockCount - first) else count
    (.fetch slot fetched, { w with
      windows := Function.update w.windows slot ((w.windows slot).vacate (w.share slot * size)) })

/-- Serves a read of `len` bytes at block `first` from the windows, or plans the device
read that serves it. -/
def plan (w : Windows β) (shape : Shape) (first len : Nat) : Plan β × Windows β :=
  let w := w.resize shape.size
  if w.capacity = 0 ∨ len = 0 ∨ Disk.checkRange shape shape.count first len ≠ .ok ()
    then (.bypass, w)
  else match (finRange 2).find? fun slot => (w.windows slot).holds first (len / shape.size) with
    | some slot =>
      let window := w.windows slot
      (.hit ((window.data.drop ((first - window.first) * shape.size)).take len),
        { w with recent := slot })
    | none => w.planFetch shape.size shape.count.toNat first (len / shape.size)

def target (w : Windows β) (slot : Fin 2) (fetched : Nat) : List β :=
  (w.windows slot).data.take (fetched * w.blockSize)

def store (w : Windows β) (slot : Fin 2) (bytes : List β) : Windows β := { w with
  windows := Function.update w.windows slot
    { w.windows slot with data := splat (w.windows slot).data bytes } }

def fill (w : Windows β) (slot : Fin 2) (fetched first len : Nat) : List β × Windows β :=
  ((w.windows slot).data.take len, { w with
    windows := Function.update w.windows slot
      { w.windows slot with first := first, count := fetched }
    recent := slot })

def invalidate (w : Windows β) (size first len : Nat) : Windows β :=
  let stop := min (first + (len + size - 1) / size) (2 ^ 64 - 1)
  { w with windows := fun slot =>
      if (w.windows slot).overlaps first stop then (w.windows slot).drop else w.windows slot }

/-- A write in blocks of `size` bytes is counted in the blocks that the windows hold, or they
hold none. -/
def Measures (w : Windows β) (size : Nat) : Prop :=
  (∀ slot, (w.windows slot).count = 0) ∨ w.blockSize = size

instance (w : Windows β) (size : Nat) : Decidable (w.Measures size) :=
  inferInstanceAs (Decidable (_ ∨ _))

end Windows

/-- A device that reads ahead. -/
structure ReadAhead (β : Type) where
  inner : Disk β
  windows : Windows β

namespace ReadAhead

variable {β : Type} [Inhabited β]

def new (inner : Disk β) (capacity : Nat) : ReadAhead β :=
  ⟨inner, .new inner.shape.size capacity inner.shape.count.toNat⟩

def clear (ra : ReadAhead β) : ReadAhead β := { ra with windows := ra.windows.clear }

def getMut (ra : ReadAhead β) (inner : Disk β) : ReadAhead β := { ra.clear with inner := inner }

def readInner (ra : ReadAhead β) (first : Nat) (buf : List β) :
    Except Error (List β) × ReadAhead β :=
  match ra.inner.serve (.read first buf.length) buf with
  | (.ok (), buf, inner) => (.ok buf, { ra with inner := inner })
  | (.error error, _, inner) => (.error error, { ra with inner := inner })

def readBlocks (ra : ReadAhead β) (first : Nat) (buf : List β) :
    Except Error (List β) × ReadAhead β :=
  let size := ra.inner.shape.size
  match ra.windows.plan ra.inner.shape first buf.length with
  | (.hit buf, windows) => (.ok buf, { ra with windows := windows })
  | (.bypass, windows) => readInner { ra with windows := windows } first buf
  | (.fetch slot fetched, windows) =>
    let target := windows.target slot fetched
    match ra.inner.serve (.read first target.length) target with
    | (.error error, target, inner) =>
      let ra := ⟨inner, windows.store slot target⟩
      if fetched * size = buf.length then (.error error, ra) else readInner ra first buf
    | (.ok (), target, inner) =>
      let (buf, windows) := (windows.store slot target).fill slot fetched first buf.length
      (.ok buf, ⟨inner, windows⟩)

def writeBlocks (ra : ReadAhead β) (first : Nat) (data : List β) :
    Except Error Unit × ReadAhead β :=
  let windows := ra.windows.invalidate ra.inner.shape.size first data.length
  match ra.inner.serve (.write first data) [] with
  | (result, _, inner) => (result, ⟨inner, windows⟩)

def flush (ra : ReadAhead β) : Except Error Unit × ReadAhead β :=
  match ra.inner.serve .flush [] with
  | (result, _, inner) => (result, { ra with inner := inner })

end ReadAhead

namespace ReadAhead

/-- Progress of a read-ahead request. -/
structure ReadAheadOperation (β : Type) where
  child : Ticket β
  pending : Bool
  phase : Nat
  slot : Fin 2
  fetched : Nat

def ReadAheadOperation.new {β : Type} : ReadAheadOperation β := ⟨.fresh, false, 0, 0, 0⟩

/-- A device that reads ahead, an operation on it and the buffer the operation reads into. -/
structure Polled (β : Type) where
  ra : ReadAhead β
  op : ReadAheadOperation β
  buf : List β

variable {β : Type} [Inhabited β] [DecidableEq β]

def pollInner (call : Call β) (p : Polled β) : Answer × Polled β :=
  match p.ra.inner.advance p.op.child call p.buf with
  | (answer, child, buf, inner) =>
    (answer, ⟨{ p.ra with inner := inner },
      { p.op with child := child, pending := answer.isPending }, buf⟩)

def pollDirect (first : Nat) (p : Polled β) : Answer × Polled β :=
  match p.ra.inner.check (.read first p.buf.length) with
  | .error error => (.failed error, p)
  | .ok () => pollInner (.read first p.buf.length) p

def pollFetch (first : Nat) (p : Polled β) : Answer × Polled β :=
  let size := p.ra.inner.shape.size
  let target := p.ra.windows.target p.op.slot p.op.fetched
  match p.ra.inner.advance p.op.child (.read first target.length) target with
  | (answer, child, target, inner) =>
    let windows := p.ra.windows.store p.op.slot target
    let op := { p.op with child := child, pending := answer.isPending }
    match answer with
    | .done =>
      let (buf, windows) := windows.fill p.op.slot p.op.fetched first p.buf.length
      (.done, ⟨⟨inner, windows⟩, op, buf⟩)
    | .failed error =>
      if p.op.fetched * size = p.buf.length then (.failed error, ⟨⟨inner, windows⟩, op, p.buf⟩)
      else pollDirect first ⟨⟨inner, windows⟩, { op with child := .fresh, phase := 2 }, p.buf⟩
    | .pending => (.pending, ⟨⟨inner, windows⟩, op, p.buf⟩)

def pollRead (first : Nat) (p : Polled β) : Answer × Polled β :=
  match p.ra.inner.check (.read first p.buf.length) with
  | .error error => (.failed error, p)
  | .ok () =>
    if p.op.phase = 0 then
      match p.ra.windows.plan p.ra.inner.shape first p.buf.length with
      | (.hit buf, windows) => (.done, ⟨{ p.ra with windows := windows }, p.op, buf⟩)
      | (.bypass, windows) =>
        pollInner (.read first p.buf.length)
          ⟨{ p.ra with windows := windows }, { p.op with phase := 2 }, p.buf⟩
      | (.fetch slot fetched, windows) =>
        pollFetch first ⟨{ p.ra with windows := windows },
          { p.op with phase := 1, slot := slot, fetched := fetched }, p.buf⟩
    else if p.op.phase = 1 then pollFetch first p
    else pollInner (.read first p.buf.length) p

def pollWrite (first : Nat) (data : List β) (p : Polled β) : Answer × Polled β :=
  match p.ra.inner.check (.write first data) with
  | .error error => (.failed error, p)
  | .ok () =>
    let windows := p.ra.windows.invalidate p.ra.inner.shape.size first data.length
    pollInner (.write first data) { p with ra := { p.ra with windows := windows } }

def pollFlush (p : Polled β) : Answer × Polled β := pollInner .flush p

def cancel (landed : Nat → Bool) (p : Polled β) : ReadAhead β :=
  match p.op.child with
  | .busy start call =>
    if p.op.pending then
      { p.ra with inner := { p.ra.inner with
          contents := landBlocks landed p.ra.inner.contents start call.data } }
    else p.ra
  | _ => p.ra

end ReadAhead

section

variable {β : Type}

theorem length_bytesOf (v : Nat → β) (start len : Nat) : (bytesOf v start len).length = len := by
  rw [bytesOf, length_map, length_range']

theorem bytesOf_slice (v : Nat → β) {start len k n : Nat} (h : k + n ≤ len) :
    ((bytesOf v start len).drop k).take n = bytesOf v (start + k) n := by
  apply ext_getElem
  · simp only [length_take, length_drop, length_bytesOf]
    omega
  · intro i hi hi'
    simp only [bytesOf, getElem_take, getElem_drop, getElem_map, getElem_range',
      Nat.add_assoc, Nat.one_mul]

theorem bytesOf_congr {v v' : Nat → β} {start len : Nat}
    (h : ∀ i, start ≤ i → i < start + len → v i = v' i) :
    bytesOf v start len = bytesOf v' start len := by
  apply map_congr_left
  intro i hi
  rw [mem_range'_1] at hi
  exact h i hi.1 hi.2

/-- A window that holds something holds blocks of the device as they are. -/
def Window.Fresh (v : Nat → β) (size : Nat) (window : Window β) : Prop :=
  0 < window.count → window.first + window.count < 2 ^ 64 ∧
    window.data.take (window.count * size) = bytesOf v (window.first * size) (window.count * size)

/-- Both windows hold blocks of the device as they are. -/
def Windows.Fresh (v : Nat → β) (w : Windows β) : Prop :=
  ∀ slot, (w.windows slot).Fresh v w.blockSize

variable {v v' : Nat → β} {size first count len : Nat} {window : Window β}
  {w : Windows β} {slot : Fin 2}

theorem Window.fresh_of_empty (h : window.count = 0) : window.Fresh v size :=
  fun hpos => absurd h (Nat.ne_of_gt hpos)

theorem Window.Fresh.holds (h : window.Fresh v size) (hholds : window.holds first count = true)
    (hcount : 0 < count) :
    (window.data.drop ((first - window.first) * size)).take (count * size) =
      bytesOf v (first * size) (count * size) := by
  rw [Window.holds, Bool.and_eq_true, Bool.and_eq_true, decide_eq_true_eq, decide_eq_true_eq,
    decide_eq_true_eq] at hholds
  obtain ⟨⟨hfirst, hoffset⟩, hfits⟩ := hholds
  obtain ⟨-, hdata⟩ := h (by omega)
  have hle : (first - window.first) * size + count * size ≤ window.count * size := by
    rw [← Nat.add_mul]
    exact Nat.mul_le_mul_right size (by omega)
  have hstart : window.first * size + (first - window.first) * size = first * size := by
    rw [← Nat.add_mul, Nat.add_sub_of_le hfirst]
  rw [← hstart, ← bytesOf_slice v hle, ← hdata, drop_take, take_take, Nat.min_eq_left (by omega)]

theorem Window.Fresh.keep (h : window.Fresh v size) (hpos : 0 < size)
    (hkeep : ∀ i, ¬ (first * size ≤ i ∧ i < first * size + len) → v' i = v i)
    (hapart : window.overlaps first
      (min (first + (len + size - 1) / size) (2 ^ 64 - 1)) = false) :
    window.Fresh v' size := by
  intro hcount
  obtain ⟨hbound, hdata⟩ := h hcount
  refine ⟨hbound, hdata.trans (bytesOf_congr fun i hi hi' => (hkeep i ?_).symm)⟩
  rw [Window.overlaps, Bool.and_eq_false_iff, decide_eq_false_iff_not,
    decide_eq_false_iff_not] at hapart
  have hceil : len ≤ (len + size - 1) / size * size := by
    have hdiv := Nat.div_add_mod (len + size - 1) size
    have hmod := Nat.mod_lt (len + size - 1) hpos
    rw [Nat.mul_comm]
    omega
  have hi'' : i < (window.first + window.count) * size := by
    rw [Nat.add_mul]
    exact hi'
  rcases hapart with hbefore | hafter
  · have hle : (first + (len + size - 1) / size) * size ≤ window.first * size :=
      Nat.mul_le_mul_right size (by omega)
    rw [Nat.add_mul] at hle
    omega
  · have hle : (window.first + window.count) * size ≤ first * size :=
      Nat.mul_le_mul_right size (by omega)
    omega

/-- A window that was emptied for a fetch of `fetched` blocks at block `first`, which
covers a read of `len` bytes. -/
structure Windows.Vacant (w : Windows β) (slot : Fin 2) (fetched first len : Nat) : Prop where
  empty : (w.windows slot).count = 0
  covers : len ≤ fetched * w.blockSize
  room : fetched * w.blockSize ≤ (w.windows slot).data.length
  bound : first + fetched < 2 ^ 64

theorem length_splat (buf garbled : List β) : (splat buf garbled).length = buf.length := by
  rw [splat, length_append, length_take, length_drop]
  omega

theorem splat_of_length {buf garbled : List β} (h : garbled.length = buf.length) :
    splat buf garbled = garbled := by
  rw [splat, ← h, take_length, h, drop_length, append_nil]

theorem take_splat {buf garbled : List β} (h : garbled.length ≤ buf.length) :
    (splat buf garbled).take garbled.length = garbled := by
  rw [splat, take_of_length_le h, take_left]

namespace Windows

theorem Fresh.update (h : w.Fresh v) (hwindow : window.Fresh v w.blockSize) (recent : Fin 2) :
    Fresh v { w with windows := Function.update w.windows slot window, recent := recent } := by
  intro slot'
  by_cases hslot : slot' = slot
  · subst hslot
    simpa only [Function.update_self] using hwindow
  · simpa only [Function.update_of_ne hslot] using h slot'

theorem Fresh.store (h : w.Fresh v) (hempty : (w.windows slot).count = 0) (bytes : List β) :
    (w.store slot bytes).Fresh v := by
  apply h.update
  exact Window.fresh_of_empty hempty

theorem Vacant.store {fetched : Nat} (h : w.Vacant slot fetched first len) (bytes : List β) :
    (w.store slot bytes).Vacant slot fetched first len where
  empty := by simpa only [Windows.store, Function.update_self] using h.empty
  covers := h.covers
  room := by simpa only [Windows.store, Function.update_self, length_splat] using h.room
  bound := h.bound

theorem Vacant.length_target {fetched : Nat} (h : w.Vacant slot fetched first len) :
    (w.target slot fetched).length = fetched * w.blockSize := by
  rw [target, length_take, Nat.min_eq_left h.room]

theorem Vacant.fill {fetched : Nat} (h : w.Vacant slot fetched first len)
    (hfresh : w.Fresh v) {bytes : List β}
    (hbytes : bytes = bytesOf v (first * w.blockSize) (fetched * w.blockSize)) :
    (((w.store slot bytes).fill slot fetched first len).1 = bytesOf v (first * w.blockSize) len) ∧
      ((w.store slot bytes).fill slot fetched first len).2.Fresh v := by
  have hlength : bytes.length = fetched * w.blockSize := by rw [hbytes, length_bytesOf]
  have hdata : ((w.store slot bytes).windows slot).data.take (fetched * w.blockSize) = bytes := by
    simp only [Windows.store, Function.update_self]
    rw [← hlength]
    exact take_splat (hlength ▸ h.room)
  constructor
  · have hslice := @bytesOf_slice _ v (first * w.blockSize) (fetched * w.blockSize) 0 len
      (by rw [Nat.zero_add]; exact h.covers)
    rw [drop_zero, Nat.add_zero, ← hbytes, ← hdata, take_take, Nat.min_eq_left h.covers]
      at hslice
    exact hslice
  · apply (hfresh.store h.empty bytes).update
    exact fun _ => ⟨h.bound, hdata.trans hbytes⟩

theorem clear_fresh (v : Nat → β) (w : Windows β) : w.clear.Fresh v :=
  fun _ => Window.fresh_of_empty rfl

theorem resize_blockSize : (w.resize size).blockSize = size := by
  rw [resize]
  split
  · rename_i h
    exact h.symm
  · rfl

theorem Fresh.resize (h : w.Fresh v) : (w.resize size).Fresh v := by
  rw [Windows.resize]
  split
  · exact h
  · exact fun _ => Window.fresh_of_empty rfl

theorem Fresh.invalidate (h : w.Fresh v) (hmeasures : w.Measures size) (hpos : 0 < size)
    (hkeep : ∀ i, ¬ (first * size ≤ i ∧ i < first * size + len) → v' i = v i) :
    (w.invalidate size first len).Fresh v' := by
  intro slot
  simp only [Windows.invalidate]
  split
  · exact Window.fresh_of_empty rfl
  · rename_i hoverlaps
    rcases hmeasures with hempty | hsize
    · exact Window.fresh_of_empty (hempty slot)
    · have hslot := h slot
      rw [hsize] at hslot ⊢
      exact hslot.keep hpos hkeep (Bool.eq_false_iff.mpr hoverlaps)

theorem Fresh.invalidate_of_fresh (h : w.Fresh v) : (w.invalidate size first len).Fresh v := by
  intro slot
  simp only [Windows.invalidate]
  split
  · exact Window.fresh_of_empty rfl
  · exact h slot

theorem checkRange_eq_ok {shape : Shape} {count : UInt64} :
    Disk.checkRange shape count first len = .ok () ↔
      len % shape.size = 0 ∧ first + len / shape.size ≤ count.toNat := by
  simp only [Disk.checkRange, checkBlocks]
  by_cases hwhole : len % shape.size = 0 <;> by_cases hrange :
    first + len / shape.size ≤ count.toNat <;>
    simp [hwhole, hrange]

end Windows

/-- What a plan promises of a read of `len` bytes at block `first`. -/
def Plan.Serves (v : Nat → β) (shape : Shape) (first len : Nat) (w : Windows β) : Plan β → Prop
  | .hit bytes =>
    Disk.checkRange shape shape.count first len = .ok () ∧
      bytes = bytesOf v (first * shape.size) len
  | .bypass => True
  | .fetch slot fetched =>
    Disk.checkRange shape shape.count first len = .ok () ∧ w.blockSize = shape.size ∧
      w.Vacant slot fetched first len

namespace Windows

variable [Inhabited β]

theorem planFetch_spec {shape : Shape} (h : w.Fresh v) (hsize : w.blockSize = shape.size)
    (hcheck : Disk.checkRange shape shape.count first len = .ok ()) :
    (w.planFetch shape.size shape.count.toNat first (len / shape.size)).1.Serves v shape first len
        (w.planFetch shape.size shape.count.toNat first (len / shape.size)).2 ∧
      (w.planFetch shape.size shape.count.toNat first (len / shape.size)).2.Fresh v := by
  obtain ⟨hwhole, hrange⟩ := checkRange_eq_ok.mp hcheck
  have hlen : len / shape.size * shape.size = len :=
    Nat.div_mul_cancel (Nat.dvd_of_mod_eq_zero hwhole)
  have hmax : shape.count.toNat < 2 ^ 64 := shape.count.toNat_lt
  rw [planFetch]
  generalize len / shape.size = count at hrange hlen ⊢
  generalize (finRange 2).find? (fun slot => (w.windows slot).isAdjacent first) = adjacent
  dsimp only
  split
  · exact ⟨trivial, h⟩
  · rename_i hshare
    generalize w.slotFor adjacent = slot at *
    have hfetched : ∀ fetched,
        fetched = (if adjacent.isSome then min (w.share slot) (shape.count.toNat - first)
          else count) →
        count ≤ fetched ∧ fetched ≤ w.share slot ∧ first + fetched ≤ shape.count.toNat := by
      rintro fetched rfl
      split <;> omega
    obtain ⟨hcovers, hroom, hbound⟩ := hfetched _ rfl
    refine ⟨⟨hcheck, hsize, ⟨?_, ?_, ?_, ?_⟩⟩, ?_⟩
    · simp only [Function.update_self, Window.vacate]
    · simp only [hsize]
      rw [← hlen]
      exact Nat.mul_le_mul_right _ hcovers
    · simp only [Function.update_self, Window.vacate, takeD_length, hsize]
      exact Nat.mul_le_mul_right _ hroom
    · exact lt_of_le_of_lt hbound hmax
    · apply h.update
      exact Window.fresh_of_empty rfl

theorem plan_spec (h : w.Fresh v) (shape : Shape) (first len : Nat) :
    (w.plan shape first len).1.Serves v shape first len (w.plan shape first len).2 ∧
      (w.plan shape first len).2.Fresh v := by
  have hresize : (w.resize shape.size).Fresh v := h.resize
  have hsize : (w.resize shape.size).blockSize = shape.size := resize_blockSize
  rw [plan]
  generalize w.resize shape.size = w at *
  dsimp only
  split
  · exact ⟨trivial, hresize⟩
  · rename_i hplan
    simp only [not_or, not_not] at hplan
    obtain ⟨-, hlen, hcheck⟩ := hplan
    obtain ⟨hwhole, -⟩ := checkRange_eq_ok.mp hcheck
    have hdvd := Nat.dvd_of_mod_eq_zero hwhole
    split
    · rename_i slot hslot
      refine ⟨⟨hcheck, ?_⟩, hresize⟩
      have hholds := find?_some hslot
      have hcount : 0 < len / shape.size := Nat.div_pos (Nat.le_of_dvd (by omega) hdvd) shape.pos
      have hbytes := (hsize ▸ hresize slot).holds hholds hcount
      rwa [Nat.div_mul_cancel hdvd] at hbytes
    · exact planFetch_spec hresize hsize hcheck

end Windows

namespace Disk

variable [Inhabited β]

theorem settle_read (d : Disk β) (start first len : Nat) (reply : DiskReply β)
    (rest : List (DiskReply β)) :
    (d.settle start (.read first len) reply rest).contents = d.contents := by
  cases reply with
  | done shape => exact putBlocks_nil _ _
  | failed error garbled landed shape => exact (landBlocks_lands _ _ _ _).eq_of_nil
  | pending garbled landed shape => exact (landBlocks_lands _ _ _ _).eq_of_nil

omit [Inhabited β] in
theorem received_read {d : Disk β} {start first len : Nat} {buf : List β} (h : buf.length = len) :
    d.received start (.read first len) buf = bytesOf d.contents start len :=
  splat_of_length ((length_bytesOf _ _ _).trans h.symm)

theorem wait_read (start first len : Nat) (script : List (DiskReply β))
    (d : Disk β) {buf : List β} (h : buf.length = len) :
    (wait start (.read first len) script d buf).2.2.contents = d.contents ∧
      ((wait start (.read first len) script d buf).1 = .ok () →
        (wait start (.read first len) script d buf).2.1 = bytesOf d.contents start len) := by
  induction script generalizing d buf with
  | nil => exact ⟨settle_read _ _ _ _ _ _, fun _ => received_read h⟩
  | cons reply rest ih =>
    cases reply with
    | done shape => exact ⟨settle_read _ _ _ _ _ _, fun _ => received_read h⟩
    | failed error garbled landed shape =>
      refine ⟨settle_read _ _ _ _ _ _, ?_⟩
      intro hok
      cases hok
    | pending garbled landed shape =>
      have hrest := ih (d.settle start (.read first len) (.pending garbled landed shape) rest)
        ((length_splat _ garbled).trans h)
      rw [settle_read] at hrest
      exact hrest

theorem wait_buf (start : Nat) (call : Call β) (script : List (DiskReply β)) (d : Disk β)
    (buf buf' : List β) :
    (wait start call script d buf).1 = (wait start call script d buf').1 := by
  induction script generalizing d buf buf' with
  | nil => rfl
  | cons reply rest ih =>
    cases reply with
    | done shape => rfl
    | failed error garbled landed shape => rfl
    | pending garbled landed shape => exact ih _ _ _

theorem serve_read (d : Disk β) (first : Nat) (buf : List β) :
    (d.serve (.read first buf.length) buf).2.2.contents = d.contents ∧
      ((d.serve (.read first buf.length) buf).1 = .ok () →
        d.check (.read first buf.length) = .ok () ∧
          (d.serve (.read first buf.length) buf).2.1 =
            bytesOf d.contents (first * d.shape.size) buf.length) := by
  rw [serve]
  cases hcheck : d.check (.read first buf.length) with
  | error error =>
    refine ⟨rfl, ?_⟩
    intro hok
    cases hok
  | ok _ =>
    have hwait := wait_read (first * d.shape.size) first buf.length d.script d rfl
    exact ⟨hwait.1, fun hok => ⟨rfl, hwait.2 hok⟩⟩

theorem serve_buf (d : Disk β) (call : Call β) (buf buf' : List β) :
    (d.serve call buf).1 = (d.serve call buf').1 := by
  rw [serve, serve]
  cases d.check call with
  | error error => rfl
  | ok _ => exact wait_buf _ _ _ _ _ _

theorem serve_of_refused {d : Disk β} {call : Call β} {buf : List β} {error : Error}
    (hscript : d.script = []) (h : (d.serve call buf).1 = .error error) :
    (d.serve call buf).2.2 = d := by
  rw [serve] at h ⊢
  cases hcheck : d.check call with
  | error error => rfl
  | ok _ =>
    rw [hcheck, hscript] at h
    cases h

theorem wait_outside (start : Nat) (call : Call β) (script : List (DiskReply β)) (d : Disk β)
    (buf : List β) {i : Nat} (h : ¬ (start ≤ i ∧ i < start + call.data.length)) :
    (wait start call script d buf).2.2.contents i = d.contents i := by
  have hland : ∀ landed (d : Disk β), landBlocks landed d.contents start call.data i =
      d.contents i := by
    intro landed d
    rcases landBlocks_lands landed d.contents start call.data i with hi | hi
    · exact hi
    · rw [hi, putBlocks_outside h]
  induction script generalizing d buf with
  | nil => exact putBlocks_outside h
  | cons reply rest ih =>
    cases reply with
    | done shape => exact putBlocks_outside h
    | failed error garbled landed shape => exact hland landed d
    | pending garbled landed shape => exact (ih _ _).trans (hland landed d)

theorem serve_outside (d : Disk β) (call : Call β) (buf : List β) {i : Nat}
    (h : ¬ (d.start call ≤ i ∧ i < d.start call + call.data.length)) :
    (d.serve call buf).2.2.contents i = d.contents i := by
  rw [serve]
  cases d.check call with
  | error error => rfl
  | ok _ => exact wait_outside _ _ _ _ _ h

section

variable (d : Disk β) (child : Ticket β) (call : Call β) (buf : List β)

theorem poll_outside (start : Nat) {i : Nat} (h : ¬ (start ≤ i ∧ i < start + call.data.length)) :
    (d.poll start call buf).2.2.contents i = d.contents i := by
  have hland : ∀ landed, landBlocks landed d.contents start call.data i = d.contents i := by
    intro landed
    rcases landBlocks_lands landed d.contents start call.data i with hi | hi
    · exact hi
    · rw [hi, putBlocks_outside h]
  rw [poll]
  rcases d.script with _ | ⟨_ | _ | _, rest⟩
  · exact putBlocks_outside h
  · exact putBlocks_outside h
  · exact hland _
  · exact hland _

theorem length_poll (start : Nat) : (d.poll start call buf).2.1.length = buf.length := by
  rw [poll]
  rcases d.script with _ | ⟨_ | _ | _, rest⟩ <;> exact length_splat _ _

variable [DecidableEq β]

theorem advance_outside {i : Nat}
    (h : ¬ (d.begins call child ≤ i ∧ i < d.begins call child + call.data.length)) :
    (d.advance child call buf).2.2.2.contents i = d.contents i := by
  rw [advance]
  cases d.check call with
  | error error => rfl
  | ok _ =>
    dsimp only
    rw [proceed]
    split
    · exact d.poll_outside call buf _ h
    · exact d.poll_outside .flush buf 0 fun hi => absurd hi.2 (Nat.not_lt_zero _)

theorem advance_contents (h : call.data = []) :
    (d.advance child call buf).2.2.2.contents = d.contents := by
  funext i
  apply advance_outside
  rw [h]
  exact fun hi => absurd hi.2 (Nat.not_lt.mpr hi.1)

theorem length_advance : (d.advance child call buf).2.2.1.length = buf.length := by
  rw [advance]
  cases d.check call with
  | error error => rfl
  | ok _ =>
    dsimp only
    rw [proceed]
    split <;> exact length_poll _ _ _ _

variable {d child call buf}

theorem advance_pending (h : (d.advance child call buf).1 = .pending) :
    (d.advance child call buf).2.1 = .busy (d.begins call child) call := by
  rw [advance] at h ⊢
  cases hcheck : d.check call with
  | error error =>
    rw [hcheck] at h
    cases h
  | ok _ =>
    rw [hcheck] at h
    dsimp only at h ⊢
    rw [h, Answer.isPending, if_pos rfl]

theorem advance_buf (d : Disk β) (child : Ticket β) (call : Call β) (buf buf' : List β) :
    (d.advance child call buf).1 = (d.advance child call buf').1 := by
  have hpoll : ∀ start (call : Call β), (d.poll start call buf).1 =
      (d.poll start call buf').1 := by
    intro start call
    rw [poll, poll]
    rcases d.script with _ | ⟨_ | _ | _, rest⟩ <;> rfl
  rw [advance, advance]
  cases d.check call with
  | error error => rfl
  | ok _ =>
    dsimp only
    rw [proceed, proceed]
    split
    · exact hpoll _ _
    · exact hpoll _ _

theorem advance_done {first : Nat}
    (hown : child = .fresh ∨ ∃ start, child = .busy start (.read first buf.length))
    (h : (d.advance child (.read first buf.length) buf).1 = .done) :
    d.check (.read first buf.length) = .ok () ∧
      (d.advance child (.read first buf.length) buf).2.2.1 =
        bytesOf d.contents (d.begins (.read first buf.length) child) buf.length := by
  rw [advance] at h ⊢
  cases hcheck : d.check (.read first buf.length) with
  | error error =>
    rw [hcheck] at h
    cases h
  | ok _ =>
    rw [hcheck] at h
    have hstart : child = .fresh ∨
        child = .busy (d.begins (.read first buf.length) child) (.read first buf.length) := by
      rcases hown with rfl | ⟨start, rfl⟩
      · exact .inl rfl
      · exact .inr rfl
    dsimp only at h ⊢
    rw [proceed, if_pos hstart, poll] at h ⊢
    refine ⟨rfl, ?_⟩
    rcases hscript : d.script with _ | ⟨_ | _ | _, rest⟩ <;> rw [hscript] at h
    · exact received_read rfl
    · exact received_read rfl
    · cases h
    · cases h

end

end Disk

end

end Hadris.Storage
