import Hadris.Program
import Hadris.Storage.ReadAhead

namespace Hadris.Storage

open List

/-- How a call on a byte view ends early: it fails, or its future is dropped while a call of the
device is pending. -/
inductive Cut where
  | error (error : Error)
  | dropped
deriving DecidableEq

/-- What becomes of a call of a drive, with the blocks it has and can hold from then on. A call
that is not done leaves what it has done so far in the buffer of a read, and among
the bytes of a write. -/
inductive Fate (β : Type) where
  | done (count maxCount : UInt64)
  | failed (error : Error) (garbled : List β) (landed : Nat → Bool) (count maxCount : UInt64)
  | dropped (garbled : List β) (landed : Nat → Bool) (count maxCount : UInt64)

/-- A device of blocks of `size` bytes: the bytes of its blocks and, beyond, what a growth makes
visible, with what becomes of the calls to come. These succeed once the fates are used up. -/
structure Drive (β : Type) where
  size : Nat
  pos : 0 < size
  contents : Nat → β
  count : UInt64
  maxCount : UInt64
  fates : List (Fate β)

namespace Drive

variable {β : Type} [Inhabited β]

def serve (d : Drive β) (start : Nat) (data buf : List β) : Except Cut Unit × List β × Drive β :=
  let received := splat buf (bytesOf d.contents start buf.length)
  match d.fates with
  | [] => (.ok (), received, { d with contents := putBlocks d.contents start data })
  | .done count maxCount :: rest =>
    (.ok (), received, { d with
      contents := putBlocks d.contents start data, count := count,
        maxCount := maxCount, fates := rest })
  | .failed error garbled landed count maxCount :: rest =>
    (.error (.error error), splat buf garbled, { d with
      contents := landBlocks landed d.contents start data, count := count,
        maxCount := maxCount, fates := rest })
  | .dropped garbled landed count maxCount :: rest =>
    (.error .dropped, splat buf garbled, { d with
      contents := landBlocks landed d.contents start data, count := count,
        maxCount := maxCount, fates := rest })

def readBlocks (d : Drive β) (first : Nat) (buf : List β) : Except Cut Unit × List β × Drive β :=
  match checkBlocks d.count.toNat first (buf.length / d.size)
    (decide (buf.length % d.size = 0)) with
  | .error error => (.error (.error error), buf, d)
  | .ok () => d.serve (first * d.size) [] buf

def writeBlocks (d : Drive β) (first : Nat) (data : List β) : Except Cut Unit × Drive β :=
  match checkBlocks d.maxCount.toNat first (data.length / d.size)
    (decide (data.length % d.size = 0)) with
  | .error error => (.error (.error error), d)
  | .ok () =>
    match d.serve (first * d.size) data [] with
    | (result, _, d) => (result, d)

def flush (d : Drive β) : Except Cut Unit × Drive β :=
  match d.serve 0 [] [] with
  | (result, _, d) => (result, d)

end Drive

/-- A buffer of one block. Without an allocator it is of a fixed length. -/
structure Scratch (β : Type) where
  buf : List β
  fixed : Bool

namespace Scratch

variable {β : Type} [Inhabited β]

def inline : Nat := 4096

def new (fixed : Bool) : Scratch β := ⟨if fixed then .replicate inline default else [], fixed⟩

def get (scratch : Scratch β) (len : Nat) : Option (Scratch β) :=
  if len ≤ scratch.buf.length then some scratch
  else if scratch.fixed then none
  else some { scratch with buf := scratch.buf.takeD len default }

end Scratch

/-- Bytes of a device at any offsets. -/
structure ByteView (β : Type) where
  inner : Drive β
  position : Nat
  scratch : Scratch β
  cached : Option Nat

/-- Where a stream goes on. -/
inductive SeekFrom where
  | start (offset : UInt64)
  | stop (delta : Int64)
  | current (delta : Int64)

def checkedAddSigned (n : Nat) (delta : Int) : Option Nat :=
  if 0 ≤ n + delta ∧ n + delta < 2 ^ 64 then some (n + delta).toNat else none

def SeekFrom.resolve (pos : SeekFrom) (current len : Nat) : Option Nat :=
  match pos with
  | .start offset => some offset.toNat
  | .stop delta => checkedAddSigned len delta.toInt
  | .current delta => checkedAddSigned current delta.toInt

def pastEnd : Error := .new .invalidInput "byte range past the end of the device"

def blockTooLarge : Error := .new .unsupported "block size exceeds the adapter buffer"

namespace ByteView

variable {β : Type} [Inhabited β]

def new (inner : Drive β) (fixed : Bool) : ByteView β := ⟨inner, 0, .new fixed, none⟩

def len (view : ByteView β) : Nat := min (view.inner.count.toNat * view.inner.size) (2 ^ 64 - 1)

def getMut (view : ByteView β) (inner : Drive β) : ByteView β :=
  { view with cached := none, inner := inner }

def fits (view : ByteView β) (offset len : Nat) : Bool :=
  decide (offset + len < 2 ^ 64) && decide (offset + len ≤ view.len)

def remaining (view : ByteView β) : Nat := view.len - view.position

def forget : Prog (ByteView β) Cut Unit := Prog.modify fun view => { view with cached := none }

def keep (block : Nat) : Prog (ByteView β) Cut Unit :=
  Prog.modify fun view => { view with cached := some block }

def getScratch (size : Nat) : Prog (ByteView β) Cut (List β) := do
  let view ← Prog.gets id
  match view.scratch.get size with
  | none => Prog.fail (.error blockTooLarge)
  | some scratch => do
    Prog.modify fun view => { view with scratch := scratch }
    pure (scratch.buf.take size)

def setScratch (bytes : List β) : Prog (ByteView β) Cut Unit :=
  Prog.modify fun view =>
    { view with scratch := { view.scratch with buf := splat view.scratch.buf bytes } }

def readInner (first len : Nat) : Prog (ByteView β) Cut (List β) := ⟨fun view =>
  match view.inner.readBlocks first (.replicate len default) with
  | (.ok (), buf, inner) => (.ok buf, { view with inner := inner })
  | (.error e, _, inner) => (.error e, { view with inner := inner })⟩

def readScratch (block size : Nat) : Prog (ByteView β) Cut Unit := ⟨fun view =>
  match view.inner.readBlocks block (view.scratch.buf.take size) with
  | (result, buf, inner) =>
    (result, { view with inner := inner, scratch :=
      { view.scratch with buf := splat view.scratch.buf buf } })⟩

def writeInner (first : Nat) (data : List β) : Prog (ByteView β) Cut Unit := ⟨fun view =>
  match view.inner.writeBlocks first data with
  | (result, inner) => (result, { view with inner := inner })⟩

def load (block size : Nat) : Prog (ByteView β) Cut Unit := do
  let view ← Prog.gets id
  if view.cached = some block then pure ()
  else do
    forget
    let _ ← getScratch size
    readScratch block size
    keep block

/-- The bytes of whole blocks, or those of a block up to its end or that of the range, that
an access begins with. -/
def portion (size pos left : Nat) : Nat :=
  if pos % size = 0 ∧ size ≤ left then left / size * size else min (size - pos % size) left

theorem portion_pos {size left : Nat} (hsize : 0 < size) (pos : Nat) (hleft : left ≠ 0) :
    0 < portion size pos left := by
  rw [portion]
  split
  · rename_i h
    exact Nat.mul_pos (Nat.div_pos h.2 hsize) hsize
  · have hlt := Nat.mod_lt pos hsize
    omega

theorem portion_le (size pos left : Nat) : portion size pos left ≤ left := by
  rw [portion]
  split
  · exact Nat.div_mul_le_self left size
  · exact Nat.min_le_right _ _

def readLoop (size : Nat) (hsize : 0 < size) (pos left : Nat) : Prog (ByteView β) Cut (List β) :=
  if left = 0 then pure []
  else do
    let n := portion size pos left
    let block := pos / size
    let within := pos % size
    if within = 0 ∧ size ≤ left then do
      let part ← readInner block n
      let rest ← readLoop size hsize (pos + n) (left - n)
      pure (part ++ rest)
    else do
      load block size
      let scratch ← getScratch size
      let part := (scratch.drop within).take n
      let rest ← readLoop size hsize (pos + n) (left - n)
      pure (part ++ rest)
termination_by left
decreasing_by all_goals exact Nat.sub_lt (Nat.pos_of_ne_zero ‹_›) (portion_pos hsize pos ‹_›)

def readAt (offset len : Nat) : Prog (ByteView β) Cut (List β) := do
  let view ← Prog.gets id
  if view.fits offset len then readLoop view.inner.size view.inner.pos offset len
  else Prog.fail (.error pastEnd)

def uncover (block count : Nat) : Prog (ByteView β) Cut Unit := do
  let view ← Prog.gets id
  if view.cached.any fun cached => decide ((cached + 2 ^ 64 - block) % 2 ^ 64 < count) then forget
  else pure ()

def writeWhole (size block : Nat) (data : List β) : Prog (ByteView β) Cut Unit := do
  uncover block (data.length / size)
  writeInner block data

def writePart (size block within : Nat) (data : List β) : Prog (ByteView β) Cut Unit := do
  load block size
  forget
  let scratch ← getScratch size
  let scratch := scratch.take within ++ data ++ scratch.drop (within + data.length)
  setScratch scratch
  writeInner block scratch
  keep block

def writePortion (size pos : Nat) (data : List β) : Prog (ByteView β) Cut Unit :=
  let n := portion size pos data.length
  let block := pos / size
  let within := pos % size
  if within = 0 ∧ size ≤ data.length then writeWhole size block (data.take n)
  else writePart size block within (data.take n)

def writeLoop (size : Nat) (hsize : 0 < size) (pos : Nat) (data : List β) :
    Prog (ByteView β) Cut Unit :=
  if data.length = 0 then pure ()
  else do
    let n := portion size pos data.length
    writePortion size pos data
    writeLoop size hsize (pos + n) (data.drop n)
termination_by data.length
decreasing_by
  rw [length_drop]
  exact Nat.sub_lt (Nat.pos_of_ne_zero ‹_›) (portion_pos hsize pos ‹_›)

def writeAt (offset : Nat) (data : List β) : Prog (ByteView β) Cut Unit := do
  let view ← Prog.gets id
  if view.fits offset data.length then writeLoop view.inner.size view.inner.pos offset data
  else Prog.fail (.error pastEnd)

def advance (n : Nat) : Prog (ByteView β) Cut Unit :=
  Prog.modify fun view => { view with position := view.position + n }

def read (len : Nat) : Prog (ByteView β) Cut (List β) := do
  let view ← Prog.gets id
  let n := min len view.remaining
  let buf ← readAt view.position n
  advance n
  pure buf

def write (data : List β) : Prog (ByteView β) Cut Nat := do
  let view ← Prog.gets id
  let n := min data.length view.remaining
  writeAt view.position (data.take n)
  advance n
  pure n

def flush : Prog (ByteView β) Cut Unit := ⟨fun view =>
  match view.inner.flush with
  | (result, inner) => (result, { view with inner := inner })⟩

def seekTo (pos : SeekFrom) : Prog (ByteView β) Cut Nat := do
  let view ← Prog.gets id
  match pos.resolve view.position view.len with
  | none => Prog.fail (.error (.new .invalidInput "seek to a negative or overflowing position"))
  | some position => do
    Prog.modify fun view => { view with position := position }
    pure position

end ByteView

section

variable {β : Type} [Inhabited β] {v v' : Nat → β} {start : Nat} {a b data : List β}

theorem putBlocks_append (v : Nat → β) (start : Nat) (a b : List β) :
    putBlocks (putBlocks v start a) (start + a.length) b = putBlocks v start (a ++ b) := by
  funext i
  simp only [putBlocks, length_append]
  by_cases hb : start + a.length ≤ i ∧ i < start + a.length + b.length
  · rw [if_pos hb, if_pos (by omega), getD_append_right _ _ _ _ (by omega), Nat.sub_add_eq]
  · rw [if_neg hb]
    by_cases ha : start ≤ i ∧ i < start + a.length
    · rw [if_pos ha, if_pos (by omega), getD_append _ _ _ _ (by omega)]
    · rw [if_neg ha, if_neg (by omega)]

theorem Lands.before (h : Lands v (putBlocks v start a) v') (b : List β) :
    Lands v (putBlocks v start (a ++ b)) v' := by
  intro i
  by_cases ha : start ≤ i ∧ i < start + a.length
  · rw [← putBlocks_append, putBlocks_outside (show ¬ (start + a.length ≤ i ∧ _) by omega)]
    exact h i
  · refine .inl ((h i).elim id fun hi => hi.trans (putBlocks_outside ha))

theorem Lands.behind (h : Lands (putBlocks v start a) (putBlocks v start (a ++ b)) v') :
    Lands v (putBlocks v start (a ++ b)) v' := by
  intro i
  obtain hi | hi := h i
  · by_cases ha : start ≤ i ∧ i < start + a.length
    · rw [hi, ← putBlocks_append, putBlocks_outside (show ¬ (start + a.length ≤ i ∧ _) by omega)]
      exact .inr rfl
    · exact .inl (hi.trans (putBlocks_outside ha))
  · exact .inr hi

theorem putBlocks_bytesOf (v : Nat → β) (start len : Nat) :
    putBlocks v start (bytesOf v start len) = v := by
  funext i
  simp only [putBlocks, length_bytesOf]
  split
  · rename_i h
    rw [getD_eq_getElem _ _ (by rw [length_bytesOf]; omega)]
    simp only [bytesOf, getElem_map, getElem_range', Nat.one_mul]
    congr 1
    omega
  · rfl

theorem putBlocks_spliced (v : Nat → β) (start within len : Nat) (data : List β) :
    putBlocks v start
      (bytesOf v start within ++ data ++ bytesOf v (start + (within + data.length)) len) =
      putBlocks v (start + within) data := by
  have hlength := length_bytesOf v start within
  rw [append_assoc, ← putBlocks_append, putBlocks_bytesOf, hlength, ← putBlocks_append]
  have hsame : bytesOf v (start + (within + data.length)) len =
      bytesOf (putBlocks v (start + within) data) (start + within + data.length) len := by
    rw [← Nat.add_assoc]
    refine bytesOf_congr fun i hlow _ => (putBlocks_outside ?_).symm
    omega
  rw [hsame, putBlocks_bytesOf]

omit [Inhabited β] in
theorem bytesOf_append (v : Nat → β) (start m n : Nat) :
    bytesOf v start (m + n) = bytesOf v start m ++ bytesOf v (start + m) n := by
  rw [bytesOf, bytesOf, bytesOf, ← map_append, range'_append_1]

theorem bytesOf_putBlocks (v : Nat → β) (start : Nat) (data : List β) :
    bytesOf (putBlocks v start data) start data.length = data := by
  apply ext_getElem
  · exact length_bytesOf _ _ _
  · intro i hi hi'
    simp only [bytesOf, getElem_map, getElem_range', Nat.one_mul]
    rw [putBlocks, if_pos ⟨Nat.le_add_right _ _, Nat.add_lt_add_left hi' _⟩,
      Nat.add_sub_cancel_left, getD_eq_getElem _ _ hi']

end

namespace Drive

variable {β : Type} [Inhabited β]

theorem serve_spec (d : Drive β) (start : Nat) (data buf : List β) :
    match d.serve start data buf with
    | (.ok (), buf', d') => buf' = bytesOf d.contents start buf.length ∧
      d'.contents = putBlocks d.contents start data ∧
        d'.size = d.size
    | (.error _, _, d') => Lands d.contents (putBlocks d.contents start data) d'.contents ∧
      d'.size = d.size := by
  have hbuf : splat buf (bytesOf d.contents start buf.length) =
    bytesOf d.contents start buf.length :=
    splat_of_length (length_bytesOf _ _ _)
  rw [serve]
  rcases d.fates with _ | ⟨_ | _ | _, rest⟩
  · exact ⟨hbuf, rfl, rfl⟩
  · exact ⟨hbuf, rfl, rfl⟩
  · exact ⟨landBlocks_lands _ _ _ _, rfl⟩
  · exact ⟨landBlocks_lands _ _ _ _, rfl⟩

theorem readBlocks_spec (d : Drive β) (first : Nat) (buf : List β) :
    match d.readBlocks first buf with
    | (.ok (), buf', d') => buf' = bytesOf d.contents (first * d.size) buf.length ∧
      d'.contents = d.contents ∧ d'.size = d.size
    | (.error _, _, d') => d'.contents = d.contents ∧ d'.size = d.size := by
  rw [readBlocks]
  cases checkBlocks d.count.toNat first (buf.length / d.size)
    (decide (buf.length % d.size = 0)) with
  | error error => exact ⟨rfl, rfl⟩
  | ok _ =>
    have hserve := d.serve_spec (first * d.size) [] buf
    dsimp only
    rcases hrun : d.serve (first * d.size) [] buf with ⟨_ | _, buf', d'⟩ <;> rw [hrun] at hserve
    · exact ⟨hserve.1.eq_of_nil, hserve.2⟩
    · exact ⟨hserve.1, hserve.2.1.trans (putBlocks_nil _ _), hserve.2.2⟩

theorem writeBlocks_spec (d : Drive β) (first : Nat) (data : List β) :
    match d.writeBlocks first data with
    | (.ok (), d') => d'.contents = putBlocks d.contents (first * d.size) data ∧ d'.size = d.size
    | (.error _, d') => Lands d.contents (putBlocks d.contents (first * d.size) data)
      d'.contents ∧ d'.size = d.size := by
  rw [writeBlocks]
  cases checkBlocks d.maxCount.toNat first (data.length / d.size)
    (decide (data.length % d.size = 0)) with
  | error error => exact ⟨Lands.refl _ _, rfl⟩
  | ok _ =>
    have hserve := d.serve_spec (first * d.size) data []
    dsimp only
    rcases hrun : d.serve (first * d.size) data [] with ⟨_ | _, buf', d'⟩ <;> rw [hrun] at hserve
    · exact hserve
    · exact hserve.2

theorem flush_spec (d : Drive β) : d.flush.2.contents = d.contents ∧ d.flush.2.size = d.size := by
  have hserve := d.serve_spec 0 [] []
  rw [flush]
  rcases hrun : d.serve 0 [] [] with ⟨_ | _, buf', d'⟩ <;> rw [hrun] at hserve
  · exact ⟨hserve.1.eq_of_nil, hserve.2⟩
  · exact ⟨hserve.2.1.trans (putBlocks_nil _ _), hserve.2.2⟩

end Drive

namespace ByteView

open Prog

variable {β : Type} [Inhabited β] {v v' : Nat → β} {size : Nat} {view : ByteView β}

/-- The scratch block holds a block. -/
def Caches (v : Nat → β) (size block : Nat) (scratch : Scratch β) : Prop :=
  size ≤ scratch.buf.length ∧ scratch.buf.take size = bytesOf v (block * size) size

/-- The bytes of the device are `v`, and a block that is marked as cached
is that of the device. -/
structure Shows (v : Nat → β) (size : Nat) (view : ByteView β) : Prop where
  contents : view.inner.contents = v
  blockSize : view.inner.size = size
  cached : ∀ block, view.cached = some block → Caches v size block view.scratch

/-- No block is marked as cached. -/
structure Blank (v : Nat → β) (size : Nat) (view : ByteView β) :
    Prop extends Shows v size view where
  none : view.cached = none

omit [Inhabited β] in
theorem Blank.absent {p : Prop} (h : Blank v size view) {block : Nat}
    (hcached : view.cached = some block) : p :=
  absurd (hcached.symm.trans h.none) (Option.some_ne_none block)

omit [Inhabited β] in
theorem triple_forget : Triple (Shows v size) (forget : Prog (ByteView β) Cut Unit)
    (fun _ => Blank v size)
    (fun _ => Shows v size) :=
  Triple.modify fun _ h => ⟨⟨h.contents, h.blockSize, fun _ hcached => nomatch hcached⟩, rfl⟩

theorem get_spec {scratch scratch' : Scratch β} {len : Nat}
    (h : scratch.get len = some scratch') :
    len ≤ scratch'.buf.length ∧ (len ≤ scratch.buf.length → scratch' = scratch) := by
  rw [Scratch.get] at h
  split at h
  · cases h
    exact ⟨‹_›, fun _ => rfl⟩
  · split at h
    · cases h
    · cases h
      exact ⟨(takeD_length _ _ _).ge, fun hle => absurd hle ‹_›⟩

theorem triple_getScratch_blank :
    Triple (Blank v size) (getScratch size : Prog (ByteView β) Cut (List β))
    (fun scratch view => Blank v size view ∧ scratch = view.scratch.buf.take size ∧
      size ≤ view.scratch.buf.length)
    (fun _ => Shows v size) := by
  intro view h
  rw [getScratch, run_bind_ok (run_gets _ _), id]
  cases hget : view.scratch.get size with
  | none => exact h.toShows
  | some scratch => exact ⟨⟨⟨h.contents, h.blockSize, fun _ hcached => h.absent hcached⟩, h.none⟩,
      rfl, (get_spec hget).1⟩

/-- The view has a block cached. -/
structure Cached (v : Nat → β) (size block : Nat) (view : ByteView β) :
    Prop extends Shows v size view where
  block : view.cached = some block

theorem triple_getScratch_cached (block : Nat) : Triple (Cached v size block)
    (getScratch size : Prog (ByteView β) Cut (List β))
    (fun scratch view => Cached v size block view ∧ scratch = bytesOf v (block * size) size)
      (fun _ => Shows v size) := by
  intro view h
  obtain ⟨hle, htake⟩ := h.cached block h.block
  have hget : view.scratch.get size = some view.scratch := if_pos hle
  rw [getScratch, run_bind_ok (run_gets _ _), id, hget]
  exact ⟨h, htake⟩

theorem triple_readScratch (block : Nat) :
    Triple (fun view => Blank v size view ∧ size ≤ view.scratch.buf.length)
      (readScratch block size : Prog (ByteView β) Cut Unit)
      (fun _ view => Blank v size view ∧ Caches v size block view.scratch)
        (fun _ => Shows v size) := by
  rintro view ⟨h, hle⟩
  have hread := view.inner.readBlocks_spec block (view.scratch.buf.take size)
  have hlength : (view.scratch.buf.take size).length = size := by
    rw [length_take, Nat.min_eq_left hle]
  rw [readScratch]
  rcases hrun : view.inner.readBlocks block (view.scratch.buf.take size) with ⟨_ | _, buf, inner⟩
    <;> rw [hrun] at hread <;>
    simp only [hrun]
  · exact ⟨hread.1.trans h.contents, hread.2.trans h.blockSize, fun _ hcached => h.absent hcached⟩
  · obtain ⟨hbuf, hcontents, hsize⟩ := hread
    rw [h.contents, h.blockSize, hlength] at hbuf
    have hbuf' : buf.length = size := by rw [hbuf, length_bytesOf]
    refine ⟨⟨⟨hcontents.trans h.contents,
      hsize.trans h.blockSize, fun _ hcached => h.absent hcached⟩, h.none⟩, ?_, ?_⟩
    · rw [length_splat]
      exact hle
    · rw [← hbuf', take_splat (hbuf'.trans_le hle), hbuf, length_bytesOf]

omit [Inhabited β] in
theorem triple_keep (block : Nat) {E : Cut → ByteView β → Prop} :
    Triple (fun view => Blank v size view ∧ Caches v size block view.scratch)
      (keep block : Prog (ByteView β) Cut Unit) (fun _ => Cached v size block) E := by
  refine Triple.modify fun view h => ⟨⟨h.1.contents, h.1.blockSize, fun other hother => ?_⟩, rfl⟩
  cases hother
  exact h.2

theorem triple_load (block : Nat) :
    Triple (Shows v size) (load block size : Prog (ByteView β) Cut Unit)
    (fun _ => Cached v size block) (fun _ => Shows v size) := by
  intro view h
  rw [load, run_bind_ok (run_gets _ _), id]
  by_cases hcached : view.cached = some block
  · rw [if_pos hcached]
    exact ⟨h, hcached⟩
  · rw [if_neg hcached]
    refine Triple.bind triple_forget
      (fun _ => Triple.bind triple_getScratch_blank fun _ => ?_) view h
    exact Triple.bind ((triple_readScratch block).pre fun view h => ⟨h.1, h.2.2⟩) fun _ =>
      triple_keep block

theorem triple_readInner (first len : Nat) :
    Triple (Shows v size) (readInner first len : Prog (ByteView β) Cut (List β))
    (fun buf view => Shows v size view ∧ buf = bytesOf v (first * size) len)
      (fun _ => Shows v size) := by
  intro view h
  have hread := view.inner.readBlocks_spec first (.replicate len default)
  rw [readInner]
  rcases hrun : view.inner.readBlocks first (.replicate len default) with ⟨_ | _, buf, inner⟩ <;>
    rw [hrun] at hread <;>
    simp only [hrun]
  · exact ⟨hread.1.trans h.contents, hread.2.trans h.blockSize, h.cached⟩
  · obtain ⟨hbuf, hcontents, hsize⟩ := hread
    refine ⟨⟨hcontents.trans h.contents, hsize.trans h.blockSize, h.cached⟩, ?_⟩
    rw [hbuf, h.contents, h.blockSize, length_replicate]

theorem portion_whole {pos left : Nat} (h : pos % size = 0 ∧ size ≤ left) :
    portion size pos left = left / size * size ∧ pos / size * size = pos := by
  refine ⟨if_pos h, ?_⟩
  have hdiv := Nat.div_add_mod' pos size
  omega

theorem portion_part {pos left : Nat} (hsize : 0 < size) (h : ¬ (pos % size = 0 ∧ size ≤ left)) :
    pos % size + portion size pos left ≤ size ∧ pos / size * size + pos % size = pos := by
  refine ⟨?_, Nat.div_add_mod' pos size⟩
  have hlt := Nat.mod_lt pos hsize
  rw [portion, if_neg h]
  omega

theorem triple_readLoop (hsize : 0 < size) (pos left : Nat) :
    Triple (Shows v size) (readLoop size hsize pos left : Prog (ByteView β) Cut (List β))
      (fun buf view => Shows v size view ∧ buf = bytesOf v pos left) (fun _ => Shows v size) := by
  induction left using Nat.strongRecOn generalizing pos with
  | ind left ih =>
    rw [readLoop]
    refine Triple.ite (fun hleft => ?_) fun hleft => ?_
    · subst hleft
      exact Triple.pure fun _ h => ⟨h, rfl⟩
    have hpos := portion_pos hsize pos hleft
    have hle := portion_le size pos left
    have hrest := ih (left - portion size pos left) (by omega) (pos + portion size pos left)
    have hjoin : bytesOf v pos (portion size pos left) ++ bytesOf v (pos + portion size pos left)
        (left - portion size pos left) =
          bytesOf v pos left := by
      rw [← bytesOf_append, Nat.add_sub_cancel' hle]
    refine Triple.ite (fun hwhole => ?_) fun hpart => ?_
    · refine Triple.bind (triple_readInner (pos / size) (portion size pos left)) fun part => ?_
      refine Triple.of_forall fun view hview => ?_
      obtain ⟨hshows, rfl⟩ := hview
      rw [(portion_whole hwhole).2]
      refine Triple.bind (hrest.pre fun other hother => hother ▸ hshows) fun rest =>
        Triple.pure fun _ h => ⟨h.1, ?_⟩
      rw [h.2, hjoin]
    · obtain ⟨hfit, hat⟩ := portion_part hsize hpart
      refine Triple.bind (triple_load (pos / size)) fun _ =>
        Triple.bind (triple_getScratch_cached (pos / size)) fun scratch => ?_
      refine Triple.of_forall fun view hview => ?_
      obtain ⟨hcached, rfl⟩ := hview
      rw [bytesOf_slice _ hfit, hat]
      refine Triple.bind (hrest.pre fun other hother => hother ▸ hcached.toShows) fun rest =>
        Triple.pure fun _ h => ⟨h.1, ?_⟩
      rw [h.2, hjoin]

theorem run_writeInner (view : ByteView β) (first : Nat) (data : List β) :
    ∃ result inner, (writeInner first data).run view = (result, { view with inner := inner }) ∧
      inner.size = view.inner.size ∧
      match result with
      | .ok () => inner.contents = putBlocks view.inner.contents (first * view.inner.size) data
      | .error _ => Lands view.inner.contents
        (putBlocks view.inner.contents (first * view.inner.size) data) inner.contents := by
  have hwrite := view.inner.writeBlocks_spec first data
  rw [writeInner]
  rcases hrun : view.inner.writeBlocks first data with ⟨result, inner⟩
  rw [hrun] at hwrite
  refine ⟨result, inner, by simp only [hrun], ?_⟩
  cases result with
  | error e => exact ⟨hwrite.2, hwrite.1⟩
  | ok _ => exact ⟨hwrite.2, hwrite.1⟩

/-- The block that is cached has none of the bytes from `start` on. -/
def Clear (size start len : Nat) (view : ByteView β) : Prop :=
  ∀ block, view.cached = some block → (block + 1) * size ≤ start ∨ start + len ≤ block * size

/-- The bytes of a device on which a write of `data` landed in part. -/
def Torn (v : Nat → β) (size pos : Nat) (data : List β) (view : ByteView β) : Prop :=
  ∃ v', Lands v (putBlocks v pos data) v' ∧ Shows v' size view

omit [Inhabited β] in
theorem Caches.congr {block : Nat} {scratch : Scratch β} (h : Caches v size block scratch)
    (heq : ∀ i, block * size ≤ i → i < block * size + size → v i = v' i) :
    Caches v' size block scratch :=
  ⟨h.1, h.2.trans (bytesOf_congr heq)⟩

theorem triple_writeInner (first : Nat) (data : List β) :
    Triple (fun view => Shows v size view ∧ Clear size (first * size) data.length view)
      (writeInner first data : Prog (ByteView β) Cut Unit)
      (fun _ => Shows (putBlocks v (first * size) data) size)
        (fun _ => Torn v size (first * size) data) := by
  rintro view ⟨h, hclear⟩
  obtain ⟨result, inner, hrun, hsize, hresult⟩ := run_writeInner view first data
  rw [hrun]
  rw [h.contents, h.blockSize] at hresult
  have hkept (block : Nat) (hblock : view.cached = some block) (i : Nat) (hlow : block * size ≤ i)
      (hhigh : i < block * size + size) : v i = putBlocks v (first * size) data i := by
    refine (putBlocks_outside ?_).symm
    have hapart := hclear block hblock
    rw [Nat.succ_mul] at hapart
    omega
  cases result with
  | ok _ =>
    refine ⟨hresult, hsize.trans h.blockSize, fun block hblock => (h.cached block hblock).congr
      (hkept block hblock)⟩
  | error e =>
    refine ⟨inner.contents, hresult, rfl, hsize.trans h.blockSize, fun block hblock => ?_⟩
    refine (h.cached block hblock).congr fun i hlow hhigh => ?_
    obtain hi | hi := hresult i
    · exact hi.symm
    · exact (hkept block hblock i hlow hhigh).trans hi.symm

theorem triple_writeScratch (block : Nat) {data : List β} (hdata : data.length = size) :
    Triple (fun view => Blank v size view ∧ size ≤ view.scratch.buf.length ∧
      view.scratch.buf.take size = data)
      (writeInner block data : Prog (ByteView β) Cut Unit)
      (fun _ view => Blank (putBlocks v (block * size) data) size view ∧
        Caches (putBlocks v (block * size) data) size block view.scratch) (fun _ =>
          Torn v size (block * size) data) := by
  rintro view ⟨h, hle, htake⟩
  obtain ⟨result, inner, hrun, hsize, hresult⟩ := run_writeInner view block data
  rw [hrun]
  rw [h.contents, h.blockSize] at hresult
  cases result with
  | ok _ =>
    refine ⟨⟨⟨hresult, hsize.trans h.blockSize, fun _ hcached => h.absent hcached⟩, h.none⟩, hle,
      ?_⟩
    rw [htake, ← hdata, bytesOf_putBlocks]
  | error e => exact ⟨inner.contents, hresult, rfl, hsize.trans h.blockSize,
      fun _ hcached => h.absent hcached⟩

omit [Inhabited β] in
theorem triple_setScratch {bytes : List β} (hbytes : bytes.length = size) :
    Triple (fun view => Blank v size view ∧ size ≤ view.scratch.buf.length)
      (setScratch bytes : Prog (ByteView β) Cut Unit)
      (fun _ view => Blank v size view ∧ size ≤ view.scratch.buf.length ∧
        view.scratch.buf.take size = bytes)
      (fun _ => Shows v size) := by
  refine Triple.modify fun view ⟨h, hle⟩ => ?_
  refine ⟨⟨⟨h.contents, h.blockSize, fun _ hcached => h.absent hcached⟩, h.none⟩, ?_, ?_⟩
  · exact hle.trans (length_splat _ _).ge
  · rw [← hbytes]
    exact take_splat (hbytes.trans_le hle)

theorem triple_getScratch_kept (block : Nat) :
    Triple (fun view => Blank v size view ∧ Caches v size block view.scratch)
      (getScratch size : Prog (ByteView β) Cut (List β))
      (fun scratch view => (Blank v size view ∧ size ≤ view.scratch.buf.length) ∧
        scratch = bytesOf v (block * size) size)
      (fun _ => Shows v size) := by
  rintro view ⟨h, hle, htake⟩
  have hget : view.scratch.get size = some view.scratch := if_pos hle
  rw [getScratch, run_bind_ok (run_gets _ _), id, hget]
  exact ⟨⟨h, hle⟩, htake⟩

omit [Inhabited β] in
theorem triple_forget_cached (block : Nat) :
    Triple (Cached v size block) (forget : Prog (ByteView β) Cut Unit)
    (fun _ view => Blank v size view ∧ Caches v size block view.scratch)
      (fun _ => Shows v size) :=
  Triple.modify fun _ h =>
    ⟨⟨⟨h.contents, h.blockSize, fun _ hcached => nomatch hcached⟩, rfl⟩, h.cached block h.block⟩

theorem wrapping_sub_lt {cached block count : Nat} (hlow : block ≤ cached)
    (hhigh : cached < block + count) :
    (cached + 2 ^ 64 - block) % 2 ^ 64 < count := by
  have hoff : cached + 2 ^ 64 - block = cached - block + 2 ^ 64 := by omega
  calc (cached + 2 ^ 64 - block) % 2 ^ 64 =
    (cached - block) % 2 ^ 64 := by rw [hoff, Nat.add_mod_right]
    _ ≤ cached - block := Nat.mod_le _ _
    _ < count := by omega

omit [Inhabited β] in
theorem triple_uncover (block count : Nat) :
    Triple (Shows v size) (uncover block count : Prog (ByteView β) Cut Unit)
      (fun _ view => Shows v size view ∧ Clear size (block * size) (count * size) view)
        (fun _ => Shows v size) := by
  intro view h
  rw [uncover, run_bind_ok (run_gets _ _), id]
  by_cases hnear :
    (view.cached.any fun cached => decide ((cached + 2 ^ 64 - block) % 2 ^ 64 < count)) = true
  · rw [if_pos hnear]
    exact ⟨⟨h.contents, h.blockSize, fun _ hcached => nomatch hcached⟩,
      fun _ hcached => nomatch hcached⟩
  · rw [if_neg hnear]
    refine ⟨h, fun other hother => ?_⟩
    rw [hother, Option.any_some, decide_eq_true_eq] at hnear
    rw [← Nat.add_mul]
    by_cases hlow : block ≤ other
    · have hhigh : block + count ≤ other := by
        by_contra hlt
        exact hnear (wrapping_sub_lt hlow (by omega))
      exact .inr (Nat.mul_le_mul_right _ hhigh)
    · exact .inl (Nat.mul_le_mul_right _ (by omega))

omit [Inhabited β] in
theorem length_spliced {scratch data : List β} {within : Nat}
    (h : within + data.length ≤ scratch.length) :
    (scratch.take within ++ data ++ scratch.drop (within + data.length)).length =
      scratch.length := by
  simp only [length_append, length_take, length_drop]
  omega

theorem spliced_bytesOf (v : Nat → β) (start : Nat) {within len : Nat} {data : List β}
    (h : within + data.length ≤ len) :
    putBlocks v start ((bytesOf v start len).take within ++ data ++ (bytesOf v start len).drop
      (within + data.length)) =
      putBlocks v (start + within) data := by
  have hhead : ((bytesOf v start len).drop 0).take within = bytesOf v (start + 0) within :=
    bytesOf_slice v (by omega)
  have htail : ((bytesOf v start len).drop (within + data.length)).take
    (len - (within + data.length)) =
      bytesOf v (start + (within + data.length)) (len - (within + data.length)) :=
        bytesOf_slice v (by omega)
  rw [drop_zero, Nat.add_zero] at hhead
  rw [take_of_length_le (by rw [length_drop, length_bytesOf])] at htail
  rw [hhead, htail, putBlocks_spliced]

theorem Shows.torn {pos : Nat} {data : List β} (h : Shows v size view) :
    Torn v size pos data view :=
  ⟨v, Lands.refl _ _, h⟩

theorem Torn.before {pos : Nat} {a : List β} (h : Torn v size pos a view) (b : List β) :
    Torn v size pos (a ++ b) view :=
  h.imp fun _ h => ⟨h.1.before b, h.2⟩

theorem Torn.behind {pos : Nat} {a b : List β}
    (h : Torn (putBlocks v pos a) size (pos + a.length) b view) :
    Torn v size pos (a ++ b) view :=
  h.imp fun _ h => ⟨Lands.behind (putBlocks_append v pos a b ▸ h.1), h.2⟩

theorem triple_writeWhole (v : Nat → β) (block : Nat) {data : List β}
    (h : data.length % size = 0) :
    Triple (Shows v size) (writeWhole size block data : Prog (ByteView β) Cut Unit)
      (fun _ => Shows (putBlocks v (block * size) data) size)
        (fun _ => Torn v size (block * size) data) := by
  refine Triple.bind ((triple_uncover block (data.length / size)).weaken (fun _ _ hq => hq) fun _
    _ hshows => hshows.torn)
    fun _ => ?_
  rw [Nat.div_mul_cancel (Nat.dvd_of_mod_eq_zero h)]
  exact triple_writeInner block data

theorem triple_writePart (v : Nat → β) (block within : Nat) {data : List β}
    (h : within + data.length ≤ size) :
    Triple (Shows v size) (writePart size block within data : Prog (ByteView β) Cut Unit)
      (fun _ => Shows (putBlocks v (block * size + within) data) size)
      (fun _ => Torn v size (block * size + within) data) := by
  have htorn : ∀ (_ : Cut) (view : ByteView β), Shows v size view →
    Torn v size (block * size + within) data view :=
    fun _ _ hshows => hshows.torn
  refine Triple.bind ((triple_load block).weaken (fun _ _ hq => hq) htorn) fun _ => ?_
  refine Triple.bind ((triple_forget_cached block).weaken (fun _ _ hq => hq) htorn) fun _ => ?_
  refine Triple.bind ((triple_getScratch_kept block).weaken (fun _ _ hq => hq) htorn)
    fun scratch => ?_
  refine Triple.of_forall fun view hview => ?_
  obtain ⟨hblank, rfl⟩ := hview
  have hlength := length_spliced (h.trans (length_bytesOf v (block * size) size).ge)
  rw [length_bytesOf] at hlength
  have hspliced := spliced_bytesOf v (block * size) h
  refine Triple.bind (((triple_setScratch hlength).pre fun other hother => hother ▸ hblank).weaken
    (fun _ _ hq => hq) htorn) fun _ => ?_
  refine Triple.bind ((triple_writeScratch block hlength).weaken (fun _ _ hq => hq) fun _ other
    hother => ?_) fun _ => ?_
  · exact hother.imp fun _ hlands => ⟨hspliced ▸ hlands.1, hlands.2⟩
  · rw [hspliced]
    exact (triple_keep block).post fun _ _ hcached => hcached.toShows

theorem triple_write_append {x y : Prog (ByteView β) Cut Unit} {pos : Nat} {a b : List β}
    (hx : Triple (Shows v size) x (fun _ => Shows (putBlocks v pos a) size)
      (fun _ => Torn v size pos a))
    (hy : Triple (Shows (putBlocks v pos a) size) y
      (fun _ => Shows (putBlocks (putBlocks v pos a) (pos + a.length) b) size)
      (fun _ => Torn (putBlocks v pos a) size (pos + a.length) b)) :
    Triple (Shows v size) (x >>= fun _ => y) (fun _ => Shows (putBlocks v pos (a ++ b)) size)
      (fun _ => Torn v size pos (a ++ b)) := by
  refine Triple.bind (hx.weaken (fun _ _ hq => hq) fun _ _ htorn => htorn.before b) fun _ => ?_
  rw [← putBlocks_append]
  exact hy.weaken (fun _ _ hq => hq) fun _ _ htorn => htorn.behind

theorem triple_writePortion (hsize : 0 < size) (pos : Nat) (data : List β) :
    Triple (Shows v size) (writePortion size pos data : Prog (ByteView β) Cut Unit)
      (fun _ => Shows (putBlocks v pos (data.take (portion size pos data.length))) size)
      (fun _ => Torn v size pos (data.take (portion size pos data.length))) := by
  have htake := length_take_of_le (portion_le size pos data.length)
  refine Triple.ite (fun hwhole => ?_) fun hpart => ?_
  · obtain ⟨hportion, hat⟩ := portion_whole hwhole
    have hrem : (data.take (portion size pos data.length)).length % size =
      0 := by rw [htake, hportion, Nat.mul_mod_left]
    have hwrite := triple_writeWhole v (pos / size) hrem
    rwa [hat] at hwrite
  · obtain ⟨hfit, hat⟩ := portion_part hsize hpart
    have hwrite := triple_writePart v (pos / size) (pos % size) (htake.symm ▸ hfit)
    rwa [hat] at hwrite

theorem triple_writeLoop (hsize : 0 < size) (pos : Nat) (data : List β) :
    Triple (Shows v size) (writeLoop size hsize pos data : Prog (ByteView β) Cut Unit)
      (fun _ => Shows (putBlocks v pos data) size) (fun _ => Torn v size pos data) := by
  generalize hlength : data.length = left
  induction left using Nat.strongRecOn generalizing v pos data with
  | ind left ih =>
    rw [writeLoop]
    refine Triple.ite (fun hempty => ?_) fun hleft => ?_
    · rw [eq_nil_of_length_eq_zero hempty, putBlocks_nil]
      exact Triple.pure fun _ h => h
    have hpos := portion_pos hsize pos hleft
    have hle := portion_le size pos data.length
    have hhead := triple_writePortion (v := v) hsize pos data
    generalize portion size pos data.length = n at hpos hle hhead
    have hrest := ih (left - n) (by omega) (v := putBlocks v pos (data.take n))
      (pos + n) (data.drop n)
      (by rw [length_drop, hlength])
    have hall := triple_write_append hhead (by rwa [length_take_of_le hle])
    rwa [take_append_drop] at hall

theorem readAt_spec (h : Shows v size view) (offset len : Nat) :
    match (readAt offset len).run view with
    | (.ok buf, view') => (Shows v size view' ∧ offset + len ≤ view.len) ∧
      buf = bytesOf v offset len
    | (.error _, view') => Shows v size view' := by
  rw [readAt, run_bind_ok (run_gets _ _), id]
  by_cases hfits : view.fits offset len = true
  · rw [if_pos hfits]
    have hread := triple_readLoop view.inner.pos offset len view
      ⟨h.contents, rfl, h.blockSize ▸ h.cached⟩
    rw [fits, Bool.and_eq_true, decide_eq_true_eq, decide_eq_true_eq] at hfits
    rcases hrun : (readLoop view.inner.size view.inner.pos offset len).run
      view with ⟨_ | buf, view'⟩ <;>
      rw [hrun] at hread
    · exact h.blockSize ▸ hread
    · exact ⟨⟨h.blockSize ▸ hread.1, hfits.2⟩, hread.2⟩
  · rw [if_neg hfits]
    exact h

theorem writeAt_spec (h : Shows v size view) (offset : Nat) (data : List β) :
    match (writeAt offset data).run view with
    | (.ok (), view') => Shows (putBlocks v offset data) size view' ∧
      offset + data.length ≤ view.len
    | (.error _, view') => Torn v size offset data view' := by
  rw [writeAt, run_bind_ok (run_gets _ _), id]
  by_cases hfits : view.fits offset data.length = true
  · rw [if_pos hfits]
    have hwrite := triple_writeLoop view.inner.pos offset data view
      ⟨h.contents, rfl, h.blockSize ▸ h.cached⟩
    rw [fits, Bool.and_eq_true, decide_eq_true_eq, decide_eq_true_eq] at hfits
    rcases hrun : (writeLoop view.inner.size view.inner.pos offset data).run
      view with ⟨_ | _, view'⟩ <;>
      rw [hrun] at hwrite
    · exact h.blockSize ▸ hwrite
    · exact ⟨h.blockSize ▸ hwrite, hfits.2⟩
  · rw [if_neg hfits]
    exact h.torn

section

variable {p : Nat}

/-- The position of the stream, which the accesses at an offset leave alone. -/
def At (p : Nat) (view : ByteView β) : Prop := view.position = p

omit [Inhabited β] in
theorem forget_at : Keeps (At p) (forget : Prog (ByteView β) Cut Unit) :=
  Keeps.modify fun _ h => h

theorem getScratch_at (size : Nat) :
    Keeps (At p) (getScratch size : Prog (ByteView β) Cut (List β)) := by
  intro view h
  rw [getScratch, run_bind_ok (run_gets _ _), id]
  cases view.scratch.get size with
  | none => exact h
  | some scratch => exact h

theorem writeInner_at (first : Nat) (data : List β) : Keeps (At p) (writeInner first data) := by
  intro view h
  obtain ⟨result, inner, hrun, -⟩ := run_writeInner view first data
  rw [hrun]
  exact h

theorem readInner_at (first len : Nat) :
    Keeps (At p) (readInner first len : Prog (ByteView β) Cut (List β)) := by
  intro view h
  rw [readInner]
  rcases hrun : view.inner.readBlocks first (.replicate len default) with ⟨_ | _, buf, inner⟩ <;>
    simp only [hrun] <;> exact h

theorem load_at (block size : Nat) :
    Keeps (At p) (load block size : Prog (ByteView β) Cut Unit) := by
  refine Keeps.bind (Keeps.gets _) fun view => Keeps.ite (Keeps.pure _) ?_
  refine Keeps.bind forget_at fun _ => Keeps.bind (getScratch_at size) fun _ =>
    Keeps.bind ?_ fun _ => ?_
  · exact fun _ h => h
  · exact Keeps.modify fun _ h => h

theorem readLoop_at (hsize : 0 < size) (pos left : Nat) :
    Keeps (At p) (readLoop size hsize pos left : Prog (ByteView β) Cut (List β)) := by
  induction left using Nat.strongRecOn generalizing pos with
  | ind left ih =>
    rw [readLoop]
    refine Keeps.ite' (fun _ => Keeps.pure _) fun hleft => ?_
    have hpos := portion_pos hsize pos hleft
    have hrest := ih (left - portion size pos left) (by omega) (pos + portion size pos left)
    refine Keeps.ite ?_ ?_
    · exact Keeps.bind (readInner_at _ _) fun _ => Keeps.bind hrest fun _ => Keeps.pure _
    · exact Keeps.bind (load_at _ _) fun _ => Keeps.bind (getScratch_at _) fun _ =>
        Keeps.bind hrest fun _ => Keeps.pure _

theorem writePortion_at (size pos : Nat) (data : List β) :
    Keeps (At p) (writePortion size pos data) := by
  refine Keeps.ite
    (Keeps.bind (Keeps.bind (Keeps.gets _) fun _ => Keeps.ite forget_at (Keeps.pure _)) fun _ =>
      writeInner_at _ _) ?_
  refine Keeps.bind (load_at _ _) fun _ => Keeps.bind forget_at fun _ =>
    Keeps.bind (getScratch_at _) fun _ => ?_
  exact Keeps.bind (Keeps.modify fun _ h => h) fun _ => Keeps.bind (writeInner_at _ _) fun _ =>
    Keeps.modify fun _ h => h

theorem writeLoop_at (hsize : 0 < size) (pos : Nat) (data : List β) :
    Keeps (At p) (writeLoop size hsize pos data) := by
  generalize hlength : data.length = left
  induction left using Nat.strongRecOn generalizing pos data with
  | ind left ih =>
    rw [writeLoop]
    refine Keeps.ite' (fun _ => Keeps.pure _) fun hleft =>
      Keeps.bind (writePortion_at _ _ _) fun _ => ?_
    have hpos := portion_pos hsize pos hleft
    have hle := portion_le size pos data.length
    exact ih _ (by omega) _ _ length_drop

end

theorem readAt_at (view : ByteView β) (offset len : Nat) :
    ((readAt offset len).run view).2.position = view.position :=
  Keeps.bind (Keeps.gets _) (fun _ => Keeps.ite (readLoop_at _ _ _) (Keeps.fail _)) view rfl

theorem writeAt_at (view : ByteView β) (offset : Nat) (data : List β) :
    ((writeAt offset data).run view).2.position = view.position :=
  Keeps.bind (Keeps.gets _) (fun _ => Keeps.ite (writeLoop_at _ _ _) (Keeps.fail _)) view rfl

theorem read_spec (h : Shows v size view) (len : Nat) :
    match (read len).run view with
    | (.ok buf, view') => Shows v size view' ∧
      buf = bytesOf v view.position (min len view.remaining) ∧
        view'.position = view.position + min len view.remaining
    | (.error _, view') => Shows v size view' ∧ view'.position = view.position := by
  have hread := readAt_spec h view.position (min len view.remaining)
  have hat := readAt_at view view.position (min len view.remaining)
  rw [read, run_bind_ok (run_gets _ _), id]
  rcases hrun : (readAt view.position (min len view.remaining)).run view with ⟨e | buf, view'⟩ <;>
    rw [hrun] at hread hat
  · rw [run_bind_error hrun]
    exact ⟨hread, hat⟩
  · rw [run_bind_ok hrun]
    exact ⟨⟨hread.1.1.contents, hread.1.1.blockSize, hread.1.1.cached⟩, hread.2,
      congrArg (· + _) hat⟩

theorem write_spec (h : Shows v size view) (data : List β) :
    match (write data).run view with
    | (.ok n, view') => Shows (putBlocks v view.position (data.take n)) size view' ∧
      n = min data.length view.remaining ∧
        view'.position = view.position + n
    | (.error _, view') => Torn v size view.position
      (data.take (min data.length view.remaining)) view' ∧
        view'.position = view.position := by
  have hwrite := writeAt_spec h view.position (data.take (min data.length view.remaining))
  have hat := writeAt_at view view.position (data.take (min data.length view.remaining))
  rw [write, run_bind_ok (run_gets _ _), id]
  rcases hrun : (writeAt view.position (data.take (min data.length view.remaining))).run
    view with ⟨e | _, view'⟩ <;>
    rw [hrun] at hwrite hat
  · rw [run_bind_error hrun]
    exact ⟨hwrite, hat⟩
  · rw [run_bind_ok hrun]
    exact ⟨⟨hwrite.1.contents, hwrite.1.blockSize, hwrite.1.cached⟩, rfl, congrArg (· + _) hat⟩

end ByteView

/-- A call on a byte view, or one that hands its device out, to come back as another. -/
inductive ViewCall (β : Type) where
  | readAt (offset len : Nat)
  | writeAt (offset : Nat) (data : List β)
  | read (len : Nat)
  | write (data : List β)
  | flush
  | seek (pos : SeekFrom)
  | getMut (inner : Drive β)

namespace ViewCall

variable {β : Type} [Inhabited β]

def perform (view : ByteView β) : ViewCall β → ByteView β
  | readAt offset len => ((ByteView.readAt offset len).run view).2
  | writeAt offset data => ((ByteView.writeAt offset data).run view).2
  | read len => ((ByteView.read len).run view).2
  | write data => ((ByteView.write data).run view).2
  | flush => (ByteView.flush.run view).2
  | seek pos => ((ByteView.seekTo pos).run view).2
  | getMut inner => view.getMut inner

def after (view : ByteView β) (calls : List (ViewCall β)) : ByteView β := calls.foldl perform view

end ViewCall

namespace ByteView

open Prog

variable {β : Type} [Inhabited β] {view : ByteView β}

/-- A block that is marked as cached is that of the device. -/
def Coherent (view : ByteView β) : Prop :=
  ∀ block, view.cached = some block → view.inner.size ≤ view.scratch.buf.length ∧
    view.scratch.buf.take view.inner.size = bytesOf view.inner.contents
      (block * view.inner.size) view.inner.size

omit [Inhabited β] in
theorem Shows.coherent {v : Nat → β} {size : Nat} (h : Shows v size view) : Coherent view := by
  obtain ⟨rfl, rfl, hcached⟩ := h
  exact hcached

omit [Inhabited β] in
theorem Coherent.shows (h : Coherent view) : Shows view.inner.contents view.inner.size view :=
  ⟨rfl, rfl, h⟩

theorem Coherent.perform (h : Coherent view) (call : ViewCall β) :
    Coherent (call.perform view) := by
  cases call with
  | readAt offset len =>
    have hread := readAt_spec h.shows offset len
    rw [ViewCall.perform]
    rcases hrun : (readAt offset len).run view with ⟨_ | _, view'⟩ <;> rw [hrun] at hread
    · exact hread.coherent
    · exact hread.1.1.coherent
  | writeAt offset data =>
    have hwrite := writeAt_spec h.shows offset data
    rw [ViewCall.perform]
    rcases hrun : (writeAt offset data).run view with ⟨_ | _, view'⟩ <;> rw [hrun] at hwrite
    · exact hwrite.choose_spec.2.coherent
    · exact hwrite.1.coherent
  | read len =>
    have hread := read_spec h.shows len
    rw [ViewCall.perform]
    rcases hrun : (read len).run view with ⟨_ | _, view'⟩ <;> rw [hrun] at hread <;>
      exact hread.1.coherent
  | write data =>
    have hwrite := write_spec h.shows data
    rw [ViewCall.perform]
    rcases hrun : (write data).run view with ⟨_ | _, view'⟩ <;> rw [hrun] at hwrite
    · exact hwrite.1.choose_spec.2.coherent
    · exact hwrite.1.coherent
  | flush =>
    obtain ⟨hcontents, hsize⟩ := view.inner.flush_spec
    exact Shows.coherent ⟨hcontents, hsize, h⟩
  | seek pos =>
    rw [ViewCall.perform, seekTo, run_bind_ok (run_gets _ _), id]
    cases pos.resolve view.position view.len with
    | none => exact h
    | some position => exact h
  | getMut inner => exact fun _ hcached => nomatch hcached

theorem Coherent.after (h : Coherent view) (calls : List (ViewCall β)) :
    Coherent (ViewCall.after view calls) := by
  induction calls generalizing view with
  | nil => exact h
  | cons call rest ih => exact ih (h.perform call)

/-- Each byte of the range of a write is old or new, and the others are old. -/
def Partly (view : ByteView β) (offset : Nat) (data : List β) (view' : ByteView β) : Prop :=
  ∀ i, view'.inner.contents i = view.inner.contents i ∨
    (offset ≤ i ∧ i < offset + data.length) ∧
      view'.inner.contents i = data.getD (i - offset) default

theorem Torn.partly {size offset : Nat} {data : List β} {view' : ByteView β}
    (h : Torn view.inner.contents size offset data view') : Partly view offset data view' := by
  obtain ⟨v', hlands, rfl, -⟩ := h
  intro i
  by_cases hi : offset ≤ i ∧ i < offset + data.length
  · refine (hlands i).imp id fun hnew => ⟨hi, ?_⟩
    rw [hnew, putBlocks, if_pos hi]
  · refine .inl ((hlands i).elim id fun hnew => ?_)
    rw [hnew, putBlocks_outside hi]

/-- What a view reads and writes are the bytes of its device that are addressed, and no others. -/
structure Exact (view : ByteView β) : Prop where
  coherent : Coherent view
  readAt (offset len : Nat) : match (readAt offset len).run view with
    | (.ok buf, view') => buf = bytesOf view.inner.contents offset len ∧ offset + len ≤ view.len ∧
        view'.inner.contents = view.inner.contents
    | (.error _, view') => view'.inner.contents = view.inner.contents
  writeAt (offset : Nat) (data : List β) : match (writeAt offset data).run view with
    | (.ok (), view') => offset + data.length ≤ view.len ∧
        view'.inner.contents = putBlocks view.inner.contents offset data
    | (.error _, view') => Partly view offset data view'
  read (len : Nat) : match (read len).run view with
    | (.ok buf, view') => buf = bytesOf view.inner.contents view.position
        (min len view.remaining) ∧
        view'.position = view.position + min len view.remaining ∧
          view'.inner.contents = view.inner.contents
    | (.error _, view') => view'.position = view.position ∧
        view'.inner.contents = view.inner.contents
  write (data : List β) : match (write data).run view with
    | (.ok n, view') => n = min data.length view.remaining ∧ view'.position = view.position + n ∧
        view'.inner.contents = putBlocks view.inner.contents view.position (data.take n)
    | (.error _, view') => view'.position = view.position ∧
        Partly view view.position (data.take (min data.length view.remaining)) view'
  flush : (flush.run view).2.inner.contents = view.inner.contents

theorem Coherent.exact (h : Coherent view) : Exact view where
  coherent := h
  readAt offset len := by
    have hread := readAt_spec h.shows offset len
    rcases hrun : (ByteView.readAt offset len).run view with ⟨_ | _, view'⟩ <;> rw [hrun] at hread
    · exact hread.contents
    · exact ⟨hread.2, hread.1.2, hread.1.1.contents⟩
  writeAt offset data := by
    have hwrite := writeAt_spec h.shows offset data
    rcases hrun : (ByteView.writeAt offset data).run view with ⟨_ | _, view'⟩ <;>
      rw [hrun] at hwrite
    · exact hwrite.partly
    · exact ⟨hwrite.2, hwrite.1.contents⟩
  read len := by
    have hread := read_spec h.shows len
    rcases hrun : (ByteView.read len).run view with ⟨_ | _, view'⟩ <;> rw [hrun] at hread
    · exact ⟨hread.2, hread.1.contents⟩
    · exact ⟨hread.2.1, hread.2.2, hread.1.contents⟩
  write data := by
    have hwrite := write_spec h.shows data
    rcases hrun : (ByteView.write data).run view with ⟨_ | _, view'⟩ <;> rw [hrun] at hwrite
    · exact ⟨hwrite.2, hwrite.1.partly⟩
    · exact ⟨hwrite.2.1, hwrite.2.2, hwrite.1.contents⟩
  flush := view.inner.flush_spec.1

/-- A view transfers exact ranges after any calls, whatever becomes of those of its device. -/
theorem exact_of_calls (inner : Drive β) (fixed : Bool) (calls : List (ViewCall β)) :
    Exact (ViewCall.after (new inner fixed) calls) :=
  have hnew : Coherent (new inner fixed) := fun _ hcached => nomatch hcached
  (hnew.after calls).exact

end ByteView

end Hadris.Storage
