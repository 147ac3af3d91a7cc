import Hadris.Program

namespace Hadris

open List

def slice (img : Nat → UInt8) (at_ len : Nat) : List UInt8 :=
  (List.range len).map fun i => img (at_ + i)

def patch (img : Nat → UInt8) (at_ : Nat) (data : List UInt8) : Nat → UInt8 := fun a =>
  if at_ ≤ a ∧ a < at_ + data.length then data.getD (a - at_) 0 else img a

def tableBytes (table : List (Nat × UInt8)) (a : Nat) : UInt8 := (table.lookup a).getD 0

section Bytes

variable (img : Nat → UInt8) (at_ len : Nat) (data : List UInt8)

@[simp] theorem slice_length : (slice img at_ len).length = len := by simp [slice]

@[simp] theorem slice_zero : slice img at_ 0 = [] := rfl

@[simp] theorem patch_nil : patch img at_ [] = img := by
  funext a
  simp [patch]

theorem slice_getD {i : Nat} (h : i < len) : (slice img at_ len).getD i 0 = img (at_ + i) := by
  simp [slice, getD_eq_getElem?_getD, h]

theorem slice_getElem {i : Nat} (h : i < (slice img at_ len).length) :
    (slice img at_ len)[i] = img (at_ + i) := by
  simp [slice]

theorem slice_congr {img img' : Nat → UInt8} {at_ len : Nat}
    (h : ∀ i < len, img (at_ + i) = img' (at_ + i)) : slice img at_ len = slice img' at_ len := by
  apply map_congr_left
  intro i hi
  exact h i (mem_range.mp hi)

theorem slice_append (n m : Nat) :
    slice img at_ (n + m) = slice img at_ n ++ slice img (at_ + n) m := by
  simp only [slice, range_add, map_append, map_map]
  congr 1
  apply map_congr_left
  intro i _
  simp [Nat.add_assoc]

theorem take_slice {n : Nat} (h : n ≤ len) : (slice img at_ len).take n = slice img at_ n := by
  obtain ⟨m, rfl⟩ := Nat.exists_eq_add_of_le h
  rw [slice_append, take_left' (slice_length img at_ n)]

theorem drop_slice (n m : Nat) : (slice img at_ (n + m)).drop n = slice img (at_ + n) m := by
  rw [slice_append, drop_left' (slice_length img at_ n)]

theorem patch_of_lt {a : Nat} (h : a < at_) : patch img at_ data a = img a := by
  simp only [patch]
  rw [if_neg (by omega)]

theorem patch_of_ge {a : Nat} (h : at_ + data.length ≤ a) : patch img at_ data a = img a := by
  simp only [patch]
  rw [if_neg (by omega)]

theorem patch_inside {i : Nat} (h : i < data.length) :
    patch img at_ data (at_ + i) = data.getD i 0 := by
  simp only [patch]
  rw [if_pos (by omega)]
  congr 1
  omega

theorem slice_patch : slice (patch img at_ data) at_ data.length = data := by
  apply ext_getElem (slice_length _ _ _)
  intro i hi hi'
  rw [slice_getElem, patch_inside img at_ data hi', getD_eq_getElem _ _ hi']

theorem slice_patch_inside {at' : Nat} (hlo : at_ ≤ at') (hhi : at' + len ≤ at_ + data.length) :
    slice (patch img at_ data) at' len = (data.drop (at' - at_)).take len := by
  apply ext_getElem (by rw [slice_length, length_take, length_drop]; omega)
  intro i hi hi'
  rw [slice_length] at hi
  obtain ⟨j, rfl⟩ := Nat.exists_eq_add_of_le hlo
  rw [slice_getElem, Nat.add_assoc, patch_inside img at_ data (by omega), getElem_take,
    getElem_drop, getD_eq_getElem _ _ (by omega)]
  congr 1
  omega

theorem slice_patch_disjoint {at' : Nat} (h : at' + len ≤ at_ ∨ at_ + data.length ≤ at') :
    slice (patch img at_ data) at' len = slice img at' len := by
  apply slice_congr
  intro i hi
  rcases h with h | h
  · exact patch_of_lt _ _ _ (by omega)
  · exact patch_of_ge _ _ _ (by omega)

theorem splice_slice {k : Nat} (h : k + data.length ≤ len) :
    (slice img at_ len).take k ++ data ++ (slice img at_ len).drop (k + data.length) =
      slice (patch img (at_ + k) data) at_ len := by
  have hlen : ((slice img at_ len).take k ++ data ++
      (slice img at_ len).drop (k + data.length)).length = len := by
    simp only [length_append, length_take, length_drop, slice_length]
    omega
  apply ext_getElem (hlen.trans (slice_length _ _ _).symm)
  intro i hi hi'
  rw [slice_length] at hi'
  rw [slice_getElem]
  rcases Nat.lt_or_ge i k with hlt | hge
  · rw [getElem_append_left (by simp; omega), getElem_append_left (by simp; omega),
      getElem_take, slice_getElem, patch_of_lt _ _ _ (by omega)]
  · obtain ⟨j, rfl⟩ := Nat.exists_eq_add_of_le hge
    have htake : ((slice img at_ len).take k).length = k := by
      rw [length_take, slice_length]
      omega
    rcases Nat.lt_or_ge j data.length with hin | hout
    · rw [getElem_append_left (by rw [length_append]; omega),
        getElem_append_right (by omega), ← Nat.add_assoc, patch_inside _ _ _ hin,
        getD_eq_getElem _ _ hin]
      congr 1
      omega
    · rw [getElem_append_right (by rw [length_append]; omega), getElem_drop,
        slice_getElem, patch_of_ge _ _ _ (by omega)]
      congr 1
      rw [length_append]
      omega

theorem patch_slice_of_same {img' : Nat → UInt8}
    (h : ∀ a, a < at_ ∨ at_ + len ≤ a → img' a = img a) :
    patch img at_ (slice img' at_ len) = img' := by
  funext a
  by_cases hin : at_ ≤ a ∧ a < at_ + len
  · obtain ⟨i, rfl⟩ := Nat.exists_eq_add_of_le hin.1
    rw [patch_inside _ _ _ (by rw [slice_length]; omega), slice_getD _ _ _ (by omega)]
  · rw [h a (by omega)]
    rcases Nat.lt_or_ge a at_ with hlt | hge
    · exact patch_of_lt _ _ _ hlt
    · exact patch_of_ge _ _ _ (by rw [slice_length]; omega)

theorem patch_append (xs ys : List UInt8) :
    patch (patch img at_ xs) (at_ + xs.length) ys = patch img at_ (xs ++ ys) := by
  funext a
  simp only [patch, length_append]
  by_cases hx : at_ ≤ a ∧ a < at_ + xs.length
  · rw [if_neg (by omega), if_pos hx, if_pos (by omega),
      getD_append _ _ _ _ (by omega)]
  · by_cases hy : at_ + xs.length ≤ a ∧ a < at_ + xs.length + ys.length
    · rw [if_pos hy, if_pos (by omega), getD_append_right _ _ _ _ (by omega)]
      congr 1
      omega
    · rw [if_neg hy, if_neg hx, if_neg (by omega)]

end Bytes

/-- What a device answers to one call. A call that fails may have stored any
of its blocks. -/
inductive Outcome (ε : Type) where
  | done
  | failed (error : ε) (landed : Nat → Bool)

/-- What became of a block write: it is part of a call that succeeded, or of one
that failed, and then may have been stored. -/
inductive Fate where
  | done
  | failed (landed : Bool)
deriving DecidableEq

def Fate.stored : Fate → Bool
  | .done => true
  | .failed landed => landed

/-- A write of one block, or a flush. `before` is what the block held when the
write was issued. -/
inductive Event where
  | write (block : Nat) (before after : List UInt8) (fate : Fate)
  | flush (done : Bool)
deriving DecidableEq

/-- A block device: its contents as reads see them, the outcomes of the calls
to come (all succeed once the script is used up) and what was done to it, the
newest event first. -/
structure Device (ε : Type) where
  blockSize : Nat
  blockSize_pos : 0 < blockSize
  blockCount : Nat
  bytes : Nat → UInt8
  script : List (Outcome ε)
  log : List Event

namespace Device

variable {ε : Type}

def blockAt (d : Device ε) (index : Nat) : List UInt8 :=
  slice d.bytes (index * d.blockSize) d.blockSize

def size (d : Device ε) : Nat := d.blockCount * d.blockSize

def commit (d : Device ε) (index : Nat) (after : List UInt8) (fate : Fate) : Device ε :=
  { d with
    bytes := if fate.stored then patch d.bytes (index * d.blockSize) after else d.bytes
    log := .write index (d.blockAt index) after fate :: d.log }

/-- The device after writes of the first `n` blocks of `data` from block
`first` on. -/
def commits (fate : Nat → Fate) (first : Nat) (data : List UInt8) :
    Nat → Device ε → Device ε
  | 0, d => d
  | n + 1, d =>
    (commits fate first data n d).commit (first + n)
      ((data.drop (n * d.blockSize)).take d.blockSize) (fate n)

/-- Reads `count` blocks from block `first` on. Blocks past the end of the
device fail with `range`. -/
def readBlocks (range : ε) (first count : Nat) : Prog (Device ε) ε (List UInt8) := ⟨fun d =>
  if first + count ≤ d.blockCount then
    let data := slice d.bytes (first * d.blockSize) (count * d.blockSize)
    match d.script with
    | [] => (.ok data, d)
    | .done :: rest => (.ok data, { d with script := rest })
    | .failed e _ :: rest => (.error e, { d with script := rest })
  else (.error range, d)⟩

def writeBlocks (range : ε) (first : Nat) (data : List UInt8) :
    Prog (Device ε) ε Unit := ⟨fun d =>
  let count := data.length / d.blockSize
  if first + count ≤ d.blockCount then
    match d.script with
    | [] => (.ok (), d.commits (fun _ => .done) first data count)
    | .done :: rest =>
      (.ok (), { d with script := rest }.commits (fun _ => .done) first data count)
    | .failed e landed :: rest =>
      (.error e, { d with script := rest }.commits (fun n => .failed (landed n)) first data count)
  else (.error range, d)⟩

def flush : Prog (Device ε) ε Unit := ⟨fun d =>
  match d.script with
  | [] => (.ok (), { d with log := .flush true :: d.log })
  | .done :: rest => (.ok (), { d with script := rest, log := .flush true :: d.log })
  | .failed e _ :: rest => (.error e, { d with script := rest, log := .flush false :: d.log })⟩

def patchedBlock (d : Device ε) (offset : Nat) (data : List UInt8) (index : Nat) : List UInt8 :=
  slice (patch d.bytes offset data) (index * d.blockSize) d.blockSize

/-- The byte up to which `data` is stored at byte `offset` once the block of its
byte `n` is written. -/
def storedTo (bs offset : Nat) (data : List UInt8) (n : Nat) : Nat :=
  min data.length (((offset + n) / bs + 1) * bs - offset)

/-- What the block writes that store `data` at byte `offset` lead to: `P n` when
the first `n` bytes are stored, and `F n` once a call failed that wrote as
far. -/
structure Stores (bs offset : Nat) (data : List UInt8) (P F : Nat → Device ε → Prop) : Prop where
  blockSize : ∀ n d, P n d → d.blockSize = bs
  failedSize : ∀ n d, F n d → d.blockSize = bs
  script : ∀ n d rest, P n d → P n { d with script := rest }
  pending : ∀ n d, n < data.length → P n d → F n d
  failed : ∀ n d landed, n < data.length → F n d → F (storedTo bs offset data n)
    (d.commit ((offset + n) / bs) (d.patchedBlock offset data ((offset + n) / bs))
      (.failed landed))
  done : ∀ n d, n < data.length → P n d → P (storedTo bs offset data n)
    (d.commit ((offset + n) / bs) (d.patchedBlock offset data ((offset + n) / bs)) .done)

section Lemmas

variable (d : Device ε)

@[simp] theorem patchedBlock_length (offset : Nat) (data : List UInt8) (index : Nat) :
    (d.patchedBlock offset data index).length = d.blockSize := by
  simp [patchedBlock]

@[simp] theorem blockAt_length (index : Nat) : (d.blockAt index).length = d.blockSize := by
  simp [blockAt]

@[simp] theorem commit_blockSize (index : Nat) (after : List UInt8) (fate : Fate) :
    (d.commit index after fate).blockSize = d.blockSize := rfl

@[simp] theorem commit_blockCount (index : Nat) (after : List UInt8) (fate : Fate) :
    (d.commit index after fate).blockCount = d.blockCount := rfl

@[simp] theorem commit_script (index : Nat) (after : List UInt8) (fate : Fate) :
    (d.commit index after fate).script = d.script := rfl

theorem commit_bytes (index : Nat) {after : List UInt8} (fate : Fate)
    (hlen : after.length = d.blockSize) (a : Nat) :
    (d.commit index after fate).bytes a =
      if fate.stored = true ∧ a / d.blockSize = index then after.getD (a % d.blockSize) 0
      else d.bytes a := by
  have hdiv := Nat.div_add_mod' a d.blockSize
  have hmod := Nat.mod_lt a d.blockSize_pos
  simp only [commit]
  cases fate.stored with
  | false => simp
  | true =>
    simp only [if_true, true_and]
    by_cases h : a / d.blockSize = index
    · have hin := patch_inside d.bytes (a / d.blockSize * d.blockSize) after
        (i := a % d.blockSize) (by omega)
      rw [hdiv] at hin
      rw [if_pos h, ← h, hin]
    · rw [if_neg h]
      rcases Nat.lt_or_gt_of_ne h with hlt | hgt
      · have hmul := Nat.mul_le_mul_right d.blockSize (Nat.succ_le_of_lt hlt)
        rw [Nat.succ_mul] at hmul
        exact patch_of_lt _ _ _ (by omega)
      · have hmul := Nat.mul_le_mul_right d.blockSize (Nat.succ_le_of_lt hgt)
        rw [Nat.succ_mul] at hmul
        exact patch_of_ge _ _ _ (by omega)

theorem blockAt_getD (a : Nat) :
    (d.blockAt (a / d.blockSize)).getD (a % d.blockSize) 0 = d.bytes a := by
  rw [blockAt, slice_getD _ _ _ (Nat.mod_lt a d.blockSize_pos), Nat.div_add_mod']

@[simp] theorem commits_blockSize (fate : Nat → Fate) (first : Nat) (data : List UInt8)
    (n : Nat) : (d.commits fate first data n).blockSize = d.blockSize := by
  induction n with
  | zero => rfl
  | succ n ih => simpa [commits] using ih

@[simp] theorem commits_blockCount (fate : Nat → Fate) (first : Nat) (data : List UInt8)
    (n : Nat) : (d.commits fate first data n).blockCount = d.blockCount := by
  induction n with
  | zero => rfl
  | succ n ih => simpa [commits] using ih

@[simp] theorem commits_script (fate : Nat → Fate) (first : Nat) (data : List UInt8)
    (n : Nat) : (d.commits fate first data n).script = d.script := by
  induction n with
  | zero => rfl
  | succ n ih => simpa [commits] using ih

theorem commits_bytes (first : Nat) (data : List UInt8) (n : Nat)
    (h : n * d.blockSize ≤ data.length) :
    (d.commits (fun _ => .done) first data n).bytes =
      patch d.bytes (first * d.blockSize) (data.take (n * d.blockSize)) := by
  induction n with
  | zero => simp [commits]
  | succ n ih =>
    have hstep : (n + 1) * d.blockSize = n * d.blockSize + d.blockSize := Nat.succ_mul _ _
    have hlen : (data.take (n * d.blockSize)).length = n * d.blockSize := by
      rw [length_take]
      omega
    have hat : (first + n) * d.blockSize =
        first * d.blockSize + (data.take (n * d.blockSize)).length := by
      rw [hlen, Nat.add_mul]
    simp only [commits, commit, Fate.stored, if_true, commits_blockSize]
    rw [ih (by omega), hat, patch_append, hstep, take_add]

end Lemmas

/-- `I` is kept by every change to a device that leaves the bytes outside
`lo..hi` alone: block writes, landed or not, and calls that are used up. -/
structure Frame (I : Device ε → Prop) (lo hi : Nat) : Prop where
  script : ∀ d rest, I d → I { d with script := rest }
  commit : ∀ d index after fate, I d → after.length = d.blockSize →
    (∀ k < d.blockSize, index * d.blockSize + k < lo ∨ hi ≤ index * d.blockSize + k →
      after.getD k 0 = d.bytes (index * d.blockSize + k)) →
    I (d.commit index after fate)

section Stores

variable {bs offset : Nat} {data : List UInt8} {P F : Nat → Device ε → Prop}

theorem commits_block {first n i : Nat} {chunk : List UInt8}
    (hfirst : first * bs = offset + n) (hfit : n + (i + 1) * bs ≤ data.length)
    (hchunk : (chunk.drop (i * bs)).take bs = (data.drop (n + i * bs)).take bs) {d : Device ε}
    (hsize : d.blockSize = bs) :
    (chunk.drop (i * d.blockSize)).take d.blockSize = d.patchedBlock offset data (first + i) := by
  have hat : (first + i) * bs = offset + (n + i * bs) := by
    rw [Nat.add_mul, hfirst, Nat.add_assoc]
  rw [Nat.succ_mul] at hfit
  rw [patchedBlock, hsize, hat, slice_patch_inside _ _ _ _ (by omega) (by omega),
    Nat.add_sub_cancel_left, hchunk]

theorem storedTo_whole {first n i : Nat} (hpos : 0 < bs) (hfirst : first * bs = offset + n)
    (hfit : n + (i + 1) * bs ≤ data.length) :
    (offset + (n + i * bs)) / bs = first + i ∧
      storedTo bs offset data (n + i * bs) = n + (i + 1) * bs := by
  have hat : offset + (n + i * bs) = (first + i) * bs := by
    rw [Nat.add_mul, hfirst, Nat.add_assoc]
  have hdiv : (offset + (n + i * bs)) / bs = first + i := by
    rw [hat, Nat.mul_div_cancel _ hpos]
  have hstep : (i + 1) * bs = i * bs + bs := Nat.succ_mul i bs
  refine ⟨hdiv, ?_⟩
  rw [storedTo, hdiv, Nat.succ_mul (first + i), ← hat]
  omega

theorem Stores.commits_done (h : Stores bs offset data P F) {first n : Nat} {chunk : List UInt8}
    (hfirst : first * bs = offset + n) (m : Nat) (hfit : n + m * bs ≤ data.length)
    (hchunk : ∀ i < m, (chunk.drop (i * bs)).take bs = (data.drop (n + i * bs)).take bs)
    {d : Device ε} (hd : P n d) : P (n + m * bs) (d.commits (fun _ => .done) first chunk m) := by
  have hbs := h.blockSize n d hd
  have hpos : 0 < bs := hbs ▸ d.blockSize_pos
  induction m with
  | zero => simpa [Device.commits] using hd
  | succ m ih =>
    have hstep : (m + 1) * bs = m * bs + bs := Nat.succ_mul m bs
    have hdone := h.done _ _ (by omega) (ih (by omega) fun i hi => hchunk i (by omega))
    obtain ⟨hdiv, hnext⟩ := storedTo_whole hpos hfirst hfit
    have hsize := (commits_blockSize d (fun _ => .done) first chunk m).trans hbs
    rw [hdiv, hnext, ← commits_block hfirst hfit (hchunk m (by omega)) hsize,
      commits_blockSize] at hdone
    exact hdone

theorem Stores.commits_failed (h : Stores bs offset data P F) {first n : Nat} {chunk : List UInt8}
    (hfirst : first * bs = offset + n) (landed : Nat → Bool) (m : Nat)
    (hfit : n + m * bs ≤ data.length)
    (hchunk : ∀ i < m, (chunk.drop (i * bs)).take bs = (data.drop (n + i * bs)).take bs)
    {d : Device ε} (hd : F n d) :
    F (n + m * bs) (d.commits (fun i => .failed (landed i)) first chunk m) := by
  have hbs := h.failedSize n d hd
  have hpos : 0 < bs := hbs ▸ d.blockSize_pos
  induction m with
  | zero => simpa [Device.commits] using hd
  | succ m ih =>
    have hstep : (m + 1) * bs = m * bs + bs := Nat.succ_mul m bs
    have hfailed := h.failed _ _ (landed m) (by omega)
      (ih (by omega) fun i hi => hchunk i (by omega))
    obtain ⟨hdiv, hnext⟩ := storedTo_whole hpos hfirst hfit
    have hsize := (commits_blockSize d (fun i => .failed (landed i)) first chunk m).trans hbs
    rw [hdiv, hnext, ← commits_block hfirst hfit (hchunk m (by omega)) hsize,
      commits_blockSize] at hfailed
    exact hfailed

end Stores

section Keeps

variable {I : Device ε → Prop} {lo hi : Nat}

theorem commits_bytes_outside (d : Device ε) (fate : Nat → Fate) (first : Nat)
    (data : List UInt8) (n : Nat) {a : Nat}
    (h : a < first * d.blockSize ∨ (first + n) * d.blockSize ≤ a) :
    (d.commits fate first data n).bytes a = d.bytes a := by
  induction n with
  | zero => rfl
  | succ n ih =>
    have hnext : (first + (n + 1)) * d.blockSize = (first + n) * d.blockSize + d.blockSize := by
      rw [← Nat.add_assoc, Nat.succ_mul]
    have hfirst : first * d.blockSize ≤ (first + n) * d.blockSize :=
      Nat.mul_le_mul_right _ (Nat.le_add_right _ _)
    have hlen : ((data.drop (n * d.blockSize)).take d.blockSize).length ≤ d.blockSize := by
      rw [length_take]
      exact Nat.min_le_left _ _
    simp only [Device.commits, commit, commits_blockSize]
    rw [← ih (by omega)]
    split
    · rcases h with h | h
      · exact patch_of_lt _ _ _ (by omega)
      · exact patch_of_ge _ _ _ (by omega)
    · rfl

theorem Frame.commits (hI : Frame I lo hi) {fate : Nat → Fate} {first : Nat}
    {data : List UInt8} (n : Nat) {d : Device ε} (hd : I d)
    (hlen : n * d.blockSize ≤ data.length)
    (hout : ∀ k < n * d.blockSize, first * d.blockSize + k < lo ∨ hi ≤ first * d.blockSize + k →
      data.getD k 0 = d.bytes (first * d.blockSize + k)) :
    I (d.commits fate first data n) := by
  induction n with
  | zero => exact hd
  | succ n ih =>
    have hstep : (n + 1) * d.blockSize = n * d.blockSize + d.blockSize := Nat.succ_mul _ _
    have hmid : (first + n) * d.blockSize = first * d.blockSize + n * d.blockSize :=
      Nat.add_mul _ _ _
    apply hI.commit _ _ _ _ (ih (by omega) fun k hk => hout k (by omega))
    · simp only [commits_blockSize, length_take, length_drop]
      omega
    · intro k hk hpos
      simp only [commits_blockSize] at hk hpos ⊢
      rw [commits_bytes_outside d fate first data n (Or.inr (Nat.le_add_right _ _)), hmid]
      rw [hmid] at hpos
      have hk' := hout (n * d.blockSize + k) (by omega) (by omega)
      rw [Nat.add_assoc, ← hk']
      simp only [getD_eq_getElem?_getD, getElem?_take, getElem?_drop]
      rw [if_pos hk]

theorem readBlocks_cases (range : ε) (first count : Nat) (d : Device ε) :
    ∃ rest, ((readBlocks range first count).run d).2 = { d with script := rest } ∧
      ∀ data, ((readBlocks range first count).run d).1 = .ok data →
        data = slice d.bytes (first * d.blockSize) (count * d.blockSize) := by
  simp only [readBlocks]
  split
  · split
    · exact ⟨d.script, rfl, fun data h => by cases h; rfl⟩
    · exact ⟨_, rfl, fun data h => by cases h; rfl⟩
    · exact ⟨_, rfl, fun data h => by cases h⟩
  · exact ⟨d.script, rfl, fun data h => by cases h⟩

theorem writeBlocks_ok (range : ε) {first n : Nat} {data : List UInt8} {d : Device ε}
    (hlen : data.length = n * d.blockSize)
    (h : ((writeBlocks range first data).run d).1 = .ok ()) :
    ((writeBlocks range first data).run d).2.bytes = patch d.bytes
      (first * d.blockSize) data := by
  have hn : data.length / d.blockSize = n := by
    rw [hlen, Nat.mul_div_cancel _ d.blockSize_pos]
  have hbytes (d' : Device ε) (hsize : d'.blockSize = d.blockSize) (hb : d'.bytes = d.bytes) :
      (d'.commits (fun _ => .done) first data n).bytes =
        patch d.bytes (first * d.blockSize) data := by
    rw [commits_bytes d' first data n (by rw [hsize, hlen]), hsize, hb, ← hlen, take_length]
  simp only [writeBlocks, hn] at h ⊢
  split at h
  · rename_i hcount
    rw [if_pos hcount]
    split at h
    · exact hbytes d rfl rfl
    · exact hbytes _ rfl rfl
    · cases h
  · cases h

@[simp] theorem writeBlocks_blockSize (range : ε) (first : Nat) (data : List UInt8)
    (d : Device ε) : ((writeBlocks range first data).run d).2.blockSize = d.blockSize := by
  simp only [writeBlocks]
  split
  · split <;> simp
  · rfl

theorem writeBlocks_outside (range : ε) (first : Nat) (data : List UInt8) (d : Device ε)
    {a : Nat} (h : a < first * d.blockSize ∨ first * d.blockSize + data.length ≤ a) :
    ((writeBlocks range first data).run d).2.bytes a = d.bytes a := by
  have hlen : data.length / d.blockSize * d.blockSize ≤ data.length := Nat.div_mul_le_self _ _
  have hout : a < first * d.blockSize ∨
      (first + data.length / d.blockSize) * d.blockSize ≤ a := by
    rw [Nat.add_mul]
    omega
  simp only [writeBlocks]
  split
  · split
    · exact commits_bytes_outside d _ _ _ _ hout
    · exact commits_bytes_outside { d with script := _ } _ _ _ _ hout
    · exact commits_bytes_outside { d with script := _ } _ _ _ _ hout
  · rfl

/-- A write of one block fails before it starts, succeeds, or fails with the
block stored or not. -/
theorem writeBlock_cases (range : ε) (index : Nat) {data : List UInt8} {d : Device ε}
    (hlen : data.length = d.blockSize) :
    (writeBlocks range index data).run d = (.error range, d) ∨
      (∃ rest, (writeBlocks range index data).run d =
        (.ok (), { d with script := rest }.commit index data .done)) ∨
      ∃ rest e landed, (writeBlocks range index data).run d =
        (.error e, { d with script := rest }.commit index data (.failed landed)) := by
  have hone : data.length / d.blockSize = 1 := by rw [hlen, Nat.div_self d.blockSize_pos]
  have hcommits (fate : Nat → Fate) (d' : Device ε) (hsize : d'.blockSize = d.blockSize) :
      d'.commits fate index data 1 = d'.commit index data (fate 0) := by
    simp only [Device.commits, Nat.add_zero, Nat.zero_mul, drop_zero]
    rw [take_of_length_le (by omega)]
  simp only [writeBlocks, hone]
  split
  · split
    · exact Or.inr (Or.inl ⟨d.script, congrArg (Prod.mk _) (hcommits _ d rfl)⟩)
    · exact Or.inr (Or.inl ⟨_, congrArg (Prod.mk _) (hcommits _ { d with script := _ } rfl)⟩)
    · exact Or.inr (Or.inr ⟨_, _, _,
        congrArg (Prod.mk _) (hcommits _ { d with script := _ } rfl)⟩)
  · exact Or.inl rfl

theorem Stores.writeBlocks {bs offset : Nat} {data : List UInt8} {P F : Nat → Device ε → Prop}
    (h : Stores bs offset data P F) (range : ε) {first n m : Nat}
    (hfirst : first * bs = offset + n) (hfit : n + m * bs ≤ data.length) (hn : n < data.length) :
    Prog.Triple (P n) (writeBlocks range first ((data.drop n).take (m * bs)))
      (fun _ => P (n + m * bs)) (fun _ d => ∃ n, F n d) := by
  intro d hd
  have hbs := h.blockSize n d hd
  have hpos : 0 < bs := hbs ▸ d.blockSize_pos
  have hlen : ((data.drop n).take (m * bs)).length / d.blockSize = m := by
    rw [length_take, length_drop, Nat.min_eq_left (by omega), hbs,
      Nat.mul_div_cancel _ hpos]
  have hchunk (i : Nat) (hi : i < m) : (((data.drop n).take (m * bs)).drop (i * bs)).take bs =
      (data.drop (n + i * bs)).take bs := by
    have hmul := Nat.mul_le_mul_right bs (Nat.succ_le_of_lt hi)
    rw [Nat.succ_mul] at hmul
    rw [drop_take, take_take, drop_drop, Nat.min_eq_left (by omega)]
  simp only [Device.writeBlocks, hlen]
  by_cases hrange : first + m ≤ d.blockCount
  · rw [if_pos hrange]
    rcases hscript : d.script with _ | ⟨_ | ⟨e, landed⟩, rest⟩
    · exact h.commits_done hfirst m hfit hchunk hd
    · exact h.commits_done hfirst m hfit hchunk (h.script _ _ _ hd)
    · exact ⟨_, h.commits_failed hfirst _ m hfit hchunk (h.pending _ _ hn (h.script _ _ _ hd))⟩
  · rw [if_neg hrange]
    exact ⟨n, h.pending _ _ hn hd⟩

theorem flush_cases (d : Device ε) : ∃ rest,
    flush.run d = (.ok (), { d with script := rest, log := .flush true :: d.log }) ∨
      ∃ e, flush.run d = (.error e, { d with script := rest, log := .flush false :: d.log }) := by
  simp only [flush]
  split
  · exact ⟨d.script, Or.inl rfl⟩
  · exact ⟨_, Or.inl rfl⟩
  · exact ⟨_, Or.inr ⟨_, rfl⟩⟩

theorem keeps_writeBlocks (range : ε) (first : Nat) (data : List UInt8) (hI : Frame I lo hi)
    {d : Device ε} (hd : I d)
    (hout : ∀ k < data.length, first * d.blockSize + k < lo ∨ hi ≤ first * d.blockSize + k →
      data.getD k 0 = d.bytes (first * d.blockSize + k)) :
    I ((writeBlocks range first data).run d).2 := by
  have hlen : data.length / d.blockSize * d.blockSize ≤ data.length := Nat.div_mul_le_self _ _
  have hout' : ∀ k < data.length / d.blockSize * d.blockSize,
      first * d.blockSize + k < lo ∨ hi ≤ first * d.blockSize + k →
      data.getD k 0 = d.bytes (first * d.blockSize + k) := fun k hk => hout k (by omega)
  simp only [writeBlocks]
  split
  · split
    · exact hI.commits _ hd hlen hout'
    · exact hI.commits _ (hI.script _ _ hd) hlen hout'
    · exact hI.commits _ (hI.script _ _ hd) hlen hout'
  · exact hd

end Keeps

/-- The device holds `img`, and no call to come fails. -/
structure Holds (blockSize blockCount : Nat) (img : Nat → UInt8) (d : Device ε) : Prop where
  blockSize : d.blockSize = blockSize
  blockCount : d.blockCount = blockCount
  bytes : d.bytes = img
  script : d.script = []

section FaultFree

variable {bs count : Nat} {img : Nat → UInt8} {E : ε → Device ε → Prop}

theorem holds_readBlocks (range : ε) {first n : Nat} (h : first + n ≤ count) :
    Prog.Triple (Holds bs count img) (readBlocks range first n)
      (fun data d => data = slice img (first * bs) (n * bs) ∧ Holds bs count img d) E := by
  apply Prog.Triple.of_ok
  intro d hd
  refine ⟨slice img (first * bs) (n * bs), d, ?_, rfl, hd⟩
  simp only [readBlocks, hd.blockCount, hd.script, hd.bytes, hd.blockSize, if_pos h]

end FaultFree

end Device

end Hadris
