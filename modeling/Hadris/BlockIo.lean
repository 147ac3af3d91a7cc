import Hadris.Answers

namespace Hadris

open List

def BlockBuf.new (capacity size : Nat) : Option BlockBuf :=
  if size = 0 ∨ capacity < size then none else some ⟨none, replicate size 0, capacity⟩

namespace BlockIo

open Prog (Triple)

def zerosLen : Nat := 64 * 1024

/-- Writes `blocks` blocks of zeros from block `first` on, at most `perCall` at
once. Each turn writes a block or more, so `blocks` bounds the turns. -/
def zeroBlocks (perCall : Nat) : Nat → Nat → Nat → Prog Io Stop Unit
  | 0, _, _ => pure ()
  | fuel + 1, first, blocks =>
    if blocks = 0 then pure ()
    else do
      let size ← Io.blockSize
      let n := min perCall blocks
      Io.onDev (Device.writeBlocks Io.pastEnd first (replicate (n * size) 0))
      zeroBlocks perCall fuel (first + n) (blocks - n)

def drop (first blocks : Nat) : Prog Io Stop Unit :=
  Io.setBlock fun b =>
    if b.cached.any fun c => first ≤ c && c - first < blocks then { b with cached := none } else b

/-- Writes `len` zeros at byte `offset`. Whole blocks do not pass through the
buffer. -/
def writeZeros (offset len : Nat) : Prog Io Stop Unit := do
  let size ← Io.blockSize
  if zerosLen < size then Io.writeZeros offset len
  else do
    let head := min ((size - offset % size) % size) len
    Io.writeZeros offset head
    let first := (offset + head) / size
    let blocks := (len - head) / size
    drop first blocks
    zeroBlocks (zerosLen / size) blocks first blocks
    Io.writeZeros ((first + blocks) * size) (len - head - blocks * size)

def writeBytes (offset : Nat) (data : Option (List UInt8)) (len : Nat) : Prog Io Stop Unit :=
  match data with
  | some data => Io.writeBytes offset (data.take len)
  | none => writeZeros offset len

/-- A call on a buffer and its device. `change` writes to the bytes of the
buffer. -/
inductive Call where
  | load (index : Nat)
  | store (index : Nat)
  | invalidate
  | change (bytes : Nat → UInt8)
  | readBytes (offset len : Nat)
  | writeBytes (offset : Nat) (data : List UInt8)
  | writeZeros (offset len : Nat)
  | fill (offset : Nat) (data : Option (List UInt8)) (len : Nat)

namespace Call

def prog : Call → Prog Io Stop (List UInt8)
  | load index => do Io.load index; pure []
  | store index => do Io.store index; pure []
  | invalidate => do Io.invalidate; pure []
  | change bytes => do Io.contentsMut fun old => slice bytes 0 old.length; pure []
  | readBytes offset len => Io.readBytes offset len
  | writeBytes offset data => do Io.writeBytes offset data; pure []
  | writeZeros offset len => do Io.writeZeros offset len; pure []
  | fill offset data len => do BlockIo.writeBytes offset data len; pure []

/-- What a call that succeeds reads, and what it leaves on the device. -/
def Exact (io : Io) (out : List UInt8) (img : Nat → UInt8) : Call → Prop
  | load _ | invalidate | change _ => img = io.dev.bytes
  | store index => img = patch io.dev.bytes (index * io.dev.blockSize) io.block.data
  | readBytes offset len => out = slice io.dev.bytes offset len ∧ img = io.dev.bytes
  | writeBytes offset data => img = patch io.dev.bytes offset data
  | writeZeros offset len => img = patch io.dev.bytes offset (replicate len 0)
  | fill offset (some data) len => img = patch io.dev.bytes offset (data.take len)
  | fill offset none len => img = patch io.dev.bytes offset (replicate len 0)

end Call

def runAll : List Call → Io → Io
  | [], io => io
  | call :: rest, io => runAll rest (call.prog.run io).2

section

variable {A : Outcome Stop → Prop} {bs count first blocks : Nat} {img : Nat → UInt8}

/-- The buffer holds none of `blocks` blocks from `first` on. -/
def Apart (first blocks : Nat) (io : Io) : Prop :=
  ∀ c, io.block.cached = some c → c < first ∨ first + blocks ≤ c

theorem answers_drop (first blocks : Nat) {E : Stop → Io → Prop} :
    Triple (Io.Answers A bs count img) (drop first blocks)
      (fun _ io => Io.Answers A bs count img io ∧ Apart first blocks io) E := by
  refine Triple.modify fun io hio => ?_
  beta_reduce
  split
  · exact ⟨⟨⟨hio.1.length, fun _ hi => absurd hi (Option.some_ne_none _).symm⟩, hio.2⟩,
      fun _ hi => absurd hi (Option.some_ne_none _).symm⟩
  · rename_i hany
    refine ⟨hio, fun c hc => ?_⟩
    have hc : io.block.cached = some c := hc
    simp only [hc, Option.any_some, Bool.and_eq_true, decide_eq_true_eq, not_and] at hany
    omega

variable (A count img first) in
theorem answers_writePast {data : List UInt8} (hlen : data.length = blocks * bs) :
    Triple (fun io => Io.Answers A bs count img io ∧ Apart first blocks io)
      (Io.onDev (Device.writeBlocks Io.pastEnd first data))
      (fun _ => Io.Answers A bs count (patch img (first * bs) data)) fun _ io =>
        Io.Coherent io := by
  rintro io ⟨hio, hapart⟩
  have hpos := hio.pos
  have hwrite := Device.answers_writeBlocks Io.pastEnd first hlen io.dev hio.2
  have hcoherent {img' : Nat → UInt8} {d : Device Stop} (hd : d.Answers A bs count img')
      (hsame : ∀ a, a / bs < first ∨ first + blocks ≤ a / bs → img' a = img a) :
      Io.Coherent { io with dev := d } := by
    refine ⟨by rw [hd.blockSize, ← hio.blockSize]; exact hio.1.length, fun c hc => ?_⟩
    change io.block.data = slice d.bytes (c * d.blockSize) d.blockSize
    rw [hio.1.cached c hc, Device.blockAt, hd.blockSize, hd.bytes, hio.blockSize, hio.2.bytes]
    refine slice_congr fun k hk => (hsame _ ?_).symm
    rw [Nat.add_comm, Nat.add_mul_div_right _ _ hpos, Nat.div_eq_of_lt hk, Nat.zero_add]
    exact hapart c hc
  have hout (a : Nat) (ha : a / bs < first ∨ first + blocks ≤ a / bs) :
      patch img (first * bs) data a = img a := by
    rw [Device.patch_whole hpos hlen, if_neg (by omega)]
  simp only [Io.onDev, Prog.run_zoom, Io.devLens]
  rcases hrun : (Device.writeBlocks Io.pastEnd first data).run io.dev with ⟨e | ⟨⟩, d⟩ <;>
    rw [hrun] at hwrite
  · obtain ⟨stored, -, hd⟩ := hwrite
    refine hcoherent hd fun a ha => ?_
    rcases partly_eq_or bs first stored img (patch img (first * bs) data) a with hold | hnew
    · exact hold
    · rw [hnew, hout a ha]
  · exact ⟨hcoherent hwrite hout, hwrite⟩

variable (A count) in
theorem answers_zeroBlocks (img : Nat → UInt8) (first : Nat) {perCall : Nat}
    (hcall : 0 < perCall) (fuel blocks : Nat) (hfuel : blocks ≤ fuel) :
    Triple (fun io => Io.Answers A bs count img io ∧ Apart first blocks io)
      (zeroBlocks perCall fuel first blocks)
      (fun _ => Io.Answers A bs count (patch img (first * bs) (replicate (blocks * bs) 0)))
      fun _ io => Io.Coherent io := by
  induction fuel generalizing first blocks img with
  | zero =>
    obtain rfl := Nat.le_zero.mp hfuel
    refine Triple.pure fun io h => ?_
    rw [Nat.zero_mul, replicate_zero, patch_nil]
    exact h.1
  | succ fuel ih =>
    unfold zeroBlocks
    refine Triple.ite (fun hzero => Triple.pure fun io h => ?_) fun hne => ?_
    · rw [hzero, Nat.zero_mul, replicate_zero, patch_nil]
      exact h.1
    obtain ⟨rest, hrest⟩ := Nat.exists_eq_add_of_le (Nat.min_le_right perCall blocks)
    have hpos : 0 < min perCall blocks := Nat.lt_min.mpr ⟨hcall, Nat.pos_of_ne_zero hne⟩
    generalize min perCall blocks = n at hrest hpos ⊢
    subst hrest
    refine Triple.of_forall fun io ⟨hio, hapart⟩ => ?_
    refine Triple.bind (Triple.gets (Q := fun size io' => size = bs ∧ io' = io) fun io' heq =>
      ⟨by rw [heq, hio.blockSize], heq⟩) fun size => Triple.assume ?_
    rintro rfl
    refine Triple.bind (Q := fun _ io => Io.Answers A size count
      (patch img (first * size) (replicate (n * size) 0)) io ∧
        Apart (first + n) rest io) ?_ fun _ => ?_
    · -- the rest of the blocks is apart from the buffer as well
      have hkeeps : Prog.Keeps (Apart (first + n) rest)
          (Io.onDev (Device.writeBlocks Io.pastEnd first (replicate (n * size) 0))) :=
            fun _ h => h
      have hwrite := (answers_writePast A count first img
        (length_replicate : (replicate (n * size) (0 : UInt8)).length = _)).frame hkeeps
      refine hwrite.conseq (fun io' heq => ?_) (fun _ _ h => h) fun _ _ h => h.1
      rw [heq]
      refine ⟨⟨hio, fun c hc => ?_⟩, fun c hc => ?_⟩
      · have := hapart c hc
        omega
      · have := hapart c hc
        omega
    · have hnext := ih (patch img (first * size) (replicate (n * size) 0))
        (first + n) rest (by omega)
      rw [Nat.add_sub_cancel_left]
      have hat : (first + n) * size = first * size +
          (replicate (n * size) (0 : UInt8)).length := by
        rw [length_replicate, Nat.add_mul]
      rw [hat, patch_append, replicate_append_replicate, ← Nat.add_mul] at hnext
      exact hnext

theorem answers_writeZeros (offset len : Nat) :
    Triple (Io.Answers A bs count img) (writeZeros offset len)
      (fun _ => Io.Answers A bs count (patch img offset (replicate len 0))) fun _ io =>
        Io.Coherent io := by
  have hput (img : Nat → UInt8) (offset len : Nat) : Triple (Io.Answers A bs count img)
      (Io.writeZeros offset len)
        (fun _ => Io.Answers A bs count (patch img offset (replicate len 0))) fun _ io =>
          Io.Coherent io := by
    refine (Io.answers_put true offset (replicate len 0)).weaken (fun _ _ h => h) fun _ _ h => ?_
    obtain ⟨_, _, _, _, _, hio⟩ := h
    exact hio.1
  refine Io.answers_size fun hbs => ?_
  refine Triple.ite (fun _ => hput img offset len) fun hsize => ?_
  have hmod := Nat.mod_lt offset hbs
  have hdiv := Nat.div_add_mod' offset bs
  obtain ⟨rest, hrest⟩ := Nat.exists_eq_add_of_le (Nat.min_le_right ((bs - offset % bs) % bs) len)
  generalize hhead : min ((bs - offset % bs) % bs) len = head at hrest ⊢
  subst hrest
  have hend : rest = 0 ∨ (offset + head) / bs * bs = offset + head := by
    by_cases hrest : rest = 0
    · exact .inl hrest
    have hhead : head = (bs - offset % bs) % bs := by omega
    refine .inr (Nat.div_mul_cancel ?_)
    by_cases haligned : offset % bs = 0
    · rw [haligned, Nat.sub_zero, Nat.mod_self] at hhead
      rw [hhead, Nat.add_zero]
      exact Nat.dvd_of_mod_eq_zero haligned
    · rw [Nat.mod_eq_of_lt (by omega)] at hhead
      refine ⟨offset / bs + 1, ?_⟩
      rw [Nat.mul_comm, Nat.succ_mul]
      omega
  simp only [Nat.add_sub_cancel_left]
  refine Triple.bind (hput img offset head) fun _ => Triple.bind (answers_drop _ _) fun _ => ?_
  have hcall : 0 < zerosLen / bs := Nat.div_pos (not_lt.mp hsize) hbs
  refine Triple.bind (answers_zeroBlocks A count _ _ hcall _ _ le_rfl) fun _ => ?_
  refine (hput _ _ _).post fun _ io h => ?_
  rcases hend with rfl | hend
  · simpa only [Nat.zero_div, Nat.zero_mul, replicate_zero, patch_nil, Nat.sub_zero,
      Nat.add_zero] using h
  · have hwhole : rest / bs * bs ≤ rest := Nat.div_mul_le_self _ _
    have hmid : offset + head = offset +
      (replicate head (0 : UInt8)).length := by rw [length_replicate]
    have htail : ((offset + head) / bs + rest / bs) * bs =
        offset + (replicate (head + rest / bs * bs) (0 : UInt8)).length := by
      rw [length_replicate, Nat.add_mul, hend]
      omega
    rw [hend, htail, hmid, patch_append, replicate_append_replicate, patch_append,
      replicate_append_replicate] at h
    rwa [show head + rest / bs * bs + (rest - rest / bs * bs) = head + rest by omega] at h

end

namespace Call

theorem prog_exact (call : Call) {io : Io} (hio : Io.Coherent io) :
    Triple (fun io' => io' = io) call.prog
      (fun out io' => Io.Coherent io' ∧ call.Exact io out io'.dev.bytes)
      fun _ io' => Io.Coherent io' := by
  have hanswers : Io.Answers (fun _ => True) io.dev.blockSize io.dev.blockCount io.dev.bytes io :=
    ⟨hio, rfl, rfl, rfl, fun _ _ => trivial⟩
  have hunit {x : Prog Io Stop Unit} {P : Io → Prop} {img : Nat → UInt8}
      {E : Stop → Io → Prop} (hP : P io)
      (hx : Triple P x
        (fun _ => Io.Answers (fun _ => True) io.dev.blockSize io.dev.blockCount img) E)
      (hE : ∀ e io', E e io' → Io.Coherent io') :
      Triple (fun io' => io' = io) (do x; pure [])
        (fun (_ : List UInt8) io' => Io.Coherent io' ∧ io'.dev.bytes = img)
        fun _ io' => Io.Coherent io' := by
    refine Triple.bind (hx.conseq (fun io' heq => ?_) (fun _ _ h => h) hE) fun _ =>
      Triple.pure fun io' h => ⟨h.1, h.2.bytes⟩
    rwa [heq]
  cases call with
  | load index =>
    exact hunit hanswers ((Io.answers_load index).post fun _ _ h => h.1) fun _ _ h => h.2.1
  | store index =>
    refine hunit (P := fun io' => io'.block.data = io.block.data ∧ io'.dev.Answers _ _ _ _)
      ⟨rfl, hanswers.2⟩
      (Io.answers_store _ _ _ _ hio.length) fun _ _ h => ?_
    obtain ⟨_, _, h⟩ := h
    exact h.1
  | invalidate =>
    exact hunit hanswers (E := fun _ _ => False) (Triple.modify fun io' h =>
      ⟨⟨h.1.length, fun _ hi => absurd hi (Option.some_ne_none _).symm⟩, h.2⟩) fun _ _ h => h.elim
  | change bytes =>
    refine hunit hanswers (E := fun _ _ => False) (Triple.modify fun io' h =>
      ⟨⟨?_, fun _ hi => absurd hi (Option.some_ne_none _).symm⟩, h.2⟩) fun _ _ h => h.elim
    exact (slice_length _ _ _).trans h.1.length
  | readBytes offset len =>
    intro io' heq
    subst heq
    have hread := Io.answers_readBytes offset len io' hanswers
    simp only [prog]
    rcases hrun : (Io.readBytes offset len).run io' with ⟨e | out, io''⟩ <;> rw [hrun] at hread
    · exact hread.2.1
    · exact ⟨hread.2.1, hread.1, hread.2.2.bytes⟩
  | writeBytes offset data =>
    refine hunit hanswers (Io.answers_put false offset data) fun _ _ h => ?_
    obtain ⟨_, _, _, _, _, h⟩ := h
    exact h.1
  | writeZeros offset len =>
    refine hunit hanswers (Io.answers_put true offset (replicate len 0)) fun _ _ h => ?_
    obtain ⟨_, _, _, _, _, h⟩ := h
    exact h.1
  | fill offset data len =>
    cases data with
    | none => exact hunit hanswers (answers_writeZeros offset len) fun _ _ h => h
    | some data =>
      refine hunit hanswers (Io.answers_put false offset (data.take len)) fun _ _ h => ?_
      obtain ⟨_, _, _, _, _, h⟩ := h
      exact h.1

end Call

theorem runAll_coherent {io : Io} (h : Io.Coherent io) (calls : List Call) :
    Io.Coherent (runAll calls io) := by
  induction calls generalizing io with
  | nil => exact h
  | cons call calls ih =>
    exact ih (((call.prog_exact h).weaken (fun _ _ h => h.1) fun _ _ h => h).state_of rfl)

theorem new_coherent {capacity : Nat} {dev : Device Stop} {block : BlockBuf}
    (h : BlockBuf.new capacity dev.blockSize = some block) : Io.Coherent ⟨dev, block⟩ := by
  rw [BlockBuf.new] at h
  split at h
  · cases h
  · cases h
    exact ⟨length_replicate, fun _ hi => absurd hi (Option.some_ne_none _).symm⟩

/-- Whatever calls are made on a new buffer, in any order and however the device
answers, the block the buffer says it holds is the device's, and the next call
that succeeds reads or changes exactly its bytes. -/
theorem blockBuf_coherent {capacity : Nat} {dev : Device Stop} {block : BlockBuf}
    (hblock : BlockBuf.new capacity dev.blockSize = some block) (calls : List Call) :
    Io.Coherent (runAll calls ⟨dev, block⟩) ∧ ∀ (call : Call) (out : List UInt8) (io : Io),
      call.prog.run (runAll calls ⟨dev, block⟩) = (.ok out, io) →
        call.Exact (runAll calls ⟨dev, block⟩) out io.dev.bytes := by
  have hcoherent := runAll_coherent (new_coherent hblock) calls
  refine ⟨hcoherent, fun call out io hrun => ?_⟩
  have hexact := call.prog_exact hcoherent _ rfl
  rw [hrun] at hexact
  exact hexact.2

theorem blockBuf_coherent_torn :
    let dev : Device Stop := ⟨2, by decide, 4, fun a => UInt8.ofNat a,
      [.done, .failed .diverged fun _ => true], []⟩
    let calls := [.writeBytes 1 [7, 7, 7, 7]]
    Io.Coherent (runAll calls ⟨dev, none, [0, 0], 2⟩) ∧
      ∀ (call : Call) (out : List UInt8) (io : Io),
      call.prog.run (runAll calls ⟨dev, none, [0, 0], 2⟩) = (.ok out, io) →
        call.Exact (runAll calls ⟨dev, none, [0, 0], 2⟩) out io.dev.bytes :=
  blockBuf_coherent (rfl : BlockBuf.new 2 2 = some ⟨none, [0, 0], 2⟩) _

end BlockIo

end Hadris
