import Hadris.BlockBuf

namespace Hadris

open List

/-- What is on the device once the blocks `stored` of a write from block `first`
on have been stored that turns `img` into `new`. -/
def partly (bs first : Nat) (stored : Nat → Bool) (img new : Nat → UInt8) :
    Nat → UInt8 := fun a =>
  if first ≤ a / bs ∧ stored (a / bs - first) = true then new a else img a

@[simp] theorem partly_none (bs first : Nat) (img new : Nat → UInt8) :
    partly bs first (fun _ => false) img new = img := by
  funext a
  simp [partly]

theorem partly_eq_or (bs first : Nat) (stored : Nat → Bool) (img new : Nat → UInt8) (a : Nat) :
    partly bs first stored img new a = img a ∨ partly bs first stored img new a = new a := by
  rw [partly]
  split
  · exact .inr rfl
  · exact .inl rfl

theorem partly_block {bs first : Nat} {stored : Nat → Bool} {img new : Nat → UInt8}
    (h : ∀ a, a / bs ≠ first → new a = img a) :
    partly bs first stored img new = if stored 0 = true then new else img := by
  funext a
  by_cases hblock : a / bs = first
  · simp only [partly, hblock, Nat.sub_self, Nat.le_refl, true_and]
    split <;> rfl
  · have hsame : partly bs first stored img new a = img a := by
      rcases partly_eq_or bs first stored img new a with hold | hnew
      · exact hold
      · rw [hnew, h a hblock]
    rw [hsame]
    split
    · exact (h a hblock).symm
    · rfl

namespace Device

variable {ε : Type} {A : Outcome ε → Prop} {bs count : Nat} {img : Nat → UInt8}

/-- The device holds `img`, and answers the calls to come as `A` allows. -/
structure Answers (A : Outcome ε → Prop) (blockSize blockCount : Nat) (img : Nat → UInt8)
    (d : Device ε) : Prop where
  blockSize : d.blockSize = blockSize
  blockCount : d.blockCount = blockCount
  bytes : d.bytes = img
  script : ∀ o ∈ d.script, A o

/-- Why a call failed that stored at most the blocks `stored`: it went past the
device, and stored none, or the device answered so. -/
def Failed (A : Outcome ε → Prop) (past : Prop) (stored : Nat → Bool) : Prop :=
  (past ∧ stored = fun _ => false) ∨ ∃ e landed, A (.failed e landed) ∧
    ∀ i, stored i = true → landed i = true

/-- A call that failed and stored nothing. -/
abbrev Refused (A : Outcome ε → Prop) (past : Prop) : Prop := Failed A past fun _ => false

theorem Failed.mono {p q : Prop} {stored : Nat → Bool} (h : Failed A p stored) (hpq : p → q) :
    Failed A q stored :=
  h.imp (fun h => ⟨hpq h.1, h.2⟩) id

theorem Failed.refused {p : Prop} {stored : Nat → Bool} (h : Failed A p stored) :
    Refused A p := by
  rcases h with ⟨hp, -⟩ | ⟨e, landed, hA, -⟩
  · exact .inl ⟨hp, rfl⟩
  · exact .inr ⟨e, landed, hA, fun _ hi => absurd hi Bool.false_ne_true⟩

theorem Answers.tail {d : Device ε} {o : Outcome ε} {rest : List (Outcome ε)}
    (h : Answers A bs count img d) (hs : d.script = o :: rest) :
    A o ∧ Answers A bs count img { d with script := rest } := by
  have hall := h.script
  rw [hs] at hall
  exact ⟨hall o mem_cons_self, h.blockSize, h.blockCount, h.bytes,
    fun o ho => hall o (mem_cons_of_mem _ ho)⟩

theorem answers_readBlocks (range : ε) (first n : Nat) :
    Prog.Triple (Answers A bs count img) (readBlocks range first n)
      (fun data d => data = slice img (first * bs) (n * bs) ∧ Answers A bs count img d)
      (fun _ d => Refused A (count < first + n) ∧ Answers A bs count img d) := by
  intro d hd
  have hdata : slice d.bytes (first * d.blockSize) (n * d.blockSize) =
      slice img (first * bs) (n * bs) := by
    rw [hd.bytes, hd.blockSize]
  simp only [readBlocks]
  by_cases hrange : first + n ≤ d.blockCount
  · rw [if_pos hrange]
    rcases hscript : d.script with _ | ⟨_ | ⟨e, landed⟩, rest⟩
    · exact ⟨hdata, hd⟩
    · exact ⟨hdata, (hd.tail hscript).2⟩
    · obtain ⟨hA, hd'⟩ := hd.tail hscript
      exact ⟨.inr ⟨e, landed, hA, fun _ hi => absurd hi Bool.false_ne_true⟩, hd'⟩
  · rw [if_neg hrange]
    exact ⟨.inl ⟨by rw [hd.blockCount] at hrange; omega, rfl⟩, hd⟩

theorem commits_getD (fate : Nat → Fate) (first : Nat) (data : List UInt8)
    (d : Device ε) (n : Nat) (h : n * d.blockSize ≤ data.length) (a : Nat) :
    (d.commits fate first data n).bytes a =
      if (first ≤ a / d.blockSize ∧ a / d.blockSize < first + n) ∧
        (fate (a / d.blockSize - first)).stored = true then data.getD (a - first * d.blockSize) 0
      else d.bytes a := by
  induction n with
  | zero => rw [if_neg (by omega), commits]
  | succ n ih =>
    have hstep : (n + 1) * d.blockSize = n * d.blockSize + d.blockSize := Nat.succ_mul _ _
    have hmid : (first + n) * d.blockSize = first * d.blockSize + n * d.blockSize :=
      Nat.add_mul _ _ _
    have hmod := Nat.mod_lt a d.blockSize_pos
    have hdiv := Nat.div_add_mod' a d.blockSize
    have hchunk : ((data.drop (n * d.blockSize)).take d.blockSize).length = d.blockSize := by
      rw [length_take, length_drop]
      omega
    have hcommit := commit_bytes (d.commits fate first data n) (first + n) (fate n)
      (hchunk.trans (commits_blockSize _ _ _ _ _).symm) a
    rw [commits_blockSize] at hcommit
    rw [commits, hcommit, ih (by omega)]
    by_cases ha : a / d.blockSize = first + n
    · rw [if_neg (c := (first ≤ _ ∧ _ < first + n) ∧ _) (by omega), ha, Nat.add_sub_cancel_left]
      have hat : a - first * d.blockSize = n * d.blockSize + a % d.blockSize := by
        rw [ha] at hdiv
        omega
      have hdata : ((data.drop (n * d.blockSize)).take d.blockSize).getD (a % d.blockSize) 0 =
          data.getD (a - first * d.blockSize) 0 := by
        simp only [getD_eq_getElem?_getD, getElem?_take, getElem?_drop, if_pos hmod, hat]
      simp only [hdata, and_true, Nat.le_add_right, Nat.lt_succ_self,
        Nat.add_lt_add_iff_left, true_and]
    · rw [if_neg (c := (fate n).stored = true ∧ _) (fun h => ha h.2)]
      have hin : (first ≤ a / d.blockSize ∧ a / d.blockSize < first + (n + 1)) ↔
          (first ≤ a / d.blockSize ∧ a / d.blockSize < first + n) := by omega
      simp only [hin]

theorem patch_whole {bs first n : Nat} (hpos : 0 < bs) {data : List UInt8}
    (hlen : data.length = n * bs) (img : Nat → UInt8) (a : Nat) : patch img (first * bs) data a =
      if first ≤ a / bs ∧ a / bs < first + n then data.getD (a - first * bs) 0 else img a := by
  have hrange : (first * bs ≤ a ∧ a < first * bs + data.length) ↔
      (first ≤ a / bs ∧ a / bs < first + n) := by
    rw [Nat.le_div_iff_mul_le hpos, Nat.div_lt_iff_lt_mul hpos, Nat.add_mul, hlen]
  simp only [patch, hrange]

theorem answers_writeBlocks (range : ε) (first : Nat) {n : Nat} {data : List UInt8}
    (hlen : data.length = n * bs) :
    Prog.Triple (Answers A bs count img) (writeBlocks range first data)
      (fun _ => Answers A bs count (patch img (first * bs) data))
      (fun _ d => ∃ stored, Failed A (count < first + n) stored ∧
        Answers A bs count (partly bs first stored img (patch img (first * bs) data)) d) := by
  intro d hd
  have hpos : 0 < bs := hd.blockSize ▸ d.blockSize_pos
  have hn : data.length / d.blockSize = n := by
    rw [hd.blockSize, hlen, Nat.mul_div_cancel _ hpos]
  have hcommits (fate : Nat → Fate) (d' : Device ε) (h : Answers A bs count img d')
      (new : Nat → UInt8)
        (hnew : ∀ a, new a = if (first ≤ a / bs ∧ a / bs < first + n) ∧
          (fate (a / bs - first)).stored = true
          then data.getD (a - first * bs) 0 else img a) :
        Answers A bs count new (d'.commits fate first data n) := by
    refine ⟨by simp [h.blockSize], by simp [h.blockCount], ?_, by simpa using h.script⟩
    funext a
    rw [commits_getD fate first data d' n (by rw [h.blockSize, hlen]), h.blockSize, h.bytes, hnew]
  have hdone (d' : Device ε) (h : Answers A bs count img d') :
      Answers A bs count (patch img (first * bs) data)
        (d'.commits (fun _ => .done) first data n) := by
    apply hcommits _ d' h
    intro a
    rw [patch_whole hpos hlen]
    simp only [Fate.stored, and_true]
  simp only [writeBlocks, hn]
  by_cases hrange : first + n ≤ d.blockCount
  · rw [if_pos hrange]
    rcases hscript : d.script with _ | ⟨_ | ⟨e, landed⟩, rest⟩
    · exact hdone d hd
    · exact hdone _ (hd.tail hscript).2
    · obtain ⟨hA, hd'⟩ := hd.tail hscript
      refine ⟨landed, .inr ⟨e, landed, hA, fun _ h => h⟩, hcommits _ _ hd' _ fun a => ?_⟩
      rw [partly, patch_whole hpos hlen]
      by_cases hblock : first ≤ a / bs ∧ landed (a / bs - first) = true
      · simp only [Fate.stored, hblock, true_and, and_true, if_true]
      · rw [if_neg hblock, if_neg fun h => hblock ⟨h.1.1, h.2⟩]
  · rw [if_neg hrange]
    refine ⟨fun _ => false, .inl ⟨by rw [hd.blockCount] at hrange; omega, rfl⟩, ?_⟩
    rw [partly_none]
    exact hd

theorem answers_flush : Prog.Triple (Answers A bs count img) (flush : Prog (Device ε) ε Unit)
    (fun _ => Answers A bs count img)
      (fun _ d => Refused A False ∧ Answers A bs count img d) := by
  intro d hd
  simp only [flush]
  rcases hscript : d.script with _ | ⟨_ | ⟨e, landed⟩, rest⟩
  · exact ⟨hd.blockSize, hd.blockCount, hd.bytes, hscript ▸ hd.script⟩
  · obtain ⟨-, hd'⟩ := hd.tail hscript
    exact ⟨hd'.blockSize, hd'.blockCount, hd'.bytes, hd'.script⟩
  · obtain ⟨hA, hd'⟩ := hd.tail hscript
    exact ⟨.inr ⟨e, landed, hA, fun _ hi => absurd hi Bool.false_ne_true⟩,
      hd'.blockSize, hd'.blockCount, hd'.bytes, hd'.script⟩

end Device

namespace Io

open Device (Refused Failed)
open Prog (Triple)

/-- The buffer is coherent, the device holds `img`, and answers the calls to come
as `A` allows. -/
abbrev Answers (A : Outcome Stop → Prop) (bs count : Nat) (img : Nat → UInt8) : Io → Prop :=
  Sound (Device.Answers A bs count img)

variable {A : Outcome Stop → Prop} {bs count index offset len : Nat} {img : Nat → UInt8}
variable {data : List UInt8} {E : Stop → Io → Prop}

/-- What a read leaves that fails. -/
abbrev Unread (A : Outcome Stop → Prop) (bs count : Nat) (img : Nat → UInt8) (past : Prop) :
    Stop → Io → Prop :=
  fun _ io => Refused A past ∧ Answers A bs count img io

theorem Answers.blockSize {io : Io} (h : Answers A bs count img io) : io.dev.blockSize = bs :=
  h.2.blockSize

theorem Answers.pos {io : Io} (h : Answers A bs count img io) : 0 < bs :=
  h.blockSize ▸ io.dev.blockSize_pos

theorem Answers.dev {io : Io} (h : Answers A bs count img io) {d : Device Stop}
    (hd : d.Answers A bs count img) : Answers A bs count img { io with dev := d } := by
  refine ⟨⟨?_, fun i hi => ?_⟩, hd⟩
  · rw [hd.blockSize, ← h.blockSize]
    exact h.1.length
  · change io.block.data = slice d.bytes (i * d.blockSize) d.blockSize
    rw [h.1.cached i hi, Device.blockAt, hd.blockSize, hd.bytes, h.blockSize, h.2.bytes]

theorem answers_size {α : Type} {f : Nat → Prog Io Stop α} {Q : α → Io → Prop}
    (h : 0 < bs → Triple (Answers A bs count img) (f bs) Q E) :
    Triple (Answers A bs count img) (blockSize >>= f) Q E := by
  intro io hio
  have hrun := h hio.pos io hio
  rw [← hio.blockSize] at hrun
  exact hrun

theorem answers_onDev_read (first n : Nat) :
    Triple (Answers A bs count img) (onDev (Device.readBlocks pastEnd first n))
      (fun data io => data = slice img (first * bs) (n * bs) ∧ Answers A bs count img io)
      (Unread A bs count img (count < first + n)) := by
  intro io hio
  have hread := Device.answers_readBlocks pastEnd first n io.dev hio.2
  simp only [onDev, Prog.run_zoom, devLens]
  rcases hrun : (Device.readBlocks pastEnd first n).run io.dev with ⟨e | data, d⟩ <;>
    rw [hrun] at hread
  · exact ⟨hread.1, hio.dev hread.2⟩
  · exact ⟨hread.1, hio.dev hread.2⟩

theorem answers_flush : Triple (Answers A bs count img) flush (fun _ => Answers A bs count img)
    (Unread A bs count img False) := by
  intro io hio
  have hflush := Device.answers_flush io.dev hio.2
  simp only [flush, onDev, Prog.run_zoom, devLens]
  rcases hrun : Device.flush.run io.dev with ⟨e | ⟨⟩, d⟩ <;> rw [hrun] at hflush
  · exact ⟨hflush.1, hio.dev hflush.2⟩
  · exact hio.dev hflush

theorem answers_load (index : Nat) : Triple (Answers A bs count img) (load index)
    (fun _ io => Answers A bs count img io ∧ io.block.cached = some index)
    (Unread A bs count img (count ≤ index)) := by
  intro io hio
  by_cases hc : io.block.cached = some index
  · have hrun : (load index).run io = (.ok (), io) := by simp [load, Prog.run_bind, hc]
    rw [hrun]
    exact ⟨hio, hc⟩
  · have hread := Device.answers_readBlocks pastEnd index 1 io.dev hio.2
    simp only [load, Prog.run_bind, Prog.run_gets, if_neg hc, invalidate,
      setBlock, Prog.run_modify, onDev, devLens, Prog.run_zoom]
    rcases hrun : (Device.readBlocks pastEnd index 1).run io.dev with ⟨e | block, d⟩ <;>
      rw [hrun] at hread
    · refine ⟨hread.1.mono fun h => by omega, ⟨?_, fun _ hi =>
        absurd hi (Option.some_ne_none _).symm⟩, hread.2⟩
      rw [hread.2.blockSize, ← hio.blockSize]
      exact hio.1.length
    · obtain ⟨rfl, hd⟩ := hread
      refine ⟨⟨⟨?_, ?_⟩, hd⟩, rfl⟩
      · rw [slice_length, hd.blockSize, Nat.one_mul]
      · rintro i hi
        cases hi
        rw [Device.blockAt, hd.blockSize, hd.bytes, Nat.one_mul]

theorem answers_contents {α : Type} {f : List UInt8 → Prog Io Stop α} {Q : α → Io → Prop}
    (h : Triple (fun io => Answers A bs count img io ∧ io.block.cached = some index)
      (f (slice img (index * bs) bs)) Q E) :
    Triple (fun io => Answers A bs count img io ∧ io.block.cached = some index)
      (contents >>= f) Q E := by
  rintro io ⟨hio, hc⟩
  have hrun := h io ⟨hio, hc⟩
  have hdata : io.block.data = slice img (index * bs) bs := by
    rw [hio.1.cached _ hc, Device.blockAt, hio.2.blockSize, hio.2.bytes]
  rw [← hdata] at hrun
  exact hrun

theorem answers_contentsMut (f : List UInt8 → List UInt8) :
    Triple (fun io => Answers A bs count img io ∧ io.block.cached = some index) (contentsMut f)
      (fun _ io => io.block.data = f (slice img (index * bs) bs) ∧
        io.dev.Answers A bs count img) E := by
  refine Triple.modify fun io hio => ⟨?_, hio.1.2⟩
  change f io.block.data = _
  rw [hio.1.1.cached _ hio.2, Device.blockAt, hio.1.2.blockSize, hio.1.2.bytes]

/-- What a write of the buffer leaves that fails: the block is stored or not. -/
abbrev Unstored (A : Outcome Stop → Prop) (bs count index : Nat) (img new : Nat → UInt8) :
    Stop → Io → Prop :=
  fun _ io => ∃ stored, Failed A (count ≤ index) stored ∧
    Answers A bs count (if stored 0 = true then new else img) io

variable (A count index img) in
theorem answers_store (hlen : data.length = bs) :
    Triple (fun io => io.block.data = data ∧ io.dev.Answers A bs count img) (store index)
      (fun _ => Answers A bs count (patch img (index * bs) data))
      (Unstored A bs count index img (patch img (index * bs) data)) := by
  rintro io ⟨rfl, hio⟩
  have hpos : 0 < bs := hio.blockSize ▸ io.dev.blockSize_pos
  have hwrite := Device.answers_writeBlocks pastEnd index
    (hlen.trans (Nat.one_mul bs).symm) io.dev hio
  simp only [store, invalidate, setBlock, Prog.run_bind, Prog.run_modify, contents, Prog.run_gets,
    onDev, devLens, Prog.run_zoom]
  rcases hrun : (Device.writeBlocks pastEnd index io.block.data).run io.dev with ⟨e | ⟨⟩, d⟩ <;>
    rw [hrun] at hwrite
  · obtain ⟨stored, hfailed, hd⟩ := hwrite
    rw [partly_block] at hd
    · refine ⟨stored, hfailed.mono
        fun h => by omega, ⟨?_, fun _ hi => absurd hi (Option.some_ne_none _).symm⟩, hd⟩
      rw [hd.blockSize, hlen]
    · intro a ha
      rw [Device.patch_whole hpos (hlen.trans (Nat.one_mul bs).symm), if_neg (by omega)]
  · refine ⟨⟨by rw [hwrite.blockSize, hlen], fun i hi => ?_⟩, hwrite⟩
    cases hi
    rw [Device.blockAt, hwrite.blockSize, hwrite.bytes, ← hlen, slice_patch]

/-- A change to a block: refused where `f` has none, stored, or failed with the
block stored or not. -/
theorem answers_update {α : Type} {f : List UInt8 → Option (List UInt8 × α)}
    (hf : ∀ block a, f (slice img (index * bs) bs) = some (block, a) → block.length = bs) :
    Triple (Answers A bs count img) (update index f)
      (fun r io => ∃ block, f (slice img (index * bs) bs) = some (block, r) ∧
        Answers A bs count (patch img (index * bs) block) io)
      (fun e io => (f (slice img (index * bs) bs) = none ∧ e = .ofKind .corrupt ∧
        Answers A bs count img io) ∨
        ∃ stored, Failed A (count ≤ index) stored ∧ (stored 0 = true → ∃ block a,
          f (slice img (index * bs) bs) =
            some (block, a) ∧ Answers A bs count (patch img (index * bs) block) io) ∧
          (stored 0 = false → Answers A bs count img io)) := by
  refine Triple.bind ((answers_load index).weaken (fun _ _ h => h) fun _ io h => ?_) fun _ => ?_
  · exact .inr ⟨_, h.1, fun hs => absurd hs Bool.false_ne_true, fun _ => h.2⟩
  refine answers_contents ?_
  rcases hblock : f (slice img (index * bs) bs) with _ | ⟨block, a⟩
  · refine Triple.bind (Q := fun _ => Answers A bs count img)
      (Triple.modify fun io h => ?_) fun _ =>
      Triple.fail fun io h => .inl ⟨rfl, rfl, h⟩
    exact ⟨⟨h.1.1.length, fun _ hi => absurd hi (Option.some_ne_none _).symm⟩, h.1.2⟩
  · refine Triple.bind (answers_contentsMut _) fun _ => ?_
    refine Triple.bind ((answers_store A count index img (hf block a hblock)).weaken
      (fun _ _ h => h) fun _ io h => ?_) fun _ =>
      Triple.pure fun io h => ⟨block, rfl, h⟩
    obtain ⟨stored, hfailed, hio⟩ := h
    refine .inr ⟨stored, hfailed, fun hs => ⟨block, a, rfl, ?_⟩, fun hs => ?_⟩
    · rwa [if_pos hs] at hio
    · rwa [if_neg (by rw [hs]; exact Bool.false_ne_true)] at hio

theorem readLoop_zero (fuel index at_ : Nat) : readLoop fuel index at_ 0 = pure [] := by
  cases fuel <;> rfl

variable (A count img) in
theorem answers_readLoop (fuel index at_ remaining : Nat) (hfuel : remaining ≤ fuel)
    (hat : at_ < bs) :
    Triple (Answers A bs count img) (readLoop fuel index at_ remaining)
      (fun data io => data = slice img (index * bs + at_) remaining ∧ Answers A bs count img io)
      (Unread A bs count img (count * bs < index * bs + at_ + remaining)) := by
  induction fuel generalizing index at_ remaining with
  | zero =>
    obtain rfl := Nat.le_zero.mp hfuel
    exact Triple.pure fun io h => ⟨rfl, h⟩
  | succ fuel ih =>
    unfold readLoop
    refine Triple.ite (fun hzero => Triple.pure fun io h => ⟨by rw [hzero]; rfl, h⟩)
      fun hpos => ?_
    refine answers_size fun hbs => ?_
    have hdiv : remaining / bs * bs ≤ remaining := Nat.div_mul_le_self _ _
    refine Triple.ite (fun hblocks => ?_) fun _ => ?_
    · have hzero : at_ = 0 := by
        by_contra hne
        simp [hne] at hblocks
      subst hzero
      rw [if_pos rfl] at hblocks ⊢
      have hone : 1 * bs ≤ remaining / bs * bs := Nat.mul_le_mul_right _ hblocks
      refine Triple.bind ((answers_onDev_read index (remaining / bs)).weaken (fun _ _ h => h)
        fun _ io h => ⟨h.1.mono fun hlt => ?_, h.2⟩) fun chunk => Triple.assume ?_
      · have hmul := Nat.mul_le_mul_right bs (Nat.succ_le_of_lt hlt)
        rw [Nat.succ_mul, Nat.add_mul] at hmul
        omega
      rintro rfl
      refine Triple.bind ((ih _ _ _ (by omega) hat).weaken (fun _ _ h => h) fun _ io h =>
        ⟨h.1.mono fun hlt => ?_, h.2⟩) fun rest => Triple.assume ?_
      · rw [Nat.add_mul] at hlt
        omega
      rintro rfl
      refine Triple.pure fun io h => ⟨?_, h⟩
      have hsplit : remaining = remaining / bs * bs +
        (remaining - remaining / bs * bs) := by omega
      conv_rhs => rw [hsplit, slice_append]
      rw [Nat.add_mul]
      rfl
    · refine Triple.bind ((answers_load index).weaken (fun _ _ h => h) fun _ io h =>
        ⟨h.1.mono fun hle => ?_, h.2⟩) fun _ => answers_contents ?_
      · have hmul := Nat.mul_le_mul_right bs hle
        omega
      have hnext := slice_part img index remaining hat.le
      by_cases hrest : remaining ≤ bs - at_
      · rw [Nat.min_eq_right hrest, Nat.sub_self, readLoop_zero] at *
        exact Triple.bind (Triple.pure (Q := fun rest io => rest = [] ∧ Answers A bs count img io)
          fun io h => ⟨rfl, h.1⟩) fun rest => Triple.assume fun hrest =>
            Triple.pure fun io h => ⟨by rw [hrest]; exact hnext, h⟩
      · have hlater :
          Triple _ _ _ (Unread A bs count img (count * bs < index * bs + at_ + remaining)) :=
          (ih (index + 1) 0 (remaining - min (bs - at_) remaining) (by omega) hbs).weaken
            (fun _ _ h => h)
            fun _ io h => ⟨h.1.mono fun hlt => by rw [Nat.succ_mul] at hlt; omega, h.2⟩
        exact Triple.bind (hlater.pre fun _ h => h.1) fun rest => Triple.assume fun hrest =>
          Triple.pure fun io h => ⟨by rw [hrest, hnext], h⟩

theorem answers_readBytes (offset len : Nat) :
    Triple (Answers A bs count img) (readBytes offset len)
      (fun data io => data = slice img offset len ∧ Answers A bs count img io)
      (Unread A bs count img (count * bs < offset + len)) := by
  refine answers_size fun hbs => ?_
  have hloop := answers_readLoop A count img len (offset / bs) (offset % bs) len le_rfl
    (Nat.mod_lt _ hbs)
  rwa [Nat.div_add_mod' offset bs] at hloop

/-- What a write of `data` at byte `offset` leaves that fails: the blocks before
byte `n` of the data are stored, and of those of one more call some. -/
def Torn (A : Outcome Stop → Prop) (bs count : Nat) (img : Nat → UInt8)
    (offset : Nat) (data : List UInt8) (io : Io) : Prop :=
  ∃ n stored, n < data.length ∧ (n = 0 ∨ bs ∣ offset + n) ∧
    Failed A (count * bs < offset + data.length) stored ∧
    Answers A bs count (partly bs ((offset + n) / bs) stored (patch img offset (data.take n))
      (patch img offset data)) io

theorem Torn.after {part rest : List UInt8} {io : Io} (hend : bs ∣ offset + part.length)
    (h : Torn A bs count (patch img offset part) (offset + part.length) rest io) :
    Torn A bs count img offset (part ++ rest) io := by
  obtain ⟨n, stored, hn, hstart, hfailed, hio⟩ := h
  refine ⟨part.length + n, stored, ?_, .inr ?_, hfailed.mono fun h => ?_, ?_⟩
  · rw [length_append]
    omega
  · rcases hstart with rfl | hdvd
    · exact hend
    · rwa [← Nat.add_assoc]
  · rw [length_append]
    omega
  · rwa [take_length_add_append, ← Nat.add_assoc, ← patch_append, ← patch_append]

theorem answers_putWhole (zeros : Bool) {n : Nat} (hlen : data.length = n * bs) :
    Triple (Answers A bs count img) (putWhole zeros index data)
      (fun _ => Answers A bs count (patch img (index * bs) data))
      (fun _ io => ∃ stored, Failed A (count < index + n) stored ∧
        Answers A bs count (partly bs index stored img (patch img (index * bs) data)) io) := by
  intro io hio
  have hcoherent := putWhole_sound
    (frame_blockSize bs (index * bs) (index * bs + data.length)) zeros
    index n data (fun _ hd => hd) hlen le_rfl le_rfl io ⟨hio.1, hio.blockSize⟩
  have hwrite := Device.answers_writeBlocks pastEnd index hlen io.dev hio.2
  simp only [putWhole, Prog.run_bind, blockSize, Prog.run_gets, setBlock, Prog.run_modify, onDev,
    Prog.run_zoom, devLens] at hcoherent ⊢
  rcases hrun : (Device.writeBlocks pastEnd index data).run io.dev with ⟨e | ⟨⟩, d⟩ <;>
    rw [hrun] at hwrite hcoherent
  · obtain ⟨stored, hfailed, hd⟩ := hwrite
    exact ⟨stored, hfailed, hcoherent.1, hd⟩
  · exact ⟨hcoherent.1, hwrite⟩

theorem answers_putPart {at_ : Nat} (hat : at_ + data.length ≤ bs) :
    Triple (Answers A bs count img) (putPart index at_ data)
      (fun _ => Answers A bs count (patch img (index * bs + at_) data))
      (Unstored A bs count index img (patch img (index * bs + at_) data)) := by
  refine Triple.bind ((answers_load index).weaken (fun _ _ h => h) fun _ io h => ⟨_, h.1, h.2⟩)
    fun _ => ?_
  refine Triple.bind (answers_contentsMut _) fun _ => ?_
  have hlen := slice_length img (index * bs) bs
  have hsame : patch img (index * bs)
      (slice (patch img (index * bs + at_) data) (index * bs) bs) =
        patch img (index * bs + at_) data := by
    refine patch_slice_of_same img (index * bs) bs fun a ha => ?_
    rcases ha with ha | ha
    · exact patch_of_lt _ _ _ (by omega)
    · exact patch_of_ge _ _ _ (by omega)
  have hstore := answers_store A count index img
    (slice_length (patch img (index * bs + at_) data) (index * bs) bs)
  rw [hsame] at hstore
  refine hstore.pre fun io h => ⟨?_, h.2⟩
  rw [h.1, splice_slice _ _ _ _ hat]

theorem putLoop_nil (zeros : Bool) (fuel index at_ : Nat) :
    putLoop zeros fuel index at_ [] = pure () := by
  cases fuel <;> rfl

theorem Torn.first {rest : List UInt8} {io : Io} {n : Nat} {stored : Nat → Bool}
    (hne : 0 < data.length)
    (hin : ∀ a, a / bs < offset / bs + n → rest = [] ∨ a < offset + data.length)
    (hout : ∀ a, offset / bs + n ≤ a / bs → offset + data.length ≤ a)
    (hfailed : Failed A (count * bs < offset + (data ++ rest).length) stored)
    (hio : Answers A bs count (partly bs (offset / bs) stored img (patch img offset data)) io) :
    Torn A bs count img offset (data ++ rest) io := by
  refine ⟨0, fun i => stored i && decide (i < n), ?_, .inl rfl, ?_, ?_⟩
  · rw [length_append]
    omega
  · rcases hfailed with ⟨hpast, hnone⟩ | ⟨e, landed, hA, hle⟩
    · exact .inl ⟨hpast, by rw [hnone]; rfl⟩
    · refine .inr ⟨e, landed, hA, fun i hi => hle i ?_⟩
      rw [Bool.and_eq_true] at hi
      exact hi.1
  have hsame : partly bs (offset / bs) (fun i => stored i && decide (i < n)) img
      (patch img offset (data ++ rest)) =
        partly bs (offset / bs) stored img (patch img offset data) := by
    funext a
    simp only [partly, Bool.and_eq_true, decide_eq_true_eq]
    by_cases hstored : offset / bs ≤ a / bs ∧ stored (a / bs - offset / bs) = true
    · rw [if_pos hstored]
      by_cases hn : a / bs < offset / bs + n
      · rw [if_pos ⟨hstored.1, hstored.2, by omega⟩]
        rcases hin a hn with rfl | hlt
        · rw [append_nil]
        · rw [← patch_append, patch_of_lt _ _ _ hlt]
      · rw [if_neg (by omega), patch_of_ge _ _ _ (hout a (not_lt.mp hn))]
    · rw [if_neg hstored, if_neg fun h => hstored ⟨h.1, h.2.1⟩]
  rwa [take_zero, patch_nil, Nat.add_zero, hsame]

variable (A count img) in
theorem answers_putLoop (zeros : Bool) (fuel index at_ : Nat) (data : List UInt8)
    (hfuel : data.length ≤ fuel) (hat : at_ < bs) :
    Triple (Answers A bs count img) (putLoop zeros fuel index at_ data)
      (fun _ => Answers A bs count (patch img (index * bs + at_) data))
      (fun _ => Torn A bs count img (index * bs + at_) data) := by
  induction fuel generalizing index at_ data img with
  | zero =>
    obtain rfl := length_eq_zero_iff.mp (Nat.le_zero.mp hfuel)
    rw [patch_nil]
    exact Triple.pure fun io h => h
  | succ fuel ih =>
    unfold putLoop
    refine Triple.ite (fun hzero => ?_) fun hne => ?_
    · rw [length_eq_zero_iff.mp hzero, patch_nil]
      exact Triple.pure fun io h => h
    refine answers_size fun hbs => ?_
    refine Triple.bind (Triple.gets (Q := fun _ => Answers A bs count img) fun io h => h)
      fun capacity => ?_
    generalize hblocks : putBlocks zeros bs capacity at_ data.length = blocks
    have hnonempty : 0 < data.length := Nat.pos_of_ne_zero hne
    refine Triple.ite (fun hpositive => ?_) fun _ => ?_
    · obtain ⟨rfl, hfit⟩ := putBlocks_pos (hblocks ▸ hpositive)
      rw [hblocks] at hfit
      have hone : 1 * bs ≤ blocks * bs := Nat.mul_le_mul_right _ hpositive
      obtain ⟨part, rest, rfl, hpart⟩ : ∃ part rest, data = part ++ rest ∧
        part.length = blocks * bs :=
        ⟨data.take (blocks * bs), data.drop (blocks * bs), (take_append_drop _ _).symm, by
          rw [length_take]
          omega⟩
      rw [length_append] at hfuel
      rw [take_left' hpart, drop_left' hpart, Nat.add_zero]
      have hdiv : index * bs / bs = index := Nat.mul_div_cancel _ hbs
      have hnext : (index + blocks) * bs = index * bs + part.length := by rw [hpart, Nat.add_mul]
      refine Triple.bind ((answers_putWhole zeros hpart).weaken (fun _ _ h => h) fun _ io h => ?_)
        fun _ => ?_
      · obtain ⟨stored, hfailed, hio⟩ := h
        refine Torn.first (n := blocks) (by omega) (fun a ha => .inr ?_) (fun a ha => ?_)
          (hfailed.mono fun hlt => ?_) ?_
        · rw [hdiv, Nat.div_lt_iff_lt_mul hbs] at ha
          omega
        · rw [hdiv, Nat.le_div_iff_mul_le hbs] at ha
          omega
        · have hmul := Nat.mul_le_mul_right bs (Nat.succ_le_of_lt hlt)
          rw [Nat.succ_mul] at hmul
          rw [length_append]
          omega
        · rwa [hdiv]
      · have hrest := ih (patch img (index * bs) part) (index + blocks) 0 rest (by omega) hat
        rw [Nat.add_zero, hnext, patch_append] at hrest
        exact hrest.weaken (fun _ _ h => h) fun _ io h =>
          h.after ⟨index + blocks, by rw [← hnext, Nat.mul_comm]⟩
    · have hdiv : (index * bs + at_) / bs = index := by
        rw [Nat.add_comm, Nat.add_mul_div_right _ _ hbs, Nat.div_eq_of_lt hat, Nat.zero_add]
      obtain ⟨part, rest, rfl, hpart, hend⟩ : ∃ part rest, data = part ++ rest ∧
          part.length = min (bs - at_) data.length ∧ (rest = [] ∨ part.length = bs - at_) := by
        refine ⟨data.take (min (bs - at_) data.length), data.drop (min (bs - at_) data.length),
          (take_append_drop _ _).symm, by rw [length_take]; omega, ?_⟩
        by_cases hshort : data.length ≤ bs - at_
        · exact .inl (drop_eq_nil_of_le (by omega))
        · exact .inr (by rw [length_take]; omega)
      simp only [← hpart, take_left, drop_left]
      rw [length_append] at hfuel hnonempty hpart
      have hinside (a : Nat) (ha : a / bs ≠ index) :
          patch img (index * bs + at_) part a = img a := by
        rcases Nat.lt_or_gt_of_ne ha with hlt | hgt
        · rw [Nat.div_lt_iff_lt_mul hbs] at hlt
          exact patch_of_lt _ _ _ (by omega)
        · have hge : (index + 1) * bs ≤ a := (Nat.le_div_iff_mul_le hbs).mp hgt
          rw [Nat.succ_mul] at hge
          exact patch_of_ge _ _ _ (by omega)
      refine Triple.bind ((answers_putPart (by omega)).weaken (fun _ _ h => h) fun _ io h => ?_)
        fun _ => ?_
      · obtain ⟨stored, hfailed, hio⟩ := h
        rw [← partly_block hinside] at hio
        refine Torn.first (n := 1) (by omega) (fun a ha => ?_) (fun a ha => ?_)
          (hfailed.mono fun hle => ?_) ?_
        · rw [hdiv, Nat.div_lt_iff_lt_mul hbs, Nat.succ_mul] at ha
          exact hend.imp id fun _ => by omega
        · rw [hdiv, Nat.le_div_iff_mul_le hbs, Nat.succ_mul] at ha
          omega
        · have hmul := Nat.mul_le_mul_right bs hle
          rw [length_append]
          omega
        · rwa [hdiv]
      · rcases hend with rfl | hend
        · rw [putLoop_nil, append_nil]
          exact Triple.pure fun io h => h
        · have hnext : (index + 1) * bs = index * bs + at_ + part.length := by
            rw [Nat.succ_mul]
            omega
          have hrest := ih (patch img (index * bs + at_) part) (index + 1) 0 rest (by omega) hbs
          simp only [hnext, Nat.add_zero, patch_append] at hrest
          exact hrest.weaken (fun _ _ h => h) fun _ io h =>
            h.after ⟨index + 1, by rw [← hnext, Nat.mul_comm]⟩

theorem answers_put (zeros : Bool) (offset : Nat) (data : List UInt8) :
    Triple (Answers A bs count img) (put zeros offset data)
      (fun _ => Answers A bs count (patch img offset data))
        (fun _ => Torn A bs count img offset data) := by
  refine answers_size fun hbs => ?_
  have hloop := answers_putLoop A count img zeros data.length (offset / bs)
    (offset % bs) data le_rfl
    (Nat.mod_lt _ hbs)
  rwa [Nat.div_add_mod' offset bs] at hloop

theorem Torn.mixed {io : Io} (h : Torn A bs count img offset data io) :
    Refused A (count * bs < offset + data.length) ∧ ∃ img', Answers A bs count img' io ∧
      ∀ a, img' a = img a ∨ img' a = patch img offset data a := by
  obtain ⟨n, stored, hn, -, hfailed, hio⟩ := h
  refine ⟨hfailed.refused, _, hio, fun a => ?_⟩
  rcases partly_eq_or bs ((offset + n) / bs) stored (patch img offset (data.take n))
    (patch img offset data) a
    with hold | hnew
  · rw [hold]
    by_cases ha : a < offset + n
    · have htake : (data.take n).length = n := by
        rw [length_take]
        omega
      refine .inr ?_
      conv_rhs => rw [← take_append_drop n data, ← patch_append, htake]
      rw [patch_of_lt _ _ _ ha]
    · exact .inl (patch_of_ge _ _ _ (by rw [length_take]; omega))
  · exact .inr hnew

theorem Torn.block {io : Io} (hblock : (offset + data.length - 1) / bs = offset / bs)
    (h : Torn A bs count img offset data io) :
    ∃ stored, Failed A (count * bs < offset + data.length) stored ∧
      Answers A bs count (if stored 0 = true then patch img offset data else img) io := by
  obtain ⟨n, stored, hn, hstart, hfailed, hio⟩ := h
  have hbs := hio.pos
  have hlast : offset + data.length - 1 < (offset / bs + 1) * bs := by
    rw [← Nat.div_lt_iff_lt_mul hbs, hblock]
    exact Nat.lt_succ_self _
  have hfirst := Nat.div_mul_le_self offset bs
  have hzero : n = 0 := by
    rcases hstart with hzero | ⟨k, hk⟩
    · exact hzero
    · -- no byte of the data but the first can start a block
      by_contra hne
      have hlo : offset / bs < k := by
        by_contra hle
        have hmul := Nat.mul_le_mul_left bs (not_lt.mp hle)
        rw [← hk, Nat.mul_comm] at hmul
        omega
      have hhi := Nat.mul_le_mul_left bs (Nat.add_one_le_iff.mpr hlo)
      rw [← hk, Nat.mul_comm] at hhi
      omega
  subst hzero
  refine ⟨stored, hfailed, ?_⟩
  rw [Nat.add_zero, take_zero, patch_nil, partly_block fun a ha => ?_] at hio
  · exact hio
  · rcases Nat.lt_or_gt_of_ne ha with hlt | hgt
    · rw [Nat.div_lt_iff_lt_mul hbs] at hlt
      exact patch_of_lt _ _ _ (by omega)
    · have hge : (offset / bs + 1) * bs ≤ a := (Nat.le_div_iff_mul_le hbs).mp hgt
      exact patch_of_ge _ _ _ (by omega)

end Io

end Hadris
