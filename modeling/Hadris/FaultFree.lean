import Hadris.BlockBuf

namespace Hadris

namespace Io

open Prog (Triple)

/-- The buffer is coherent, the device holds `img`, and no call to come fails. -/
abbrev Holds (bs count : Nat) (img : Nat → UInt8) : Io → Prop := Sound (Device.Holds bs count img)

variable {bs count index offset len : Nat} {img : Nat → UInt8} {data : List UInt8}
variable {E : Stop → Io → Prop}

theorem Holds.blockSize {io : Io} (h : Holds bs count img io) : io.dev.blockSize = bs :=
  h.2.blockSize

theorem Holds.pos {io : Io} (h : Holds bs count img io) : 0 < bs :=
  h.blockSize ▸ io.dev.blockSize_pos

theorem holds_size {α : Type} {f : Nat → Prog Io Stop α} {Q : α → Io → Prop}
    (h : 0 < bs → Triple (Holds bs count img) (f bs) Q E) :
    Triple (Holds bs count img) (blockSize >>= f) Q E := by
  intro io hio
  have hrun := h hio.pos io hio
  rw [← hio.blockSize] at hrun
  exact hrun

theorem holds_load (h : index < count) :
    Triple (Holds bs count img) (load index)
      (fun _ io => Holds bs count img io ∧ io.block.cached = some index) E := by
  apply Triple.of_ok
  intro io hio
  by_cases hc : io.block.cached = some index
  · refine ⟨(), io, ?_, hio, hc⟩
    simp [load, Prog.run_bind, hc]
  · obtain ⟨data, d, hread, rfl, hd⟩ := (Device.holds_readBlocks (n := 1) pastEnd h).ok_of hio.2
    refine ⟨(), ⟨d, { io.block with
      cached := some index
      data := slice img (index * bs) (1 * bs) }⟩, ?_, ⟨⟨?_, ?_⟩, hd⟩, rfl⟩
    · simp only [load, Prog.run_bind, Prog.run_gets, if_neg hc, invalidate, setBlock,
        Prog.run_modify, onDev, devLens, Prog.run_zoom, hread]
    · rw [slice_length, hd.blockSize, Nat.one_mul]
    · rintro i hi
      cases hi
      rw [Device.blockAt, hd.blockSize, hd.bytes, Nat.one_mul]

theorem holds_contents {α : Type} {f : List UInt8 → Prog Io Stop α} {Q : α → Io → Prop}
    (h : Triple (Holds bs count img) (f (slice img (index * bs) bs)) Q E) :
    Triple (fun io => Holds bs count img io ∧ io.block.cached = some index)
      (contents >>= f) Q E := by
  rintro io ⟨hio, hc⟩
  have hrun := h io hio
  have hdata : io.block.data = slice img (index * bs) bs := by
    rw [hio.1.cached _ hc, Device.blockAt, hio.2.blockSize, hio.2.bytes]
  rw [← hdata] at hrun
  exact hrun

theorem block_lt {at_ remaining : Nat} (hpos : 0 < remaining)
    (hend : index * bs + at_ + remaining ≤ count * bs) : index < count := by
  by_contra hge
  have hmul := Nat.mul_le_mul_right bs (Nat.le_of_not_lt hge)
  omega

variable (img count) in
theorem holds_readLoop (fuel index at_ remaining : Nat) (hfuel : remaining ≤ fuel)
    (hat : at_ < bs) (hend : index * bs + at_ + remaining ≤ count * bs) :
    Triple (Holds bs count img) (readLoop fuel index at_ remaining)
      (fun data io => data = slice img (index * bs + at_) remaining ∧
        Holds bs count img io) E := by
  induction fuel generalizing index at_ remaining with
  | zero =>
    obtain rfl := Nat.le_zero.mp hfuel
    exact Triple.pure fun io h => ⟨rfl, h⟩
  | succ fuel ih =>
    unfold readLoop
    refine Triple.ite (fun hzero => Triple.pure fun io h => ⟨by rw [hzero]; rfl, h⟩)
      fun hpos => ?_
    refine holds_size fun hbs => ?_
    have hdiv : remaining / bs * bs ≤ remaining := Nat.div_mul_le_self _ _
    refine Triple.ite (fun hblocks => ?_) fun _ => ?_
    · have hzero : at_ = 0 := by
        by_contra hne
        simp [hne] at hblocks
      subst hzero
      rw [if_pos rfl] at hblocks ⊢
      have hfit : index + remaining / bs ≤ count := by
        have hmul : (index + remaining / bs) * bs ≤ count * bs := by
          rw [Nat.add_mul]
          omega
        exact Nat.le_of_mul_le_mul_right hmul hbs
      refine Triple.bind
        (Q := fun chunk io => chunk = slice img (index * bs) (remaining / bs * bs) ∧
        Holds bs count img io) ?_ fun chunk => Triple.assume ?_
      · apply Triple.of_ok
        intro io hio
        obtain ⟨data, d, hread, rfl, hd⟩ := (Device.holds_readBlocks pastEnd hfit).ok_of hio.2
        refine ⟨_, { io with dev := d }, ?_, rfl, ⟨?_, fun i hi => ?_⟩, hd⟩
        · simp only [onDev, Prog.run_zoom, devLens, hread]
        · rw [hd.blockSize, hio.1.length, hio.2.blockSize]
        · change io.block.data = slice d.bytes (i * d.blockSize) d.blockSize
          rw [hio.1.cached i hi, Device.blockAt, hd.blockSize, hd.bytes, hio.2.blockSize,
            hio.2.bytes]
      · rintro rfl
        have hone : 1 * bs ≤ remaining / bs * bs := Nat.mul_le_mul_right _ hblocks
        refine Triple.bind (ih _ _ _ (by omega) hat ?_) fun rest => Triple.assume ?_
        · rw [Nat.add_mul]
          omega
        · rintro rfl
          refine Triple.pure fun io h => ⟨?_, h⟩
          have hsplit : remaining = remaining / bs * bs + (remaining - remaining / bs * bs) := by
            omega
          conv_rhs => rw [hsplit, slice_append]
          rw [Nat.add_mul]
          rfl
    · refine Triple.bind (holds_load (block_lt (Nat.pos_of_ne_zero hpos) hend)) fun _ => ?_
      refine holds_contents ?_
      have hnext := slice_part img index remaining hat.le
      by_cases hrest : remaining ≤ bs - at_
      · rw [Nat.min_eq_right hrest, Nat.sub_self] at hnext ⊢
        refine Triple.bind (Q := fun rest io => rest = [] ∧ Holds bs count img io) ?_ fun rest =>
          Triple.assume fun hrest => Triple.pure fun io h => ⟨by rw [hrest]; exact hnext, h⟩
        cases fuel with
        | zero => exact Triple.pure fun io h => ⟨rfl, h⟩
        | succ fuel => exact Triple.pure fun io h => ⟨rfl, h⟩
      · refine Triple.bind (ih _ _ _ (by omega) hbs ?_) fun rest => Triple.assume fun hrest =>
          Triple.pure fun io h => ⟨by rw [hrest, hnext], h⟩
        rw [Nat.succ_mul]
        omega

theorem holds_readBytes (h : offset + len ≤ count * bs) :
    Triple (Holds bs count img) (readBytes offset len)
      (fun data io => data = slice img offset len ∧ Holds bs count img io) E := by
  refine holds_size fun hbs => ?_
  have hdiv := Nat.div_add_mod' offset bs
  have hloop := holds_readLoop count img (E := E) len (offset / bs)
    (offset % bs) len (Nat.le_refl _) (Nat.mod_lt _ hbs) (by omega)
  rwa [hdiv] at hloop

end Io

end Hadris
