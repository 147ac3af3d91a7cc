import Hadris.Geometry
import Mathlib.Data.List.FinRange
import Mathlib.Data.List.OfFn

namespace Hadris

def ensure {ε : Type} (ok : Bool) (error : ε) : Except ε Unit :=
  if ok then .ok () else .error error

theorem ensure_ok {ε : Type} {ok : Bool} {error : ε} {u : Unit} :
    ensure ok error = .ok u ↔ ok = true := by
  cases ok <;> simp [ensure]

theorem ensure_of_true {ε : Type} {ok : Bool} (error : ε) (h : ok = true) :
    ensure ok error = .ok () := ensure_ok.mpr h

theorem except_bind_ok {ε α β : Type} {x : Except ε α} {f : α → Except ε β} {b : β} :
    x >>= f = .ok b ↔ ∃ a, x = .ok a ∧ f a = .ok b := by
  cases x with
  | error e => simp [bind, Except.bind]
  | ok a => simp [bind, Except.bind]

def overwrite (bytes : List UInt8) (start : Nat) (new : List UInt8) : List UInt8 :=
  bytes.take start ++ new ++ bytes.drop (start + new.length)

def bytesAt (bytes : List UInt8) (start count : Nat) : List UInt8 :=
  (List.range count).map fun i => bytes.getD (start + i) 0

theorem byteAt_append (a b : List UInt8) (i : Nat) :
    byteAt (a ++ b) i = if i < a.length then byteAt a i else byteAt b (i - a.length) := by
  split
  · rename_i h
    rw [byteAt, byteAt, List.getD_append _ _ _ _ h]
  · rename_i h
    rw [byteAt, byteAt, List.getD_append_right _ _ _ _ (not_lt.mp h)]

theorem byteAt_append_of_lt {a : List UInt8} (b : List UInt8) {i : Nat} (h : i < a.length) :
    byteAt (a ++ b) i = byteAt a i := by
  rw [byteAt_append, if_pos h]

theorem overwrite_length {bytes new : List UInt8} {start : Nat}
    (h : start + new.length ≤ bytes.length) :
    (overwrite bytes start new).length = bytes.length := by
  simp only [overwrite, List.length_append, List.length_take, List.length_drop]
  omega

theorem getD_overwrite {bytes new : List UInt8} {start i : Nat}
    (h : start + new.length ≤ bytes.length) (hi : i < start ∨ start + new.length ≤ i) :
    (overwrite bytes start new).getD i 0 = bytes.getD i 0 := by
  have htake : (bytes.take start).length = start := by
    rw [List.length_take]
    omega
  rw [overwrite, List.append_assoc]
  rcases hi with hi | hi
  · rw [List.getD_append _ _ _ _ (by omega), List.getD_eq_getElem?_getD, List.getElem?_take,
      if_pos hi, List.getD_eq_getElem?_getD]
  · rw [List.getD_append_right _ _ _ _ (by omega), List.getD_append_right _ _ _ _ (by omega),
      htake, List.getD_eq_getElem?_getD, List.getElem?_drop, List.getD_eq_getElem?_getD]
    congr 2
    omega

theorem byteAt_overwrite {bytes new : List UInt8} {start i : Nat}
    (h : start + new.length ≤ bytes.length) (hi : i < start ∨ start + new.length ≤ i) :
    byteAt (overwrite bytes start new) i = byteAt bytes i := by
  rw [byteAt, getD_overwrite h hi, byteAt]

@[simp] theorem u16Bytes_length (n : Nat) : (u16Bytes n).length = 2 := rfl

@[simp] theorem u32Bytes_length (n : Nat) : (u32Bytes n).length = 4 := rfl

theorem u16At_u16Bytes (n : Nat) (rest : List UInt8) :
    u16At (u16Bytes n ++ rest) 0 = n % 65536 := by
  simp only [u16At, u16Bytes, List.cons_append, byteAt_cons_zero, byteAt_cons_succ, u8_toNat]
  omega

theorem u32At_u32Bytes (n : Nat) (rest : List UInt8) :
    u32At (u32Bytes n ++ rest) 0 = n % 4294967296 := by
  simp only [u32At, u16At, u32Bytes, List.cons_append, byteAt_cons_zero, byteAt_cons_succ,
    u8_toNat]
  omega

theorem byteAt_append_add (a b : List UInt8) (i : Nat) :
    byteAt (a ++ b) (a.length + i) = byteAt b i := by
  rw [byteAt_append, if_neg (by omega), Nat.add_sub_cancel_left]

theorem u16At_append_add (a b : List UInt8) (i : Nat) :
    u16At (a ++ b) (a.length + i) = u16At b i := by
  rw [u16At, byteAt_append_add, Nat.add_assoc, byteAt_append_add, u16At]

theorem u32At_append_add (a b : List UInt8) (i : Nat) :
    u32At (a ++ b) (a.length + i) = u32At b i := by
  rw [u32At, u16At_append_add, Nat.add_assoc, u16At_append_add, u32At]

theorem bytesAt_append_add (a b : List UInt8) (i count : Nat) :
    bytesAt (a ++ b) (a.length + i) count = bytesAt b i count := by
  apply List.map_congr_left
  intro j _
  rw [List.getD_append_right _ _ _ _ (by omega)]
  congr 1
  omega

theorem bytesAt_zero (a b : List UInt8) : bytesAt (a ++ b) 0 a.length = a := by
  apply List.ext_getElem (by simp [bytesAt])
  intro i hi hi'
  simp [bytesAt, List.getElem?_append_left hi', hi']

end Hadris

namespace Hadris

def leBytes : Nat → Nat → List UInt8
  | 0, _ => []
  | width + 1, n => u8 n :: leBytes width (n / 256)

def leNat : List UInt8 → Nat
  | [] => 0
  | b :: rest => b.toNat + 256 * leNat rest

@[simp] theorem leBytes_length (width n : Nat) : (leBytes width n).length = width := by
  induction width generalizing n with
  | zero => rfl
  | succ width ih => rw [leBytes, List.length_cons, ih]

theorem leNat_leBytes (width n : Nat) : leNat (leBytes width n) = n % 256 ^ width := by
  induction width generalizing n with
  | zero => rw [pow_zero, Nat.mod_one, leBytes, leNat]
  | succ width ih => rw [leBytes, leNat, ih, u8_toNat, pow_succ', Nat.mod_mul]

/-- How values are laid out in a number of bytes. -/
structure Codec (α : Type) where
  width : Nat
  encode : α → List UInt8
  decode : List UInt8 → α
  encode_length : ∀ a, (encode a).length = width
  decode_encode : ∀ a rest, decode (encode a ++ rest) = a

namespace Codec

variable {α β : Type} {n : Nat}

theorem drop_encode (c : Codec α) (a : α) (rest : List UInt8) :
    (c.encode a ++ rest).drop c.width = rest :=
  List.drop_left' (c.encode_length a)

def seq (c : Codec α) (d : Codec β) : Codec (α × β) where
  width := c.width + d.width
  encode := fun p => c.encode p.1 ++ d.encode p.2
  decode := fun bytes => (c.decode bytes, d.decode (bytes.drop c.width))
  encode_length := fun p => by rw [List.length_append, c.encode_length, d.encode_length]
  decode_encode := fun p rest => by
    rw [List.append_assoc, c.decode_encode, c.drop_encode, d.decode_encode]

def iso (c : Codec α) (f : α → β) (g : β → α) (h : ∀ b, f (g b) = b) : Codec β where
  width := c.width
  encode := fun b => c.encode (g b)
  decode := fun bytes => f (c.decode bytes)
  encode_length := fun b => c.encode_length (g b)
  decode_encode := fun b rest => by rw [c.decode_encode, h]

def u8 : Codec UInt8 where
  width := 1
  encode := fun b => [b]
  decode := fun bytes => bytes.headD 0
  encode_length := fun _ => rfl
  decode_encode := fun _ _ => rfl

def word (width : Nat) (toNat : α → Nat) (ofNat : Nat → α)
    (h : ∀ a, ofNat (toNat a % 256 ^ width) = a) : Codec α where
  width := width
  encode := fun a => leBytes width (toNat a)
  decode := fun bytes => ofNat (leNat (bytes.take width))
  encode_length := fun a => leBytes_length width (toNat a)
  decode_encode := fun a rest => by
    rw [List.take_left' (leBytes_length width (toNat a)), leNat_leBytes, h]

def u16 : Codec UInt16 := word 2 UInt16.toNat UInt16.ofNat fun v => by
  rw [Nat.mod_eq_of_lt (show v.toNat < 256 ^ 2 from v.toNat_lt), UInt16.ofNat_toNat]

def u32 : Codec UInt32 := word 4 UInt32.toNat UInt32.ofNat fun v => by
  rw [Nat.mod_eq_of_lt (show v.toNat < 256 ^ 4 from v.toNat_lt), UInt32.ofNat_toNat]

def u64 : Codec UInt64 := word 8 UInt64.toNat UInt64.ofNat fun v => by
  rw [Nat.mod_eq_of_lt (show v.toNat < 256 ^ 8 from v.toNat_lt), UInt64.ofNat_toNat]

theorem flatMap_encode_length (c : Codec α) (l : List α) :
    (l.flatMap c.encode).length = l.length * c.width := by
  induction l with
  | nil => rw [List.flatMap_nil, List.length_nil, List.length_nil, Nat.zero_mul]
  | cons a rest ih =>
    rw [List.flatMap_cons, List.length_append, c.encode_length, ih,
      List.length_cons, Nat.succ_mul, Nat.add_comm]

theorem drop_flatMap (c : Codec α) (l : List α) (rest : List UInt8) (i : Nat) :
    (l.flatMap c.encode ++ rest).drop (i * c.width) =
      if i ≤ l.length then (l.drop i).flatMap c.encode ++ rest
      else rest.drop ((i - l.length) * c.width) := by
  induction i generalizing l with
  | zero => rw [Nat.zero_mul, List.drop_zero, List.drop_zero, if_pos (Nat.zero_le _)]
  | succ i ih =>
    rcases l with _ | ⟨a, l⟩
    · rw [if_neg (by exact Nat.not_succ_le_zero i), List.flatMap_nil, List.nil_append,
        List.length_nil, Nat.sub_zero]
    · rw [List.flatMap_cons, List.append_assoc, Nat.succ_mul, Nat.add_comm, ← List.drop_drop,
        c.drop_encode, ih, List.drop_succ_cons, List.length_cons, Nat.add_sub_add_right]
      exact if_congr Nat.add_le_add_iff_right.symm rfl rfl

def table (n : Nat) (c : Codec α) : Codec (Fin n → α) where
  width := n * c.width
  encode := fun f => (List.ofFn f).flatMap c.encode
  decode := fun bytes i => c.decode (bytes.drop (i * c.width))
  encode_length := fun f => by rw [c.flatMap_encode_length, List.length_ofFn]
  decode_encode := fun f rest => by
    funext i
    have hi : i.val < (List.ofFn f).length := by
      rw [List.length_ofFn]
      exact i.isLt
    rw [c.drop_flatMap, if_pos hi.le, List.drop_eq_getElem_cons hi, List.flatMap_cons,
      List.append_assoc, c.decode_encode, List.getElem_ofFn]

/-- Decoding reads no more bytes than the width. -/
def Local (c : Codec α) : Prop :=
  ∀ bytes n, c.width ≤ n → c.decode (bytes.take n) = c.decode bytes

theorem Local.seq {c : Codec α} {d : Codec β} (hc : c.Local) (hd : d.Local) :
    (seq c d).Local := by
  intro bytes n hn
  have hwidth : c.width + d.width ≤ n := hn
  refine Prod.ext (hc bytes n (by omega)) ?_
  change d.decode ((bytes.take n).drop c.width) = d.decode (bytes.drop c.width)
  rw [List.drop_take]
  exact hd _ _ (by omega)

theorem Local.iso {c : Codec α} {f : α → β} {g : β → α} {h : ∀ b, f (g b) = b} (hc : c.Local) :
    (c.iso f g h).Local := fun bytes n hn => congrArg f (hc bytes n hn)

theorem local_u8 : u8.Local := by
  intro bytes n hn
  obtain ⟨m, rfl⟩ := Nat.exists_eq_succ_of_ne_zero (Nat.ne_zero_of_lt hn)
  cases bytes with
  | nil => rfl
  | cons b rest => rfl

theorem local_word {width : Nat} {toNat : α → Nat} {ofNat : Nat → α}
    {h : ∀ a, ofNat (toNat a % 256 ^ width) = a} : (word width toNat ofNat h).Local := by
  intro bytes n hn
  change ofNat (leNat ((bytes.take n).take width)) = ofNat (leNat (bytes.take width))
  rw [List.take_take, Nat.min_eq_left (show width ≤ n from hn)]

theorem Local.table {c : Codec α} (hc : c.Local) : (table n c).Local := by
  intro bytes m hm
  funext i
  have hend : n * c.width ≤ m := hm
  have hi := Nat.mul_le_mul_right c.width (Nat.succ_le_of_lt i.isLt)
  rw [Nat.succ_mul] at hi
  change c.decode ((bytes.take m).drop (i * c.width)) = c.decode (bytes.drop (i * c.width))
  rw [List.drop_take]
  exact hc _ _ (by omega)

def bytes (n : Nat) : Codec (Vector UInt8 n) :=
  (table n u8).iso Vector.ofFn (fun v i => v[i]) fun v => by
    ext i hi
    rw [Vector.getElem_ofFn]
    rfl

theorem local_bytes : (bytes n).Local := local_u8.table.iso

end Codec

end Hadris
