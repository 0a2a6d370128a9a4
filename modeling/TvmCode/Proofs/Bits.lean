import Mathlib.Data.List.Induction
import Mathlib.Tactic.Ring
import TvmCode.Cell.Builder

/-!
# Bit strings

The bits of a number and of bytes, highest first, as lists of truth values. `natOfBits` reads a bit string as a
number, `bitsOfBytes` spreads bytes into bits and `bytesOfBits` packs bits into bytes, with zeros after the last bit.

- a number of `n` bits is below `2 ^ n` (`natOfBits_lt`), and its bits are the only ones of that length
  (`natOfBits_inj`);
- bytes and their bits spell the same number (`natOfBits_bitsOfBytes`);
- packing and spreading give the bits back, and zeros behind them (`bitsOfBytes_bytesOfBits`).
-/

namespace TvmCode

/-- The number that bits spell, highest first. -/
def natOfBits (bits : List Bool) : Nat := bits.foldl (fun n b => 2 * n + b.toNat) 0

/-- The bits of a byte, highest first. -/
def bitsOfByte (b : UInt8) : List Bool := (List.range 8).map fun i => b.toNat.testBit (7 - i)

/-- The bits of bytes. -/
def bitsOfBytes (bytes : List UInt8) : List Bool := bytes.flatMap bitsOfByte

/-- The zeros that fill up the last byte of a number of bits. -/
def padding (width : Nat) : Nat := (8 - width % 8) % 8

/-- Bits packed into as few bytes as hold them, with zeros after the last. -/
def bytesOfBits (bits : List Bool) : List UInt8 :=
  bytesOfNat ((bits.length + 7) / 8) (natOfBits bits <<< padding bits.length)

/-! ## Numbers -/

@[simp] theorem natOfBits_nil : natOfBits [] = 0 := rfl

theorem foldl_bits (n : Nat) (bits : List Bool) :
    bits.foldl (fun n b => 2 * n + b.toNat) n = n * 2 ^ bits.length + natOfBits bits := by
  unfold natOfBits
  induction bits generalizing n with
  | nil => simp
  | cons b bits ih =>
    rw [List.foldl_cons, List.foldl_cons, ih, ih (2 * 0 + b.toNat), List.length_cons]
    ring

/-- Bits one after the other. -/
theorem natOfBits_append (xs ys : List Bool) :
    natOfBits (xs ++ ys) = natOfBits xs * 2 ^ ys.length + natOfBits ys := by
  rw [natOfBits, List.foldl_append, foldl_bits]
  rfl

theorem natOfBits_cons (b : Bool) (bits : List Bool) :
    natOfBits (b :: bits) = b.toNat * 2 ^ bits.length + natOfBits bits := by
  rw [natOfBits, List.foldl_cons, foldl_bits]
  simp

/-- A number of `n` bits is below `2 ^ n`. -/
theorem natOfBits_lt (bits : List Bool) : natOfBits bits < 2 ^ bits.length := by
  induction bits with
  | nil => simp
  | cons b bits ih =>
    rw [natOfBits_cons, List.length_cons, pow_succ]
    cases b <;> simp <;> omega

@[simp] theorem natOfBits_replicate_false (n : Nat) : natOfBits (List.replicate n false) = 0 := by
  induction n with
  | zero => rfl
  | succ n ih => rw [List.replicate_succ, natOfBits_cons, ih]; simp

/-- One more bit. -/
theorem natOfBits_concat (bits : List Bool) (b : Bool) : natOfBits (bits ++ [b]) = natOfBits bits * 2 + b.toNat := by
  rw [natOfBits_append, natOfBits_cons]
  simp

theorem natOfBits_replicate_true (n : Nat) : natOfBits (List.replicate n true) = 2 ^ n - 1 := by
  induction n with
  | zero => rfl
  | succ n ih =>
    have hpos := Nat.two_pow_pos n
    rw [List.replicate_succ, natOfBits_cons, ih, List.length_replicate, Bool.toNat_true, pow_succ]
    omega

/-- A number other than zero has a last one bit. -/
theorem exists_last_one {bits : List Bool} (h : natOfBits bits ≠ 0) :
    ∃ front zeros, bits = front ++ true :: List.replicate zeros false := by
  induction bits using List.reverseRecOn with
  | nil => exact absurd rfl h
  | append_singleton bits b ih =>
    cases b with
    | true => exact ⟨bits, 0, rfl⟩
    | false =>
      have hne : natOfBits bits ≠ 0 := by
        intro hzero
        simp [natOfBits_concat, hzero] at h
      obtain ⟨front, zeros, rfl⟩ := ih hne
      exact ⟨front, zeros + 1, by simp [List.replicate_succ']⟩

/-- Bits of one length that spell the same number are the same. -/
theorem natOfBits_inj {xs ys : List Bool} (hlen : xs.length = ys.length) (h : natOfBits xs = natOfBits ys) :
    xs = ys := by
  induction xs generalizing ys with
  | nil => exact (List.length_eq_zero_iff.mp hlen.symm).symm
  | cons x xs ih =>
    cases ys with
    | nil => cases hlen
    | cons y ys =>
      have hlen' : xs.length = ys.length := by simpa using hlen
      rw [natOfBits_cons, natOfBits_cons, hlen'] at h
      have hx := natOfBits_lt xs
      have hy := natOfBits_lt ys
      rw [hlen'] at hx
      -- the higher bit decides between the halves below and above `2 ^ n`
      have hxy : x = y := by
        cases x <;> cases y <;> simp_all; omega
      subst hxy
      rw [ih hlen' (by omega)]

/-- A shift to the right takes bits away from the end. -/
theorem natOfBits_shiftRight (xs ys : List Bool) : natOfBits (xs ++ ys) >>> ys.length = natOfBits xs := by
  rw [natOfBits_append, Nat.shiftRight_eq_div_pow, Nat.mul_comm, Nat.mul_add_div (Nat.two_pow_pos _),
    Nat.div_eq_of_lt (natOfBits_lt ys), Nat.add_zero]

/-- A remainder takes bits away from the front. -/
theorem natOfBits_mod (xs ys : List Bool) : natOfBits (xs ++ ys) % 2 ^ ys.length = natOfBits ys := by
  rw [natOfBits_append, Nat.mul_comm, Nat.mul_add_mod, Nat.mod_eq_of_lt (natOfBits_lt ys)]

theorem take_eq_take_append (bits : List Bool) {w n : Nat} (hw : w ≤ n) :
    bits.take n = bits.take w ++ (bits.drop w).take (n - w) := by
  rw [← List.take_add, Nat.add_sub_cancel' hw]

/-- The highest `w` of the first `n` bits are the first `w` bits. -/
theorem natOfBits_take_shiftRight {bits : List Bool} {w n : Nat} (hw : w ≤ n) (hn : n ≤ bits.length) :
    natOfBits (bits.take n) >>> (n - w) = natOfBits (bits.take w) := by
  have hlen : ((bits.drop w).take (n - w)).length = n - w := by simp; omega
  have h := natOfBits_shiftRight (bits.take w) ((bits.drop w).take (n - w))
  rwa [hlen, ← take_eq_take_append bits hw] at h

/-- The lowest of the first `n` bits are those after the first `w`. -/
theorem natOfBits_take_mod {bits : List Bool} {w n : Nat} (hw : w ≤ n) (hn : n ≤ bits.length) :
    natOfBits (bits.take n) % 2 ^ (n - w) = natOfBits ((bits.drop w).take (n - w)) := by
  have hlen : ((bits.drop w).take (n - w)).length = n - w := by simp; omega
  have h := natOfBits_mod (bits.take w) ((bits.drop w).take (n - w))
  rwa [hlen, ← take_eq_take_append bits hw] at h

/-! ## Bytes -/

@[simp] theorem length_bitsOfByte (b : UInt8) : (bitsOfByte b).length = 8 := by simp [bitsOfByte]

@[simp] theorem bitsOfBytes_nil : bitsOfBytes [] = [] := rfl

@[simp] theorem bitsOfBytes_cons (b : UInt8) (bytes : List UInt8) :
    bitsOfBytes (b :: bytes) = bitsOfByte b ++ bitsOfBytes bytes := rfl

@[simp] theorem bitsOfBytes_append (xs ys : List UInt8) :
    bitsOfBytes (xs ++ ys) = bitsOfBytes xs ++ bitsOfBytes ys := List.flatMap_append

@[simp] theorem length_bitsOfBytes (bytes : List UInt8) : (bitsOfBytes bytes).length = 8 * bytes.length := by
  induction bytes with
  | nil => rfl
  | cons b bytes ih => rw [bitsOfBytes_cons, List.length_append, ih, length_bitsOfByte, List.length_cons]; ring

theorem natOfBits_bitsOfNat8 : ∀ n < 256, natOfBits ((List.range 8).map fun i => n.testBit (7 - i)) = n := by
  decide +kernel

@[simp] theorem natOfBits_bitsOfByte (b : UInt8) : natOfBits (bitsOfByte b) = b.toNat :=
  natOfBits_bitsOfNat8 b.toNat b.toNat_lt

theorem natOfBytes_append (xs : List UInt8) (b : UInt8) :
    natOfBytes (xs ++ [b]) = natOfBytes xs * 256 + b.toNat := by
  simp [natOfBytes]

/-- Bytes and their bits spell the same number. -/
theorem natOfBits_bitsOfBytes (bytes : List UInt8) : natOfBits (bitsOfBytes bytes) = natOfBytes bytes := by
  induction bytes using List.reverseRecOn with
  | nil => rfl
  | append_singleton bytes b ih =>
    rw [bitsOfBytes_append, natOfBits_append, ih, natOfBytes_append]
    simp

/-- Dropping bytes drops their bits. -/
theorem bitsOfBytes_drop (bytes : List UInt8) (n : Nat) :
    bitsOfBytes (bytes.drop n) = (bitsOfBytes bytes).drop (8 * n) := by
  induction bytes generalizing n with
  | nil => simp
  | cons b bytes ih =>
    cases n with
    | zero => simp
    | succ n =>
      rw [List.drop_succ_cons, ih, bitsOfBytes_cons, Nat.mul_succ, Nat.add_comm (8 * n) 8, ← List.drop_drop,
        List.drop_left' (length_bitsOfByte b)]

/-- Taking bytes takes their bits. -/
theorem bitsOfBytes_take (bytes : List UInt8) (n : Nat) :
    bitsOfBytes (bytes.take n) = (bitsOfBytes bytes).take (8 * n) := by
  induction bytes generalizing n with
  | nil => simp
  | cons b bytes ih =>
    cases n with
    | zero => simp
    | succ n =>
      rw [List.take_succ_cons, bitsOfBytes_cons, bitsOfBytes_cons, ih, Nat.mul_succ, Nat.add_comm (8 * n) 8,
        List.take_append, length_bitsOfByte, Nat.add_sub_cancel_left,
        List.take_of_length_le (show (bitsOfByte b).length ≤ 8 + 8 * n by simp)]

/-! ## Packing -/

@[simp] theorem length_bytesOfNat (count n : Nat) : (bytesOfNat count n).length = count := by
  induction count generalizing n with
  | zero => rfl
  | succ count ih => simp [bytesOfNat, ih]

/-- The lowest bytes of a number spell its remainder. -/
theorem natOfBytes_bytesOfNat (count n : Nat) : natOfBytes (bytesOfNat count n) = n % 2 ^ (8 * count) := by
  induction count generalizing n with
  | zero => simp [bytesOfNat, natOfBytes, Nat.mod_one]
  | succ count ih =>
    have hbyte : (UInt8.ofNat (n % 256)).toNat = n % 256 := by simp
    have hpow : 2 ^ (8 * (count + 1)) = 256 * 2 ^ (8 * count) := by ring
    rw [bytesOfNat, natOfBytes_append, ih, hbyte, hpow, Nat.mod_mul]
    ring

theorem natOfBytes_lt (bytes : List UInt8) : natOfBytes bytes < 2 ^ (8 * bytes.length) := by
  have hlt := natOfBits_lt (bitsOfBytes bytes)
  rwa [natOfBits_bitsOfBytes, length_bitsOfBytes] at hlt

/-- The width of bits with their padding is that of whole bytes. -/
theorem length_add_padding (width : Nat) : width + padding width = 8 * ((width + 7) / 8) := by
  unfold padding
  omega

@[simp] theorem length_bytesOfBits (bits : List Bool) : (bytesOfBits bits).length = (bits.length + 7) / 8 :=
  length_bytesOfNat _ _

/-- Packed bits are followed by zeros up to the end of the last byte. -/
theorem bitsOfBytes_bytesOfBits (bits : List Bool) :
    bitsOfBytes (bytesOfBits bits) = bits ++ List.replicate (padding bits.length) false := by
  have hlen := length_add_padding bits.length
  have hlt := natOfBits_lt (bits ++ List.replicate (padding bits.length) false)
  rw [List.length_append, List.length_replicate, hlen] at hlt
  have hval : natOfBits (bits ++ List.replicate (padding bits.length) false)
      = natOfBits bits <<< padding bits.length := by
    rw [natOfBits_append, natOfBits_replicate_false, List.length_replicate, Nat.shiftLeft_eq, Nat.add_zero]
  apply natOfBits_inj
  · rw [length_bitsOfBytes, length_bytesOfBits, List.length_append, List.length_replicate, hlen]
  · rw [natOfBits_bitsOfBytes, bytesOfBits, natOfBytes_bytesOfNat, ← hval, Nat.mod_eq_of_lt hlt]

theorem bitsOfBytes_inj {xs ys : List UInt8} (h : bitsOfBytes xs = bitsOfBytes ys) : xs = ys := by
  have hlen : xs.length = ys.length := by
    have := congrArg List.length h
    rw [length_bitsOfBytes, length_bitsOfBytes] at this
    omega
  induction xs generalizing ys with
  | nil =>
    cases ys with
    | nil => rfl
    | cons y ys => cases hlen
  | cons x xs ih =>
    cases ys with
    | nil => cases hlen
    | cons y ys =>
      rw [bitsOfBytes_cons, bitsOfBytes_cons] at h
      obtain ⟨hbyte, hrest⟩ := List.append_inj h (by simp)
      have hval : x.toNat = y.toNat := by rw [← natOfBits_bitsOfByte x, hbyte, natOfBits_bitsOfByte]
      rw [UInt8.toNat_inj.mp hval, ih hrest (by simpa using hlen)]

/-- The bytes of a number are the only ones of their count that spell it. -/
theorem bytesOfNat_natOfBytes (bytes : List UInt8) : bytesOfNat bytes.length (natOfBytes bytes) = bytes := by
  apply bitsOfBytes_inj
  apply natOfBits_inj
  · rw [length_bitsOfBytes, length_bitsOfBytes, length_bytesOfNat]
  · rw [natOfBits_bitsOfBytes, natOfBits_bitsOfBytes, natOfBytes_bytesOfNat, Nat.mod_eq_of_lt (natOfBytes_lt bytes)]

/-- Whole bytes are packed into themselves. -/
theorem bytesOfBits_bitsOfBytes (bytes : List UInt8) : bytesOfBits (bitsOfBytes bytes) = bytes := by
  have hpad : padding (bitsOfBytes bytes).length = 0 := by
    rw [length_bitsOfBytes, padding]
    omega
  apply bitsOfBytes_inj
  rw [bitsOfBytes_bytesOfBits, hpad, List.replicate_zero, List.append_nil]

theorem bitsOfByte_natOfBits {bits : List Bool} (h : bits.length = 8) :
    bitsOfByte (UInt8.ofNat (natOfBits bits)) = bits := by
  have hlt := natOfBits_lt bits
  rw [h] at hlt
  apply natOfBits_inj (by simp [h])
  rw [natOfBits_bitsOfByte, UInt8.toNat_ofNat', Nat.mod_eq_of_lt hlt]

/-- The first eight bits make the first byte. -/
theorem bytesOfBits_append {byte rest : List Bool} (h : byte.length = 8) :
    bytesOfBits (byte ++ rest) = UInt8.ofNat (natOfBits byte) :: bytesOfBits rest := by
  apply bitsOfBytes_inj
  have hpad : padding (byte ++ rest).length = padding rest.length := by
    simp [padding, h]
  rw [bitsOfBytes_cons, bitsOfBytes_bytesOfBits, bitsOfBytes_bytesOfBits, bitsOfByte_natOfBits h, hpad,
    List.append_assoc]

end TvmCode
