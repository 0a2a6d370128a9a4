import Mathlib.Data.List.DropRight
import TvmCode.Proofs.Builder

/-!
# Bit strings read back from hexadecimal

Each hexadecimal digit stands for four bits (`Text.digitBits?`). Where an underscore follows the digits, a completion
tag is taken away: the zeros at the end and the one before them (`dropTag`). By this rule `Text.bitsOfHex?` reads every
bit string back from the text in which it is written (`Text.bitsOfHex?_hexOfBits`), so that the text stands for one
number of one width (`Text.bitsOfHex?_inverts`) and two cells have the same text just when they have the same bits
(`Cell.toHex_inj`). The bits of a slice without its marker are those without their completion tag
(`Slice.bits_trimMarker`).
-/

namespace TvmCode

/-! ## Completion tags -/

/-- Bits without the zeros at the end and without the one before these. -/
def dropTag (bits : List Bool) : List Bool := (bits.rdropWhile (!·)).dropLast

/-- What stands before a completion tag is left. -/
theorem dropTag_append_tag (bits : List Bool) (zeros : Nat) :
    dropTag (bits ++ true :: List.replicate zeros false) = bits := by
  rw [dropTag, List.rdropWhile, List.reverse_append, List.reverse_cons, List.reverse_replicate, List.append_assoc,
    List.dropWhile_append_of_pos (by simp)]
  simp

/-- Of zeros alone nothing is left. -/
theorem dropTag_replicate_false (zeros : Nat) : dropTag (List.replicate zeros false) = [] := by
  simp [dropTag, List.rdropWhile]

namespace Slice

/-- A completion tag is as long as what comes after the other bits. -/
theorem untagged_append_tag (bits : List Bool) (zeros : Nat) :
    untagged (bits ++ true :: List.replicate zeros false) = bits.length := by
  have hvalue : natOfBits (bits ++ true :: List.replicate zeros false) = (2 * natOfBits bits + 1) * 2 ^ zeros := by
    rw [List.append_cons, natOfBits_append, natOfBits_concat, natOfBits_replicate_false, List.length_replicate,
      Bool.toNat_true, Nat.mul_comm (natOfBits bits) 2, Nat.add_zero]
  have hne : (2 * natOfBits bits + 1) * 2 ^ zeros ≠ 0 := Nat.mul_ne_zero (by omega) (Nat.two_pow_pos _).ne'
  rw [untagged, hvalue, if_neg hne, trailingZeros_odd_mul]
  simp

/-- The bits before the last one bit are those without their completion tag. -/
theorem take_untagged (bits : List Bool) : bits.take (untagged bits) = dropTag bits := by
  by_cases h : natOfBits bits = 0
  · have hzeros : bits = List.replicate bits.length false := natOfBits_inj (by simp) (by simp [h])
    rw [untagged, if_pos h, hzeros, dropTag_replicate_false, List.take_zero]
  · obtain ⟨front, zeros, rfl⟩ := exists_last_one h
    rw [untagged_append_tag, dropTag_append_tag, List.take_left]

theorem Sound.trimMarker {s : Slice} (hs : s.Sound) : s.trimMarker.Sound :=
  trimMarker_eq hs ▸ hs.front (hs.length_bits ▸ untagged_le s.bits)

/-- The bits of a slice without its marker are those without their completion tag. -/
theorem bits_trimMarker {s : Slice} (hs : s.Sound) : s.trimMarker.bits = dropTag s.bits := by
  rw [trimMarker_eq hs, bits_front (hs.length_bits ▸ untagged_le s.bits), take_untagged]

/-- A slice without its marker is written as its bits without their completion tag. -/
theorem toHex_trimMarker {s : Slice} (hs : s.Sound) :
    s.trimMarker.toHex = hexOfBits (natOfBits (dropTag s.bits)) (dropTag s.bits).length := by
  rw [toHex_eq hs.trimMarker, bits_trimMarker hs]

end Slice

/-! ## Bits of numbers -/

/-- The bits of a number are those of its higher and of its lower part. -/
theorem bitsOfNat_add (high low n : Nat) :
    bitsOfNat (high + low) n = bitsOfNat high (n / 2 ^ low) ++ bitsOfNat low n := by
  induction low generalizing n with
  | zero => simp [bitsOfNat]
  | succ low ih =>
    rw [← Nat.add_assoc, bitsOfNat, ih, bitsOfNat, Nat.div_div_eq_div_mul, ← pow_succ', List.append_assoc]

/-- Bits are those of the number that they spell. -/
theorem bitsOfNat_natOfBits (bits : List Bool) : bitsOfNat bits.length (natOfBits bits) = bits := by
  refine natOfBits_inj (length_bitsOfNat _ _) ?_
  rw [natOfBits_bitsOfNat, Nat.mod_eq_of_lt (natOfBits_lt bits)]

/-! ## Digits -/

namespace Text

/-- The bits of hexadecimal digits, four for each. -/
def digitBits? : List Char → Option (List Bool)
  | [] => some []
  | c :: cs => do
    let value ← digitIn? 16 c
    let bits ← digitBits? cs
    return bitsOfNat 4 value ++ bits

/-- The bits that a text in hexadecimal stands for, without the completion tag if an underscore follows the digits. -/
def bitsOfHex? (text : String) : Option (List Bool) :=
  if text.toList.getLast? = some '_' then (digitBits? text.toList.dropLast).map dropTag else digitBits? text.toList

theorem digitIn?_hexDigit : ∀ n < 16, digitIn? 16 (hexDigit n) = some n := by decide

theorem digitBits?_append {xs ys : List Char} {as bs : List Bool} (hx : digitBits? xs = some as)
    (hy : digitBits? ys = some bs) : digitBits? (xs ++ ys) = some (as ++ bs) := by
  induction xs generalizing as with
  | nil =>
    cases hx
    exact hy
  | cons c xs ih =>
    simp only [digitBits?, Option.bind_eq_bind, Option.bind_eq_some_iff] at hx
    obtain ⟨value, hvalue, rest, hrest, hbits⟩ := hx
    cases hbits
    simp only [List.cons_append, digitBits?, hvalue, ih hrest, List.append_assoc]
    rfl

theorem digitBits?_hexDigit {n : Nat} (h : n < 16) : digitBits? [hexDigit n] = some (bitsOfNat 4 n) := by
  simp only [digitBits?, digitIn?_hexDigit n h]
  rfl

theorem digitBits?_zeros (width : Nat) : digitBits? (List.replicate width '0') = some (bitsOfNat (4 * width) 0) := by
  induction width with
  | zero => rfl
  | succ width ih =>
    have hdigit := digitBits?_append (digitBits?_hexDigit (show 0 < 16 by decide)) ih
    rw [Nat.mul_succ, Nat.add_comm (4 * width), bitsOfNat_add, Nat.zero_div, List.replicate_succ]
    exact hdigit

/-- A digit at the end of a number is the end of the number when that is filled up. -/
theorem leftpad_concat {α : Type} (width : Nat) (a x : α) (xs : List α) :
    (xs ++ [x]).leftpad (width + 1) a = xs.leftpad width a ++ [x] := by
  rw [List.leftpad, List.leftpad, List.length_append, List.length_singleton, Nat.add_sub_add_right, List.append_assoc]

/-- The digits of a number, filled up with zeros, stand for its bits. -/
theorem digitBits?_leftpad {n width : Nat} (h : n < 16 ^ (width + 1)) :
    digitBits? ((hexDigits n).leftpad (width + 1) '0') = some (bitsOfNat (4 * (width + 1)) n) := by
  induction width generalizing n with
  | zero =>
    rw [hexDigits, if_pos (by omega)]
    exact digitBits?_hexDigit (by omega)
  | succ width ih =>
    rw [Nat.mul_succ, bitsOfNat_add, show 2 ^ 4 = 16 from rfl]
    by_cases hsmall : n < 16
    · have hzeros : [].leftpad (width + 1) '0' = List.replicate (width + 1) '0' := by simp [List.leftpad]
      rw [hexDigits, if_pos hsmall, ← List.nil_append [hexDigit n], leftpad_concat, hzeros, Nat.div_eq_of_lt hsmall]
      exact digitBits?_append (digitBits?_zeros (width + 1)) (digitBits?_hexDigit hsmall)
    · have hhigh : n / 16 < 16 ^ (width + 1) := Nat.div_lt_of_lt_mul (by rwa [← pow_succ'])
      have hlow : bitsOfNat 4 n = bitsOfNat 4 (n % 16) := by
        refine natOfBits_inj (by simp) ?_
        rw [natOfBits_bitsOfNat, natOfBits_bitsOfNat, show 2 ^ 4 = 16 from rfl, Nat.mod_mod]
      rw [hexDigits, if_neg hsmall, leftpad_concat, hlow]
      exact digitBits?_append (ih hhigh) (digitBits?_hexDigit (Nat.mod_lt _ (by decide)))

/-- Whole digits stand for the bits that were written. -/
theorem digitBits?_hexPadded (bits : List Bool) {width : Nat} (hpos : 0 < width) (hlen : bits.length = 4 * width) :
    digitBits? (hexPadded width (natOfBits bits)).toList = some bits := by
  obtain ⟨width, rfl⟩ := Nat.exists_eq_add_of_lt hpos
  have hlt := natOfBits_lt bits
  rw [hlen, Nat.pow_mul] at hlt
  rw [Nat.zero_add] at hlen hlt ⊢
  rw [hexPadded, String.toList_ofList, digitBits?_leftpad hlt, ← hlen, bitsOfNat_natOfBits]

/-- No underscore stands among digits. -/
theorem getLast?_ne_underscore {cs : List Char} {bits : List Bool} (h : digitBits? cs = some bits) :
    cs.getLast? ≠ some '_' := by
  intro hlast
  obtain ⟨before, rfl⟩ := List.getLast?_eq_some_iff.mp hlast
  clear hlast
  induction before generalizing bits with
  | nil => cases h
  | cons c before ih =>
    simp only [List.cons_append, digitBits?, Option.bind_eq_bind, Option.bind_eq_some_iff] at h
    obtain ⟨-, -, rest, hrest, -⟩ := h
    exact ih hrest

/-- **Bit strings are read back** from the text in which they are written. -/
theorem bitsOfHex?_hexOfBits (bits : List Bool) : bitsOfHex? (hexOfBits (natOfBits bits) bits.length) = some bits := by
  unfold hexOfBits
  split
  · rename_i hempty
    rw [List.length_eq_zero_iff.mp hempty]
    rfl
  · rename_i hne
    split
    · rename_i hwhole
      have hlen : bits.length = 4 * (bits.length / 4) := by omega
      have hdigits := digitBits?_hexPadded bits (by omega) hlen
      rw [bitsOfHex?, if_neg (getLast?_ne_underscore hdigits), hdigits]
    · rename_i hpartial
      dsimp only
      generalize hpad : 4 - bits.length % 4 = pad
      have hvalue : (natOfBits bits <<< pad) + (1 <<< (pad - 1)) =
          natOfBits (bits ++ true :: List.replicate (pad - 1) false) := by
        rw [natOfBits_append, natOfBits_cons, natOfBits_replicate_false, List.length_cons, List.length_replicate,
          Nat.sub_add_cancel (by omega), Nat.shiftLeft_eq, Nat.shiftLeft_eq]
        simp
      have hlen : (bits ++ true :: List.replicate (pad - 1) false).length = 4 * ((bits.length + pad) / 4) := by
        simp only [List.length_append, List.length_cons, List.length_replicate]
        omega
      have hdigits := digitBits?_hexPadded _ (by omega) hlen
      rw [hvalue, bitsOfHex?, String.toList_append]
      simp [hdigits, dropTag_append_tag]

/-- **Hexadecimal text is invertible.** The text of a number that fits in its width stands for the bits of the number,
as many as the width says. So two numbers that fit have the same text only if the numbers and their widths are the
same. -/
theorem bitsOfHex?_inverts {value width : Nat} (h : value < 2 ^ width) :
    bitsOfHex? (hexOfBits value width) = some (bitsOfNat width value) ∧
    ∀ value' width' : Nat, value' < 2 ^ width' → hexOfBits value width = hexOfBits value' width' →
      width = width' ∧ value = value' := by
  have hread : ∀ {n w : Nat}, n < 2 ^ w → bitsOfHex? (hexOfBits n w) = some (bitsOfNat w n) := by
    intro n w hn
    have hbits := bitsOfHex?_hexOfBits (bitsOfNat w n)
    rwa [natOfBits_bitsOfNat, Nat.mod_eq_of_lt hn, length_bitsOfNat] at hbits
  refine ⟨hread h, ?_⟩
  intro value' width' h' heq
  have hbits : bitsOfNat width value = bitsOfNat width' value' := by
    rw [← Option.some_inj, ← hread h, ← hread h', heq]
  constructor
  · rw [← length_bitsOfNat width value, hbits, length_bitsOfNat]
  · rw [← Nat.mod_eq_of_lt h, ← natOfBits_bitsOfNat, hbits, natOfBits_bitsOfNat, Nat.mod_eq_of_lt h']

/-- A number that begins with zeros and ends like a completion tag, and one that is written with the same digits. -/
theorem bitsOfHex?_inverts_tag :
    bitsOfHex? (hexOfBits 0b001000 6) = some [false, false, true, false, false, false] ∧
      hexOfBits 0b001000 6 ≠ hexOfBits 0b00100010 8 := by
  obtain ⟨hread, hinj⟩ := bitsOfHex?_inverts (show 0b001000 < 2 ^ 6 by decide)
  refine ⟨hread, fun heq => ?_⟩
  have hwidth := (hinj _ _ (show 0b00100010 < 2 ^ 8 by decide) heq).1
  exact absurd hwidth (by decide)

end Text

/-! ## Cells -/

namespace Cell

variable {c d : Cell}

theorem toHex_eq (hc : c.WellFormed) : c.toHex = hexOfBits (natOfBits c.bits) c.bits.length := by
  have hslice := Slice.toHex_eq (Slice.sound_ofCell hc)
  rwa [Slice.bits_ofCell hc] at hslice

/-- Cells have the same text just when they have the same bits. -/
theorem toHex_inj (hc : c.WellFormed) (hd : d.WellFormed) : c.toHex = d.toHex ↔ c.bits = d.bits := by
  rw [toHex_eq hc, toHex_eq hd]
  constructor
  · intro h
    have hbits := congrArg Text.bitsOfHex? h
    rwa [Text.bitsOfHex?_hexOfBits, Text.bitsOfHex?_hexOfBits, Option.some_inj] at hbits
  · intro h
    rw [h]

end Cell

end TvmCode
