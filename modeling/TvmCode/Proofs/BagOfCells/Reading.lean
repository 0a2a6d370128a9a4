import TvmCode.BagOfCells.Basic
import TvmCode.Proofs.Slice

/-!
# Reading what was written

A reader reads some bytes as a value (`Reader.Reads`) when, with these bytes at the front of its input, it takes them
and nothing else and gives the value. Readers one after the other read bytes one after the other, so that the reading
of a record is put together from that of its fields.

The data of a cell may end with a completion tag, a one and zeros up to the end of the byte. Taking the tag away gives
the bits before it, whatever their number (`stripTag_tagged`).
-/

namespace TvmCode.BagOfCells

open Reader

/-! ## Readers -/

/-- The reader takes these bytes from the front of its input and gives the value. -/
def Reader.Reads {α : Type} (r : Reader α) (bytes : List UInt8) (a : α) : Prop :=
  ∀ pos rest, r ⟨pos, bytes ++ rest⟩ = .ok (a, ⟨pos + bytes.length, rest⟩)

namespace Reader.Reads

variable {α β : Type} {r : Reader α} {f : α → Reader β} {a : α} {b : β} {xs ys : List UInt8}

theorem pure (a : α) : Reads (pure a) [] a := fun _ _ => rfl

/-- What comes after a reader works on the rest of the input. -/
theorem run (h : Reads r xs a) (pos : Nat) (rest : List UInt8) :
    (r >>= f) ⟨pos, xs ++ rest⟩ = f a ⟨pos + xs.length, rest⟩ := by
  show (r ⟨pos, xs ++ rest⟩ >>= fun p => f p.1 p.2) = _
  rw [h pos rest]
  rfl

theorem run_nil (h : Reads r [] a) (i : Input) : (r >>= f) i = f a i := h.run i.pos i.rest

theorem bind (h : Reads r xs a) (h' : Reads (f a) ys b) : Reads (r >>= f) (xs ++ ys) b := by
  intro pos rest
  rw [List.append_assoc, run h, h', List.length_append, Nat.add_assoc]

/-- A reader that takes nothing, before another. -/
theorem before (h : Reads r [] a) (h' : Reads (f a) ys b) : Reads (r >>= f) ys b := bind h h'

/-- A reader whose value is looked at in some way. -/
theorem map (h : Reads r xs a) (g : α → β) : Reads (r >>= fun a => Pure.pure (g a)) xs (g a) := by
  rw [← List.append_nil xs]
  exact bind h (pure (g a))

theorem take {n : Nat} (what : String) (h : xs.length = n) : Reads (take n what) xs xs := by
  intro pos rest
  subst h
  simp [Reader.take]

theorem number {w n : Nat} (what : String) (h : n < 2 ^ (8 * w)) : Reads (number w what) (bytesOfNat w n) n := by
  have hread := map (take what (length_bytesOfNat w n)) natOfBytes
  rwa [natOfBytes_bytesOfNat, Nat.mod_eq_of_lt h] at hread

theorem skip {n : Nat} (what : String) (h : xs.length = n) : Reads (skip n what) xs () := map (take what h) fun _ => ()

/-- A part that may be missing is passed over when it is there. -/
theorem skipIf {p : Prop} [Decidable p] {part : Option (List UInt8)} {n : Nat} (what : String) (hp : p ↔ part.isSome)
    (h : ∀ bytes ∈ part, bytes.length = n) : Reads (skipIf p n what) (part.getD []) () := by
  cases part with
  | none =>
    rw [Reader.skipIf, if_neg (by simp [hp])]
    exact pure ()
  | some bytes =>
    rw [Reader.skipIf, if_pos (by simp [hp])]
    exact skip what (h bytes rfl)

theorem refuseIf {p : Prop} [Decidable p] (e : BagError) (h : ¬p) : Reads (refuseIf p e) [] () := by
  rw [Reader.refuseIf, if_neg h]
  exact pure ()

theorem refuseAny {ns : List Nat} {p : Nat → Bool} (e : Nat → BagError) (h : ∀ n ∈ ns, p n = false) :
    Reads (refuseAny ns p e) [] () := by
  have hnone : ns.find? p = none := List.find?_eq_none.2 fun n hn => by simp [h n hn]
  rw [Reader.refuseAny, hnone]
  exact pure ()

theorem lift {x : Except BagError α} (h : x = .ok a) : Reads (liftM x : Reader α) [] a := by
  subst h
  intro pos rest
  rfl

/-- Readers of items in turn read the items one after the other. -/
theorem forEach {ι : Type} {read : Nat → Reader α} {encode : ι → List UInt8} {value : ι → α} {items : List ι}
    {start : Nat} (h : ∀ k i, items[k]? = some i → Reads (read (start + k)) (encode i) (value i)) :
    Reads (forEach read start items.length) (items.flatMap encode) (items.map value) := by
  induction items generalizing start with
  | nil => exact pure []
  | cons i items ih =>
    have hrest : Reads (Reader.forEach read (start + 1) items.length) (items.flatMap encode) (items.map value) := by
      apply ih
      intro k j hj
      rw [Nat.add_assoc, Nat.add_comm 1 k]
      exact h (k + 1) j hj
    rw [List.flatMap_cons]
    exact bind (h 0 i rfl) (map hrest (value i :: ·))

end Reader.Reads

theorem Reader.bind_position {α : Type} (f : Nat → Reader α) (i : Input) : (position >>= f) i = f i.pos i := rfl

/-! ## Completion tags -/

/-- A byte in front of tagged data. -/
theorem stripTag_cons {data rest : List UInt8} {bitLen : Nat} (b : UInt8) (h : stripTag data = .ok (rest, bitLen)) :
    stripTag (b :: data) = .ok (b :: rest, bitLen + 8) := by
  cases data with
  | nil => cases h
  | cons c data =>
    have hlast : (b :: c :: data).getLastD 0 = (c :: data).getLastD 0 := rfl
    unfold stripTag at h ⊢
    simp only [hlast] at h ⊢
    generalize (c :: data).getLastD 0 = last at h ⊢
    by_cases h₀ : last.toNat = 0
    · rw [if_pos h₀] at h
      cases h
    · rw [if_neg h₀] at h ⊢
      have hz := Slice.trailingZeros_lt h₀ (show last.toNat < 2 ^ 8 from last.toNat_lt)
      cases h
      have hbits : (b :: c :: data).length * 8 - (trailingZeros last.toNat + 1) =
          (c :: data).length * 8 - (trailingZeros last.toNat + 1) + 8 := by
        simp only [List.length_cons]
        omega
      rw [hbits, List.dropLast_cons_of_ne_nil (List.cons_ne_nil c data), List.cons_append, Nat.add_right_comm,
        Nat.add_div_right _ (by omega), List.take_succ_cons]

/-- The last byte of tagged data: the bits before the tag, the tag and zeros. -/
theorem stripTag_single {x k : Nat} (hk : k < 8) (hx : x < 2 ^ k) :
    stripTag [UInt8.ofNat ((2 * x + 1) * 2 ^ (7 - k))] =
      .ok ([UInt8.ofNat (x * 2 ^ (8 - k))].take ((k + 7) / 8), k) := by
  have hpow : 2 ^ (8 - k) = 2 * 2 ^ (7 - k) := by rw [← pow_succ', show 7 - k + 1 = 8 - k by omega]
  have hlt : (2 * x + 1) * 2 ^ (7 - k) < 2 ^ 8 := by
    have hall : 2 ^ 8 = 2 ^ (k + 1) * 2 ^ (7 - k) := by rw [← pow_add, show k + 1 + (7 - k) = 8 by omega]
    rw [hall]
    exact Nat.mul_lt_mul_of_pos_right (by rw [pow_succ]; omega) (Nat.two_pow_pos _)
  have hlast : (UInt8.ofNat ((2 * x + 1) * 2 ^ (7 - k))).toNat = (2 * x + 1) * 2 ^ (7 - k) := by
    rw [UInt8.toNat_ofNat', Nat.mod_eq_of_lt hlt]
  have hcleared : ((2 * x + 1) * 2 ^ (7 - k)) >>> (8 - k) = x := by
    rw [Nat.shiftRight_eq_div_pow, hpow, Nat.mul_div_mul_right _ _ (Nat.two_pow_pos _)]
    omega
  have hne : (2 * x + 1) * 2 ^ (7 - k) ≠ 0 := Nat.mul_ne_zero (by omega) (Nat.two_pow_pos _).ne'
  unfold stripTag
  simp only [List.getLastD_cons, List.getLastD_nil, hlast, if_neg hne, Slice.trailingZeros_odd_mul,
    show 7 - k + 1 = 8 - k by omega, hcleared, Nat.shiftLeft_eq, List.length_singleton, List.dropLast_singleton,
    List.nil_append, show 1 * 8 - (8 - k) = k by omega]

theorem bytesOfNat_of_le_one {count : Nat} (h : count ≤ 1) (n : Nat) :
    bytesOfNat count n = [UInt8.ofNat n].take count := by
  rcases Nat.le_one_iff_eq_zero_or_eq_one.mp h with rfl | rfl
  · rfl
  · show [UInt8.ofNat (n % 2 ^ 8)] = [UInt8.ofNat n]
    rw [UInt8.ofNat_mod_size]

/-- **A completion tag leaves the bits before it.** -/
theorem stripTag_tagged (bits : List Bool) :
    stripTag (bytesOfBits (bits ++ [true])) = .ok (bytesOfBits bits, bits.length) := by
  by_cases hlen : bits.length < 8
  · have hstrip := stripTag_single hlen (natOfBits_lt bits)
    have htag : bytesOfBits (bits ++ [true]) = [UInt8.ofNat ((2 * natOfBits bits + 1) * 2 ^ (7 - bits.length))] := by
      rw [bytesOfBits, natOfBits_append, List.length_append, List.length_singleton, bytesOfNat_of_le_one (by omega),
        Nat.shiftLeft_eq, show padding (bits.length + 1) = 7 - bits.length by unfold padding; omega,
        show (bits.length + 1 + 7) / 8 = 1 by omega, Nat.mul_comm _ (2 ^ 1)]
      rfl
    have hplain : bytesOfBits bits =
        [UInt8.ofNat (natOfBits bits * 2 ^ (8 - bits.length))].take ((bits.length + 7) / 8) := by
      rw [bytesOfBits, bytesOfNat_of_le_one (by omega), Nat.shiftLeft_eq]
      by_cases h₀ : bits.length = 0
      · rw [h₀]
        rfl
      · rw [show padding bits.length = 8 - bits.length by unfold padding; omega]
    rw [htag, hplain, hstrip]
  · have hbyte : (bits.take 8).length = 8 := by rw [List.length_take]; omega
    have ih := stripTag_tagged (bits.drop 8)
    have hstrip := stripTag_cons (UInt8.ofNat (natOfBits (bits.take 8))) ih
    rw [← bytesOfBits_append hbyte, ← bytesOfBits_append hbyte, ← List.append_assoc, List.take_append_drop,
      List.length_drop, Nat.sub_add_cancel (by omega)] at hstrip
    exact hstrip
termination_by bits.length
decreasing_by
  rw [List.length_drop]
  omega

end TvmCode.BagOfCells
