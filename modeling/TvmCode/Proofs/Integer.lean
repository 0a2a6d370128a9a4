import TvmCode.Proofs.Operand

/-!
# Integer literals

The bits of an integer literal are a length `l` in five bits and a body of `8 * l + 19` bits. `Decoder.bigInt` cuts them
at another place, after the first eight, and puts the two parts of the body together again: what it takes is the number
of the whole body in two's complement (`Decoder.takes_bigInt`). So it does the same as a read of the length and a read
of the body (`Decoder.bigInt_of_room`), and when it fails it has moved by nothing or by the first eight bits
(`Decoder.bigInt_of_missing`, `Decoder.bigInt_of_short`). All this together is `Decoder.bigInt_reads`.
-/

namespace TvmCode

/-- The bits of an integer literal: its length, and the integer in two's complement. -/
def integerLiteral (l : Nat) (v : Int) : List Bool :=
  bitsOfNat 5 l ++ bitsOfNat (8 * l + 19) (v % (2 ^ (8 * l + 19) : Nat)).toNat

namespace Decoder

/-- The first eight bits are the length and the first three bits of the body. -/
theorem takes_bigInt {length body : List Bool} (hlength : length.length = 5)
    (hbody : body.length = 8 * natOfBits length + 19) :
    bigInt.Takes (length ++ body) (Slice.signed (natOfBits body) body.length) := by
  obtain ⟨head, tail, rfl, hhead⟩ : ∃ head tail, body = head ++ tail ∧ head.length = 3 :=
    ⟨body.take 3, body.drop 3, (List.take_append_drop 3 body).symm, by rw [List.length_take]; omega⟩
  rw [List.length_append, hhead] at hbody
  have hlt : natOfBits head < 8 := by simpa [hhead] using natOfBits_lt head
  have hheader : natOfBits (length ++ head) = 8 * natOfBits length + natOfBits head := by
    rw [natOfBits_append, hhead, Nat.mul_comm]
    rfl
  have hquotient : natOfBits (length ++ head) / 8 = natOfBits length := by omega
  have hremainder : natOfBits (length ++ head) % 8 = natOfBits head := by omega
  have htail : (natOfBits length + 2) * 8 = tail.length := by omega
  have hvalue : (natOfBits head <<< tail.length) + natOfBits tail = natOfBits (head ++ tail) := by
    rw [natOfBits_append, Nat.shiftLeft_eq]
  have hwidth : tail.length + 3 = (head ++ tail).length := by simp [hhead, Nat.add_comm]
  rw [← List.append_assoc, ← hvalue, ← hwidth]
  refine .bind (.nat (by simp [hlength, hhead])) ?_
  rw [hquotient, hremainder, htail]
  exact (Takes.nat rfl).map fun n => Slice.signed ((natOfBits head <<< tail.length) + n) (tail.length + 3)

/-- The bits of a literal are taken as its integer. -/
theorem takes_integerLiteral {n : Nat} {v : Int} (hn : n < 32) (hlo : -(2 ^ (8 * n + 18) : Nat) ≤ v)
    (hhi : v < (2 ^ (8 * n + 18) : Nat)) : bigInt.Takes (integerLiteral n v) v := by
  have hlength : natOfBits (bitsOfNat 5 n) = n := by
    rw [natOfBits_bitsOfNat, Nat.mod_eq_of_lt (show n < 2 ^ 5 by omega)]
  have hbody : (bitsOfNat (8 * n + 19) (v % (2 ^ (8 * n + 19) : Nat)).toNat).length =
      8 * natOfBits (bitsOfNat 5 n) + 19 := by rw [length_bitsOfNat, hlength]
  have hread := takes_bigInt (length_bitsOfNat 5 n) hbody
  rwa [natOfBits_bitsOfNat_emod, length_bitsOfNat, Slice.signed_mod (Nat.succ_pos _) hlo hhi] at hread

section Bounds

variable {s : Slice} (hs : s.Sound) (notes : List Note)
include hs

/-- Where there are bits enough, an integer is given, which is that of the body read as a whole. -/
theorem bigInt_of_room (h : 8 * (natOfBits (s.bits.take 5) + 3) ≤ s.remainingBits) :
    ∃ v t, bigInt ⟨s, notes⟩ = .ok v ⟨t, notes⟩ ∧
      (s.readNat 5 >>= fun p => p.2.readInt (8 * p.1 + 19)) = .ok (v, t) := by
  rw [← hs.length_bits] at h
  generalize hl : natOfBits (s.bits.take 5) = l at h
  have hsplit : s.bits = s.bits.take 5 ++ ((s.bits.drop 5).take (8 * l + 19) ++ (s.bits.drop 5).drop (8 * l + 19)) := by
    rw [List.take_append_drop, List.take_append_drop]
  have hlength : (s.bits.take 5).length = 5 := by rw [List.length_take]; omega
  have hbody : ((s.bits.drop 5).take (8 * l + 19)).length = 8 * l + 19 := by
    rw [List.length_take, List.length_drop]; omega
  generalize s.bits.take 5 = length at hl hsplit hlength
  generalize (s.bits.drop 5).take (8 * l + 19) = body at hsplit hbody
  subst hl
  have hshows : s.Shows (length ++ (body ++ _)) s.refs := ⟨hs, hsplit, rfl⟩
  have hfirst := hshows.readNat (show (5 : Int) = length.length by rw [hlength]; rfl)
  have hsecond := hshows.dropBits.readInt (show (8 * natOfBits length + 19 : Int) = body.length by rw [hbody]; rfl)
  have htakes := takes_bigInt hlength hbody s notes hs ⟨_, by rw [List.append_assoc, ← hsplit]⟩
  refine ⟨_, _, htakes, ?_⟩
  rw [hfirst]
  show (s.dropBits length.length).readInt (8 * natOfBits length + 19) = _
  rw [hsecond, Slice.dropBits_dropBits, List.length_append]

/-- Without eight bits nothing is taken. -/
theorem bigInt_of_missing (h : s.remainingBits < 8) :
    bigInt ⟨s, notes⟩ = .error (.underflow s.bitPos 8 .bits) ⟨s, notes⟩ := by
  have hfail : nat 8 ⟨s, notes⟩ = .error (.underflow s.bitPos 8 .bits) ⟨s, notes⟩ := nat_apply_of_lt hs h notes
  rw [bigInt, bind_apply, hfail]

/-- With eight bits and fewer than the literal has, these eight are taken. -/
theorem bigInt_of_short (h : 8 ≤ s.remainingBits) (hshort : s.remainingBits < 8 * (natOfBits (s.bits.take 5) + 3)) :
    bigInt ⟨s, notes⟩ =
      .error (.underflow (s.bitPos + 8) (8 * (natOfBits (s.bits.take 5) + 2) : Nat) .bits) ⟨s.dropBits 8, notes⟩ := by
  have hheader : natOfBits (s.bits.take 8) / 8 = natOfBits (s.bits.take 5) := by
    rw [← natOfBits_take_shiftRight (show 5 ≤ 8 by decide) (hs.length_bits.symm ▸ h), Nat.shiftRight_eq_div_pow]
  have hfirst : nat 8 ⟨s, notes⟩ = .ok (natOfBits (s.bits.take 8)) ⟨s.dropBits 8, notes⟩ := nat_apply hs h notes
  have hleft : (s.dropBits 8).remainingBits < 8 * (natOfBits (s.bits.take 5) + 2) := by
    rw [Slice.remainingBits_dropBits]
    omega
  have hlength : natOfBits (s.bits.take 5) < 2 ^ 5 := by
    have hlt := natOfBits_lt (s.bits.take 5)
    rwa [List.length_take_of_le (by rw [hs.length_bits]; omega)] at hlt
  have hwidth : Text.Writable (8 * (natOfBits (s.bits.take 5) + 2) : Nat) :=
    Text.writable_of_lt (show 9 ≤ Text.maxDecimalDigits by decide) (by omega)
  have hsecond := nat_apply_of_lt (hs.dropBits h) hleft notes
  rw [Fault.short_of_writable hwidth] at hsecond
  rw [bigInt, bind_apply, hfirst]
  simp only [hheader, Nat.mul_comm _ 8, bind_apply, hsecond]
  rfl

end Bounds

/-- **Integer literals are read at every length.** A literal is read just where eight bits are left and as many as its
length, which is in the first five of them, calls for. It is then read as the length and the body one after the other
are, so that the literal of an integer gives this integer, for each length and both signs, and no more bits than its own
are taken. Where bits are missing, the decoder runs out of them before the first eight or just behind them. -/
theorem bigInt_reads {s : Slice} (hs : s.Sound) (notes : List Note) :
    let l := natOfBits (s.bits.take 5)
    ((∃ v k, bigInt ⟨s, notes⟩ = .ok v k) ↔ 8 ≤ s.remainingBits ∧ 8 * (l + 3) ≤ s.remainingBits) ∧
    (∀ v k, bigInt ⟨s, notes⟩ = .ok v k →
      (s.readNat 5 >>= fun p => p.2.readInt (8 * p.1 + 19)) = .ok (v, k.slice) ∧ k.notes = notes) ∧
    (∀ (n : Nat) (v : Int), n < 32 → -(2 ^ (8 * n + 18) : Nat) ≤ v → v < (2 ^ (8 * n + 18) : Nat) →
      integerLiteral n v <+: s.bits → bigInt ⟨s, notes⟩ = .ok v ⟨s.dropBits (8 * (n + 3)), notes⟩) ∧
    (s.remainingBits < 8 → bigInt ⟨s, notes⟩ = .error (.underflow s.bitPos 8 .bits) ⟨s, notes⟩) ∧
    (8 ≤ s.remainingBits → s.remainingBits < 8 * (l + 3) →
      bigInt ⟨s, notes⟩ = .error (.underflow (s.bitPos + 8) (8 * (l + 2) : Nat) .bits) ⟨s.dropBits 8, notes⟩) := by
  intro l
  have hroom : ∀ v k, bigInt ⟨s, notes⟩ = .ok v k → 8 * (l + 3) ≤ s.remainingBits := by
    intro v k hread
    by_contra hshort
    by_cases h : 8 ≤ s.remainingBits
    · rw [bigInt_of_short hs notes h (by omega)] at hread
      cases hread
    · rw [bigInt_of_missing hs notes (by omega)] at hread
      cases hread
  refine ⟨⟨?_, ?_⟩, ?_, ?_, bigInt_of_missing hs notes, bigInt_of_short hs notes⟩
  · rintro ⟨v, k, hread⟩
    have hle := hroom v k hread
    exact ⟨by omega, hle⟩
  · rintro ⟨-, hle⟩
    obtain ⟨v, t, hread, -⟩ := bigInt_of_room hs notes hle
    exact ⟨v, _, hread⟩
  · intro v k hread
    obtain ⟨v', t, hread', hwhole⟩ := bigInt_of_room hs notes (hroom v k hread)
    rw [hread] at hread'
    cases hread'
    exact ⟨hwhole, rfl⟩
  · intro n v hn hlo hhi hbits
    have hlen : (integerLiteral n v).length = 8 * (n + 3) := by
      simp only [integerLiteral, List.length_append, length_bitsOfNat]
      omega
    rw [takes_integerLiteral hn hlo hhi s notes hs hbits, hlen]

/-- The least integer of 27 bits, which begins within a byte; the same without its last bit, and without all but
seven. -/
theorem bigInt_reads_least :
    let s : Slice := ⟨⟨[0xa1, 0x80, 0x00, 0x00, 0x18], 37, [], false⟩, 3, 37, 0, 0⟩
    bigInt ⟨s, []⟩ = .ok (-2 ^ 26) ⟨s.dropBits 32, []⟩ ∧
      (s.readNat 5 >>= fun p => p.2.readInt (8 * p.1 + 19)) = .ok (-2 ^ 26, s.dropBits 32) ∧
      bigInt ⟨s.withEnds 34 0, []⟩ = .error (.underflow 11 24 .bits) ⟨(s.withEnds 34 0).dropBits 8, []⟩ ∧
      bigInt ⟨s.withEnds 10 0, []⟩ = .error (.underflow 3 8 .bits) ⟨s.withEnds 10 0, []⟩ := by
  intro s
  have hcell : s.cell.WellFormed := .intro (by decide) (by decide) (by decide) nofun
  have hs : s.Sound := ⟨⟨by decide, by decide, by decide, by decide⟩, hcell⟩
  have hshort : (s.withEnds 34 0).Sound := ⟨⟨by decide, by decide, by decide, by decide⟩, hcell⟩
  have hmissing : (s.withEnds 10 0).Sound := ⟨⟨by decide, by decide, by decide, by decide⟩, hcell⟩
  obtain ⟨-, hwhole, hvalue, -, -⟩ := bigInt_reads hs []
  have hread := hvalue 1 (-2 ^ 26) (by decide) (by decide) (by decide) (by decide)
  have hlack := (bigInt_reads hshort []).2.2.2.2 (by decide) (by decide)
  have hbare := (bigInt_reads hmissing []).2.2.2.1 (by decide)
  exact ⟨hread, (hwhole _ _ hread).1, hlack, hbare⟩

end Decoder

end TvmCode
