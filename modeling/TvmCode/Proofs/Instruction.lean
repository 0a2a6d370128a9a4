import TvmCode.Proofs.Decoder

/-!
# Instructions and the bits they take

The opcodes of an instruction can be compared with a number whose highest bits they should be (`Opcode.agree`). If they
agree with the bits at the front of a slice, they pass their check and are taken (`Opcode.each_check_eq_ok`). What
follows takes `Form.width` bits and a number of whole bytes (`Form.width_of_decode`), or no reference if it has no
meaning (`Form.refPos_of_decode`).
-/

namespace TvmCode

/-! ## Opcodes -/

namespace Opcode

/-- The bits that opcodes take. -/
def total : List Opcode → Nat
  | [] => 0
  | op :: ops => op.width.toNat + total ops

/-- The opcodes are the highest of the `bits` bits of a number, one after the other. -/
def agree : List Opcode → (value bits : Nat) → Bool
  | [], _, _ => true
  | op :: ops, value, bits =>
    decide (0 ≤ op.width) && decide (op.width.toNat ≤ bits) &&
      decide (((value >>> (bits - op.width.toNat) : Nat) : Int) = op.code) &&
      agree ops (value % 2 ^ (bits - op.width.toNat)) (bits - op.width.toNat)

theorem agree_cons {op : Opcode} {ops : List Opcode} {value bits : Nat} :
    agree (op :: ops) value bits = true ↔
      0 ≤ op.width ∧ op.width.toNat ≤ bits ∧ ((value >>> (bits - op.width.toNat) : Nat) : Int) = op.code ∧
        agree ops (value % 2 ^ (bits - op.width.toNat)) (bits - op.width.toNat) = true := by
  simp only [agree, Bool.and_eq_true, decide_eq_true_eq, and_assoc]

theorem total_le {ops : List Opcode} {value bits : Nat} (h : agree ops value bits = true) : total ops ≤ bits := by
  induction ops generalizing value bits with
  | nil => exact Nat.zero_le _
  | cons op ops ih =>
    obtain ⟨-, hwidth, -, hrest⟩ := agree_cons.mp h
    have := ih hrest
    rw [total]
    omega

/-- Opcodes that agree with two numbers agree with those between. -/
theorem agree_between {ops : List Opcode} {lo value hi bits : Nat} (hlo : agree ops lo bits = true)
    (hhi : agree ops hi bits = true) (h₁ : lo ≤ value) (h₂ : value ≤ hi) : agree ops value bits = true := by
  induction ops generalizing lo value hi bits with
  | nil => rfl
  | cons op ops ih =>
    obtain ⟨hwidth, hroom, hlo', hlos⟩ := agree_cons.mp hlo
    obtain ⟨-, -, hhi', hhis⟩ := agree_cons.mp hhi
    generalize hm : 2 ^ (bits - op.width.toNat) = m at hlos hhis
    rw [Nat.shiftRight_eq_div_pow, hm] at hlo' hhi'
    -- all three numbers have the same quotient, so their remainders are ordered as they are
    have hq₁ := Nat.div_le_div_right (c := m) h₁
    have hq₂ := Nat.div_le_div_right (c := m) h₂
    have hq : value / m = lo / m := by omega
    have hq' : hi / m = lo / m := by omega
    have e₁ := Nat.div_add_mod lo m
    have e₂ := Nat.div_add_mod value m
    have e₃ := Nat.div_add_mod hi m
    rw [hq] at e₂
    rw [hq'] at e₃
    refine agree_cons.mpr ⟨hwidth, hroom, ?_, ?_⟩
    · rw [Nat.shiftRight_eq_div_pow, hm, hq]
      exact hlo'
    · rw [hm]
      exact ih hlos hhis (by omega) (by omega)

/-- Opcodes that are the first bits of a slice pass their check and are taken. -/
theorem each_check_eq_ok {ops : List Opcode} {s : Slice} (hs : s.Sound) {n : Nat} (hn : n ≤ s.remainingBits)
    (h : agree ops (natOfBits (s.bits.take n)) n = true) (notes : List Note) :
    ∃ us, Decoder.each Opcode.check ops ⟨s, notes⟩ = .ok us ⟨s.dropBits (total ops), notes⟩ := by
  induction ops generalizing s n with
  | nil => exact ⟨[], rfl⟩
  | cons op ops ih =>
    obtain ⟨hwidth, hroom, hcode, hrest⟩ := agree_cons.mp h
    generalize hw : op.width.toNat = w at hroom hcode hrest
    have hlen := hs.length_bits
    rw [natOfBits_take_shiftRight hroom (by omega)] at hcode
    rw [natOfBits_take_mod hroom (by omega), ← Slice.bits_dropBits] at hrest
    have hread : op.check ⟨s, notes⟩ = .ok () ⟨s.dropBits w, notes⟩ := by
      have hpos := hs.valid.1
      unfold Slice.remainingBits at hn
      rw [check, Decoder.bind_apply, Decoder.nat_eq, Decoder.takeBits_apply, hw, if_pos ⟨hwidth, by simp only; omega⟩]
      simp only [Slice.bitsAt_eq hs (show w ≤ s.remainingBits by unfold Slice.remainingBits; omega), hcode, if_true]
      rfl
    obtain ⟨us, hus⟩ := ih (hs.dropBits (by omega)) (by rw [Slice.remainingBits_dropBits]; omega) hrest
    refine ⟨() :: us, ?_⟩
    rw [Decoder.each, Decoder.bind_apply, hread]
    simp only [Decoder.bind_apply, hus, total, hw]
    simp only [Slice.dropBits, Nat.add_assoc]
    rfl

end Opcode

/-! ## Forms -/

/-- The bits that operands take. -/
def Operand.total : List Operand → Nat
  | [] => 0
  | f :: fs => f.bits.toNat + total fs

namespace Form

/-- The bits that follow the opcodes of an instruction, apart from whole bytes whose number the bits themselves say. -/
def width : Form → Nat
  | .line _ operands _ => Operand.total operands
  | .blocks _ operands _ => Operand.total operands
  | .register _ _ => 4
  | .smallInt _ => 4
  | .bigInt _ => 24
  | .literal _ reserved size extra => reserved + size + extra
  | .inlineBody _ refBits sizeBits => refBits + sizeBits
  | .select _ => 8
  | .debugText => 12

/-- Every text has as many places as there are operands, and what a byte selects takes whole bytes. -/
def shaped : Form → Bool
  | .line text operands _ => text.length == operands.length + 1
  | .blocks text operands _ => text.length == operands.length + 1
  | .select choices => choices.all fun (_, text, operands) =>
      text.length == operands.length + 1 && Operand.total operands % 8 == 0
  | _ => true

end Form

namespace Decoder

variable {α β : Type}

/-- A decoder takes `n` bits whenever it succeeds. -/
structure Spends (d : Decoder α) (n : Nat) : Prop where
  bitPos_eq {c : Cursor} {a : α} {k : Cursor} (h : d c = .ok a k) : k.slice.bitPos = c.slice.bitPos + n

theorem exists_of_bind_eq_ok {d : Decoder α} {f : α → Decoder β} {c k : Cursor} {b : β}
    (h : (d >>= f) c = .ok b k) : ∃ a k₁, d c = .ok a k₁ ∧ f a k₁ = .ok b k := by
  rw [bind_apply] at h
  cases hd : d c with
  | ok a k₁ => rw [hd] at h; exact ⟨a, k₁, rfl, h⟩
  | error e k₁ => rw [hd] at h; cases h

/-- How far a successful decoder has read. -/
theorem bitPos_of_spends {d : Decoder α} {c k : Cursor} {a : α} {n : Nat} (h : d c = .ok a k) (hd : d.Spends n) :
    k.slice.bitPos = c.slice.bitPos + n := hd.bitPos_eq h

namespace Spends

theorem pure (a : α) : Spends (pure a : Decoder α) 0 := ⟨fun h => by cases h; rfl⟩

theorem bind {d : Decoder α} {f : α → Decoder β} {m n : Nat} (hd : Spends d m) (hf : ∀ a, Spends (f a) n) :
    Spends (d >>= f) (m + n) where
  bitPos_eq h := by
    obtain ⟨a, k₁, h₁, h₂⟩ := exists_of_bind_eq_ok h
    rw [(hf a).bitPos_eq h₂, hd.bitPos_eq h₁, Nat.add_assoc]

theorem takeBits (look : Slice → Nat → α) (width : Int) : Spends (takeBits look width) width.toNat where
  bitPos_eq h := by
    rw [takeBits_apply] at h
    split at h <;> cases h
    rfl

theorem nat (width : Int) : Spends (nat width) width.toNat := takeBits _ width

theorem int (width : Int) : Spends (int width) width.toNat := takeBits _ width

theorem bits (width : Int) : Spends (bits width) width.toNat := takeBits _ width

theorem ref : Spends ref 0 where
  bitPos_eq h := by
    rw [ref_apply] at h
    split at h <;> cases h
    rfl

theorem body (nested : Nested) (code : Slice) (continuing : Bool) :
    Spends (Form.body nested code continuing) 0 where
  bitPos_eq h := by
    rw [Form.body_apply] at h
    split at h <;> cases h
    rfl

theorem refs : ∀ count, Spends (refs count) 0
  | 0 => pure _
  | count + 1 => bind ref fun _ => bind (refs count) fun _ => pure _

theorem refBodies (nested : Nested) : ∀ count, Spends (Form.refBodies nested count) 0
  | 0 => pure _
  | count + 1 => bind ref fun _ => bind (body nested _ true) fun _ => bind (refBodies nested count) fun _ => pure _

theorem bodies (nested : Nested) :
    ∀ cells, Spends (each (fun c => Form.body nested (Slice.ofCell c) true) cells) 0
  | [] => pure _
  | _ :: cells => bind (body nested _ true) fun _ => bind (bodies nested cells) fun _ => pure _

theorem shown (text : Template) (values : List Int) : Spends (text.shown values) 0 where
  bitPos_eq h := by
    rw [Template.shown_apply] at h
    split at h <;> cases h
    rfl

theorem operand (f : Operand) : Spends f.read f.bits.toNat := by
  unfold Operand.read
  split
  · exact bind (int _) fun _ => pure _
  · exact bind (bind (nat _) fun _ => pure _) fun _ => pure _

theorem operands : ∀ fs, Spends (each Operand.read fs) (Operand.total fs)
  | [] => pure _
  | f :: fs => bind (operand f) fun _ => bind (operands fs) fun _ => pure _

end Spends

end Decoder

/-- A form that shows a text has taken its width and whole bytes. -/
theorem Form.width_of_decode {nested : Nested} {f : Form} (hf : f.shaped = true) {c k : Cursor} {text : String}
    (h : f.decode nested c = .ok (some text) k) : ∃ m, k.slice.bitPos = c.slice.bitPos + f.width + 8 * m := by
  cases f with
  | line text operands refs =>
    have e := Decoder.bitPos_of_spends h (.bind (.operands operands) fun _ => .bind (.refs refs) fun _ =>
      .bind (.shown text _) fun _ => .pure _)
    exact ⟨0, e⟩
  | blocks text operands refs =>
    have e := Decoder.bitPos_of_spends h (.bind (.operands operands) fun _ => .bind (.shown text _) fun _ =>
      .bind (.refs refs) fun _ => .bind (.bodies nested _) fun _ => .pure _)
    exact ⟨0, e⟩
  | register zero other => exact ⟨0, Decoder.bitPos_of_spends h (.bind (.nat 4) fun _ => .pure _)⟩
  | smallInt name => exact ⟨0, Decoder.bitPos_of_spends h (.bind (.nat 4) fun _ => .pure _)⟩
  | bigInt name =>
    obtain ⟨x, k₁, h₁, h₂⟩ := Decoder.exists_of_bind_eq_ok h
    obtain ⟨header, k₂, h₃, h₄⟩ := Decoder.exists_of_bind_eq_ok h₁
    have e₁ := Decoder.bitPos_of_spends h₃ (.nat 8)
    have e₂ := Decoder.bitPos_of_spends h₄ (.bind (.nat _) fun _ => .pure _)
    cases h₂
    exact ⟨header / 8, by rw [e₂, e₁, width]; omega⟩
  | literal lead reserved size extra =>
    obtain ⟨r, k₁, h₁, h⟩ := Decoder.exists_of_bind_eq_ok h
    obtain ⟨n, k₂, h₂, h⟩ := Decoder.exists_of_bind_eq_ok h
    have e₁ := Decoder.bitPos_of_spends h₁ (.nat _)
    have e₂ := Decoder.bitPos_of_spends h₂ (.nat _)
    split at h
    · have e₃ := Decoder.bitPos_of_spends h (.bind (.bits _) fun _ => .pure _)
      exact ⟨n, by rw [e₃, e₂, e₁, width]; omega⟩
    · cases h
  | inlineBody name refBits sizeBits =>
    obtain ⟨r, k₁, h₁, h⟩ := Decoder.exists_of_bind_eq_ok h
    obtain ⟨n, k₂, h₂, h⟩ := Decoder.exists_of_bind_eq_ok h
    have e₁ := Decoder.bitPos_of_spends h₁ (.nat _)
    have e₂ := Decoder.bitPos_of_spends h₂ (.nat _)
    have e₃ := Decoder.bitPos_of_spends h (.bind (.refBodies nested r) fun _ => .bind (.bits _) fun _ =>
      .bind (.body nested _ false) fun _ => .pure _)
    exact ⟨n, by rw [e₃, e₂, e₁, width]; omega⟩
  | select choices =>
    obtain ⟨key, k₁, h₁, h⟩ := Decoder.exists_of_bind_eq_ok h
    have e₁ := Decoder.bitPos_of_spends h₁ (.nat 8)
    cases hlook : choices.lookup key with
    | none => rw [hlook] at h; cases h
    | some choice =>
      obtain ⟨text, operands⟩ := choice
      rw [hlook] at h
      have e₂ := Decoder.bitPos_of_spends h (.bind (.operands operands) fun _ => .bind (.shown text _) fun _ => .pure _)
      have hshape := List.all_eq_true.mp hf _ (Form.mem_of_lookup hlook)
      simp only [Bool.and_eq_true, beq_iff_eq] at hshape
      exact ⟨Operand.total operands / 8, by rw [e₂, e₁, width]; omega⟩
  | debugText =>
    obtain ⟨n, k₁, h₁, h⟩ := Decoder.exists_of_bind_eq_ok h
    obtain ⟨mode, k₂, h₂, h⟩ := Decoder.exists_of_bind_eq_ok h
    have e₁ := Decoder.bitPos_of_spends h₁ (.nat 4)
    have e₂ := Decoder.bitPos_of_spends h₂ (.nat 8)
    split at h
    · cases h
      exact ⟨0, by rw [e₂, e₁, width]; omega⟩
    · cases h
    · have e₃ := Decoder.bitPos_of_spends h (.bind (.bits _) fun _ => .pure _)
      exact ⟨n, by rw [e₃, e₂, e₁, width]; omega⟩
    · have e₃ := Decoder.bitPos_of_spends h (.bind (.bits _) fun _ => .pure _)
      exact ⟨n, by rw [e₃, e₂, e₁, width]; omega⟩
    · cases h

/-! ## Operands without a meaning -/

namespace Decoder

variable {α : Type}

/-- Bits are taken without a reference. -/
theorem refPos_of_takeBits {look : Slice → Nat → α} {width : Int} {c k : Cursor} {a : α}
    (h : takeBits look width c = .ok a k) : k.slice.refPos = c.slice.refPos := by
  rw [takeBits_apply] at h
  split at h <;> cases h
  rfl

/-- A decoder gives a text whenever it succeeds. -/
structure Shows (d : Decoder (Option String)) : Prop where
  ne_none (c k : Cursor) : d c ≠ .ok none k

namespace Shows

theorem pure (text : String) : Shows (pure (some text)) := ⟨nofun⟩

theorem bind {d : Decoder α} {f : α → Decoder (Option String)} (hf : ∀ a, Shows (f a)) : Shows (d >>= f) where
  ne_none c k h := by
    obtain ⟨a, k₁, -, h⟩ := exists_of_bind_eq_ok h
    exact (hf a).ne_none k₁ k h

end Shows

theorem absurd_of_shows {d : Decoder (Option String)} {c k : Cursor} {p : Prop} (h : d c = .ok none k)
    (hd : d.Shows) : p :=
  absurd h (hd.ne_none c k)

end Decoder

/-- A form that shows no text has taken no reference: those that take some always show one. -/
theorem Form.refPos_of_decode {nested : Nested} {f : Form} {c k : Cursor} (h : f.decode nested c = .ok none k) :
    k.slice.refPos = c.slice.refPos := by
  cases f with
  | line text operands refs =>
    exact Decoder.absurd_of_shows h (.bind fun _ => .bind fun _ => .bind fun _ => .pure _)
  | blocks text operands refs =>
    exact Decoder.absurd_of_shows h (.bind fun _ => .bind fun _ => .bind fun _ => .bind fun _ => .pure _)
  | register zero other => exact Decoder.absurd_of_shows h (.bind fun _ => .pure _)
  | smallInt name => exact Decoder.absurd_of_shows h (.bind fun _ => .pure _)
  | bigInt name => exact Decoder.absurd_of_shows h (.bind fun _ => .pure _)
  | inlineBody name refBits sizeBits =>
    exact Decoder.absurd_of_shows h (.bind fun _ => .bind fun _ => .bind fun _ =>
      .bind fun _ => .bind fun _ => .pure _)
  | literal lead reserved size extra =>
    obtain ⟨r, k₁, h₁, h⟩ := Decoder.exists_of_bind_eq_ok h
    obtain ⟨n, k₂, h₂, h⟩ := Decoder.exists_of_bind_eq_ok h
    split at h
    · exact Decoder.absurd_of_shows h (.bind fun _ => .pure _)
    · cases h
      rw [Decoder.refPos_of_takeBits h₂, Decoder.refPos_of_takeBits h₁]
  | select choices =>
    obtain ⟨key, k₁, h₁, h⟩ := Decoder.exists_of_bind_eq_ok h
    cases hlook : choices.lookup key with
    | some choice =>
      rw [hlook] at h
      exact Decoder.absurd_of_shows h (.bind fun _ => .bind fun _ => .pure _)
    | none =>
      rw [hlook] at h
      cases h
      exact Decoder.refPos_of_takeBits h₁
  | debugText =>
    obtain ⟨n, k₁, h₁, h⟩ := Decoder.exists_of_bind_eq_ok h
    obtain ⟨mode, k₂, h₂, h⟩ := Decoder.exists_of_bind_eq_ok h
    have hpos : k₂.slice.refPos = c.slice.refPos := by
      rw [Decoder.refPos_of_takeBits h₂, Decoder.refPos_of_takeBits h₁]
    split at h
    · cases h
    · cases h; exact hpos
    · exact Decoder.absurd_of_shows h (.bind fun _ => .pure _)
    · exact Decoder.absurd_of_shows h (.bind fun _ => .pure _)
    · cases h; exact hpos

end TvmCode
