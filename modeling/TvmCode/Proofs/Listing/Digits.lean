import TvmCode.Proofs.Listing.Twins

/-!
# Code page zero shows numbers of few digits

A number is shown only if it has few enough digits, be it an operand in its place or the width in the wording of an
underflow. Where the operands of an instruction are of few bits (`Instr.modest`), all its numbers can be written: no
decoding of it fails for one that cannot (`Instr.writes_decode`). This is kept by putting decoders one after the other,
where what was read bounds the widths that are asked for next (`Decoder.Writes`).

The instructions of code page zero are of this kind (`CodePage.modest_zero`), so that no listing fails for the digits of
a number, at whatever level (`listing_writes`).
-/

namespace TvmCode

/-! ## Instructions with small operands -/

/-- An operand of few bits, which is shown as a number of few digits. -/
def Operand.modest (f : Operand) : Bool :=
  decide (f.bits.natAbs ≤ 64) && decide (f.scale.natAbs ≤ 64) && decide (f.bias.natAbs ≤ 64)

namespace Form

/-- All operands are of few bits, and so are the numbers of bits and references that are read from the code. -/
def modest : Form → Bool
  | .line _ operands _ | .blocks _ operands _ => operands.all Operand.modest
  | .literal _ reserved size extra => decide (reserved ≤ 64) && decide (size ≤ 64) && decide (extra ≤ 64)
  | .inlineBody _ refBits sizeBits => decide (refBits ≤ 64) && decide (sizeBits ≤ 64)
  | .select choices => choices.all fun (_, _, operands) => operands.all Operand.modest
  | _ => true

end Form

/-- All opcodes and operands are of few bits. -/
def Instr.modest (i : Instr) : Bool := i.opcodes.all (fun op => decide (op.width.natAbs ≤ 64)) && i.form.modest

theorem Text.writable_of_lt_pow {n : Int} (h : n.natAbs < 2 ^ 128) : Writable n := writable_of_lt (by decide) h

theorem Slice.natAbs_signed_le {value width : Nat} (h : value < 2 ^ width) :
    (signed value width).natAbs ≤ 2 ^ width := by
  unfold signed
  rw [Nat.one_shiftLeft width]
  split <;> omega

/-! ## Decoders -/

namespace Decoder

variable {α β : Type}

/-- A decoder never fails for a number with too many digits, and what it gives has a property. -/
structure Writes (P : α → Prop) (d : Decoder α) : Prop where
  fault (c k : Cursor) : d c ≠ .error .tooManyDigits k
  result {c k : Cursor} {a : α} (h : d c = .ok a k) : P a

namespace Writes

variable {P : α → Prop} {Q : β → Prop}

theorem pure {a : α} (h : P a) : Writes P (pure a) where
  fault _ _ := nofun
  result e := by cases e; exact h

theorem throw {f : Fault} (h : f ≠ .tooManyDigits) : Writes P (throw f) where
  fault _ _ e := by cases e; exact h rfl
  result := nofun

theorem bind {d : Decoder α} {f : α → Decoder β} (hd : Writes P d) (hf : ∀ a, P a → Writes Q (f a)) :
    Writes Q (d >>= f) where
  fault c k h := by
    rw [bind_apply] at h
    cases hdc : d c with
    | ok a k₁ =>
      rw [hdc] at h
      exact (hf a (hd.result hdc)).fault k₁ k h
    | error e k₁ =>
      rw [hdc] at h
      cases h
      exact hd.fault c k hdc
  result h := by
    obtain ⟨a, k₁, h₁, h₂⟩ := exists_of_bind_eq_ok h
    exact (hf a (hd.result h₁)).result h₂

theorem takeBits {look : Slice → Nat → α} {width : Int} (hwidth : width.natAbs < 2 ^ 128)
    (hlook : ∀ s, P (look s width.toNat)) : Writes P (takeBits look width) where
  fault c k h := by
    rw [takeBits_apply, Fault.short_of_writable (Text.writable_of_lt_pow hwidth)] at h
    split at h <;> cases h
  result h := by
    rw [takeBits_apply] at h
    split at h <;> cases h
    exact hlook _

theorem nat {width : Int} (h : width.natAbs < 2 ^ 128) : Writes (· < 2 ^ width.toNat) (nat width) :=
  takeBits h fun s => Cell.bitsAt_lt s.cell s.bitPos width.toNat

theorem int {width : Int} (h : width.natAbs < 2 ^ 128) :
    Writes (fun x => x.natAbs ≤ 2 ^ width.toNat) (int width) :=
  takeBits h fun s => Slice.natAbs_signed_le (Cell.bitsAt_lt s.cell s.bitPos width.toNat)

theorem bits {width : Int} (h : width.natAbs < 2 ^ 128) : Writes (fun _ => True) (bits width) :=
  takeBits h fun _ => trivial

theorem ref : Writes (fun _ => True) ref where
  fault c k h := by
    rw [ref_apply] at h
    split at h <;> cases h
  result _ := trivial

theorem each {decode : α → Decoder β} : ∀ {as : List α}, (∀ a ∈ as, Writes Q (decode a)) →
    Writes (fun bs => ∀ b ∈ bs, Q b) (each decode as)
  | [], _ => pure nofun
  | _ :: _, h => bind (h _ List.mem_cons_self) fun _ hb =>
    bind (each fun a ha => h a (List.mem_cons_of_mem _ ha)) fun _ hbs => pure (List.forall_mem_cons.mpr ⟨hb, hbs⟩)

theorem refs : ∀ count, Writes (fun _ => True) (refs count)
  | 0 => pure trivial
  | count + 1 => bind ref fun _ _ => bind (refs count) fun _ _ => pure trivial

theorem bigInt : Writes (fun _ => True) bigInt := by
  refine bind (nat (by decide)) fun header h => bind (nat ?_) fun _ _ => pure trivial
  have hlt : header < 2 ^ 8 := h
  omega

/-- What is shown of a small operand is a number that can be written. -/
theorem operand {f : Operand} (h : f.modest = true) : Writes Text.Writable f.read := by
  simp only [Operand.modest, Bool.and_eq_true, decide_eq_true_eq] at h
  obtain ⟨⟨hbits, hscale⟩, hbias⟩ := h
  have hwidth : f.bits.natAbs < 2 ^ 128 := by omega
  have hpow : 2 ^ f.bits.toNat ≤ 2 ^ 64 := Nat.pow_le_pow_right (by decide) (by omega)
  have hshown : ∀ x : Int, x.natAbs ≤ 2 ^ f.bits.toNat → Text.Writable (f.scale * x + f.bias) := by
    intro x hx
    have hproduct : (f.scale * x).natAbs ≤ 64 * 2 ^ 64 := by
      rw [Int.natAbs_mul]
      exact Nat.mul_le_mul hscale (hx.trans hpow)
    have hsum := Int.natAbs_add_le (f.scale * x) f.bias
    exact Text.writable_of_lt_pow (by omega)
  unfold Operand.read
  split
  · exact bind (int hwidth) fun x hx => pure (hshown x hx)
  · exact bind (bind (nat hwidth) fun n hn => pure (P := fun x : Int => x.natAbs ≤ 2 ^ f.bits.toNat) hn.le)
      fun x hx => pure (hshown x hx)

theorem operands {fs : List Operand} (h : fs.all Operand.modest = true) :
    Writes (fun vs => ∀ v ∈ vs, Text.Writable v) (Decoder.each Operand.read fs) :=
  each fun f hf => operand (List.all_eq_true.mp h f hf)

end Writes

end Decoder

theorem Template.exists_fillPlaces {values : List Int} (h : ∀ v ∈ values, Text.Writable v) :
    ∀ pieces, ∃ e, fillPlaces pieces values = some e := by
  intro pieces
  induction pieces generalizing values with
  | nil => exact ⟨_, rfl⟩
  | cons piece pieces ih =>
    cases values with
    | nil =>
      obtain ⟨rest, hrest⟩ := ih h
      exact ⟨piece ++ rest, by rw [fillPlaces, hrest]; rfl⟩
    | cons v values =>
      obtain ⟨hv, hvs⟩ := List.forall_mem_cons.mp h
      obtain ⟨rest, hrest⟩ := ih hvs
      exact ⟨toString v ++ piece ++ rest, by rw [fillPlaces, hrest, Text.writeInt?, if_pos hv]; rfl⟩

/-- Numbers that can be written fill every text. -/
theorem Decoder.Writes.shown (text : Template) {values : List Int} (h : ∀ v ∈ values, Text.Writable v) :
    Writes (fun _ => True) (text.shown values) where
  fault c k hfail := by
    obtain ⟨e, he⟩ : ∃ e, text.fill values = some e := by
      cases text with
      | nil => exact ⟨_, rfl⟩
      | cons head pieces =>
        obtain ⟨rest, hrest⟩ := Template.exists_fillPlaces h pieces
        exact ⟨head ++ rest, by rw [Template.fill, hrest]; rfl⟩
    rw [Template.shown_apply, he] at hfail
    cases hfail
  result _ := trivial

/-! ## Instructions -/

/-- A lister of continuations that never fails for a number with too many digits. -/
def Nested.Writes (nested : Nested) : Prop := ∀ s continuing, (nested s continuing).text ≠ .error .tooManyDigits

section Instructions

variable {nested : Nested} (hn : nested.Writes)

include hn

theorem Decoder.Writes.body (code : Slice) (continuing : Bool) :
    Writes (fun _ => True) (Form.body nested code continuing) where
  fault c k h := by
    rw [Form.body_apply] at h
    split at h
    · cases h
    · rename_i f hf
      cases h
      exact hn code continuing hf
  result _ := trivial

theorem Decoder.Writes.refBodies : ∀ count, Writes (fun _ => True) (Form.refBodies nested count)
  | 0 => pure trivial
  | count + 1 => bind ref fun _ _ => bind (body hn _ true) fun _ _ => bind (refBodies count) fun _ _ => pure trivial

theorem Form.writes_decode {f : Form} (h : f.modest = true) : (f.decode nested).Writes fun _ => True := by
  cases f with
  | line text operands refs =>
    exact .bind (.operands h) fun _ hvs => .bind (.refs refs) fun _ _ => .bind (.shown text hvs) fun _ _ =>
      .pure trivial
  | blocks text operands refs =>
    exact .bind (.operands h) fun _ hvs => .bind (.shown text hvs) fun _ _ => .bind (.refs refs) fun _ _ =>
      .bind (.each fun _ _ => .body hn _ true) fun _ _ => .pure trivial
  | register zero other => exact .bind (.nat (by decide)) fun _ _ => .pure trivial
  | smallInt name => exact .bind (.nat (by decide)) fun _ _ => .pure trivial
  | bigInt name => exact .bind .bigInt fun _ _ => .pure trivial
  | literal lead reserved size extra =>
    simp only [modest, Bool.and_eq_true, decide_eq_true_eq] at h
    obtain ⟨⟨hreserved, hsize⟩, hextra⟩ := h
    refine .bind (.nat (by omega)) fun r _ => .bind (.nat (by omega)) fun n hlt => ?_
    have hcount : n < 2 ^ 64 := hlt.trans_le (Nat.pow_le_pow_right (by decide) hsize)
    split
    · exact .bind (.bits (by omega)) fun _ _ => .pure trivial
    · exact .pure trivial
  | inlineBody name refBits sizeBits =>
    simp only [modest, Bool.and_eq_true, decide_eq_true_eq] at h
    refine .bind (.nat (by omega)) fun r _ => .bind (.nat (by omega)) fun n hlt => ?_
    have hcount : n < 2 ^ 64 := hlt.trans_le (Nat.pow_le_pow_right (by decide) h.2)
    exact .bind (.refBodies hn r) fun _ _ => .bind (.bits (by omega)) fun _ _ =>
      .bind (.body hn _ false) fun _ _ => .pure trivial
  | select choices =>
    refine .bind (.nat (by decide)) fun key _ => ?_
    cases hlook : choices.lookup key with
    | none => exact .pure trivial
    | some choice =>
      have hmodest := List.all_eq_true.mp h _ (Form.mem_of_lookup hlook)
      exact .bind (.operands hmodest) fun _ hvs => .bind (.shown choice.1 hvs) fun _ _ => .pure trivial
  | debugText =>
    refine .bind (.nat (by decide)) fun n hlt => .bind (.nat (by decide)) fun mode _ => ?_
    have hcount : n < 2 ^ 4 := hlt
    split
    · exact .pure trivial
    · exact .pure trivial
    · exact .bind (.bits (by omega)) fun _ _ => .pure trivial
    · exact .bind (.bits (by omega)) fun _ _ => .pure trivial
    · exact .pure trivial

/-- **Instructions with small operands** never fail for a number with too many digits. -/
theorem Instr.writes_decode {i : Instr} (h : i.modest = true) : (i.decode nested).Writes fun _ => True := by
  rw [modest, Bool.and_eq_true] at h
  refine .bind (.each (Q := fun _ => True) fun op hop => ?_) fun _ _ => Form.writes_decode hn h.2
  have hwidth : op.width.natAbs ≤ 64 := by simpa using List.all_eq_true.mp h.1 op hop
  refine .bind (.nat (by omega)) fun n _ => ?_
  split
  · exact .pure trivial
  · exact .throw nofun

end Instructions

/-! ## Listings -/

/-- A dispatcher finds only instructions with small operands. -/
def Dispatcher.Modest (find? : Dispatcher) : Prop := ∀ (s : Slice) (i : Instr), find? s = some i → i.modest = true

namespace CodePage

theorem modest_zeroRecords : Record.allList Instr.modest zeroRecords = true := by decide +kernel

/-- The operands of code page zero are small. -/
theorem modest_zero : Dispatcher.Modest zero.find? := by
  intro s i h
  obtain ⟨path, hdecl, -⟩ := find?_eq_some_iff.mp h
  have hall := modest_zeroRecords
  generalize zeroRecords = records at hdecl hall
  exact hdecl.of_all hall

end CodePage

/-- A listing that did not stop at a number with too many digits. -/
def Region.Writes (r : Region) : Prop := r.ending ≠ .failed .tooManyDigits

section Listings

variable {find? : Dispatcher} {nested : Nested}

theorem step_writes (hf : find?.Modest) (hn : nested.Writes) (s : Slice) (c : Cursor) :
    step find? nested s ≠ .failed .tooManyDigits c := by
  unfold step
  cases hfind : find? s with
  | none => nofun
  | some i =>
    have hfault := (Instr.writes_decode hn (hf s i hfind)).fault ⟨s, []⟩
    intro hfail
    cases hdec : i.decode nested ⟨s, []⟩ with
    | error f k =>
      simp only [hdec] at hfail
      cases hfail
      exact hfault c hdec
    | ok text k =>
      simp only [hdec] at hfail
      cases text with
      | none => cases hfail
      | some text =>
        dsimp only at hfail
        split at hfail <;> cases hfail

theorem straight_writes (hf : find?.Modest) (hn : nested.Writes) (s : Slice) : (straight find? nested s).Writes := by
  obtain ⟨lines, t, -, hhalts⟩ := straight_halts find? nested s
  unfold Region.Writes
  cases hhalts with
  | complete _ _ _ hend => rw [hend]; nofun
  | marked _ _ _ hend => rw [hend]; nofun
  | @failed f c _ hstep _ _ hend =>
    rw [hend]
    rintro ⟨⟩
    exact step_writes hf hn t c hstep

theorem chain_writes (hf : find?.Modest) (hn : nested.Writes) (s : Slice) : (chain find? nested s).Writes := by
  have hst := straight_writes hf hn s
  by_cases hend : (straight find? nested s).ending = .complete
  · obtain h₀ | h₁ | h₂ : (straight find? nested s).rest.remainingRefs = 0 ∨
        (straight find? nested s).rest.remainingRefs = 1 ∨ 1 < (straight find? nested s).rest.remainingRefs := by
      omega
    · rw [chain_of_complete hend h₀]
      exact hst
    · cases hnext : s.cell.refs[(straight find? nested s).rest.refPos]? with
      | none =>
        rw [chain_of_missing hend h₁ hnext]
        exact hst
      | some next =>
        have := Cell.sizeOf_lt_of_mem_refs (List.mem_of_getElem? hnext)
        rw [chain_of_next hend h₁ hnext]
        exact chain_writes hf hn (Slice.ofCell next)
    · rw [chain_of_fork hend h₂]
      nofun
  · rw [chain_of_not_complete hend]
    exact hst
termination_by sizeOf s.cell

theorem region_writes (hf : find?.Modest) (hn : nested.Writes) (s : Slice) (continuing : Bool) :
    (region find? nested s continuing).Writes := by
  cases continuing with
  | false => exact straight_writes hf hn s
  | true => exact chain_writes hf hn s

theorem bodies_writes (hf : find?.Modest) (limit indent levels : Nat) :
    (bodies find? limit indent levels).Writes := by
  induction levels with
  | zero => nofun
  | succ levels ih =>
    intro s continuing h
    rw [bodies_succ] at h
    unfold Region.rendered at h
    split at h
    · rename_i f hend
      cases h
      exact region_writes hf ih s continuing hend
    · cases h

/-- **No listing fails for the digits of a number** if the operands of all instructions are small. -/
theorem listing_writes (hf : find?.Modest) (limit indent levels : Nat) (s : Slice) (continuing : Bool) :
    (listing find? limit indent levels s continuing).Writes := by
  rw [listing_eq]
  exact region_writes hf (bodies_writes hf limit indent levels) s continuing

end Listings

end TvmCode
