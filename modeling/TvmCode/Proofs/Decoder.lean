import TvmCode.Instruction.Decode
import TvmCode.Proofs.Slice

/-!
# Laws of decoders

The reads of a decoder in closed form (`Decoder.takeBits_apply`, `Decoder.ref_apply`, `Form.body_apply`), and a notion
that is kept by putting decoders one after the other, so that a decoder has it as soon as its reads do: a decoder is
orderly (`Decoder.Orderly`) when it takes from the front of its slice, and when the ends of the slice do not matter as
long as it succeeds. With any other ends that leave room for what it takes, it does the same, and with ends that do not
it fails for want of what they leave out. Instructions are decoded in an orderly way (`Instr.orderly_decode`).

A number that a decoder shows, or asks for in vain, is written if it is below a power of ten (`Text.writable_iff`).
-/

namespace TvmCode

/-! ## Numbers that are written -/

namespace Text

theorem writable_iff {n : Int} : Writable n ↔ n.natAbs < 10 ^ maxDecimalDigits :=
  Nat.length_toDigits_le_iff (by decide) (by decide)

/-- A binary numeral of so many digits stands for an integer that has at most as many in decimal. -/
theorem writable_of_lt {n : Int} {k : Nat} (hk : k ≤ maxDecimalDigits) (h : n.natAbs < 2 ^ k) : Writable n := by
  have hbase : 2 ^ k ≤ 10 ^ k := Nat.pow_le_pow_left (by decide) k
  have hdigits : 10 ^ k ≤ 10 ^ maxDecimalDigits := Nat.pow_le_pow_right (by decide) hk
  exact writable_iff.mpr (Nat.lt_of_lt_of_le h (Nat.le_trans hbase hdigits))

/-- The least number with too many digits. -/
theorem not_writable_pow : ¬Writable (10 ^ maxDecimalDigits) := by
  rw [writable_iff, Int.natAbs_pow, show (10 : Int).natAbs = 10 from rfl]
  exact Nat.lt_irrefl _

end Text

/-! ## Reads -/

namespace Decoder

variable {α β : Type}

theorem bind_apply (d : Decoder α) (f : α → Decoder β) (c : Cursor) :
    (d >>= f) c = match d c with
      | .ok a k => f a k
      | .error e k => .error e k := by
  show EStateM.bind d f c = _
  unfold EStateM.bind
  cases d c <;> rfl

/-- Takes `width` bits, and looks at them in a given way. -/
def takeBits (look : Slice → Nat → α) (width : Int) : Decoder α :=
  take fun s => (s.requireBits width).map fun w => (look s w, s.dropBits w)

theorem nat_eq (width : Int) : nat width = takeBits (fun s w => s.cell.bitsAt s.bitPos w) width := rfl

theorem int_eq (width : Int) :
    int width = takeBits (fun s w => Slice.signed (s.cell.bitsAt s.bitPos w) w) width := rfl

theorem bits_eq (width : Int) : bits width = takeBits Slice.front width := rfl

theorem takeBits_apply (look : Slice → Nat → α) (width : Int) (c : Cursor) :
    takeBits look width c =
      if 0 ≤ width ∧ c.slice.bitPos + width.toNat ≤ c.slice.bitEnd then
        .ok (look c.slice width.toNat) { c with slice := c.slice.dropBits width.toNat }
      else .error (.short c.slice.bitPos width .bits) c := by
  simp only [takeBits, take, Slice.requireBits]
  by_cases h : width < 0 ∨ (c.slice.bitEnd : Int) < c.slice.bitPos + width
  · rw [if_pos h, if_neg (by omega)]
    rfl
  · rw [if_neg h, if_pos (by omega)]
    rfl

/-- Bits that are looked at in a further way. -/
theorem takeBits_map (look : Slice → Nat → α) (width : Int) (g : α → β) :
    takeBits (fun s w => g (look s w)) width = do return g (← takeBits look width) := by
  funext c
  rw [bind_apply, takeBits_apply, takeBits_apply]
  split <;> rfl

/-- An integer is read as the number of its bits. -/
theorem int_eq_map (width : Int) : int width = do return Slice.signed (← nat width) width.toNat := by
  funext c
  rw [int_eq, nat_eq, bind_apply, takeBits_apply, takeBits_apply]
  split <;> rfl

theorem ref_apply (c : Cursor) :
    ref c = if c.slice.refPos < c.slice.refEnd then
        .ok (c.slice.cell.refs.getD c.slice.refPos default) { c with slice := c.slice.dropRefs 1 }
      else .error (.underflow c.slice.bitPos 1 .refs) c := by
  simp only [ref, take, Slice.descend, Slice.requireRef]
  by_cases h : (0 : Int) < 0 ∨ (c.slice.refEnd : Int) ≤ c.slice.refPos + 0
  · rw [if_pos h, if_neg (by omega)]
    rfl
  · rw [if_neg h, if_pos (by omega)]
    rfl

/-- The next bits of a sound slice as a number. -/
theorem nat_apply {s : Slice} (hs : s.Sound) {width : Nat} (h : width ≤ s.remainingBits) (notes : List Note) :
    nat width ⟨s, notes⟩ = .ok (natOfBits (s.bits.take width)) ⟨s.dropBits width, notes⟩ := by
  have hpos := hs.valid.1
  have hroom : (0 : Int) ≤ width ∧ s.bitPos + width ≤ s.bitEnd := by
    unfold Slice.remainingBits at h
    omega
  rw [nat_eq, takeBits_apply, Int.toNat_natCast, if_pos hroom, Slice.bitsAt_eq hs h]

/-- More bits are asked for than are left, and nothing is taken. -/
theorem nat_apply_of_lt {s : Slice} (hs : s.Sound) {width : Nat} (h : s.remainingBits < width) (notes : List Note) :
    nat width ⟨s, notes⟩ = .error (.short s.bitPos width .bits) ⟨s, notes⟩ := by
  have hpos := hs.valid.1
  unfold Slice.remainingBits at h
  rw [nat_eq, takeBits_apply, Int.toNat_natCast, if_neg (by simp only; omega)]

/-- The next bits of a sound slice as a slice. -/
theorem bits_apply {s : Slice} (hs : s.Sound) {width : Nat} (h : width ≤ s.remainingBits) (notes : List Note) :
    bits width ⟨s, notes⟩ = .ok (s.front width) ⟨s.dropBits width, notes⟩ := by
  have hpos := hs.valid.1
  have hroom : (0 : Int) ≤ width ∧ s.bitPos + width ≤ s.bitEnd := by
    unfold Slice.remainingBits at h
    omega
  rw [bits_eq, takeBits_apply, Int.toNat_natCast, if_pos hroom]

end Decoder

theorem Form.body_apply (nested : Nested) (code : Slice) (continuing : Bool) (c : Cursor) :
    Form.body nested code continuing c =
      match (nested code continuing).text with
      | .ok text => .ok text { c with notes := c.notes ++ (nested code continuing).notes }
      | .error f => .error f { c with notes := c.notes ++ (nested code continuing).notes } := by
  cases h : (nested code continuing).text <;> simp only [Form.body, h] <;> rfl

theorem Template.shown_apply (text : Template) (values : List Int) (c : Cursor) :
    text.shown values c =
      match text.fill values with
      | some line => .ok line c
      | none => .error .tooManyDigits c := by
  unfold shown
  cases text.fill values <;> rfl

/-- The block of a continuation that is made of references and of bytes within the instruction. -/
def Form.inlineBlock (nested : Nested) (name : String) (refs size : Nat) : Decoder (Option String) := do
  let parts ← refBodies nested refs
  let last ← body nested (← Decoder.bits (8 * size : Nat)) false
  return some (withBlocks name [String.join parts ++ last])

theorem Form.decode_inlineBody (nested : Nested) (name : String) (refBits sizeBits : Nat) :
    Form.decode nested (.inlineBody name refBits sizeBits) =
      (do inlineBlock nested name (← Decoder.nat refBits) (← Decoder.nat sizeBits)) := rfl

/-- A block of bytes within the code and of no references. -/
theorem Form.inlineBlock_apply (nested : Nested) (name : String) {s : Slice} (hs : s.Sound) {n : Nat}
    (h : 8 * n ≤ s.remainingBits) (notes : List Note) :
    inlineBlock nested name 0 n ⟨s, notes⟩ =
      match nested (s.front (8 * n)) false with
      | ⟨.ok text, more⟩ => .ok (some (withBlocks name ["" ++ text])) ⟨s.dropBits (8 * n), notes ++ more⟩
      | ⟨.error f, more⟩ => .error f ⟨s.dropBits (8 * n), notes ++ more⟩ := by
  show (do return some (withBlocks name ["" ++ (← body nested (← Decoder.bits (8 * n : Nat)) false)]) :
    Decoder (Option String)) ⟨s, notes⟩ = _
  rw [Decoder.bind_apply, Decoder.bits_apply hs h]
  simp only [Decoder.bind_apply, body_apply]
  obtain ⟨text, more⟩ := nested (s.front (8 * n)) false
  cases text <;> rfl

/-- What a byte selects is one of the choices. -/
theorem Form.mem_of_lookup {choices : List (Nat × Template × List Operand)} {key : Nat}
    {choice : Template × List Operand} (h : choices.lookup key = some choice) : (key, choice) ∈ choices := by
  obtain ⟨before, after, rfl, -⟩ := List.lookup_eq_some_iff.mp h
  simp

/-! ## Orderly decoders -/

/-- The cursor over a window with other ends. -/
def Cursor.withEnds (c : Cursor) (bitEnd refEnd : Nat) : Cursor := { c with slice := c.slice.withEnds bitEnd refEnd }

/-- What has been taken lies in part behind the given ends. -/
def Slice.Beyond (t : Slice) (bitEnd refEnd : Nat) : Supply → Prop
  | .bits => bitEnd < t.bitPos
  | .refs => refEnd < t.refPos

theorem Slice.Advance.beyond {s t : Slice} (h : s.Advance t) {bitEnd refEnd : Nat} {kind : Supply}
    (hs : s.Beyond bitEnd refEnd kind) : t.Beyond bitEnd refEnd kind := by
  cases kind with
  | bits => exact Nat.lt_of_lt_of_le hs h.bitPos_le
  | refs => exact Nat.lt_of_lt_of_le hs h.refPos_le

theorem Slice.Beyond.elim {t : Slice} {bitEnd refEnd : Nat} {kind : Supply} {p : Prop}
    (h : t.Beyond bitEnd refEnd kind) (hbits : t.bitPos ≤ bitEnd) (hrefs : t.refPos ≤ refEnd) : p := by
  cases kind with
  | bits => exact absurd h (Nat.not_lt.mpr hbits)
  | refs => exact absurd h (Nat.not_lt.mpr hrefs)

/-- A decoder takes from the front of its slice, does the same whatever the ends of the slice are, if they leave room
for what it takes, and fails for want of bits or references that other ends leave out. -/
structure Decoder.Orderly {α : Type} (d : Decoder α) : Prop where
  advance {c : Cursor} {a : α} {k : Cursor} (h : d c = .ok a k) : c.slice.Advance k.slice
  ends {c : Cursor} {a : α} {k : Cursor} {bitEnd refEnd : Nat} (h : d c = .ok a k) (hbits : k.slice.bitPos ≤ bitEnd)
    (hrefs : k.slice.refPos ≤ refEnd) : d (c.withEnds bitEnd refEnd) = .ok a (k.withEnds bitEnd refEnd)
  short {c : Cursor} {a : α} {k : Cursor} {bitEnd refEnd : Nat} {kind : Supply} (h : d c = .ok a k)
    (hbits : c.slice.bitPos ≤ bitEnd) (hrefs : c.slice.refPos ≤ refEnd) (hout : k.slice.Beyond bitEnd refEnd kind) :
    ∃ offset width lacking k', d (c.withEnds bitEnd refEnd) = .error (.short offset width lacking) k' ∧
      k.slice.Beyond bitEnd refEnd lacking

namespace Decoder.Orderly

variable {α β : Type}

theorem pure (a : α) : Orderly (pure a : Decoder α) where
  advance h := by cases h; exact Slice.Advance.refl _
  ends h _ _ := by cases h; rfl
  short h hbits hrefs hout := by cases h; exact hout.elim hbits hrefs

theorem throw (f : Fault) : Orderly (throw f : Decoder α) where
  advance h := by cases h
  ends h _ _ := by cases h
  short h _ _ _ := by cases h

theorem bind {d : Decoder α} {f : α → Decoder β} (hd : Orderly d) (hf : ∀ a, Orderly (f a)) : Orderly (d >>= f) where
  advance {c b k} h := by
    rw [bind_apply] at h
    cases hdc : d c with
    | error e k₁ => rw [hdc] at h; cases h
    | ok a k₁ =>
      rw [hdc] at h
      exact (hd.advance hdc).trans ((hf a).advance h)
  ends {c b k bitEnd refEnd} h hbits hrefs := by
    rw [bind_apply] at h ⊢
    cases hdc : d c with
    | error e k₁ => rw [hdc] at h; cases h
    | ok a k₁ =>
      rw [hdc] at h
      -- what the second part leaves lies behind what the first part leaves
      have hadv := (hf a).advance h
      rw [hd.ends hdc (Nat.le_trans hadv.bitPos_le hbits) (Nat.le_trans hadv.refPos_le hrefs)]
      exact (hf a).ends h hbits hrefs
  short {c b k bitEnd refEnd kind} h hbits hrefs hout := by
    rw [bind_apply] at h ⊢
    cases hdc : d c with
    | error e k₁ => rw [hdc] at h; cases h
    | ok a k₁ =>
      rw [hdc] at h
      -- the first part fails if it goes beyond the ends already, and otherwise the second part does
      by_cases hfirst : ∃ lacking, k₁.slice.Beyond bitEnd refEnd lacking
      · obtain ⟨lacking, hfirst⟩ := hfirst
        obtain ⟨offset, width, lacking, k', hfail, hlack⟩ := hd.short hdc hbits hrefs hfirst
        rw [hfail]
        exact ⟨offset, width, lacking, k', rfl, ((hf a).advance h).beyond hlack⟩
      · have hb : k₁.slice.bitPos ≤ bitEnd := Nat.not_lt.mp fun hlt => hfirst ⟨.bits, hlt⟩
        have hr : k₁.slice.refPos ≤ refEnd := Nat.not_lt.mp fun hlt => hfirst ⟨.refs, hlt⟩
        rw [hd.ends hdc hb hr]
        exact (hf a).short h hb hr hout

theorem takeBits {look : Slice → Nat → α} (hlook : ∀ s e r w, look (s.withEnds e r) w = look s w) (width : Int) :
    Orderly (takeBits look width) where
  advance {c a k} h := by
    rw [takeBits_apply] at h
    split at h
    · cases h
      exact Slice.Advance.dropBits (by unfold Slice.remainingBits; omega)
    · cases h
  ends {c a k bitEnd refEnd} h hbits hrefs := by
    rw [takeBits_apply] at h ⊢
    split at h
    · rename_i hroom
      cases h
      rw [if_pos ⟨hroom.1, hbits⟩]
      simp only [Cursor.withEnds, hlook, Slice.dropBits_withEnds]
    · cases h
  short {c a k bitEnd refEnd kind} h hbits hrefs hout := by
    rw [takeBits_apply] at h ⊢
    split at h
    · cases h
      cases kind with
      | bits => exact ⟨_, _, .bits, _, if_neg fun hroom => Nat.not_le.mpr hout hroom.2, hout⟩
      | refs => exact absurd hout (Nat.not_lt.mpr hrefs)
    · cases h

theorem nat (width : Int) : Orderly (nat width) := by
  rw [nat_eq]
  exact takeBits (fun _ _ _ _ => rfl) width

theorem int (width : Int) : Orderly (int width) := by
  rw [int_eq]
  exact takeBits (fun _ _ _ _ => rfl) width

theorem bits (width : Int) : Orderly (bits width) := by
  rw [bits_eq]
  exact takeBits (fun _ _ _ _ => rfl) width

theorem ref : Orderly ref where
  advance {c a k} h := by
    rw [ref_apply] at h
    split at h
    · cases h
      exact Slice.Advance.dropRefs (by unfold Slice.remainingRefs; omega)
    · cases h
  ends {c a k bitEnd refEnd} h hbits hrefs := by
    rw [ref_apply] at h ⊢
    split at h
    · cases h
      rw [if_pos (show (c.withEnds bitEnd refEnd).slice.refPos < (c.withEnds bitEnd refEnd).slice.refEnd from hrefs)]
      rfl
    · cases h
  short {c a k bitEnd refEnd kind} h hbits hrefs hout := by
    rw [ref_apply] at h ⊢
    split at h
    · cases h
      cases kind with
      | bits => exact absurd hout (Nat.not_lt.mpr hbits)
      | refs => exact ⟨_, 1, .refs, _, if_neg fun hroom => Nat.not_le.mpr hout hroom, hout⟩
    · cases h

theorem body (nested : Nested) (code : Slice) (continuing : Bool) : Orderly (Form.body nested code continuing) where
  advance {c a k} h := by
    rw [Form.body_apply] at h
    split at h <;> cases h
    exact Slice.Advance.refl _
  ends {c a k bitEnd refEnd} h _ _ := by
    rw [Form.body_apply] at h ⊢
    split at h
    · cases h; rfl
    · cases h
  short {c a k bitEnd refEnd kind} h hbits hrefs hout := by
    rw [Form.body_apply] at h
    split at h <;> cases h
    exact hout.elim hbits hrefs

theorem each {decode : α → Decoder β} (h : ∀ a, Orderly (decode a)) : ∀ as, Orderly (each decode as)
  | [] => pure _
  | a :: as => bind (h a) fun _ => bind (each h as) fun _ => pure _

theorem refs : ∀ count, Orderly (refs count)
  | 0 => pure _
  | count + 1 => bind ref fun _ => bind (refs count) fun _ => pure _

theorem refBodies (nested : Nested) : ∀ count, Orderly (Form.refBodies nested count)
  | 0 => pure _
  | count + 1 => bind ref fun _ => bind (body nested _ true) fun _ => bind (refBodies nested count) fun _ => pure _

theorem bigInt : Orderly bigInt := bind (nat 8) fun _ => bind (nat _) fun _ => pure _

theorem operand (f : Operand) : Orderly f.read := by
  unfold Operand.read
  split
  · exact bind (int _) fun _ => pure _
  · exact bind (bind (nat _) fun _ => pure _) fun _ => pure _

theorem shown (text : Template) (values : List Int) : Orderly (text.shown values) := by
  unfold Template.shown
  split
  · exact pure _
  · exact throw _

theorem check (op : Opcode) : Orderly op.check := by
  refine bind (nat _) fun n => ?_
  split
  · exact pure _
  · exact throw _

end Decoder.Orderly

/-- What follows the opcode of an instruction is decoded in an orderly way. -/
theorem Form.orderly_decode (nested : Nested) (f : Form) : (f.decode nested).Orderly := by
  cases f with
  | line text operands refs =>
    exact .bind (.each .operand _) fun _ => .bind (.refs _) fun _ => .bind (.shown text _) fun _ => .pure _
  | blocks text operands refs =>
    exact .bind (.each .operand _) fun _ => .bind (.shown text _) fun _ => .bind (.refs _) fun _ =>
      .bind (.each (fun _ => .body nested _ true) _) fun _ => .pure _
  | register zero other => exact .bind (.nat 4) fun _ => .pure _
  | smallInt name => exact .bind (.nat 4) fun _ => .pure _
  | bigInt name => exact .bind .bigInt fun _ => .pure _
  | literal lead reserved size extra =>
    refine .bind (.nat _) fun r => .bind (.nat _) fun n => ?_
    split
    · exact .bind (.bits _) fun _ => .pure _
    · exact .pure _
  | inlineBody name refBits sizeBits =>
    exact .bind (.nat _) fun _ => .bind (.nat _) fun _ => .bind (.refBodies nested _) fun _ =>
      .bind (.bits _) fun _ => .bind (.body nested _ false) fun _ => .pure _
  | select choices =>
    refine .bind (.nat 8) fun key => ?_
    split
    · exact .bind (.each .operand _) fun _ => .bind (.shown _ _) fun _ => .pure _
    · exact .pure _
  | debugText =>
    refine .bind (.nat 4) fun n => .bind (.nat 8) fun mode => ?_
    split
    · exact .pure _
    · exact .pure _
    · exact .bind (.bits _) fun _ => .pure _
    · exact .bind (.bits _) fun _ => .pure _
    · exact .pure _

/-- Instructions are decoded in an orderly way. -/
theorem Instr.orderly_decode (nested : Nested) (i : Instr) : (i.decode nested).Orderly :=
  .bind (.each .check _) fun _ => i.form.orderly_decode nested

end TvmCode
