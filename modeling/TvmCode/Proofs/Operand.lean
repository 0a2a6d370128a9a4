import TvmCode.Proofs.Builder
import TvmCode.Proofs.Decoder

/-!
# Operands are read as they are written

A decoder takes certain bits and gives a value (`Decoder.Takes`) when it does so wherever these bits are at the front of
a slice. It demands runs of bits (`Decoder.Demands`) when it takes them where there are enough, and where there are not
stops at the first run that is not there in full (`Decoder.CutOff`). Both notions are put together as decoders are.

An immediate operand has a width, a bias and perhaps a sign (`Immediate`). The bits of a value are taken as that value
(`Immediate.takes_read`), and so are the bits of values one after the other, whatever the operands are
(`Immediate.takes_each`). The texts in which the values are shown are read from texts with places for them
(`Template.ofText_text`). For whole instructions this is `Instr.line_reads_back`, where a value is shown only if it has
few enough digits (`Instr.line_of_many_digits`).
-/

namespace TvmCode

/-! ## Decoders and the bits they take -/

namespace Decoder

variable {α β : Type}

/-- A decoder takes these bits from the front of a slice and gives the value. -/
def Takes (d : Decoder α) (bits : List Bool) (a : α) : Prop :=
  ∀ (s : Slice) (notes : List Note), s.Sound → bits <+: s.bits → d ⟨s, notes⟩ = .ok a ⟨s.dropBits bits.length, notes⟩

/-- Runs of bits are asked for one after the other, and one of them, the first that is not there in full, in vain. -/
def CutOff (d : Decoder α) (widths : List Nat) (s : Slice) (notes : List Note) : Prop :=
  ∃ before width after, widths = before ++ width :: after ∧ before.sum ≤ s.remainingBits ∧
    s.remainingBits < before.sum + width ∧
    d ⟨s, notes⟩ = .error (.short (s.bitPos + before.sum) width .bits) ⟨s.dropBits before.sum, notes⟩

/-- A decoder takes so many bits from the front of a slice, one run of them after the other, and is cut off where there
are fewer altogether. -/
structure Demands (d : Decoder α) (widths : List Nat) : Prop where
  enough {s : Slice} (notes : List Note) (hs : s.Sound) (h : widths.sum ≤ s.remainingBits) :
    ∃ a, d ⟨s, notes⟩ = .ok a ⟨s.dropBits widths.sum, notes⟩
  short {s : Slice} (notes : List Note) (hs : s.Sound) (h : s.remainingBits < widths.sum) : d.CutOff widths s notes

end Decoder

theorem Slice.Sound.length_le_of_prefix {s : Slice} (hs : s.Sound) {bits : List Bool} (h : bits <+: s.bits) :
    bits.length ≤ s.remainingBits :=
  hs.length_bits ▸ h.length_le

namespace Decoder.Takes

variable {α β : Type} {d : Decoder α} {f : α → Decoder β} {xs ys : List Bool} {a : α} {b : β}

theorem pure (a : α) : Takes (pure a) [] a := fun _ _ _ _ => rfl

theorem bind (hd : Takes d xs a) (hf : Takes (f a) ys b) : Takes (d >>= f) (xs ++ ys) b := by
  intro s notes hs h
  have hfirst : xs <+: s.bits := (List.prefix_append xs ys).trans h
  have hrest : ys <+: (s.dropBits xs.length).bits := by
    obtain ⟨more, hbits⟩ := h
    rw [Slice.bits_dropBits, ← hbits, List.append_assoc, List.drop_left]
    exact List.prefix_append ys more
  rw [bind_apply, hd s notes hs hfirst]
  simp only [hf _ notes (hs.dropBits (hs.length_le_of_prefix hfirst)) hrest, Slice.dropBits_dropBits,
    List.length_append]

/-- A value that is looked at in some way. -/
theorem map (h : Takes d xs a) (g : α → β) : Takes (d >>= fun a => Pure.pure (g a)) xs (g a) := by
  rw [← List.append_nil xs]
  exact bind h (pure (g a))

theorem takeBits {look : Slice → Nat → α} {width : Int} (hlen : (xs.length : Int) = width)
    (hlook : ∀ s : Slice, s.Sound → xs <+: s.bits → look s xs.length = a) : Takes (takeBits look width) xs a := by
  intro s notes hs h
  have hroom := hs.length_le_of_prefix h
  have hpos := hs.valid.1
  unfold Slice.remainingBits at hroom
  rw [takeBits_apply, ← hlen, Int.toNat_natCast, if_pos (by simp only; omega), hlook s hs h]

theorem nat {width : Int} (hlen : (xs.length : Int) = width) : Takes (nat width) xs (natOfBits xs) := by
  rw [nat_eq]
  refine takeBits hlen fun s hs h => ?_
  rw [Slice.bitsAt_eq hs (hs.length_le_of_prefix h), (List.prefix_iff_eq_take.mp h).symm]

theorem int {width : Int} (hlen : (xs.length : Int) = width) :
    Takes (int width) xs (Slice.signed (natOfBits xs) xs.length) := by
  subst hlen
  have hread : Takes (Decoder.nat xs.length) xs (natOfBits xs) := nat rfl
  rw [int_eq_map, Int.toNat_natCast]
  exact hread.map fun n => Slice.signed n xs.length

end Decoder.Takes

namespace Decoder

variable {α β : Type} {d : Decoder α} {f : α → Decoder β} {ms ns : List Nat} {s : Slice} {notes : List Note}

/-- What comes first is cut off, and nothing comes after it. -/
theorem CutOff.bind (h : d.CutOff ms s notes) (ns : List Nat) : CutOff (d >>= f) (ms ++ ns) s notes := by
  obtain ⟨before, width, after, rfl, hroom, hlack, hfail⟩ := h
  refine ⟨before, width, after ++ ns, by simp, hroom, hlack, ?_⟩
  rw [bind_apply, hfail]

/-- What comes second is cut off. -/
theorem CutOff.after {a : α} (hroom : ms.sum ≤ s.remainingBits)
    (hd : d ⟨s, notes⟩ = .ok a ⟨s.dropBits ms.sum, notes⟩) (h : (f a).CutOff ns (s.dropBits ms.sum) notes) :
    CutOff (d >>= f) (ms ++ ns) s notes := by
  obtain ⟨before, width, after, rfl, hbefore, hlack, hfail⟩ := h
  rw [Slice.remainingBits_dropBits] at hbefore hlack
  refine ⟨ms ++ before, width, after, by simp, ?_, ?_, ?_⟩
  · rw [List.sum_append]
    omega
  · rw [List.sum_append]
    omega
  · simp only [bind_apply, hd, hfail, Slice.dropBits_dropBits, List.sum_append]
    rw [← Nat.add_assoc]
    rfl

namespace Demands

theorem pure (a : α) : Demands (pure a) [] where
  enough _ _ _ := ⟨a, rfl⟩
  short _ _ h := absurd h (Nat.not_lt_zero _)

theorem bind (hd : Demands d ms) (hf : ∀ a, Demands (f a) ns) : Demands (d >>= f) (ms ++ ns) where
  enough {s} notes hs h := by
    rw [List.sum_append] at h ⊢
    obtain ⟨a, ha⟩ := hd.enough notes hs (by omega)
    obtain ⟨b, hb⟩ := (hf a).enough notes (hs.dropBits (show ms.sum ≤ s.remainingBits by omega))
      (by rw [Slice.remainingBits_dropBits]; omega)
    exact ⟨b, by simp only [bind_apply, ha, hb, Slice.dropBits_dropBits]⟩
  short {s} notes hs h := by
    rw [List.sum_append] at h
    by_cases hroom : ms.sum ≤ s.remainingBits
    · obtain ⟨a, ha⟩ := hd.enough notes hs hroom
      exact .after hroom ha ((hf a).short notes (hs.dropBits hroom) (by rw [Slice.remainingBits_dropBits]; omega))
    · exact (hd.short notes hs (by omega)).bind ns

theorem map (hd : Demands d ms) (g : α → β) : Demands (d >>= fun a => Pure.pure (g a)) ms := by
  rw [← List.append_nil ms]
  exact bind hd fun a => pure (g a)

theorem takeBits (look : Slice → Nat → α) (n : Nat) : Demands (takeBits look n) [n] where
  enough {s} notes hs h := by
    have hpos := hs.valid.1
    rw [List.sum_singleton] at h ⊢
    unfold Slice.remainingBits at h
    exact ⟨look s n, by rw [takeBits_apply, Int.toNat_natCast, if_pos (by simp only; omega)]⟩
  short {s} notes hs h := by
    rw [List.sum_singleton] at h
    unfold Slice.remainingBits at h
    refine ⟨[], n, [], rfl, Nat.zero_le _, by rw [List.sum_nil]; unfold Slice.remainingBits; omega, ?_⟩
    rw [takeBits_apply, Int.toNat_natCast, if_neg (by simp only; omega)]
    rfl

theorem nat (n : Nat) : Demands (nat n) [n] := by
  rw [nat_eq]
  exact takeBits _ n

theorem int (n : Nat) : Demands (int n) [n] := by
  rw [int_eq]
  exact takeBits _ n

end Demands

end Decoder

/-! ## Opcodes -/

/-- The bits of an opcode pass its check. -/
theorem Opcode.takes_check {code width : Nat} (h : code < 2 ^ width) :
    (Opcode.check ⟨code, width⟩).Takes (bitsOfNat width code) () := by
  have hvalue : natOfBits (bitsOfNat width code) = code := by
    rw [natOfBits_bitsOfNat, Nat.mod_eq_of_lt h]
  rw [← List.append_nil (bitsOfNat width code)]
  refine .bind (.nat (by rw [length_bitsOfNat])) ?_
  rw [hvalue, if_pos rfl]
  exact .pure ()

/-! ## Immediate operands -/

/-- An immediate operand: its width, what is added to it when it is shown, and whether it has a sign. -/
structure Immediate where
  bits : Nat
  bias : Int
  signed : Bool

namespace Immediate

/-- The operand as it is read. -/
def operand (x : Immediate) : Operand := ⟨x.bits, x.bias, x.signed, 1⟩

/-- A value can be written: less the bias it is a number of the width, in two's complement if there is a sign. No bits
at all stand for zero. -/
def Fits (x : Immediate) (v : Int) : Prop :=
  if x.signed = true ∧ 0 < x.bits then -(2 ^ (x.bits - 1) : Nat) ≤ v - x.bias ∧ v - x.bias < (2 ^ (x.bits - 1) : Nat)
  else 0 ≤ v - x.bias ∧ v - x.bias < (2 ^ x.bits : Nat)

/-- The bits of a value. -/
def encode (x : Immediate) (v : Int) : List Bool := bitsOfNat x.bits ((v - x.bias) % (2 ^ x.bits : Nat)).toNat

/-- The bits of values one after the other. -/
def encodeAll : List Immediate → List Int → List Bool
  | x :: layout, v :: values => x.encode v ++ encodeAll layout values
  | _, _ => []

/-- The bits that operands take. -/
def total (layout : List Immediate) : Nat := (layout.map Immediate.bits).sum

theorem length_encode (x : Immediate) (v : Int) : (x.encode v).length = x.bits := length_bitsOfNat _ _

/-- The bits of a value stand for it. -/
theorem value_encode {x : Immediate} {v : Int} (h : x.Fits v) :
    (if x.signed then Slice.signed (natOfBits (x.encode v)) (x.encode v).length else (natOfBits (x.encode v) : Int)) =
      v - x.bias := by
  rw [length_encode, encode, natOfBits_bitsOfNat_emod]
  unfold Fits at h
  by_cases hsigned : x.signed = true ∧ 0 < x.bits
  · rw [if_pos hsigned] at h
    rw [if_pos hsigned.1, Slice.signed_mod hsigned.2 h.1 h.2]
  · rw [if_neg hsigned] at h
    have hvalue : (((v - x.bias) % (2 ^ x.bits : Nat)).toNat : Int) = v - x.bias := by
      rw [Int.emod_eq_of_lt h.1 h.2, Int.toNat_of_nonneg h.1]
    -- with a sign but no bits there is nothing to take the sign from
    split
    · rename_i hsign
      have hbits : ¬0 < x.bits := fun hpos => hsigned ⟨hsign, hpos⟩
      rw [Slice.signed, if_neg fun hneg => hbits hneg.1, hvalue]
    · exact hvalue

/-- The bits of a value are taken as that value. -/
theorem takes_read {x : Immediate} {v : Int} (h : x.Fits v) : x.operand.read.Takes (x.encode v) v := by
  have hlen : ((x.encode v).length : Int) = x.bits := by rw [length_encode]
  have hvalue := value_encode h
  have hshown : (1 : Int) * (v - x.bias) + x.bias = v := by omega
  unfold Operand.read operand
  split
  · rename_i hsign
    rw [if_pos hsign] at hvalue
    have hread := (Decoder.Takes.int hlen).map fun n => (1 : Int) * n + x.bias
    rwa [hvalue, hshown] at hread
  · rename_i hsign
    rw [if_neg hsign] at hvalue
    have hread := ((Decoder.Takes.nat hlen).map fun n => (n : Int)).map fun n => (1 : Int) * n + x.bias
    rwa [hvalue, hshown] at hread

theorem demands_read (x : Immediate) : x.operand.read.Demands [x.bits] := by
  unfold Operand.read operand
  split
  · exact (Decoder.Demands.int x.bits).map _
  · exact ((Decoder.Demands.nat x.bits).map _).map _

/-- **Values are taken from their bits** one after the other, whatever the operands are. -/
theorem takes_each {layout : List Immediate} {values : List Int} (h : List.Forall₂ Fits layout values) :
    (Decoder.each Operand.read (layout.map operand)).Takes (encodeAll layout values) values := by
  induction h with
  | nil => exact .pure []
  | @cons x v layout values hv _ ih => exact .bind (takes_read hv) (ih.map (v :: ·))

theorem demands_each :
    ∀ layout : List Immediate, (Decoder.each Operand.read (layout.map operand)).Demands (layout.map Immediate.bits)
  | [] => .pure []
  | x :: layout => .bind (demands_read x) fun v => (demands_each layout).map (v :: ·)

theorem length_encodeAll {layout : List Immediate} {values : List Int} (h : layout.length = values.length) :
    (encodeAll layout values).length = total layout := by
  induction layout generalizing values with
  | nil => rfl
  | cons x layout ih =>
    cases values with
    | nil => cases h
    | cons v values =>
      rw [encodeAll, List.length_append, length_encode, ih (by simpa using h)]
      rfl

end Immediate

/-! ## Texts with places -/

namespace Template

/-- A text in which every brace is written twice. -/
def escape (piece : List Char) : List Char := piece.flatMap fun c => if c = '\x7b' ∨ c = '\x7d' then [c, c] else [c]

/-- The text of a template: its pieces with a pair of braces for each place between them. -/
def text (head : String) (rest : List String) : String :=
  String.ofList (escape head.toList ++ rest.flatMap fun piece => '\x7b' :: '\x7d' :: escape piece.toList)

theorem pieces_brace {c : Char} (hc : c = '\x7b' ∨ c = '\x7d') (rest : List Char) :
    pieces (c :: c :: rest) = prepend c (pieces rest) := by
  have hpair : ¬(c = '\x7b' ∧ c = '\x7d') := by
    rintro ⟨rfl, h⟩
    exact absurd h (by decide)
  rw [pieces, if_neg hpair, if_pos ⟨rfl, hc⟩]

theorem pieces_plain {c : Char} (hc : ¬(c = '\x7b' ∨ c = '\x7d')) (rest : List Char) :
    pieces (c :: rest) = prepend c (pieces rest) := by
  cases rest with
  | nil => rfl
  | cons d rest => rw [pieces, if_neg fun h => hc (Or.inl h.1), if_neg fun h => hc h.2]

/-- A piece that is written out goes in front of the first of the pieces that follow. -/
theorem pieces_escape {rest : List Char} {first : List Char} {more : List (List Char)}
    (h : pieces rest = first :: more) (piece : List Char) :
    pieces (escape piece ++ rest) = (piece ++ first) :: more := by
  induction piece with
  | nil => exact h
  | cons c piece ih =>
    rw [escape, List.flatMap_cons, List.append_assoc, ← escape]
    split
    · rename_i hc
      rw [List.cons_append, List.cons_append, List.nil_append, pieces_brace hc, ih]
      rfl
    · rename_i hc
      rw [List.cons_append, List.nil_append, pieces_plain hc, ih]
      rfl

/-- The template of the text of a template is the template. -/
theorem ofText_text (head : String) (rest : List String) : ofText (text head rest) = head :: rest := by
  have hpieces : ∀ (head : String) (rest : List String),
      pieces (escape head.toList ++ rest.flatMap fun piece => '\x7b' :: '\x7d' :: escape piece.toList) =
        head.toList :: rest.map String.toList := by
    intro head rest
    induction rest generalizing head with
    | nil =>
      rw [List.flatMap_nil, pieces_escape (show pieces [] = [[]] from rfl), List.append_nil]
      rfl
    | cons piece rest ih =>
      have hplace : pieces ('\x7b' :: '\x7d' :: (escape piece.toList ++ rest.flatMap fun piece =>
          '\x7b' :: '\x7d' :: escape piece.toList)) = [] :: piece.toList :: rest.map String.toList := by
        rw [pieces, if_pos ⟨rfl, rfl⟩, ih piece]
      rw [List.flatMap_cons, List.cons_append, List.cons_append, pieces_escape hplace, List.append_nil]
      rfl
  rw [ofText, text, String.toList_ofList, hpieces]
  simp

/-- Each value stands in front of the piece after its place, unless one has too many digits. -/
theorem fillPlaces_eq {pieces : List String} {values : List Int} (h : pieces.length = values.length) :
    fillPlaces pieces values =
      if ∀ v ∈ values, Text.Writable v then
        some (String.join (List.zipWith (fun v piece => toString v ++ piece) values pieces))
      else none := by
  induction pieces generalizing values with
  | nil =>
    obtain rfl := List.length_eq_zero_iff.mp h.symm
    rfl
  | cons piece pieces ih =>
    cases values with
    | nil => cases h
    | cons v values =>
      rw [fillPlaces, ih (by simpa using h), Text.writeInt?]
      by_cases hv : Text.Writable v
      · by_cases hvs : ∀ v ∈ values, Text.Writable v
        · rw [if_pos hv, if_pos hvs, if_pos (List.forall_mem_cons.mpr ⟨hv, hvs⟩), List.zipWith_cons_cons,
            String.join_cons]
          rfl
        · rw [if_pos hv, if_neg hvs, if_neg fun hall => hvs (List.forall_mem_cons.mp hall).2]
          rfl
      · rw [if_neg hv, if_neg fun hall => hv (List.forall_mem_cons.mp hall).1]
        rfl

/-- A text with a place for each value is shown, unless one has too many digits. -/
theorem shown_places (head : String) {rest : List String} {values : List Int} (h : rest.length = values.length)
    (c : Cursor) :
    shown (head :: rest) values c =
      if ∀ v ∈ values, Text.Writable v then
        .ok (head ++ String.join (List.zipWith (fun v piece => toString v ++ piece) values rest)) c
      else .error .tooManyDigits c := by
  rw [shown_apply, fill, fillPlaces_eq h]
  by_cases hvalues : ∀ v ∈ values, Text.Writable v
  · rw [if_pos hvalues, if_pos hvalues]
    rfl
  · rw [if_neg hvalues, if_neg hvalues]
    rfl

end Template

/-! ## Instructions with operands -/

namespace Instr

/-- The check of the only opcode of an instruction. -/
theorem takes_opcode {code width : Nat} (h : code < 2 ^ width) :
    (Decoder.each Opcode.check [⟨code, width⟩]).Takes (bitsOfNat width code) [()] := by
  have hcheck := (Opcode.takes_check h).bind (f := fun u => Decoder.each Opcode.check [] >>= fun us => pure (u :: us))
    ((Decoder.Takes.pure []).map (() :: ·))
  rwa [List.append_nil] at hcheck

/-- The operands of a line are read behind its opcode, and shown in its text. -/
theorem decode_line (head : String) (rest : List String) (code width : Nat) (layout : List Immediate)
    (nested : Nested) :
    (line (Template.ofText (Template.text head rest)) code width (layout.map Immediate.operand)).decode nested =
      (Decoder.each Opcode.check [⟨code, width⟩] >>= fun _ => Decoder.each Operand.read (layout.map Immediate.operand))
        >>= fun values => Template.shown (head :: rest) values >>= fun shown => pure (some shown) := by
  rw [bind_assoc]
  simp only [line, Template.ofText_text]
  rfl

section Lines

variable (head : String) {rest : List String} {layout : List Immediate} {code width : Nat} (hcode : code < 2 ^ width)
  {s : Slice} (hs : s.Sound) (nested : Nested) (notes : List Note)

include hcode hs

/-- An instruction takes the bits of its opcode and its operands, and shows these in its text if they can be written. -/
theorem decode_line_of_fits (hplaces : rest.length = layout.length) {values : List Int}
    (hfits : List.Forall₂ Immediate.Fits layout values)
    (hbits : bitsOfNat width code ++ Immediate.encodeAll layout values <+: s.bits) :
    (line (Template.ofText (Template.text head rest)) code width (layout.map Immediate.operand)).decode nested
        ⟨s, notes⟩ =
      if ∀ v ∈ values, Text.Writable v then
        .ok (some (head ++ String.join (List.zipWith (fun v piece => toString v ++ piece) values rest)))
          ⟨s.dropBits (width + Immediate.total layout), notes⟩
      else .error .tooManyDigits ⟨s.dropBits (width + Immediate.total layout), notes⟩ := by
  have hlen := hfits.length_eq
  rw [decode_line, Decoder.bind_apply,
    (takes_opcode hcode).bind (f := fun _ => _) (Immediate.takes_each hfits) s notes hs hbits]
  simp only [Decoder.bind_apply, Template.shown_places head (hplaces.trans hlen), List.length_append,
    length_bitsOfNat, Immediate.length_encodeAll hlen]
  by_cases hvalues : ∀ v ∈ values, Text.Writable v
  · rw [if_pos hvalues, if_pos hvalues]
    rfl
  · rw [if_neg hvalues, if_neg hvalues]

/-- An instruction stops at the first operand that is not there in full. -/
theorem decode_line_of_missing (rest : List String) (hbits : bitsOfNat width code <+: s.bits)
    (hlack : s.remainingBits < width + Immediate.total layout) :
    ∃ before x after, layout = before ++ x :: after ∧ width + Immediate.total before ≤ s.remainingBits ∧
      s.remainingBits < width + Immediate.total before + x.bits ∧
      (line (Template.ofText (Template.text head rest)) code width (layout.map Immediate.operand)).decode nested
          ⟨s, notes⟩ =
        .error (.short (s.bitPos + (width + Immediate.total before)) x.bits .bits)
          ⟨s.dropBits (width + Immediate.total before), notes⟩ := by
  have hroom := hs.length_le_of_prefix hbits
  rw [length_bitsOfNat] at hroom
  unfold Immediate.total at hlack ⊢
  obtain ⟨before, _, _, hsplit, henough, hshort, hfail⟩ := (Immediate.demands_each layout).short notes
    (hs.dropBits hroom) (by rw [Slice.remainingBits_dropBits]; omega)
  -- the runs of bits are those of operands
  obtain ⟨first, more, rfl, rfl, hmore⟩ := List.map_eq_append_iff.mp hsplit
  obtain ⟨x, last, rfl, rfl, rfl⟩ := List.map_eq_cons_iff.mp hmore
  rw [Slice.remainingBits_dropBits] at henough hshort
  refine ⟨first, x, last, rfl, by omega, by omega, ?_⟩
  simp only [decode_line, Decoder.bind_apply, takes_opcode hcode s notes hs hbits, length_bitsOfNat, hfail,
    Slice.dropBits_dropBits]
  rw [← Nat.add_assoc s.bitPos]
  rfl

/-- The only operand is not there in full. -/
theorem decode_line_of_missing_only (rest : List String) {x : Immediate} (hbits : bitsOfNat width code <+: s.bits)
    (hlack : s.remainingBits < width + x.bits) :
    (line (Template.ofText (Template.text head rest)) code width [x.operand]).decode nested ⟨s, notes⟩ =
      .error (.short (s.bitPos + width) x.bits .bits) ⟨s.dropBits width, notes⟩ := by
  have htotal : s.remainingBits < width + Immediate.total [x] := hlack
  obtain ⟨before, x', after, hsplit, -, -, hfail⟩ := decode_line_of_missing head hcode hs nested notes rest hbits htotal
  cases before with
  | nil =>
    cases hsplit
    exact hfail
  | cons => simp at hsplit

end Lines

/-- **Operands are read back.** Let a text have one place for each of some operands, whatever these are. Where the
opcode of an instruction is followed by the bits of values, the instruction takes just these bits and no reference. It
shows the text with the values in decimal in their places, unless one of them has too many digits. Where fewer bits
follow the opcode, it runs out of bits at the first operand that is not there in full, with an underflow unless the
width of this operand has too many digits for the wording. -/
theorem line_reads_back (head : String) {rest : List String} {layout : List Immediate}
    (hplaces : rest.length = layout.length) {code width : Nat} (hcode : code < 2 ^ width) (nested : Nested) {s : Slice}
    (hs : s.Sound) (notes : List Note) :
    let i := Instr.line (Template.ofText (Template.text head rest)) code width (layout.map Immediate.operand)
    (∀ values, List.Forall₂ Immediate.Fits layout values →
      bitsOfNat width code ++ Immediate.encodeAll layout values <+: s.bits →
      i.decode nested ⟨s, notes⟩ =
        if ∀ v ∈ values, Text.Writable v then
          .ok (some (head ++ String.join (List.zipWith (fun v piece => toString v ++ piece) values rest)))
            ⟨s.dropBits (width + Immediate.total layout), notes⟩
        else .error .tooManyDigits ⟨s.dropBits (width + Immediate.total layout), notes⟩) ∧
    (bitsOfNat width code <+: s.bits → s.remainingBits < width + Immediate.total layout →
      ∃ before x after, layout = before ++ x :: after ∧ width + Immediate.total before ≤ s.remainingBits ∧
        s.remainingBits < width + Immediate.total before + x.bits ∧
        i.decode nested ⟨s, notes⟩ =
          .error (if Text.Writable x.bits then .underflow (s.bitPos + (width + Immediate.total before)) x.bits .bits
            else .tooManyDigits) ⟨s.dropBits (width + Immediate.total before), notes⟩) := by
  intro i
  constructor
  · intro values hfits hbits
    exact decode_line_of_fits head hcode hs nested notes hplaces hfits hbits
  · intro hbits hlack
    exact decode_line_of_missing head hcode hs nested notes rest hbits hlack

/-- Three operands, one of no bits and one negative, that begin within a byte; the text has a brace of its own. -/
theorem reads_back_three_operands :
    let layout : List Immediate := [⟨3, 1, false⟩, ⟨0, 5, true⟩, ⟨5, -2, true⟩]
    let i := Instr.line (Template.ofText "\x7b\x7b \x7b\x7d, \x7b\x7d \x7b\x7d") 5 4 (layout.map Immediate.operand)
    let nested : Nested := fun _ _ => ⟨.ok "", []⟩
    let s : Slice := ⟨⟨[0x2f, 0x80], 13, [], false⟩, 1, 13, 0, 0⟩
    let short : Slice := s.withEnds 12 0
    i.decode nested ⟨s, []⟩ = .ok (some "\x7b 8, 5 -18") ⟨s.dropBits 12, []⟩ ∧
      ∃ offset lacking k, i.decode nested ⟨short, []⟩ = .error (.underflow offset lacking .bits) k := by
  intro layout i nested s short
  have hcell : s.cell.WellFormed := .intro (by decide) (by decide) (by decide) nofun
  have hs : s.Sound := ⟨⟨by decide, by decide, by decide, by decide⟩, hcell⟩
  have hshort : short.Sound := ⟨⟨by decide, by decide, by decide, by decide⟩, hcell⟩
  have hfits : List.Forall₂ Immediate.Fits layout [8, 5, -18] := by
    simp [layout, Immediate.Fits]
  have htext : Template.text "\x7b " [", ", " ", ""] = "\x7b\x7b \x7b\x7d, \x7b\x7d \x7b\x7d" := by decide
  have hplaces : [", ", " ", ""].length = layout.length := rfl
  have hcode : 5 < 2 ^ 4 := by decide
  have hread := (line_reads_back "\x7b " hplaces hcode nested hs []).1 _ hfits (by decide)
  obtain ⟨before, x, after, hsplit, -, -, hlack⟩ :=
    (line_reads_back "\x7b " hplaces hcode nested hshort []).2 (by decide) (by decide)
  have hwritable : ∀ x ∈ layout, Text.Writable x.bits := by decide
  rw [htext, if_pos (by decide)] at hread
  rw [htext, if_pos (hwritable x (by simp [hsplit]))] at hlack
  exact ⟨hread, _, _, _, hlack⟩

/-- An operand of one bit with so great a bias that its value cannot be shown, and one of so great a width that the
wording of the underflow cannot show it. -/
theorem line_of_many_digits :
    let large : Int := 10 ^ Text.maxDecimalDigits
    let biased : Immediate := ⟨1, large - 1, false⟩
    let wide : Immediate := ⟨10 ^ Text.maxDecimalDigits, 0, false⟩
    let text : Template := Template.ofText "F \x7b\x7d"
    let nested : Nested := fun _ _ => ⟨.ok "", []⟩
    let s : Slice := .ofCell ⟨[0x20, 0x80], 9, [], false⟩
    let short : Slice := .ofCell ⟨[0x20], 8, [], false⟩
    (s.Sound ∧ biased.Fits large ∧ bitsOfNat 8 0x20 ++ biased.encode large <+: s.bits ∧
      (Instr.line text 0x20 8 [biased.operand]).decode nested ⟨s, []⟩ = .error .tooManyDigits ⟨s.dropBits 9, []⟩) ∧
    short.Sound ∧ bitsOfNat 8 0x20 <+: short.bits ∧ short.remainingBits < 8 + wide.bits ∧
      (Instr.line text 0x20 8 [wide.operand]).decode nested ⟨short, []⟩ =
        .error .tooManyDigits ⟨short.dropBits 8, []⟩ := by
  intro large biased wide text nested s short
  have hs : s.Sound := Slice.sound_ofCell (.intro (by decide) (by decide) (by decide) nofun)
  have hshort : short.Sound := Slice.sound_ofCell (.intro (by decide) (by decide) (by decide) nofun)
  have htext : Template.text "F " [""] = "F \x7b\x7d" := by decide
  have hcode : 0x20 < 2 ^ 8 := by decide
  have hone : large - biased.bias = 1 := Int.sub_sub_self large 1
  have hfits : biased.Fits large := by
    rw [Immediate.Fits, hone]
    exact ⟨by decide, by decide⟩
  have hbits : bitsOfNat 8 0x20 ++ biased.encode large <+: s.bits := by
    rw [Immediate.encode, hone]
    decide
  have hlack : short.remainingBits < 8 + wide.bits := Nat.lt_add_of_pos_right (Nat.pow_pos (by decide))
  have hall : List.Forall₂ Immediate.Fits [biased] [large] := .cons hfits .nil
  have hallBits : bitsOfNat 8 0x20 ++ Immediate.encodeAll [biased] [large] <+: s.bits := by
    rwa [show Immediate.encodeAll [biased] [large] = _ from List.append_nil _]
  have hplaces : [""].length = [biased].length := rfl
  have hread := decode_line_of_fits "F " hcode hs nested [] hplaces hall hallBits
  have hcut := decode_line_of_missing_only "F " hcode hshort nested [] [""] (by decide) hlack
  have hmany : ¬∀ v ∈ [large], Text.Writable v := fun h =>
    Text.not_writable_pow (h large (List.mem_singleton_self large))
  have hwide : ¬Text.Writable wide.bits := by
    rw [show (wide.bits : Int) = 10 ^ Text.maxDecimalDigits from Nat.cast_pow 10 _]
    exact Text.not_writable_pow
  rw [htext, if_neg hmany] at hread
  rw [htext, Fault.short_of_not_writable hwide] at hcut
  exact ⟨⟨hs, hfits, hbits, hread⟩, hshort, by decide, hlack, hcut⟩

end Instr

end TvmCode
