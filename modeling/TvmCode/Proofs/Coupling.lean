import TvmCode.Proofs.Decoder

/-!
# Runs of decoders side by side

A `Coupling` says which cursors, faults, parts of slices, cells and bodies of two runs belong together. Two decoders
go alongside (`Coupling.Alongside`) when from cursors that belong together they reach cursors that belong together,
with related results, or both fail with faults that belong together; a fault of the first run may also be excused,
and then nothing is asked of the second.

The forms of instructions are built from few reads and from the listings of continuations. When these go alongside
(`Coupling.Reads`), so does what follows the opcodes (`Coupling.Reads.form`), and so do whole instructions
(`Coupling.Reads.instr`): what is proved about two runs later on is a choice of a coupling and a check of its reads.
-/

namespace TvmCode

/-- What belongs together in two runs. -/
structure Coupling where
  cursors : Cursor → Cursor → Prop
  faults : Fault → Fault → Prop
  /-- The faults of the first run after which nothing is asked of the second. -/
  excused : Fault → Prop
  parts : Slice → Slice → Prop
  cells : Cell → Cell → Prop
  bodies : String → String → Prop

namespace Coupling

variable {α β α' β' : Type} {P : Coupling} {R : α → α' → Prop} {S : β → β' → Prop}

/-- Results that belong together. -/
def Agree (P : Coupling) (R : α → α' → Prop) :
    EStateM.Result Fault Cursor α → EStateM.Result Fault Cursor α' → Prop
  | .ok a k, .ok a' k' => R a a' ∧ P.cursors k k'
  | .error f k, .error f' k' => P.excused f ∨ (P.faults f f' ∧ P.cursors k k')
  | .error f _, .ok _ _ => P.excused f
  | .ok _ _, .error _ _ => False

/-- Where nothing is excused, results that belong together are both values or both faults. -/
theorem Agree.both {r : EStateM.Result Fault Cursor α} {r' : EStateM.Result Fault Cursor α'} (h : P.Agree R r r')
    (hnone : ∀ f, ¬P.excused f) :
    (∃ a a' k k', r = .ok a k ∧ r' = .ok a' k' ∧ R a a' ∧ P.cursors k k') ∨
      ∃ f f' k k', r = .error f k ∧ r' = .error f' k' ∧ P.faults f f' ∧ P.cursors k k' := by
  cases r with
  | ok a k =>
    cases r' with
    | ok a' k' => exact Or.inl ⟨a, a', k, k', rfl, rfl, h⟩
    | error f' k' => exact h.elim
  | error f k =>
    cases r' with
    | ok a' k' => exact absurd h (hnone f)
    | error f' k' => exact Or.inr ⟨f, f', k, k', rfl, rfl, h.resolve_left (hnone f)⟩

/-- Two decoders do what belongs together wherever they start together. -/
def Alongside (P : Coupling) (R : α → α' → Prop) (d : Decoder α) (d' : Decoder α') : Prop :=
  ∀ c c', P.cursors c c' → P.Agree R (d c) (d' c')

namespace Alongside

theorem pure {a : α} {a' : α'} (h : R a a') : P.Alongside R (pure a) (pure a') := fun _ _ hc => ⟨h, hc⟩

theorem throw {f f' : Fault} (h : P.faults f f') : P.Alongside R (throw f) (throw f') := fun _ _ hc => Or.inr ⟨h, hc⟩

theorem bind {d : Decoder α} {d' : Decoder α'} {f : α → Decoder β} {f' : α' → Decoder β'} (hd : P.Alongside R d d')
    (hf : ∀ a a', R a a' → P.Alongside S (f a) (f' a')) : P.Alongside S (d >>= f) (d' >>= f') := by
  intro c c' hc
  have h := hd c c' hc
  rw [Decoder.bind_apply, Decoder.bind_apply]
  cases hdc : d c with
  | ok a k =>
    cases hdc' : d' c' with
    | ok a' k' => rw [hdc, hdc'] at h; exact hf a a' h.1 k k' h.2
    | error e' k' => rw [hdc, hdc'] at h; exact h.elim
  | error e k =>
    cases hdc' : d' c' with
    | ok a' k' =>
      rw [hdc, hdc'] at h
      -- the second run may go on to any end after an excused fault
      show P.Agree S (.error e k) (f' a' k')
      cases f' a' k' with
      | ok b' l' => exact h
      | error e' l' => exact Or.inl h
    | error e' k' => rw [hdc, hdc'] at h; exact h

theorem mono {R' : α → α' → Prop} {d : Decoder α} {d' : Decoder α'} (h : P.Alongside R d d')
    (hR : ∀ a a', R a a' → R' a a') : P.Alongside R' d d' := by
  have hpure := bind h fun a a' ha => pure (P := P) (hR a a' ha)
  rwa [bind_pure, bind_pure] at hpure

theorem each {decode : α → Decoder β} {decode' : α' → Decoder β'}
    (h : ∀ a a', R a a' → P.Alongside S (decode a) (decode' a')) {as : List α} {as' : List α'}
    (has : List.Forall₂ R as as') :
    P.Alongside (List.Forall₂ S) (Decoder.each decode as) (Decoder.each decode' as') := by
  induction has with
  | nil => exact pure .nil
  | cons ha _ ih => exact bind (h _ _ ha) fun b b' hb => bind ih fun bs bs' hbs => pure (.cons hb hbs)

/-! Operands need no reads but that of numbers. -/

section Operands

variable (hnat : ∀ width, P.Alongside Eq (Decoder.nat width) (Decoder.nat width))

include hnat

theorem int (width : Int) : P.Alongside Eq (Decoder.int width) (Decoder.int width) := by
  rw [Decoder.int_eq_map]
  exact bind (hnat width) fun n n' hn => pure (by rw [hn])

theorem operand (f : Operand) : P.Alongside Eq f.read f.read := by
  unfold Operand.read
  split
  · exact bind (int hnat _) fun n n' hn => pure (by rw [hn])
  · exact bind (R := Eq) (bind (hnat _) fun n n' hn => pure (by rw [hn])) fun n n' hn => pure (by rw [hn])

theorem operands (fs : List Operand) :
    P.Alongside Eq (Decoder.each Operand.read fs) (Decoder.each Operand.read fs) :=
  (each (R := Eq) (fun f _ hf => hf ▸ operand hnat f) (List.forall₂_refl fs)).mono fun _ _ hvs =>
    List.forall₂_eq_eq_eq ▸ hvs

end Operands

/-- Texts are filled alongside if they can be filled for the same operands, and what comes of it belongs together. -/
theorem shown (hdigits : P.faults .tooManyDigits .tooManyDigits) {text text' : Template} {values values' : List Int}
    {L : String → String → Prop} (h : Option.Rel L (text.fill values) (text'.fill values')) :
    P.Alongside L (text.shown values) (text'.shown values') := by
  unfold Template.shown
  cases hl : text.fill values <;> cases hr : text'.fill values' <;> rw [hl, hr] at h <;> cases h
  · exact throw hdigits
  · exact pure ‹_›

end Alongside

/-- The reads of instructions and the listings of cells go alongside, parts that belong together look the same, and so
do numbers that cannot be shown. -/
structure Looks (P : Coupling) (nested nested' : Nested) : Prop where
  nat (width : Int) : P.Alongside Eq (Decoder.nat width) (Decoder.nat width)
  bits (width : Int) : P.Alongside P.parts (Decoder.bits width) (Decoder.bits width)
  ref : P.Alongside P.cells Decoder.ref Decoder.ref
  cell {c c' : Cell} (h : P.cells c c') :
    P.Alongside P.bodies (Form.body nested (Slice.ofCell c) true) (Form.body nested' (Slice.ofCell c') true)
  digits : P.faults .tooManyDigits .tooManyDigits
  hex {p p' : Slice} (h : P.parts p p') : p.toHex = p'.toHex
  plain {p p' : Slice} (h : P.parts p p') : p.trimMarker.toHex = p'.trimMarker.toHex

/-- The listings of parts go alongside, too, so that all continuations do. -/
structure Reads (P : Coupling) (nested nested' : Nested) : Prop extends Looks P nested nested' where
  part {p p' : Slice} (h : P.parts p p') :
    P.Alongside P.bodies (Form.body nested p false) (Form.body nested' p' false)
  join {ts us : List String} {t u : String} (hs : List.Forall₂ P.bodies ts us) (h : P.bodies t u) :
    P.bodies (String.join ts ++ t) (String.join us ++ u)

end Coupling

/-- The texts that a form can show apart from its blocks. -/
def Form.Shows : Form → String → Prop
  | .line text _ _, e => ∃ values, text.fill values = some e
  | .blocks text _ _, e => ∃ values, text.fill values = some e
  | .register zero other, e => e = zero ∨ ∃ i : Nat, e = other ++ toString i
  | .smallInt name, e => ∃ x : Int, e = name ++ toString x
  | .bigInt name, e => ∃ x : Int, e = name ++ toString x
  | .literal lead _ _ _, e => ∃ value width, e = lead ++ hexOfBits value width
  | .inlineBody name _ _, e => e = name
  | .select choices, e => ∃ key text operands values,
      (key, text, operands) ∈ choices ∧ Template.fill text values = some e
  | .debugText, e => e = "LOGFLUSH" ∨ ∃ value width,
      e = "LOGSTR " ++ hexOfBits value width ∨ e = "PRINTSTR " ++ hexOfBits value width

namespace Coupling.Looks

variable {P : Coupling} {nested nested' : Nested} (h : P.Looks nested nested')

include h

theorem refs : ∀ count, P.Alongside (List.Forall₂ P.cells) (Decoder.refs count) (Decoder.refs count)
  | 0 => .pure .nil
  | count + 1 => .bind h.ref fun _ _ hc => .bind (refs count) fun _ _ hcs => .pure (.cons hc hcs)

theorem refBodies : ∀ count,
    P.Alongside (List.Forall₂ P.bodies) (Form.refBodies nested count) (Form.refBodies nested' count)
  | 0 => .pure .nil
  | count + 1 => .bind h.ref fun _ _ hc => .bind (h.cell hc) fun _ _ ht => .bind (refBodies count) fun _ _ hts =>
    .pure (.cons ht hts)

/-- A text is filled with the same operands. -/
theorem shown (text : Template) (values : List Int) :
    P.Alongside (fun e e' => e = e' ∧ text.fill values = some e) (text.shown values) (text.shown values) := by
  refine .shown h.digits ?_
  cases hfill : text.fill values with
  | none => exact .none
  | some e => exact .some ⟨rfl, rfl⟩

theorem bigInt : P.Alongside Eq Decoder.bigInt Decoder.bigInt := by
  refine .bind (h.nat 8) fun n n' hn => ?_
  subst hn
  exact .bind (h.nat _) fun m m' hm => .pure (by rw [hm])

/-- What follows the opcodes of an instruction goes alongside, if a continuation within the instruction itself does. -/
theorem form (f : Form) {L : String → String → Prop} (hline : ∀ e, f.Shows e → L e e)
    (hblocks : ∀ head ts us, f.Shows head → List.Forall₂ P.bodies ts us →
      L (Form.withBlocks head ts) (Form.withBlocks head us))
    (hinline : ∀ name refBits sizeBits, f = .inlineBody name refBits sizeBits →
      P.Alongside (Option.Rel L) (f.decode nested) (f.decode nested')) :
    P.Alongside (Option.Rel L) (f.decode nested) (f.decode nested') := by
  cases f with
  | line text operands refs =>
    refine .bind (.operands h.nat operands) fun vs vs' hvs => .bind (h.refs refs) fun _ _ _ => ?_
    subst hvs
    refine .bind (h.shown text vs) fun e e' he => .pure (.some ?_)
    exact he.1 ▸ hline e ⟨vs, he.2⟩
  | blocks text operands refs =>
    refine .bind (.operands h.nat operands) fun vs vs' hvs => ?_
    subst hvs
    refine .bind (h.shown text vs) fun e e' he => .bind (h.refs refs) fun cs cs' hcs =>
      .bind (.each (fun _ _ hc => h.cell hc) hcs) fun ts us htu => .pure (.some ?_)
    exact he.1 ▸ hblocks e _ _ ⟨vs, he.2⟩ htu
  | register zero other =>
    refine .bind (h.nat 4) fun i i' hi => .pure (.some ?_)
    subst hi
    refine hline _ ?_
    split
    · exact Or.inl rfl
    · exact Or.inr ⟨i, rfl⟩
  | smallInt name => exact .bind (h.nat 4) fun x x' hx => .pure (.some (hx ▸ hline _ ⟨_, rfl⟩))
  | bigInt name => exact .bind h.bigInt fun x x' hx => .pure (.some (hx ▸ hline _ ⟨_, rfl⟩))
  | literal lead reserved size extra =>
    refine .bind (h.nat _) fun r r' hr => .bind (h.nat _) fun n n' hn => ?_
    subst hr hn
    split
    · exact .bind (h.bits _) fun p p' hp => .pure (.some (h.plain hp ▸ hline _ ⟨_, _, rfl⟩))
    · exact .pure .none
  | inlineBody name refBits sizeBits => exact hinline name refBits sizeBits rfl
  | select choices =>
    refine .bind (h.nat 8) fun key key' hkey => ?_
    subst hkey
    cases hlook : choices.lookup key with
    | none => exact .pure .none
    | some choice =>
      obtain ⟨text, operands⟩ := choice
      refine .bind (.operands h.nat operands) fun vs vs' hvs => ?_
      subst hvs
      refine .bind (h.shown text vs) fun e e' he => .pure (.some ?_)
      exact he.1 ▸ hline e ⟨key, text, operands, vs, Form.mem_of_lookup hlook, he.2⟩
  | debugText =>
    refine .bind (h.nat 4) fun n n' hn => .bind (h.nat 8) fun mode mode' hmode => ?_
    subst hn hmode
    split
    · exact .pure (.some (hline _ (Or.inl rfl)))
    · exact .pure .none
    · exact .bind (h.bits _) fun p p' hp => .pure (.some (h.hex hp ▸ hline _ (Or.inr ⟨_, _, Or.inl rfl⟩)))
    · exact .bind (h.bits _) fun p p' hp => .pure (.some (h.hex hp ▸ hline _ (Or.inr ⟨_, _, Or.inr rfl⟩)))
    · exact .pure .none

theorem opcode (hf : ∀ f, P.faults f f) (op : Opcode) : P.Alongside Eq op.check op.check := by
  refine .bind (h.nat _) fun n n' hn => ?_
  subst hn
  split
  · exact .pure rfl
  · exact .throw (hf _)

end Coupling.Looks

namespace Coupling.Reads

variable {P : Coupling} {nested nested' : Nested} (h : P.Reads nested nested')

include h

/-- A continuation of references and of bits within the instruction goes alongside. -/
theorem inlineBlock (name : String) (refs size : Nat) {L : String → String → Prop}
    (hblocks : ∀ ts us, List.Forall₂ P.bodies ts us → L (Form.withBlocks name ts) (Form.withBlocks name us)) :
    P.Alongside (Option.Rel L) (Form.inlineBlock nested name refs size) (Form.inlineBlock nested' name refs size) :=
  .bind (h.refBodies refs) fun _ _ hts => .bind (h.bits _) fun _ _ hp => .bind (h.part hp) fun _ _ ht =>
    .pure (.some (hblocks _ _ (.cons (h.join hts ht) .nil)))

/-- What follows the opcodes of an instruction goes alongside. -/
theorem form (f : Form) {L : String → String → Prop} (hline : ∀ e, f.Shows e → L e e)
    (hblocks : ∀ head ts us, f.Shows head → List.Forall₂ P.bodies ts us →
      L (Form.withBlocks head ts) (Form.withBlocks head us)) :
    P.Alongside (Option.Rel L) (f.decode nested) (f.decode nested') := by
  refine h.toLooks.form f hline hblocks ?_
  rintro name refBits sizeBits rfl
  rw [Form.decode_inlineBody, Form.decode_inlineBody]
  refine .bind (h.nat _) fun r r' hr => .bind (h.nat _) fun n n' hn => ?_
  subst hr hn
  exact h.inlineBlock name r n fun ts us htu => hblocks name ts us rfl htu

/-- Whole instructions go alongside, if every fault belongs to itself. -/
theorem instr (hf : ∀ f, P.faults f f) (i : Instr) {L : String → String → Prop}
    (hline : ∀ e, i.form.Shows e → L e e)
    (hblocks : ∀ head ts us, i.form.Shows head → List.Forall₂ P.bodies ts us →
      L (Form.withBlocks head ts) (Form.withBlocks head us)) :
    P.Alongside (Option.Rel L) (i.decode nested) (i.decode nested') := by
  have hops : P.Alongside (List.Forall₂ Eq) (Decoder.each Opcode.check i.opcodes)
      (Decoder.each Opcode.check i.opcodes) :=
    .each (R := Eq) (fun op _ hop => hop ▸ h.opcode hf op) (List.forall₂_refl _)
  exact .bind hops fun _ _ _ => h.form i.form hline hblocks

end Coupling.Reads

end TvmCode
