import TvmCode.Proofs.Slice

/-!
# What is stored is read back

A builder holds a string of bits and a list of references (`Builder.Holds`). Each store adds its own bits and references
at the end, and succeeds with a number only within the range of its width (`Store.holds_of_run`); the cell that is built
holds just what was added (`Builder.Holds.toCell_eq`). A read that matches a store takes the same bits or reference from
the front of a window and gives back what was stored (`Store.read_of_shows`): numbers without sign, integers through
two's complement (`Slice.signed_mod`), bytes, binary numerals (`Text.readInt_of_isBinary`) and cells. Over whole runs
this is `Store.readAll_toCell`.
-/

namespace TvmCode

/-! ## Binary numerals -/

namespace Text

/-- A text of zeros and ones. -/
def IsBinary (text : String) : Prop := ∀ c ∈ text.toList, c = '0' ∨ c = '1'

/-- The bits that a text of zeros and ones spells. -/
def binaryDigits (text : String) : List Bool := text.toList.map (· == '1')

theorem length_binaryDigits (text : String) : (binaryDigits text).length = text.length := by
  rw [binaryDigits, List.length_map, String.length_toList]

/-- Zeros and ones are digits. -/
theorem digitIn?_of_binary {c : Char} (h : c = '0' ∨ c = '1') : digitIn? 2 c = some (c == '1').toNat := by
  rcases h with rfl | rfl <;> decide

theorem trimChars_of_none {drop : Char → Bool} {cs : List Char} (h : ∀ c ∈ cs, drop c = false) :
    trimChars drop cs = cs := by
  have hkeep : ∀ {ds : List Char}, (∀ c ∈ ds, drop c = false) → ds.dropWhile drop = ds := by
    intro ds hds
    cases ds with
    | nil => rfl
    | cons d ds => rw [List.dropWhile_cons_of_neg (by simp [hds d])]
  have hback : ∀ c ∈ cs.reverse, drop c = false := by simpa using h
  rw [trimChars, hkeep h, hkeep hback, List.reverse_reverse]

theorem digitRun?_of_binary {cs : List Char} (h : ∀ c ∈ cs, c = '0' ∨ c = '1') (hne : cs ≠ []) :
    digitRun? 2 cs = some (cs.map fun c => (c == '1').toNat) := by
  induction cs with
  | nil => exact absurd rfl hne
  | cons c cs ih =>
    rw [List.forall_mem_cons] at h
    have hc := digitIn?_of_binary h.1
    cases cs with
    | nil => simp [digitRun?, hc]
    | cons d ds =>
      have hd : d ≠ '_' := by
        rcases h.2 d (by simp) with rfl | rfl <;> decide
      have hrest := ih h.2 (by simp)
      rw [digitRun?.eq_4 _ _ _ (by simp) (by simpa using hd), hc, hrest]
      rfl

theorem ofDigits_map_toNat (bits : List Bool) : ofDigits 2 (bits.map Bool.toNat) = natOfBits bits := by
  rw [ofDigits, natOfBits, List.foldl_map]
  simp only [Nat.mul_comm]

theorem binary?_of_binary {cs : List Char} (h : ∀ c ∈ cs, c = '0' ∨ c = '1') (hne : cs ≠ []) :
    binary? cs = some (natOfBits (cs.map (· == '1'))) := by
  have hrun : (digitRun? 2 cs).map (ofDigits 2) = some (natOfBits (cs.map (· == '1'))) := by
    rw [digitRun?_of_binary h hne, ← ofDigits_map_toNat, List.map_map]
    rfl
  unfold binary?
  split
  · rename_i c rest
    have hc : markBase? c ≠ some 2 := by
      rcases h c (by simp) with rfl | rfl <;> decide
    rw [if_neg hc, hrun]
  · exact hrun

/-- A text of zeros and ones is read as the number that they spell. -/
theorem readInt_of_isBinary {text : String} (h : IsBinary text) (hne : text ≠ "") :
    readInt .binary text = some (natOfBits (binaryDigits text) : Int) := by
  have hplain : text.toList.map plainChar = text.toList := by
    conv_rhs => rw [← List.map_id text.toList]
    refine List.map_congr_left fun c hc => ?_
    rcases h c hc with rfl | rfl <;> decide
  have htrim : trimChars isSpace text.toList = text.toList := by
    refine trimChars_of_none fun c hc => ?_
    rcases h c hc with rfl | rfl <;> decide
  have hvalue := binary?_of_binary h (by simpa using hne)
  unfold readInt
  rw [hplain, htrim]
  split
  · rename_i cs heq
    exact absurd (h '-' (by simp [heq])) (by decide)
  · rename_i cs heq
    exact absurd (h '+' (by simp [heq])) (by decide)
  · rw [magnitude?, hvalue]
    rfl

end Text

/-! ## Bits of numbers -/

/-- The `width` lowest bits of a number, highest first. -/
def bitsOfNat : (width n : Nat) → List Bool
  | 0, _ => []
  | width + 1, n => bitsOfNat width (n / 2) ++ [n % 2 == 1]

@[simp] theorem length_bitsOfNat (width n : Nat) : (bitsOfNat width n).length = width := by
  induction width generalizing n with
  | zero => rfl
  | succ width ih => simp [bitsOfNat, ih]

theorem natOfBits_bitsOfNat (width n : Nat) : natOfBits (bitsOfNat width n) = n % 2 ^ width := by
  induction width generalizing n with
  | zero => simp [bitsOfNat, Nat.mod_one]
  | succ width ih =>
    have hbit : (n % 2 == 1).toNat = n % 2 := by
      rcases Nat.mod_two_eq_zero_or_one n with h | h <;> simp [h]
    rw [bitsOfNat, natOfBits_concat, ih, hbit, pow_succ, Nat.mul_comm (2 ^ width) 2, Nat.mod_mul]
    omega

/-- A remainder of a power of two is written as it is. -/
theorem natOfBits_bitsOfNat_emod (width : Nat) (x : Int) :
    natOfBits (bitsOfNat width (x % (2 ^ width : Nat)).toNat) = (x % (2 ^ width : Nat)).toNat := by
  have hpow : (0 : Int) < (2 ^ width : Nat) := Int.natCast_pos.mpr (Nat.two_pow_pos _)
  have hpos := Int.emod_nonneg x hpow.ne'
  have hlt := Int.emod_lt_of_pos x hpow
  rw [natOfBits_bitsOfNat, Nat.mod_eq_of_lt ((Int.toNat_lt hpos).mpr hlt)]

/-- An integer within the range of its width is what its two's complement stands for. -/
theorem Slice.signed_mod {value : Int} {width : Nat} (hw : 0 < width) (hlo : -(2 ^ (width - 1) : Nat) ≤ value)
    (hhi : value < (2 ^ (width - 1) : Nat)) : signed (value % (2 ^ width : Nat)).toNat width = value := by
  have hpow : 2 ^ width = 2 * 2 ^ (width - 1) := by
    rw [← pow_succ', Nat.sub_add_cancel hw]
  rw [signed, Nat.one_shiftLeft, Nat.one_shiftLeft, hpow]
  generalize 2 ^ (width - 1) = half at hlo hhi ⊢
  by_cases hneg : value < 0
  · have hmod : value % ((2 * half : Nat) : Int) = value + 2 * half := by
      rw [← Int.add_emod_right]
      push_cast
      exact Int.emod_eq_of_lt (by omega) (by omega)
    rw [hmod, if_pos (by omega)]
    omega
  · have hmod : value % ((2 * half : Nat) : Int) = value := Int.emod_eq_of_lt (by omega) (by omega)
    rw [hmod, if_neg (by omega)]
    omega

/-! ## Builders -/

namespace Builder

/-- A builder in which just these bits and references are stored, within the bounds of a cell. -/
structure Holds (b : Builder) (bits : List Bool) (refs : List Cell) : Prop where
  value : b.value = natOfBits bits
  count : b.bits = bits.length
  links : b.refs = refs
  bits_le : bits.length ≤ maxBits
  refs_le : refs.length ≤ maxRefs

theorem holds_empty : empty.Holds [] [] := ⟨rfl, rfl, rfl, Nat.zero_le _, Nat.zero_le _⟩

variable {b b' : Builder} {bits : List Bool} {refs : List Cell}

/-- More bits come after those stored. -/
theorem Holds.append (h : b.Holds bits refs) {value width : Nat} (hok : b.append value width = .ok b')
    {field : List Bool} (hvalue : natOfBits field = value) (hlen : field.length = width) :
    b'.Holds (bits ++ field) refs := by
  unfold Builder.append at hok
  split at hok
  · cases hok
  · rename_i hroom
    cases hok
    have hbits : b.bits + width = (bits ++ field).length := by rw [h.count, List.length_append, hlen]
    refine ⟨?_, hbits, h.links, by omega, h.refs_le⟩
    rw [natOfBits_append, hvalue, hlen, ← h.value, ← Nat.shiftLeft_eq]

theorem Holds.storeRef (h : b.Holds bits refs) {c : Cell} (hok : b.storeRef c = .ok b') :
    b'.Holds bits (refs ++ [c]) := by
  unfold Builder.storeRef at hok
  split at hok
  · cases hok
  · rename_i hroom
    cases hok
    rw [h.links] at hroom
    refine ⟨h.value, h.count, by rw [h.links], h.bits_le, ?_⟩
    rw [List.length_append, List.length_singleton]
    omega

/-- The cell of a builder holds what is stored. -/
theorem Holds.toCell_eq (h : b.Holds bits refs) : b.toCell = .ofBits bits refs := by
  have hcount : (b.bits + padding b.bits) / 8 = (b.bits + 7) / 8 := by
    rw [length_add_padding, Nat.mul_div_cancel_left _ (by decide)]
  rw [toCell, ← padding, hcount, h.value, h.count, h.links]
  rfl

theorem storeNat_eq_ok {value width : Int} (h : b.storeNat value width = .ok b') :
    (0 ≤ width ∧ 0 ≤ value ∧ value < (2 ^ width.toNat : Nat)) ∧ b.append value.toNat width.toNat = .ok b' := by
  unfold storeNat at h
  split at h
  · cases h
  · split at h
    · cases h
    · split at h
      · cases h
      · rename_i hvalue hwidth hfits
        rw [ne_eq, not_not, Nat.shiftRight_eq_div_pow, Nat.div_eq_zero_iff_lt (Nat.two_pow_pos _)] at hfits
        exact ⟨⟨by omega, by omega, (Int.toNat_lt (by omega)).mp hfits⟩, h⟩

theorem storeInt_eq_ok {value width : Int} (h : b.storeInt value width = .ok b') :
    (0 < width ∧ -(2 ^ (width.toNat - 1) : Nat) ≤ value ∧ value < (2 ^ (width.toNat - 1) : Nat)) ∧
      b.append (value % (2 ^ width.toNat : Nat)).toNat width.toNat = .ok b' := by
  unfold storeInt at h
  split at h
  · cases h
  · split at h
    · cases h
    · simp only [Nat.one_shiftLeft] at h
      split at h
      · cases h
      · exact ⟨by omega, h⟩

end Builder

/-! ## Stores and reads -/

/-- A store into a builder. A text is one of zeros and ones, and a reference leads to a cell. -/
inductive Store where
  | nat (value width : Int)
  | int (value width : Int)
  | bytes (data : List UInt8)
  | bits (text : String) (binary : Text.IsBinary text)
  | ref (c : Cell) (wellFormed : c.WellFormed)

/-- What is read back. -/
inductive Item where
  | number (n : Int)
  | cell (c : Cell)

namespace Store

/-- Stores into a builder. -/
def run : Store → Builder → Except BuilderError Builder
  | .nat value width, b => b.storeNat value width
  | .int value width, b => b.storeInt value width
  | .bytes data, b => b.storeBytes data
  | .bits text _, b => b.storeBits text
  | .ref c _, b => b.storeRef c

/-- Stores one after the other, all of which succeed. -/
def runAll : List Store → Builder → Except BuilderError Builder
  | [], b => .ok b
  | o :: os, b => do runAll os (← o.run b)

/-- What was stored. -/
def item : Store → Item
  | .nat value _ => .number value
  | .int value _ => .number value
  | .bytes data => .number (natOfBytes data)
  | .bits text _ => .number (natOfBits (Text.binaryDigits text))
  | .ref c _ => .cell c

/-- The read that matches a store: a number of the width stored, with or without sign, or a reference. -/
def read (s : Slice) : Store → Except Fault (Item × Slice)
  | .nat _ width => (s.readNat width).map fun p => (.number p.1, p.2)
  | .int _ width => (s.readInt width).map fun p => (.number p.1, p.2)
  | .bytes data => (s.readNat (8 * data.length)).map fun p => (.number p.1, p.2)
  | .bits text _ => (s.readNat text.length).map fun p => (.number p.1, p.2)
  | .ref _ _ => (s.descend 0).map fun p => (.cell p.1, p.2)

/-- The reads that match stores, one after the other. -/
def readAll (s : Slice) : List Store → Except Fault (List Item × Slice)
  | [] => .ok ([], s)
  | o :: os => do
    let (item, t) ← o.read s
    let (items, rest) ← readAll t os
    return (item :: items, rest)

/-- The bits that a store adds. -/
def field : Store → List Bool
  | .nat value width => bitsOfNat width.toNat value.toNat
  | .int value width => bitsOfNat width.toNat (value % (2 ^ width.toNat : Nat)).toNat
  | .bytes data => bitsOfBytes data
  | .bits text _ => Text.binaryDigits text
  | .ref _ _ => []

/-- The references that a store adds. -/
def links : Store → List Cell
  | .ref c _ => [c]
  | .nat _ _ | .int _ _ | .bytes _ | .bits _ _ => []

/-- A number is within the range of its width. -/
def Fits : Store → Prop
  | .nat value width => 0 ≤ width ∧ 0 ≤ value ∧ value < (2 ^ width.toNat : Nat)
  | .int value width =>
    0 < width ∧ -(2 ^ (width.toNat - 1) : Nat) ≤ value ∧ value < (2 ^ (width.toNat - 1) : Nat)
  | .bytes _ | .bits _ _ | .ref _ _ => True

theorem natOfBits_field_nat {value width : Int} (h : (nat value width).Fits) :
    natOfBits (nat value width).field = value.toNat := by
  obtain ⟨-, hpos, hlt⟩ := h
  rw [field, natOfBits_bitsOfNat, Nat.mod_eq_of_lt ((Int.toNat_lt hpos).mpr hlt)]

section Storing

variable {b b' : Builder} {bits : List Bool} {refs : List Cell}

/-- **A store adds its bits and references**, and numbers are within their range. -/
theorem holds_of_run {o : Store} (h : b.Holds bits refs) (hok : o.run b = .ok b') :
    b'.Holds (bits ++ o.field) (refs ++ o.links) ∧ o.Fits := by
  cases o with
  | nat value width =>
    obtain ⟨hfits, happend⟩ := Builder.storeNat_eq_ok hok
    rw [links, List.append_nil]
    exact ⟨h.append happend (natOfBits_field_nat hfits) (length_bitsOfNat _ _), hfits⟩
  | int value width =>
    obtain ⟨hfits, happend⟩ := Builder.storeInt_eq_ok hok
    rw [links, List.append_nil]
    exact ⟨h.append happend (natOfBits_bitsOfNat_emod width.toNat value) (length_bitsOfNat _ _), hfits⟩
  | bytes data =>
    rw [links, List.append_nil]
    refine ⟨h.append hok (natOfBits_bitsOfBytes data) ?_, trivial⟩
    rw [field, length_bitsOfBytes, Nat.mul_comm]
  | bits text binary =>
    rw [links, List.append_nil]
    refine ⟨?_, trivial⟩
    rw [run, Builder.storeBits] at hok
    split at hok
    · rename_i hempty
      cases hok
      rw [String.isEmpty_iff] at hempty
      simpa [field, Text.binaryDigits, hempty] using h
    · rename_i hne
      rw [Text.readInt_of_isBinary binary (by simpa using hne)] at hok
      obtain ⟨-, happend⟩ := Builder.storeNat_eq_ok hok
      exact h.append happend rfl (Text.length_binaryDigits text)
  | ref c wellFormed =>
    rw [field, List.append_nil]
    exact ⟨h.storeRef hok, trivial⟩

/-- Stores add their bits and references in order. -/
theorem holds_of_runAll {os : List Store} (h : b.Holds bits refs) (hok : runAll os b = .ok b') :
    b'.Holds (bits ++ os.flatMap field) (refs ++ os.flatMap links) ∧ ∀ o ∈ os, o.Fits := by
  induction os generalizing b bits refs with
  | nil =>
    cases hok
    simpa using h
  | cons o os ih =>
    rw [runAll] at hok
    cases hrun : o.run b with
    | error e => rw [hrun] at hok; cases hok
    | ok b₁ =>
      rw [hrun] at hok
      obtain ⟨hholds, hfits⟩ := holds_of_run h hrun
      obtain ⟨hholds', hfits'⟩ := ih hholds hok
      rw [List.append_assoc, List.append_assoc] at hholds'
      exact ⟨hholds', List.forall_mem_cons.mpr ⟨hfits, hfits'⟩⟩

end Storing

end Store

/-! ## Reading -/

/-- A sound window with just these bits and references left. -/
structure Slice.Shows (s : Slice) (bits : List Bool) (refs : List Cell) : Prop where
  sound : s.Sound
  bits_eq : s.bits = bits
  refs_eq : s.refs = refs

namespace Slice.Shows

variable {s : Slice} {front back : List Bool} {refs : List Cell}

theorem length_le (h : s.Shows (front ++ back) refs) : front.length ≤ s.remainingBits := by
  rw [← h.sound.length_bits, h.bits_eq, List.length_append]
  exact Nat.le_add_right _ _

theorem requireBits (h : s.Shows (front ++ back) refs) : s.requireBits front.length = .ok front.length := by
  have hlen := h.length_le
  have hpos := h.sound.valid.1
  unfold remainingBits at hlen
  rw [Slice.requireBits, if_neg (by omega), Int.toNat_natCast]

theorem bitsAt (h : s.Shows (front ++ back) refs) : s.cell.bitsAt s.bitPos front.length = natOfBits front := by
  rw [bitsAt_eq h.sound h.length_le, h.bits_eq, List.take_left]

theorem dropBits (h : s.Shows (front ++ back) refs) : (s.dropBits front.length).Shows back refs := by
  refine ⟨h.sound.dropBits h.length_le, ?_, h.refs_eq⟩
  rw [bits_dropBits, h.bits_eq, List.drop_left]

theorem readNat (h : s.Shows (front ++ back) refs) {width : Int} (hw : width = front.length) :
    s.readNat width = .ok (natOfBits front, s.dropBits front.length) := by
  rw [hw, Slice.readNat, h.requireBits, Except.map, h.bitsAt]

theorem readInt (h : s.Shows (front ++ back) refs) {width : Int} (hw : width = front.length) :
    s.readInt width = .ok (signed (natOfBits front) front.length, s.dropBits front.length) := by
  rw [hw, Slice.readInt, h.requireBits, Except.map, h.bitsAt]

theorem descend {bits : List Bool} {c : Cell} {others : List Cell} (h : s.Shows bits (c :: others)) :
    s.descend 0 = .ok (c, s.dropRefs 1) ∧ (s.dropRefs 1).Shows bits others := by
  have hlen : 0 < s.remainingRefs := by
    rw [← h.sound.length_refs, h.refs_eq]
    exact Nat.zero_lt_succ _
  have hfirst := getD_refs_eq h.sound hlen
  rw [h.refs_eq, List.head?_cons, Option.some.injEq] at hfirst
  refine ⟨?_, h.sound.dropRefs hlen, h.bits_eq, ?_⟩
  · unfold remainingRefs at hlen
    rw [Slice.descend, requireRef, if_neg (by omega), hfirst]
    rfl
  · rw [refs_dropRefs, h.refs_eq]
    rfl

end Slice.Shows

namespace Store

variable {s : Slice} {back : List Bool} {others : List Cell}

/-- **The matching read gives what was stored** and leaves the rest. -/
theorem read_of_shows {o : Store} (hfits : o.Fits) (h : s.Shows (o.field ++ back) (o.links ++ others)) :
    ∃ t, o.read s = .ok (o.item, t) ∧ t.Shows back others := by
  cases o with
  | nat value width =>
    have hread := h.readNat (show width = _ by simp [field, hfits.1])
    rw [natOfBits_field_nat hfits] at hread
    refine ⟨_, ?_, h.dropBits⟩
    rw [read, hread, item, Except.map, Int.toNat_of_nonneg hfits.2.1]
  | int value width =>
    obtain ⟨hw, hlo, hhi⟩ := hfits
    have hread := h.readInt (show width = _ by simp [field, hw.le])
    have hlen : (int value width).field.length = width.toNat := length_bitsOfNat _ _
    rw [field, natOfBits_bitsOfNat_emod, length_bitsOfNat, Slice.signed_mod (by omega) hlo hhi] at hread
    refine ⟨_, ?_, h.dropBits⟩
    rw [read, hread, item, Except.map, hlen]
  | bytes data =>
    have hread := h.readNat (show (8 * data.length : Int) = _ by simp [field])
    refine ⟨_, ?_, h.dropBits⟩
    rw [read, hread, item, Except.map, field, natOfBits_bitsOfBytes]
  | bits text binary =>
    have hread := h.readNat (show (text.length : Int) = _ by rw [field, Text.length_binaryDigits])
    refine ⟨_, ?_, h.dropBits⟩
    rw [read, hread, item, Except.map, field]
  | ref c wellFormed =>
    obtain ⟨hread, hrest⟩ := h.descend
    exact ⟨_, by rw [read, hread]; rfl, hrest⟩

/-- The matching reads give what was stored, in order. -/
theorem readAll_of_shows {os : List Store} (hfits : ∀ o ∈ os, o.Fits)
    (h : s.Shows (os.flatMap field ++ back) (os.flatMap links ++ others)) :
    ∃ t, readAll s os = .ok (os.map item, t) ∧ t.Shows back others := by
  induction os generalizing s with
  | nil => exact ⟨s, rfl, h⟩
  | cons o os ih =>
    rw [List.forall_mem_cons] at hfits
    rw [List.flatMap_cons, List.flatMap_cons, List.append_assoc, List.append_assoc] at h
    obtain ⟨t, hread, ht⟩ := read_of_shows hfits.1 h
    obtain ⟨u, hreadAll, hu⟩ := ih hfits.2 ht
    refine ⟨u, ?_, hu⟩
    rw [readAll, hread]
    show (readAll t os >>= fun p => _) = _
    rw [hreadAll]
    rfl

/-- The cells that stores refer to. -/
theorem wellFormed_of_links {os : List Store} : ∀ c ∈ os.flatMap links, c.WellFormed := by
  intro c hc
  obtain ⟨o, -, hmem⟩ := List.mem_flatMap.mp hc
  cases o with
  | ref d wellFormed =>
    rw [List.mem_singleton.mp hmem]
    exact wellFormed
  | nat _ _ => cases hmem
  | int _ _ => cases hmem
  | bytes _ => cases hmem
  | bits _ _ => cases hmem

/-- **What is stored is read back**: stores that succeed build a cell, and the matching reads of the whole of it give
every value and reference in order, after which nothing is left. -/
theorem readAll_toCell {os : List Store} {b : Builder} (h : runAll os .empty = .ok b) :
    b.toCell.WellFormed ∧ ∃ rest, readAll (.ofCell b.toCell) os = .ok (os.map item, rest) ∧ rest.isEmpty = true := by
  obtain ⟨hholds, hfits⟩ := holds_of_runAll Builder.holds_empty h
  rw [List.nil_append, List.nil_append] at hholds
  have hcell : b.toCell.WellFormed := by
    rw [hholds.toCell_eq]
    exact Cell.wellFormed_ofBits hholds.bits_le hholds.refs_le wellFormed_of_links
  have hwhole : (Slice.ofCell b.toCell).Shows (os.flatMap field ++ []) (os.flatMap links ++ []) := by
    refine ⟨Slice.sound_ofCell hcell, ?_, ?_⟩
    · rw [Slice.bits_ofCell hcell, hholds.toCell_eq, Cell.bits_ofBits, List.append_nil]
    · rw [Slice.refs_ofCell, hholds.toCell_eq, Cell.refs_ofBits, List.append_nil]
  obtain ⟨rest, hread, hrest⟩ := readAll_of_shows hfits hwhole
  refine ⟨hcell, rest, hread, ?_⟩
  rw [Slice.isEmpty, ← hrest.sound.length_bits, ← hrest.sound.length_refs, hrest.bits_eq, hrest.refs_eq]
  rfl

/-- Stores of every kind, one of no width and one of a negative integer, that end within a byte. -/
theorem readAll_of_all_kinds :
    let leaf : Cell := ⟨[0x80], 1, [], false⟩
    ∃ (hleaf : leaf.WellFormed) (hbinary : Text.IsBinary "01") (b : Builder) (rest : Slice),
      let os := [bytes [0x01], nat 0 0, bits "01" hbinary, ref leaf hleaf, int (-2) 3]
      runAll os .empty = .ok b ∧
        readAll (.ofCell b.toCell) os = .ok ([.number 1, .number 0, .number 1, .cell leaf, .number (-2)], rest) ∧
        rest.isEmpty = true := by
  intro leaf
  have hleaf : leaf.WellFormed := .intro (by decide) (by decide) (by decide) (by simp [leaf])
  have hbinary : Text.IsBinary "01" := by simp [Text.IsBinary]
  have hrun : runAll [bytes [0x01], nat 0 0, bits "01" hbinary, ref leaf hleaf, int (-2) 3] .empty =
      .ok ⟨46, 13, [leaf]⟩ := rfl
  obtain ⟨-, rest, hread, hrest⟩ := readAll_toCell hrun
  exact ⟨hleaf, hbinary, _, rest, hrun, hread, hrest⟩

end Store

end TvmCode
