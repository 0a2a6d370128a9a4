import Mathlib.Data.Nat.Size
import TvmCode.Dictionary
import TvmCode.Proofs.Slice

/-!
# The grammar of dictionaries

What a dictionary is, apart from how it is read: labels as they are written (`Label`), and edges with the leaves below
them, from left to right (`Edge`). Reading accepts just what the grammar derives, gives the leaves of the derivation,
and refuses everything else (`read_iff_edge`).

A reader of the front of an edge is described by the codes that it accepts and the values that it gives for them
(`Reader.Exactly`), in both directions at once. Readers one after the other accept codes one after the other, which
leads to labels (`exactly_label`) and to what may stand at an edge (`walk_at`). Edges are then followed by induction:
along a derivation for what is given (`walk_of_edge`), and along the tree of cells for what is accepted (`exists_edge`).
-/

namespace TvmCode.Dictionary

/-! ## The grammar -/

/-- A label of at most `m` bits and the ways to write it. -/
inductive Label (m : Nat) : (code label : List Bool) → Prop
  /-- The length in unary, and the bits. -/
  | short {label : List Bool} (bound : label.length ≤ m) :
      Label m (false :: List.replicate label.length true ++ false :: label) label
  /-- The length in as many bits as `m` has, and the bits. -/
  | long {size label : List Bool} (bound : label.length ≤ m) (width : size.length = m.size)
      (length : natOfBits size = label.length) : Label m (true :: false :: size ++ label) label
  /-- One bit, and how often it is repeated, in as many bits as `m` has. -/
  | same {bit : Bool} {size : List Bool} {count : Nat} (bound : count ≤ m) (width : size.length = m.size)
      (length : natOfBits size = count) : Label m (true :: true :: bit :: size) (List.replicate count bit)

/-- A leaf below an edge: the key bits that lead to it from there, and its value. -/
structure Leaf where
  path : List Bool
  value : Slice

/-- A leaf as seen from further up. -/
def Leaf.under (path : List Bool) (l : Leaf) : Leaf := { l with path := path ++ l.path }

/-- The entry that a leaf of the whole dictionary stands for. -/
def Leaf.entry (l : Leaf) : Entry := ⟨natOfBits l.path, l.value⟩

/-- A cell that is an edge with `m` key bits below it, and its leaves from left to right. What a fork holds after its
label and its first two references does not matter. -/
inductive Edge : (m : Nat) → Cell → List Leaf → Prop
  | leaf {m : Nat} {c : Cell} {code label after : List Bool} (start : Label m code label)
      (bits : c.bits = code ++ after) (length : label.length = m) :
      Edge m c [⟨label, ⟨c, code.length, c.bitLen, 0, c.refs.length⟩⟩]
  | fork {m k : Nat} {c left right : Cell} {code label after : List Bool} {others : List Cell} {ls rs : List Leaf}
      (start : Label m code label) (bits : c.bits = code ++ after) (length : label.length + 1 + k = m)
      (refs : c.refs = left :: right :: others) (zero : Edge k left ls) (one : Edge k right rs) :
      Edge m c (ls.map (Leaf.under (label ++ [false])) ++ rs.map (Leaf.under (label ++ [true])))

/-! ## Readers -/

/-- On sound slices, the reader takes just the codes that are so related to its values. -/
def Reader.Exactly {α : Type} (r : Reader α) (P : List Bool → α → Prop) : Prop :=
  ∀ s : Slice, s.Sound → ∀ a t, r s = .ok (a, t) ↔
    ∃ code after, s.bits = code ++ after ∧ t = s.dropBits code.length ∧ P code a

theorem length_le_of_bits {s : Slice} (hs : s.Sound) {code after : List Bool} (h : s.bits = code ++ after) :
    code.length ≤ s.remainingBits := by
  rw [← hs.length_bits, h, List.length_append]
  exact Nat.le_add_right _ _

theorem bits_eq {s : Slice} (hs : s.Sound) (width : Nat) : bits width s =
    if width ≤ s.remainingBits then .ok (natOfBits (s.bits.take width), s.dropBits width)
    else .error (.truncated (.short s.bitPos width .bits)) := by
  have hpos := hs.valid.1
  by_cases h : width ≤ s.remainingBits
  · have hroom : ¬((width : Int) < 0 ∨ (s.bitEnd : Int) < s.bitPos + width) := by
      unfold Slice.remainingBits at h
      omega
    rw [if_pos h, ← Slice.bitsAt_eq hs h, bits, Slice.readNat, Slice.requireBits, if_neg hroom]
    rfl
  · have hshort : (width : Int) < 0 ∨ (s.bitEnd : Int) < s.bitPos + width := by
      unfold Slice.remainingBits at h
      omega
    rw [if_neg h, bits, Slice.readNat, Slice.requireBits, if_pos hshort]
    rfl

/-- The next bit. -/
theorem bits_of_cons {s : Slice} (hs : s.Sound) {b : Bool} {rest : List Bool} (h : s.bits = b :: rest) :
    bits 1 s = .ok (b.toNat, s.dropBits 1) := by
  have hroom : 1 ≤ s.remainingBits := length_le_of_bits hs (show s.bits = [b] ++ rest from h)
  rw [bits_eq hs, if_pos hroom, h]
  cases b <;> rfl

theorem unary_of_nil {s : Slice} (hs : s.Sound) (h : s.bits = []) : ∃ e, unary s = .error e := by
  have hnone : s.remainingBits = 0 := by rw [← hs.length_bits, h, List.length_nil]
  have hbit := bits_eq hs 1
  rw [if_neg (by omega)] at hbit
  rw [unary, hbit]
  exact ⟨_, rfl⟩

theorem unary_of_false {s : Slice} (hs : s.Sound) {rest : List Bool} (h : s.bits = false :: rest) :
    unary s = .ok (0, s.dropBits 1) := by
  rw [unary, bits_of_cons hs h]
  rfl

theorem unary_of_true {s : Slice} (hs : s.Sound) {rest : List Bool} (h : s.bits = true :: rest) :
    unary s = (unary (s.dropBits 1)).map fun p => (p.1 + 1, p.2) := by
  rw [unary, bits_of_cons hs h]
  rfl

namespace Reader.Exactly

variable {α β : Type} {r : Reader α} {f : α → Reader β} {P Q : List Bool → α → Prop} {R : α → List Bool → β → Prop}

theorem of_iff (h : Exactly r P) (hPQ : ∀ code a, P code a ↔ Q code a) : Exactly r Q := by
  intro s hs a t
  simp only [h s hs, hPQ]

theorem pure (a : α) : Exactly (pure a) fun code b => code = [] ∧ b = a := by
  intro s hs b t
  constructor
  · intro h
    cases h
    exact ⟨[], s.bits, rfl, rfl, rfl, rfl⟩
  · rintro ⟨code, after, -, rfl, rfl, rfl⟩
    rfl

theorem bits (width : Nat) : Exactly (bits width) fun code n => code.length = width ∧ n = natOfBits code := by
  intro s hs n t
  rw [bits_eq hs]
  constructor
  · intro h
    split at h
    · rename_i hroom
      cases h
      have hlen : (s.bits.take width).length = width := by
        rw [List.length_take, hs.length_bits, Nat.min_eq_left hroom]
      exact ⟨_, _, (List.take_append_drop width s.bits).symm, by rw [hlen], hlen, rfl⟩
    · cases h
  · rintro ⟨code, after, hbits, rfl, rfl, rfl⟩
    rw [if_pos (length_le_of_bits hs hbits), hbits, List.take_left]

/-- A length is let through within its bound. -/
theorem bounded (m n : Nat) : Exactly (bounded m n) fun code length => code = [] ∧ length = n ∧ n ≤ m := by
  intro s hs length t
  unfold Dictionary.bounded
  constructor
  · intro h
    split at h
    · cases h
    · cases h
      exact ⟨[], s.bits, rfl, rfl, rfl, rfl, by omega⟩
  · rintro ⟨code, after, -, rfl, rfl, rfl, hle⟩
    rw [if_neg (by omega)]
    rfl

theorem bind (h : Exactly r P) (h' : ∀ a, Exactly (f a) (R a)) :
    Exactly (r >>= f) fun code b => ∃ a front back, code = front ++ back ∧ P front a ∧ R a back b := by
  intro s hs b t
  change (r s >>= fun p => f p.1 p.2) = _ ↔ _
  constructor
  · intro hbind
    cases hr : r s with
    | error e =>
      rw [hr] at hbind
      cases hbind
    | ok p =>
      obtain ⟨a, u⟩ := p
      rw [hr] at hbind
      obtain ⟨front, after, hbits, rfl, hfront⟩ := (h s hs a u).mp hr
      have hu := hs.dropBits (length_le_of_bits hs hbits)
      obtain ⟨back, after', hbits', rfl, hback⟩ := (h' a _ hu b t).mp hbind
      rw [Slice.bits_dropBits, hbits, List.drop_left] at hbits'
      refine ⟨front ++ back, after', ?_, ?_, a, front, back, rfl, hfront, hback⟩
      · rw [hbits, hbits', List.append_assoc]
      · rw [List.length_append, Slice.dropBits_dropBits]
  · rintro ⟨_, after, hbits, rfl, a, front, back, rfl, hfront, hback⟩
    rw [List.append_assoc] at hbits
    have hr : r s = .ok (a, s.dropBits front.length) := (h s hs _ _).mpr ⟨front, _, hbits, rfl, hfront⟩
    have hu := hs.dropBits (length_le_of_bits hs hbits)
    rw [hr]
    refine (h' a _ hu _ _).mpr ⟨back, after, ?_, ?_, hback⟩
    · rw [Slice.bits_dropBits, hbits, List.drop_left]
    · rw [List.length_append, Slice.dropBits_dropBits]

/-- A number in unary is as many ones, and a zero. -/
theorem unary : Exactly unary fun code n => code = List.replicate n true ++ [false] := by
  intro s hs n t
  -- the induction is on the bits left, one of which is taken in each turn
  induction hbits : s.bits generalizing s n t with
  | nil =>
    obtain ⟨e, he⟩ := unary_of_nil hs hbits
    rw [he]
    constructor
    · intro h
      cases h
    · rintro ⟨code, after, hcode, -, rfl⟩
      cases n <;> cases hcode
  | cons b rest ih =>
    have hroom : 1 ≤ s.remainingBits := length_le_of_bits hs (show s.bits = [b] ++ rest from hbits)
    have hrest : (s.dropBits 1).bits = rest := by rw [Slice.bits_dropBits, hbits, List.drop_one, List.tail_cons]
    cases b with
    | false =>
      rw [unary_of_false hs hbits]
      constructor
      · intro h
        cases h
        exact ⟨[false], rest, rfl, rfl, rfl⟩
      · rintro ⟨code, after, hcode, rfl, rfl⟩
        cases n with
        | zero => rfl
        | succ n => cases hcode
    | true =>
      rw [unary_of_true hs hbits]
      have hnext := fun n t => ih _ (hs.dropBits hroom) n t hrest
      constructor
      · intro h
        cases hu : Dictionary.unary (s.dropBits 1) with
        | error e =>
          rw [hu] at h
          cases h
        | ok p =>
          rw [hu] at h
          cases h
          obtain ⟨code, after, rfl, hlast, rfl⟩ := (hnext _ _).mp hu
          refine ⟨true :: (List.replicate p.1 true ++ [false]), after, rfl, ?_, rfl⟩
          rw [hlast, List.length_cons, Slice.dropBits_dropBits, Nat.add_comm 1]
      · rintro ⟨code, after, hcode, rfl, rfl⟩
        cases n with
        | zero => cases hcode
        | succ n =>
          have hcode : rest = (List.replicate n true ++ [false]) ++ after := List.cons_injective hcode
          rw [(hnext _ _).mpr ⟨_, after, hcode, rfl, rfl⟩, Slice.dropBits_dropBits, List.replicate_succ,
            List.cons_append, List.length_cons, Nat.add_comm 1]
          rfl

end Reader.Exactly

/-! ## Labels -/

open Reader

/-- A length up to `m` is written in as many bits as `m` has. -/
theorem lengthWidth_eq (m : Nat) : lengthWidth m = m.size := by
  by_cases h : m = 0
  · subst h
    rfl
  · have hwidth : lengthWidth m = m.log2 + 1 := by
      rw [lengthWidth, if_neg (by omega)]
      rfl
    rw [hwidth]
    apply Nat.le_antisymm
    · rw [Nat.succ_le_iff, Nat.lt_size]
      exact Nat.log2_self_le h
    · exact Nat.size_le.mpr Nat.lt_log2_self

/-- One bit decides how to go on. -/
theorem exactly_choice {α : Type} {r r' : Reader α} {P Q : List Bool → α → Prop} (h : r.Exactly P)
    (h' : r'.Exactly Q) :
    Reader.Exactly (do if (← bits 1) = 0 then r else r') fun code a =>
      (∃ rest, code = false :: rest ∧ P rest a) ∨ ∃ rest, code = true :: rest ∧ Q rest a := by
  have hbranch : ∀ b : Nat, Reader.Exactly (if b = 0 then r else r') fun code a =>
      (b = 0 → P code a) ∧ (b ≠ 0 → Q code a) := by
    intro b
    by_cases hb : b = 0
    · simpa [hb] using h
    · simpa [hb] using h'
  refine (Exactly.bind (.bits 1) hbranch).of_iff ?_
  intro code a
  constructor
  · rintro ⟨_, bit, rest, rfl, ⟨hbit, rfl⟩, hzero, hone⟩
    obtain ⟨_ | _, rfl⟩ := List.length_eq_one_iff.mp hbit
    · exact Or.inl ⟨rest, rfl, hzero rfl⟩
    · exact Or.inr ⟨rest, rfl, hone (by decide)⟩
  · rintro (⟨rest, rfl, hrest⟩ | ⟨rest, rfl, hrest⟩)
    · exact ⟨_, [false], rest, rfl, ⟨rfl, rfl⟩, fun _ => hrest, fun hne => absurd rfl hne⟩
    · exact ⟨_, [true], rest, rfl, ⟨rfl, rfl⟩, fun hzero => absurd hzero (by decide), fun _ => hrest⟩

/-- A length, and as many bits. -/
theorem exactly_counted {r : Reader Nat} {P : List Bool → Nat → Prop} (h : r.Exactly P) (m : Nat) :
    Reader.Exactly (do let length ← bounded m (← r); return (length, ← bits length)) fun code p =>
      ∃ size label, code = size ++ label ∧ P size label.length ∧ label.length ≤ m ∧
        p = (label.length, natOfBits label) := by
  refine (Exactly.bind h fun n => Exactly.bind (.bounded m n) fun length => Exactly.bind (.bits length) fun v =>
    Exactly.pure (length, v)).of_iff ?_
  intro code p
  constructor
  · rintro ⟨n, size, _, rfl, hsize, length, _, _, rfl, ⟨rfl, rfl, hle⟩, v, label, _, rfl, ⟨rfl, rfl⟩, rfl, rfl⟩
    exact ⟨size, label, by simp, hsize, hle, rfl⟩
  · rintro ⟨size, label, rfl, hsize, hle, rfl⟩
    exact ⟨label.length, size, label, rfl, hsize, label.length, [], label, rfl, ⟨rfl, rfl, hle⟩, natOfBits label, label,
      [], by simp, ⟨rfl, rfl⟩, rfl, rfl⟩

/-- A bit, and how often it is repeated. -/
theorem exactly_repeated (m : Nat) :
    Reader.Exactly (do
        let bit ← bits 1
        let length ← bounded m (← bits (lengthWidth m))
        return (length, if bit = 1 then (1 <<< length) - 1 else 0)) fun code p =>
      ∃ (bit : Bool) (size : List Bool), code = bit :: size ∧ size.length = m.size ∧ natOfBits size ≤ m ∧
        p = (natOfBits size, natOfBits (List.replicate (natOfBits size) bit)) := by
  refine (Exactly.bind (.bits 1) fun bit => Exactly.bind (.bits (lengthWidth m)) fun n => Exactly.bind (.bounded m n)
    fun length => Exactly.pure (length, if bit = 1 then (1 <<< length) - 1 else 0)).of_iff ?_
  have hvalue : ∀ (bit : Bool) (n : Nat),
      (if natOfBits [bit] = 1 then (1 <<< n) - 1 else 0) = natOfBits (List.replicate n bit) := by
    intro bit n
    cases bit with
    | false =>
      rw [natOfBits_replicate_false]
      rfl
    | true =>
      rw [natOfBits_replicate_true, Nat.shiftLeft_eq, Nat.one_mul]
      rfl
  intro code p
  constructor
  · rintro ⟨_, bits, _, rfl, ⟨hbit, rfl⟩, _, size, _, rfl, ⟨hsize, rfl⟩, _, _, _, rfl, ⟨rfl, rfl, hle⟩, rfl, rfl⟩
    obtain ⟨bit, rfl⟩ := List.length_eq_one_iff.mp hbit
    exact ⟨bit, size, by simp, hsize.trans (lengthWidth_eq m), hle, by rw [hvalue]⟩
  · rintro ⟨bit, size, rfl, hsize, hle, rfl⟩
    exact ⟨_, [bit], size, rfl, ⟨rfl, rfl⟩, _, size, [], by simp, ⟨hsize.trans (lengthWidth_eq m).symm, rfl⟩, _, [], [],
      rfl, ⟨rfl, rfl, hle⟩, rfl, by rw [hvalue]⟩

/-- **A label is read if and only if it is written in one of the three forms.** -/
theorem exactly_label (m : Nat) :
    (label m).Exactly fun code p => ∃ bits, Label m code bits ∧ p = (bits.length, natOfBits bits) := by
  refine (exactly_choice (exactly_counted .unary m)
    (exactly_choice (exactly_counted (.bits (lengthWidth m)) m) (exactly_repeated m))).of_iff ?_
  intro code p
  rw [lengthWidth_eq]
  constructor
  · rintro (⟨_, rfl, _, label, rfl, rfl, hle, rfl⟩ | ⟨_, rfl, ⟨_, rfl, size, label, rfl, ⟨hsize, hlen⟩, hle, rfl⟩ |
      ⟨_, rfl, bit, size, rfl, hsize, hle, rfl⟩⟩)
    · exact ⟨label, by simpa using Label.short hle, rfl⟩
    · exact ⟨label, .long hle hsize hlen.symm, rfl⟩
    · exact ⟨_, .same hle hsize rfl, by rw [List.length_replicate]⟩
  · rintro ⟨label, hlabel, rfl⟩
    cases hlabel with
    | short hle => exact Or.inl ⟨_, rfl, _, label, by simp, rfl, hle, rfl⟩
    | @long size _ hle hsize hlen =>
      exact Or.inr ⟨_, rfl, Or.inl ⟨_, rfl, size, label, rfl, ⟨hsize, hlen.symm⟩, hle, rfl⟩⟩
    | @same bit size _ hle hsize hlen =>
      subst hlen
      exact Or.inr ⟨_, rfl, Or.inr ⟨_, rfl, bit, size, rfl, hsize, hle, by rw [List.length_replicate]⟩⟩

/-! ## Edges -/

section Edges

variable {c : Cell} {m key : Nat}

/-- What is read at the front of an edge. -/
theorem label_eq_ok_iff (hc : c.WellFormed) {p : Nat × Nat} {t : Slice} :
    label m (.ofCell c) = .ok (p, t) ↔ ∃ code bits after, Label m code bits ∧ c.bits = code ++ after ∧
      p = (bits.length, natOfBits bits) ∧ t = (Slice.ofCell c).dropBits code.length := by
  rw [exactly_label m _ (Slice.sound_ofCell hc), Slice.bits_ofCell hc]
  constructor
  · rintro ⟨code, after, hbits, rfl, bits, hlabel, rfl⟩
    exact ⟨code, bits, after, hlabel, hbits, rfl, rfl⟩
  · rintro ⟨code, bits, after, hlabel, hbits, rfl, rfl⟩
    exact ⟨code, after, hbits, rfl, bits, hlabel, rfl⟩

theorem Label.length_le {code bits : List Bool} (h : Label m code bits) : bits.length ≤ m := by
  cases h with
  | short hle => exact hle
  | long hle _ _ => exact hle
  | same hle _ _ => rwa [List.length_replicate]

theorem walk_leaf {bits : Nat} {t : Slice} (h : label m (.ofCell c) = .ok ((m, bits), t)) :
    walk c key m = ⟨[⟨(key <<< m) + bits, t⟩], none⟩ := by
  rw [walk, h]
  exact if_pos rfl

/-- The walk from a fork, whatever number of key bits is left. -/
theorem walk_two_refs {length bits : Nat} {limit : Int} {t : Slice} {left right : Cell} {others : List Cell}
    (h : label limit (.ofCell c) = .ok ((length, bits), t)) (hne : ¬limit = length)
    (hrefs : c.refs = left :: right :: others) :
    walk c key limit = (walk left (((key <<< length) + bits) * 2) (limit - length - 1)).andThen
      fun _ => walk right (((key <<< length) + bits) * 2 + 1) (limit - length - 1) := by
  rw [walk, h]
  simp only [if_neg hne]
  split
  · rename_i left' right' others' hrefs'
    cases hrefs.symm.trans hrefs'
    rfl
  · rename_i hnone
    exact absurd hrefs (hnone left right others)

theorem walk_few_refs {length bits : Nat} {limit : Int} {t : Slice}
    (h : label limit (.ofCell c) = .ok ((length, bits), t)) (hne : ¬limit = length) (hrefs : c.refs.length < 2) :
    walk c key limit = ⟨[], some (.brokenFork ((key <<< length) + bits) c.refs.length)⟩ := by
  rw [walk, h]
  simp only [if_neg hne]
  split
  · rename_i left right others hmore
    rw [hmore, List.length_cons, List.length_cons] at hrefs
    omega
  · rfl

theorem walk_fork {length bits k : Nat} {t : Slice} {left right : Cell} {others : List Cell}
    (h : label m (.ofCell c) = .ok ((length, bits), t)) (hm : length + 1 + k = m)
    (hrefs : c.refs = left :: right :: others) :
    walk c key m = (walk left (((key <<< length) + bits) * 2) k).andThen
      fun _ => walk right (((key <<< length) + bits) * 2 + 1) k := by
  have hk : (m : Int) - length - 1 = k := by omega
  rw [walk_two_refs h (by omega) hrefs, hk]

theorem walk_broken {length bits : Nat} {t : Slice} (h : label m (.ofCell c) = .ok ((length, bits), t))
    (hm : length ≠ m) (hrefs : ∀ left right others, c.refs ≠ left :: right :: others) :
    ∃ e, walk c key m = ⟨[], some e⟩ := by
  have hfew : c.refs.length < 2 := by
    rcases hc : c.refs with _ | ⟨left, _ | ⟨right, others⟩⟩
    · simp
    · simp
    · exact absurd hc (hrefs left right others)
  exact ⟨_, walk_few_refs h (by omega) hfew⟩

/-- What may stand at an edge, and the walk from there. -/
inductive Walk.At (c : Cell) (key m : Nat) : Walk → Prop
  | refused (e : DictionaryError) : At c key m ⟨[], some e⟩
  | leaf {code label after : List Bool} {t : Slice} (start : Label m code label) (bits : c.bits = code ++ after)
      (length : label.length = m) : At c key m ⟨[⟨(key <<< label.length) + natOfBits label, t⟩], none⟩
  | fork {k : Nat} {left right : Cell} {code label after : List Bool} {others : List Cell} (start : Label m code label)
      (bits : c.bits = code ++ after) (length : label.length + 1 + k = m) (refs : c.refs = left :: right :: others) :
      At c key m ((walk left (((key <<< label.length) + natOfBits label) * 2) k).andThen
        fun _ => walk right (((key <<< label.length) + natOfBits label) * 2 + 1) k)

theorem walk_at (hc : c.WellFormed) (key m : Nat) : (walk c key m).At c key m := by
  cases hlabel : label m (.ofCell c) with
  | error e =>
    rw [walk, hlabel]
    exact .refused e
  | ok r =>
    obtain ⟨p, t⟩ := r
    obtain ⟨code, label, after, hstart, hbits, rfl, rfl⟩ := (label_eq_ok_iff hc).mp hlabel
    rcases Nat.eq_or_lt_of_le hstart.length_le with rfl | hlen
    · rw [walk_leaf hlabel]
      exact .leaf hstart hbits rfl
    · obtain ⟨k, hk⟩ := Nat.exists_eq_add_of_lt hlen
      have hk : label.length + 1 + k = m := by omega
      by_cases hrefs : ∃ left right others, c.refs = left :: right :: others
      · obtain ⟨left, right, others, hrefs⟩ := hrefs
        rw [walk_fork hlabel hk hrefs]
        exact .fork hstart hbits hk hrefs
      · push Not at hrefs
        obtain ⟨e, he⟩ := walk_broken hlabel hlen.ne hrefs
        rw [he]
        exact .refused e

theorem Walk.andThen_of_none {w next : Walk} (h : w.failure = none) :
    w.andThen (fun _ => next) = ⟨w.entries ++ next.entries, next.failure⟩ := by
  rw [Walk.andThen, h]

theorem Walk.failure_andThen {w next : Walk} (h : (w.andThen fun _ => next).failure = none) :
    w.failure = none ∧ next.failure = none := by
  cases hw : w.failure with
  | none =>
    rw [Walk.andThen_of_none hw] at h
    exact ⟨rfl, h⟩
  | some e =>
    rw [Walk.andThen, hw] at h
    cases hw.symm.trans h

theorem Leaf.under_under (front back : List Bool) (l : Leaf) :
    (l.under back).under front = l.under (front ++ back) := by
  simp [Leaf.under]

/-- **The leaves of a derivation are what is given**, with the path to the edge in front of theirs. -/
theorem walk_of_edge {leaves : List Leaf} (h : Edge m c leaves) (hc : c.WellFormed) (path : List Bool) :
    walk c (natOfBits path) m = ⟨leaves.map fun l => (l.under path).entry, none⟩ := by
  induction h generalizing path with
  | @leaf m c code label after start bits length =>
    subst length
    have hlabel := (label_eq_ok_iff hc).mpr ⟨code, label, after, start, bits, rfl, rfl⟩
    rw [walk_leaf hlabel, Nat.shiftLeft_eq, ← natOfBits_append, Slice.ofCell, Slice.dropBits, Nat.zero_add]
    rfl
  | @fork m k c left right code label after others ls rs start bits length refs _ _ ihl ihr =>
    have hlabel := (label_eq_ok_iff hc).mpr ⟨code, label, after, start, bits, rfl, rfl⟩
    have hleft := ihl (hc.of_mem_refs (by simp [refs])) (path ++ label ++ [false])
    have hright := ihr (hc.of_mem_refs (by simp [refs])) (path ++ label ++ [true])
    have hzero : natOfBits (path ++ label) * 2 = natOfBits (path ++ label ++ [false]) :=
      (natOfBits_concat _ false).symm
    have hone : natOfBits (path ++ label) * 2 + 1 = natOfBits (path ++ label ++ [true]) :=
      (natOfBits_concat _ true).symm
    rw [walk_fork hlabel length refs, Nat.shiftLeft_eq, ← natOfBits_append, hone, hzero, hleft, hright]
    simp [Walk.andThen, Leaf.under_under, Function.comp_def]

/-- **What is accepted is derived.** -/
theorem exists_edge (hc : c.WellFormed) (h : (walk c key m).failure = none) : ∃ leaves, Edge m c leaves := by
  induction hc generalizing key m with
  | @intro c hbits hcount hdata children ih =>
    have hat := walk_at ⟨hbits, hcount, hdata, children⟩ key m
    generalize walk c key m = w at h hat
    cases hat with
    | refused e => cases h
    | leaf start bits length => exact ⟨_, .leaf start bits length⟩
    | @fork k left right code label after others start bits length refs =>
      obtain ⟨hleft, hright⟩ := Walk.failure_andThen h
      obtain ⟨ls, hls⟩ := ih left (by simp [refs]) hleft
      obtain ⟨rs, hrs⟩ := ih right (by simp [refs]) hright
      exact ⟨_, .fork start bits length refs hls hrs⟩

/-- All keys of a dictionary are of one length. -/
theorem Edge.length_path {leaves : List Leaf} (h : Edge m c leaves) : ∀ l ∈ leaves, l.path.length = m := by
  induction h with
  | leaf _ _ length => simpa using length
  | @fork m k c left right code label after others ls rs start bits length refs _ _ ihl ihr =>
    have hunder : ∀ (bit : Bool) (l : Leaf), l.path.length = k → (l.under (label ++ [bit])).path.length = m := by
      intro bit l hl
      simp only [Leaf.under, List.length_append, List.length_singleton, hl]
      exact length
    intro l hl
    rcases List.mem_append.mp hl with hl | hl
    · obtain ⟨l, hmem, rfl⟩ := List.mem_map.mp hl
      exact hunder false l (ihl l hmem)
    · obtain ⟨l, hmem, rfl⟩ := List.mem_map.mp hl
      exact hunder true l (ihr l hmem)

/-- An edge has bits, because its label takes some. -/
theorem Edge.bits_ne_nil {leaves : List Leaf} (h : Edge m c leaves) : c.bits ≠ [] := by
  have hlabel : ∀ {code label after : List Bool}, Label m code label → c.bits = code ++ after → c.bits ≠ [] := by
    intro code label after start bits
    rw [bits]
    cases start with
    | short _ => exact List.cons_ne_nil _ _
    | long _ _ _ => exact List.cons_ne_nil _ _
    | same _ _ _ => exact List.cons_ne_nil _ _
  cases h with
  | leaf start bits _ => exact hlabel start bits
  | fork start bits _ _ _ _ => exact hlabel start bits

/-- The values of a dictionary are windows of its cells. -/
theorem Edge.sound_value {leaves : List Leaf} (h : Edge m c leaves) (hc : c.WellFormed) :
    ∀ l ∈ leaves, l.value.Sound := by
  induction h with
  | @leaf m c code label after start bits length =>
    have hcode : code.length ≤ c.bitLen := by
      rw [← hc.length_bits, bits, List.length_append]
      exact Nat.le_add_right _ _
    simpa using Slice.Sound.mk ⟨hcode, Nat.le_refl _, Nat.zero_le _, Nat.le_refl _⟩ hc
  | @fork m k c left right code label after others ls rs start bits length refs _ _ ihl ihr =>
    intro l hl
    rcases List.mem_append.mp hl with hl | hl
    · obtain ⟨l, hmem, rfl⟩ := List.mem_map.mp hl
      exact ihl (hc.of_mem_refs (by simp [refs])) l hmem
    · obtain ⟨l, hmem, rfl⟩ := List.mem_map.mp hl
      exact ihr (hc.of_mem_refs (by simp [refs])) l hmem

end Edges

/-! ## Dictionaries -/

theorem read_of_edge {root : Cell} (hroot : root.WellFormed) {n : Nat} {leaves : List Leaf} (h : Edge n root leaves) :
    read (some root) n = .ok (leaves.map Leaf.entry) := by
  have hwalk : walk root 0 n = ⟨leaves.map Leaf.entry, none⟩ := walk_of_edge h hroot []
  rw [read, entries, hwalk]

theorem failure_of_read {root : Cell} {n : Nat} {es : List Entry} (h : read (some root) n = .ok es) :
    (walk root 0 n).failure = none := by
  cases hfail : (walk root 0 n).failure with
  | none => rfl
  | some e =>
    rw [read, entries, hfail] at h
    cases h

/-- **A dictionary is read if and only if the grammar derives it.** The entries are then the leaves of the derivation,
each under the key of `n` bits that its path spells, and otherwise the dictionary is refused. -/
theorem read_iff_edge {root : Cell} (hroot : root.WellFormed) (n : Nat) :
    (∀ es, read (some root) n = .ok es ↔ ∃ leaves, Edge n root leaves ∧ es = leaves.map Leaf.entry) ∧
      ((∃ e, read (some root) n = .error e) ↔ ∀ leaves, ¬Edge n root leaves) ∧
      ∀ leaves, Edge n root leaves → ∀ l ∈ leaves, l.path.length = n := by
  refine ⟨?_, ?_, fun _ h => h.length_path⟩
  · intro es
    constructor
    · intro h
      obtain ⟨leaves, hedge⟩ := exists_edge hroot (failure_of_read h)
      rw [read_of_edge hroot hedge] at h
      cases h
      exact ⟨leaves, hedge, rfl⟩
    · rintro ⟨leaves, hedge, rfl⟩
      exact read_of_edge hroot hedge
  · constructor
    · rintro ⟨e, he⟩ leaves hedge
      cases he.symm.trans (read_of_edge hroot hedge)
    · intro hnone
      cases hread : read (some root) n with
      | error e => exact ⟨e, rfl⟩
      | ok es =>
        obtain ⟨leaves, hedge⟩ := exists_edge hroot (failure_of_read hread)
        exact absurd hedge (hnone leaves)

/-- Keys of two bits below a fork with more bits and references than it needs: one leaf has a label in unary, the other
a repeated bit and a reference. -/
theorem entries_of_fork :
    let empty : Cell := ⟨[], 0, [], false⟩
    let left : Cell := ⟨[0x5f], 8, [], false⟩
    let right : Cell := ⟨[0xd3], 8, [empty], false⟩
    let root : Cell := ⟨[0x20], 3, [left, right, empty], false⟩
    root.WellFormed ∧ read (some root) 2 = .ok [⟨1, ⟨left, 4, 8, 0, 0⟩⟩, ⟨2, ⟨right, 4, 8, 0, 1⟩⟩] := by
  intro empty left right root
  have hempty : empty.WellFormed := .intro (by decide) (by decide) (by decide) (by simp [empty])
  have hleft : left.WellFormed := .intro (by decide) (by decide) (by decide) (by simp [left])
  have hright : right.WellFormed := .intro (by decide) (by decide) (by decide) (by simpa [right] using hempty)
  have hroot : root.WellFormed :=
    .intro (by decide) (by decide) (by decide) (by simpa [root] using ⟨hleft, hright, hempty⟩)
  have hshort : Label 1 [false, true, false, true] [true] := @Label.short 1 [true] (by decide)
  have hsame : Label 1 [true, true, false, true] [false] := .same (by decide) rfl rfl
  have hbare : Label 2 [false, false] [] := @Label.short 2 [] (by decide)
  have hzero : Edge 1 left [⟨[true], ⟨left, 4, 8, 0, 0⟩⟩] :=
    .leaf hshort (show left.bits = _ ++ [true, true, true, true] by decide) rfl
  have hone : Edge 1 right [⟨[false], ⟨right, 4, 8, 0, 1⟩⟩] :=
    .leaf hsame (show right.bits = _ ++ [false, false, true, true] by decide) rfl
  have hedge := Edge.fork hbare (show root.bits = _ ++ [true] by decide) rfl rfl hzero hone
  exact ⟨hroot, ((read_iff_edge hroot 2).1 _).mpr ⟨_, hedge, rfl⟩⟩

end TvmCode.Dictionary
