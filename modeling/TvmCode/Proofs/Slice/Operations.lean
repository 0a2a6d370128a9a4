import TvmCode.Proofs.Decoder

/-!
# Operations on slices

What can be done with a slice (`Slice.Op`), and what comes of it: `Slice.Op.run` gives an answer or a fault, and the
slice as it stands then.

`Slice.Op.watched` is what an operation does action by action: it looks at the bounds, looks up bits or a reference in
the cell, moves on, and makes a window. There it would be noticed if a look-up missed the cell or bounds made no window.
Each operation has one lemma, which says that within a cell neither happens, and what is left: the operation moves on
within its window and makes windows inside it, or it asks for more bits or references than are left (`Slice.Safe`), in
the numbers it may ask for (`Slice.Op.Asks`). For all operations this is `Slice.Op.safe_run`; one that fails has taken
nothing, unless it reads an integer literal (`Slice.Op.slice_of_error`).
-/

namespace TvmCode.Slice

/-! ## Operations -/

/-- What can be done with a slice. -/
inductive Op where
  | peekNat (width : Int)
  | readNat (width : Int)
  | readInt (width : Int)
  | readByte
  | readBits (width : Int)
  | readSlice (bits refs : Int)
  | reference (index : Int)
  | descend (index : Int)
  | copy
  | trimMarker
  | toHex
  | bigInt

/-- The numbers of bits or references that an operation may ask for. -/
def Op.Asks : Op → Int → Prop
  | .peekNat width, n | .readNat width, n | .readInt width, n | .readBits width, n => n = width
  | .readByte, n => n = 8
  | .readSlice bits refs, n => n = bits ∨ n = refs
  | .reference index, n | .descend index, n => n = index + 1
  | .copy, _ | .trimMarker, _ | .toHex, _ => False
  | .bigInt, n => n = 8 ∨ ∃ l : Nat, l < 32 ∧ n = 8 * (l + 2)

/-- What an operation gives. -/
inductive Answer where
  | number (n : Int)
  | text (t : String)
  | cell (c : Cell)
  | slice (s : Slice)

/-- What reads a slice and may fail; the slice stands as it was left also then. -/
abbrev Reading := EStateM Fault Slice

namespace Reading

variable {α : Type}

/-- Takes something from the slice; on failure nothing is taken. -/
def take (read : Slice → Except Fault (α × Slice)) : Reading α := fun s =>
  match read s with
  | .ok (a, rest) => .ok a rest
  | .error f => .error f s

/-- Looks at something and leaves it in place. -/
def peek (read : Slice → Except Fault α) : Reading α := take fun s => (read s).map fun a => (a, s)

/-- A decoder that starts without notes, of which none are kept. -/
def ofDecoder (d : Decoder α) : Reading α := fun s =>
  match d ⟨s, []⟩ with
  | .ok a c => .ok a c.slice
  | .error f c => .error f c.slice

end Reading

/-- Carries out an operation. -/
def Op.run : Op → Reading Answer
  | .peekNat width => return .number (← .peek (·.peekNat width))
  | .readNat width => return .number (← .take (·.readNat width))
  | .readInt width => return .number (← .take (·.readInt width))
  | .readByte => return .number (← .take (·.readNat 8))
  | .readBits width => return .slice (← .take (·.readBits width))
  | .readSlice bits refs => return .slice (← .take (·.readSlice bits refs))
  | .reference index => return .cell (← .peek (·.reference index))
  | .descend index => return .cell (← .take (·.descend index))
  | .copy => return .slice (← get)
  | .trimMarker => return .slice (← get).trimMarker
  | .toHex => return .text (← get).toHex
  | .bigInt => return .number (← .ofDecoder Decoder.bigInt)

/-! ## Operations action by action -/

/-- What can go wrong while an operation is carried out: a fault, bounds that make no window, or a look-up of bits or of
a reference that the cell does not have. -/
inductive Trouble where
  | fault (f : Fault)
  | window (e : WindowError)
  | bits (pos width : Int)
  | ref (index : Int)

/-- Actions on a slice, which stands as they left it also when something goes wrong. -/
abbrev Watched := EStateM Trouble Slice

namespace Watched

/-- A look at the bounds. -/
def require {α : Type} (check : Slice → Except Fault α) : Watched Unit := fun s =>
  match check s with
  | .ok _ => .ok () s
  | .error f => .error (.fault f) s

/-- A run of bits of the cell as a number. -/
def bitsAt (pos width : Int) : Watched Nat := fun s =>
  if 0 ≤ pos ∧ 0 ≤ width ∧ pos + width ≤ s.cell.bitLen then .ok (s.cell.bitsAt pos.toNat width.toNat) s
  else .error (.bits pos width) s

/-- A reference of the cell. -/
def refAt (index : Int) : Watched Cell := fun s =>
  if 0 ≤ index ∧ index < s.cell.refs.length then .ok (s.cell.refs.getD index.toNat default) s
  else .error (.ref index) s

/-- A window of the cell. -/
def window (bitPos bitEnd refPos refEnd : Int) : Watched Slice := fun s =>
  match ofBounds s.cell bitPos bitEnd refPos refEnd with
  | .ok t => .ok t s
  | .error e => .error (.window e) s

/-- Moves on by some bits and references. -/
def move (bits refs : Int) : Watched Unit :=
  modify fun s => { s with bitPos := (s.bitPos + bits).toNat, refPos := (s.refPos + refs).toNat }

def peekNat (width : Int) : Watched Nat := do
  require (·.requireBits width)
  bitsAt (← get).bitPos width

def readNat (width : Int) : Watched Nat := do
  let n ← peekNat width
  move width 0
  return n

def readInt (width : Int) : Watched Int := return signed (← readNat width) width.toNat

def readBits (width : Int) : Watched Slice := do
  require (·.requireBits width)
  let s ← get
  move width 0
  window s.bitPos (s.bitPos + width) s.refPos s.refPos

def readSlice (bits refs : Int) : Watched Slice := do
  require (·.requireBits bits)
  if refs ≠ 0 then
    require (·.requireRef (refs - 1))
  let s ← get
  move bits refs
  window s.bitPos (s.bitPos + bits) s.refPos (s.refPos + refs)

def reference (index : Int) : Watched Cell := do
  require (·.requireRef index)
  refAt ((← get).refPos + index)

def descend (index : Int) : Watched Cell := do
  let c ← reference index
  move 0 (index + 1)
  return c

def copy : Watched Slice := do
  let s ← get
  window s.bitPos s.bitEnd s.refPos s.refEnd

def trimMarker : Watched Slice := do
  let s ← get
  let value ← bitsAt s.bitPos (s.bitEnd - s.bitPos)
  window s.bitPos (if value = 0 then (s.bitPos : Int) else s.bitEnd - (trailingZeros value + 1)) s.refPos s.refPos

def toHex : Watched String := do
  let s ← get
  let width : Int := s.bitEnd - s.bitPos
  return hexOfBits (← bitsAt s.bitPos width) width.toNat

def bigInt : Watched Int := do
  let header ← readNat 8
  let tailBits := (header / 8 + 2) * 8
  let tail ← readNat tailBits
  return signed (((header % 8) <<< tailBits) + tail) (tailBits + 3)

end Watched

/-- Carries out an operation action by action. -/
def Op.watched : Op → Watched Answer
  | .peekNat width => return .number (← Watched.peekNat width)
  | .readNat width => return .number (← Watched.readNat width)
  | .readInt width => return .number (← Watched.readInt width)
  | .readByte => return .number (← Watched.readNat 8)
  | .readBits width => return .slice (← Watched.readBits width)
  | .readSlice bits refs => return .slice (← Watched.readSlice bits refs)
  | .reference index => return .cell (← Watched.reference index)
  | .descend index => return .cell (← Watched.descend index)
  | .copy => return .slice (← Watched.copy)
  | .trimMarker => return .slice (← Watched.trimMarker)
  | .toHex => return .text (← Watched.toHex)
  | .bigInt => return .number (← Watched.bigInt)

/-! ## Bounds -/

/-- Bounds that make a window make one within the cell. -/
theorem valid_of_ofBounds {c : Cell} {bitPos bitEnd refPos refEnd : Int} {s : Slice}
    (h : ofBounds c bitPos bitEnd refPos refEnd = .ok s) : s.Valid := by
  unfold ofBounds at h
  simp only at h
  generalize (if bitEnd < 0 then (c.bitLen : Int) else bitEnd) = bitStop at h
  generalize (if refEnd < 0 then (c.refs.length : Int) else refEnd) = refStop at h
  split at h
  · cases h
  · split at h
    · cases h
    · cases h
      simp only [Valid]
      omega

/-- The bounds of a window within its cell make this window. -/
theorem ofBounds_self {s : Slice} (hs : s.Valid) : ofBounds s.cell s.bitPos s.bitEnd s.refPos s.refEnd = .ok s := by
  unfold Valid at hs
  simp only [ofBounds]
  rw [if_neg (by omega), if_neg (by omega), if_neg (by omega), if_neg (by omega)]
  rfl

/-- Either the bits are there, or the slice runs out of them. -/
theorem requireBits_cases (s : Slice) (width : Int) :
    (∃ w : Nat, width = w ∧ s.bitPos + w ≤ s.bitEnd ∧ s.requireBits width = .ok w) ∨
      s.requireBits width = .error (.short s.bitPos width .bits) := by
  unfold requireBits
  split
  · exact Or.inr rfl
  · exact Or.inl ⟨width.toNat, by omega, by omega, rfl⟩

/-- Either the reference is there, or the slice runs out of them. -/
theorem requireRef_cases (s : Slice) (index : Int) :
    (∃ i : Nat, index = i ∧ s.refPos + i < s.refEnd ∧ s.requireRef index = .ok i) ∨
      s.requireRef index = .error (.short s.bitPos (index + 1) .refs) := by
  unfold requireRef
  split
  · exact Or.inr rfl
  · exact Or.inl ⟨index.toNat, by omega, by omega, rfl⟩

/-- One after the other, for actions and readings. -/
theorem bind_apply {ε α β : Type} (x : EStateM ε Slice α) (f : α → EStateM ε Slice β) (s : Slice) :
    (x >>= f) s = match x s with
      | .ok a t => f a t
      | .error e t => .error e t := by
  show EStateM.bind x f s = _
  unfold EStateM.bind
  cases x s <;> rfl

namespace Watched

variable {α : Type} {s t : Slice}

theorem require_of_ok {check : Slice → Except Fault α} {a : α} (h : check s = .ok a) :
    require check s = .ok () s := by
  simp only [require, h]

theorem require_of_error {check : Slice → Except Fault α} {f : Fault} (h : check s = .error f) :
    require check s = .error (.fault f) s := by
  simp only [require, h]

theorem bitsAt_apply {pos width : Nat} (h : pos + width ≤ s.cell.bitLen) :
    bitsAt pos width s = .ok (s.cell.bitsAt pos width) s := by
  rw [bitsAt, if_pos (by omega), Int.toNat_natCast, Int.toNat_natCast]

theorem refAt_apply {index : Nat} (h : index < s.cell.refs.length) :
    refAt index s = .ok (s.cell.refs.getD index default) s := by
  rw [refAt, if_pos (by omega), Int.toNat_natCast]

theorem move_apply (bits refs : Nat) (s : Slice) : move bits refs s = .ok () ((s.dropBits bits).dropRefs refs) := by
  have hbits : ((s.bitPos : Int) + bits).toNat = s.bitPos + bits := by omega
  have hrefs : ((s.refPos : Int) + refs).toNat = s.refPos + refs := by omega
  show EStateM.Result.ok ()
    { s with bitPos := (s.bitPos + bits : Int).toNat, refPos := (s.refPos + refs : Int).toNat } = _
  rw [hbits, hrefs]
  rfl

theorem window_apply (ht : t.Valid) (hcell : t.cell = s.cell) :
    window t.bitPos t.bitEnd t.refPos t.refEnd s = .ok t s := by
  rw [window, ← hcell, ofBounds_self ht]

end Watched

namespace Reading

/-- An integer is read as the number of its bits. -/
theorem take_readInt (width : Int) :
    (take (·.readInt width) : Reading Int) = do return signed (← take (·.readNat width)) width.toNat := by
  funext s
  rw [bind_apply]
  rcases requireBits_cases s width with ⟨w, rfl, -, hroom⟩ | hroom
  · simp only [take, Slice.readInt, Slice.readNat, hroom]
    rfl
  · simp only [take, Slice.readInt, Slice.readNat, hroom]
    rfl

theorem ofDecoder_nat_bind {α : Type} (width : Int) (f : Nat → Decoder α) :
    ofDecoder (Decoder.nat width >>= f) = take (·.readNat width) >>= fun n => ofDecoder (f n) := by
  funext s
  rw [bind_apply]
  simp only [ofDecoder, Decoder.bind_apply, Decoder.nat, Decoder.take, take]
  cases s.readNat width <;> rfl

end Reading

/-! ## What an operation comes to -/

/-- A window within its cell and inside another window of this cell. -/
structure Within (t s : Slice) : Prop where
  valid : t.Valid
  cell : t.cell = s.cell
  bitPos : s.bitPos ≤ t.bitPos
  bitEnd : t.bitEnd ≤ s.bitEnd
  refPos : s.refPos ≤ t.refPos
  refEnd : t.refEnd ≤ s.refEnd

theorem Valid.within_self {s : Slice} (hs : s.Valid) : s.Within s := ⟨hs, rfl, le_rfl, le_rfl, le_rfl, le_rfl⟩

/-- The first bits and references are a window inside. -/
theorem Valid.within_part {s : Slice} (hs : s.Valid) {w n : Nat} (hw : s.bitPos + w ≤ s.bitEnd)
    (hn : s.refPos + n ≤ s.refEnd) : Within ⟨s.cell, s.bitPos, s.bitPos + w, s.refPos, s.refPos + n⟩ s := by
  unfold Valid at hs
  refine ⟨?_, rfl, le_rfl, hw, le_rfl, hn⟩
  simp only [Valid]
  omega

theorem Advance.valid {s t : Slice} (h : s.Advance t) (hs : s.Valid) : t.Valid := by
  obtain ⟨a, b, ha, hb, rfl⟩ := h
  unfold Valid at hs
  unfold remainingBits at ha
  unfold remainingRefs at hb
  simp only [Valid, Slice.dropBits, Slice.dropRefs]
  omega

/-- The first bits and references are left behind. -/
theorem Advance.of_room {s : Slice} {w n : Nat} (hw : s.bitPos + w ≤ s.bitEnd) (hn : s.refPos + n ≤ s.refEnd) :
    s.Advance ((s.dropBits w).dropRefs n) := by
  refine ⟨w, n, ?_, ?_, rfl⟩
  · unfold remainingBits
    omega
  · unfold remainingRefs
    omega

/-- At a slice, the actions and the reading come to the same: to a result with the property `P`, further on in the
window, or to a fault because fewer bits or references are left than were asked for, a number with the property `W`. -/
inductive Safe {α : Type} (W : Int → Prop) (P : α → Prop) (s : Slice) (x : Watched α) (y : Reading α) : Prop
  | ok {a : α} {t : Slice} (watched : x s = .ok a t) (read : y s = .ok a t) (good : P a) (later : s.Advance t)
  | error {offset : Nat} {width : Int} {kind : Supply} {t : Slice} (asked : W width)
      (watched : x s = .error (.fault (.short offset width kind)) t)
      (read : y s = .error (.short offset width kind) t) (later : s.Advance t)

namespace Safe

variable {α β : Type} {W : Int → Prop} {P : α → Prop} {Q : β → Prop} {s : Slice} {x : Watched α} {y : Reading α}

theorem bind {g : α → Watched β} {h : α → Reading β} (hxy : Safe W P s x y)
    (hgh : ∀ a t, P a → s.Advance t → Safe W Q t (g a) (h a)) : Safe W Q s (x >>= g) (y >>= h) := by
  cases hxy with
  | @ok a t watched read good later =>
    have hx : (x >>= g) s = g a t := by rw [bind_apply, watched]
    have hy : (y >>= h) s = h a t := by rw [bind_apply, read]
    cases hgh a t good later with
    | ok watched' read' good' later' => exact .ok (hx.trans watched') (hy.trans read') good' (later.trans later')
    | error asked' watched' read' later' =>
      exact .error asked' (hx.trans watched') (hy.trans read') (later.trans later')
  | @error offset width kind t asked watched read later =>
    have hx : (x >>= g) s = .error (.fault (.short offset width kind)) t := by rw [bind_apply, watched]
    have hy : (y >>= h) s = .error (.short offset width kind) t := by rw [bind_apply, read]
    exact .error asked hx hy later

theorem pure {a : α} (h : P a) : Safe W P s (pure a) (pure a) := .ok rfl rfl h (.refl s)

theorem map (hxy : Safe W P s x y) {g : α → β} (hg : ∀ a, P a → Q (g a)) :
    Safe W Q s (do return g (← x)) (do return g (← y)) :=
  hxy.bind fun a _ ha _ => pure (hg a ha)

/-- Something is taken. -/
theorem taken {read : Slice → Except Fault (α × Slice)} {a : α} {t : Slice} (hx : x s = .ok a t)
    (hread : read s = .ok (a, t)) (good : P a) (later : s.Advance t) : Safe W P s x (.take read) :=
  .ok hx (by simp only [Reading.take, hread]) good later

/-- Too little is left, and nothing is taken. -/
theorem short {read : Slice → Except Fault (α × Slice)} {offset : Nat} {width : Int} {kind : Supply} (asked : W width)
    (hx : x s = .error (.fault (.short offset width kind)) s) (hread : read s = .error (.short offset width kind)) :
    Safe W P s x (.take read) :=
  .error asked hx (by simp only [Reading.take, hread]) (.refl s)

theorem watched_eq (h : Safe W P s x y) : x s = EStateM.adaptExcept Trouble.fault y s := by
  unfold EStateM.adaptExcept
  cases h with
  | ok watched read _ _ => rw [watched, read]
  | error _ watched read _ => rw [watched, read]

end Safe

/-! ## Each operation -/

section Operations

open Watched

variable {W : Int → Prop} {s : Slice} (hs : s.Valid)

include hs

/-- Bits are looked at where there are enough. -/
theorem peekNat_of_room {w : Nat} (hw : s.bitPos + w ≤ s.bitEnd) (hroom : s.requireBits w = .ok w) :
    Watched.peekNat w s = .ok (s.cell.bitsAt s.bitPos w) s := by
  have hend := hs.2.1
  rw [Watched.peekNat, bind_apply, require_of_ok hroom]
  exact bitsAt_apply (by omega)

theorem safe_peekNat {width : Int} (hW : W width) :
    Safe W (fun _ => True) s (Watched.peekNat width) (.peek (·.peekNat width)) := by
  rcases requireBits_cases s width with ⟨w, rfl, hw, hroom⟩ | hroom
  · exact .taken (peekNat_of_room hs hw hroom) (by simp only [Slice.peekNat, hroom]; rfl) trivial (.refl s)
  · refine .short hW ?_ (by simp only [Slice.peekNat, hroom]; rfl)
    rw [Watched.peekNat, bind_apply, require_of_error hroom]

theorem safe_readNat {width : Int} (hW : W width) :
    Safe W (· < 2 ^ width.toNat) s (Watched.readNat width) (.take (·.readNat width)) := by
  rcases requireBits_cases s width with ⟨w, rfl, hw, hroom⟩ | hroom
  · refine .taken (t := s.dropBits w) ?_ (by simp only [Slice.readNat, hroom]; rfl) (Cell.bitsAt_lt _ _ _)
      (.of_room (n := 0) hw hs.2.2.1)
    rw [Watched.readNat, bind_apply, peekNat_of_room hs hw hroom]
    simp only [bind_apply]
    rw [show (0 : Int) = (0 : Nat) from rfl, move_apply]
    rfl
  · refine .short hW ?_ (by simp only [Slice.readNat, hroom]; rfl)
    rw [Watched.readNat, bind_apply, Watched.peekNat, bind_apply, require_of_error hroom]

theorem safe_readInt {width : Int} (hW : W width) :
    Safe W (fun _ => True) s (Watched.readInt width) (.take (·.readInt width)) := by
  rw [Reading.take_readInt]
  exact (safe_readNat hs hW).map fun _ _ => trivial

/-- The first bits and references are left behind and make a window. -/
theorem part_of_room {w n : Nat} (hw : s.bitPos + w ≤ s.bitEnd) (hn : s.refPos + n ≤ s.refEnd) :
    (Watched.move w n >>= fun _ => Watched.window s.bitPos (s.bitPos + w) s.refPos (s.refPos + n)) s =
      .ok ⟨s.cell, s.bitPos, s.bitPos + w, s.refPos, s.refPos + n⟩ ((s.dropBits w).dropRefs n) := by
  rw [bind_apply, move_apply]
  exact window_apply (hs.within_part hw hn).valid rfl

theorem safe_readBits {width : Int} (hW : W width) :
    Safe W (Within · s) s (Watched.readBits width) (.take (·.readBits width)) := by
  have hrefs : s.refPos + 0 ≤ s.refEnd := hs.2.2.1
  rcases requireBits_cases s width with ⟨w, rfl, hw, hroom⟩ | hroom
  · refine .taken (t := s.dropBits w) ?_ (by simp only [Slice.readBits, hroom]; rfl) (hs.within_part hw hrefs)
      (.of_room hw hrefs)
    rw [Watched.readBits, bind_apply, require_of_ok hroom]
    exact part_of_room hs hw hrefs
  · refine .short hW ?_ (by simp only [Slice.readBits, hroom]; rfl)
    rw [Watched.readBits, bind_apply, require_of_error hroom]

theorem safe_readSlice {bits refs : Int} (hbitsW : W bits) (hrefsW : W refs) :
    Safe W (Within · s) s (Watched.readSlice bits refs) (.take (·.readSlice bits refs)) := by
  rcases requireBits_cases s bits with ⟨w, rfl, hw, hbits⟩ | hbits
  · by_cases h0 : refs = 0
    · subst h0
      have hrefs : s.refPos + 0 ≤ s.refEnd := hs.2.2.1
      refine .taken (t := s.dropBits w) ?_ (by simp only [Slice.readSlice, hbits]; rfl) (hs.within_part hw hrefs)
        (.of_room hw hrefs)
      rw [Watched.readSlice, bind_apply, require_of_ok hbits]
      exact part_of_room hs hw hrefs
    · rcases requireRef_cases s (refs - 1) with ⟨i, hi, hlt, href⟩ | href
      · obtain rfl : refs = (i + 1 : Nat) := by omega
        have hrefs : s.refPos + (i + 1) ≤ s.refEnd := hlt
        refine .taken (t := (s.dropBits w).dropRefs (i + 1)) ?_
          (by simp only [Slice.readSlice, hbits, href, if_pos h0]; rfl) (hs.within_part hw hrefs) (.of_room hw hrefs)
        rw [Watched.readSlice, bind_apply, require_of_ok hbits]
        simp only [if_pos h0]
        rw [bind_apply, require_of_ok href]
        exact part_of_room hs hw hrefs
      · rw [show refs - 1 + 1 = refs by omega] at href
        refine .short hrefsW ?_ (by simp only [Slice.readSlice, hbits, href, if_pos h0]; rfl)
        rw [Watched.readSlice, bind_apply, require_of_ok hbits]
        simp only [if_pos h0]
        rw [bind_apply, require_of_error href]
  · refine .short hbitsW ?_ (by simp only [Slice.readSlice, hbits]; rfl)
    rw [Watched.readSlice, bind_apply, require_of_error hbits]

/-- A reference is looked up where it is left. -/
theorem reference_of_room {i : Nat} (hi : s.refPos + i < s.refEnd) (hroom : s.requireRef i = .ok i) :
    Watched.reference i s = .ok (s.cell.refs.getD (s.refPos + i) default) s := by
  have hend := hs.2.2.2
  rw [Watched.reference, bind_apply, require_of_ok hroom]
  exact refAt_apply (by omega)

theorem safe_reference {index : Int} (hW : W (index + 1)) :
    Safe W (fun _ => True) s (Watched.reference index) (.peek (·.reference index)) := by
  rcases requireRef_cases s index with ⟨i, rfl, hi, hroom⟩ | hroom
  · exact .taken (reference_of_room hs hi hroom) (by simp only [Slice.reference, hroom]; rfl) trivial (.refl s)
  · refine .short hW ?_ (by simp only [Slice.reference, hroom]; rfl)
    rw [Watched.reference, bind_apply, require_of_error hroom]

theorem safe_descend {index : Int} (hW : W (index + 1)) :
    Safe W (fun _ => True) s (Watched.descend index) (.take (·.descend index)) := by
  rcases requireRef_cases s index with ⟨i, rfl, hi, hroom⟩ | hroom
  · refine .taken (t := s.dropRefs (i + 1)) ?_ (by simp only [Slice.descend, hroom]; rfl) trivial
      (.of_room (w := 0) hs.1 hi)
    rw [Watched.descend, bind_apply, reference_of_room hs hi hroom]
    show (Watched.move (0 : Nat) (i + 1 : Nat) >>= fun _ => pure (s.cell.refs.getD (s.refPos + i) default)) s = _
    rw [bind_apply, move_apply]
    rfl
  · refine .short hW ?_ (by simp only [Slice.descend, hroom]; rfl)
    rw [Watched.descend, bind_apply, Watched.reference, bind_apply, require_of_error hroom]

theorem safe_copy : Safe W (Within · s) s Watched.copy get :=
  .ok (window_apply hs rfl) rfl hs.within_self (.refl s)

/-- All bits left are looked at. -/
theorem bitsAt_rest : Watched.bitsAt s.bitPos (s.bitEnd - s.bitPos) s = .ok s.value s := by
  obtain ⟨hpos, hend, -, -⟩ := hs
  rw [show (s.bitEnd - s.bitPos : Int) = (s.bitEnd - s.bitPos : Nat) by omega]
  exact bitsAt_apply (by omega)

theorem safe_trimMarker : Safe W (Within · s) s Watched.trimMarker (do return (← get).trimMarker) := by
  have hpos := hs.1
  have hlt : s.value < 2 ^ s.remainingBits := Cell.bitsAt_lt _ _ _
  -- the end is that of the first bits, as many as stand before the last one bit
  obtain ⟨w, hw, hstop, hmarker⟩ : ∃ w : Nat, s.bitPos + w ≤ s.bitEnd ∧
      (if s.value = 0 then (s.bitPos : Int) else s.bitEnd - (trailingZeros s.value + 1)) = s.bitPos + w ∧
      s.trimMarker = ⟨s.cell, s.bitPos, s.bitPos + w, s.refPos, s.refPos⟩ := by
    by_cases h0 : s.value = 0
    · exact ⟨0, hpos, by simp [h0], by simp [trimMarker, h0]⟩
    · have htz := trailingZeros_lt h0 hlt
      unfold remainingBits at htz
      refine ⟨s.bitEnd - s.bitPos - (trailingZeros s.value + 1), by omega, ?_, ?_⟩
      · rw [if_neg h0]
        omega
      · rw [trimMarker, if_neg h0]
        congr 1
        omega
  have hrefs : s.refPos + 0 ≤ s.refEnd := hs.2.2.1
  have hpart := hs.within_part hw hrefs
  refine .ok (a := s.trimMarker) (t := s) ?_ rfl (hmarker ▸ hpart) (.refl s)
  show (Watched.bitsAt s.bitPos (s.bitEnd - s.bitPos) >>= fun value => Watched.window s.bitPos
    (if value = 0 then (s.bitPos : Int) else s.bitEnd - (trailingZeros value + 1)) s.refPos s.refPos) s = _
  rw [bind_apply, bitsAt_rest hs, hmarker]
  simp only [hstop]
  exact window_apply hpart.valid rfl

theorem safe_toHex : Safe W (fun _ => True) s Watched.toHex (do return (← get).toHex) := by
  have hpos := hs.1
  refine .ok (a := s.toHex) (t := s) ?_ rfl trivial (.refl s)
  show (Watched.bitsAt s.bitPos (s.bitEnd - s.bitPos) >>= fun n =>
    pure (hexOfBits n (s.bitEnd - s.bitPos : Int).toNat)) s = _
  rw [bind_apply, bitsAt_rest hs, show (s.bitEnd - s.bitPos : Int).toNat = s.remainingBits by
    unfold remainingBits; omega]
  rfl

theorem safe_bigInt (hbyte : W 8) (htail : ∀ l : Nat, l < 32 → W (8 * (l + 2))) :
    Safe W (fun _ => True) s Watched.bigInt (.ofDecoder Decoder.bigInt) := by
  unfold Watched.bigInt Decoder.bigInt
  rw [Reading.ofDecoder_nat_bind]
  refine (safe_readNat hs hbyte).bind fun header t hlt ht => ?_
  have hheader : header < 2 ^ 8 := hlt
  have hW : W (((header / 8 + 2) * 8 : Nat) : Int) := by
    rw [Nat.mul_comm]
    exact htail (header / 8) (by omega)
  dsimp only
  rw [Reading.ofDecoder_nat_bind]
  exact (safe_readNat (ht.valid hs) hW).map fun _ _ => trivial

/-- **An operation is safe** within a cell: its actions look up what the cell has and make proper windows, it moves on
within the slice and gives windows inside it, or it asks for more bits or references than are left. -/
theorem Op.safe_run (o : Op) : Safe o.Asks (fun a => ∀ u, a = .slice u → u.Within s) s o.watched o.run := by
  have hplain : ∀ {α : Type} {P : α → Prop} {g : α → Answer}, (∀ a u, g a ≠ .slice u) →
      ∀ a, P a → ∀ u, g a = .slice u → u.Within s := fun hg a _ u h => absurd h (hg a u)
  have hslice : ∀ t : Slice, t.Within s → ∀ u, Answer.slice t = .slice u → u.Within s := by
    intro t ht u h
    cases h
    exact ht
  cases o with
  | peekNat width => exact (safe_peekNat hs (.refl _)).map (hplain nofun)
  | readNat width => exact (safe_readNat hs (.refl _)).map (hplain nofun)
  | readInt width => exact (safe_readInt hs (.refl _)).map (hplain nofun)
  | readByte => exact (safe_readNat hs (.refl _)).map (hplain nofun)
  | readBits width => exact (safe_readBits hs (.refl _)).map hslice
  | readSlice bits refs => exact (safe_readSlice hs (Or.inl rfl) (Or.inr rfl)).map hslice
  | reference index => exact (safe_reference hs (.refl _)).map (hplain nofun)
  | descend index => exact (safe_descend hs (.refl _)).map (hplain nofun)
  | copy => exact (safe_copy hs).map hslice
  | trimMarker => exact (safe_trimMarker hs).map hslice
  | toHex => exact (safe_toHex hs).map (hplain nofun)
  | bigInt => exact (safe_bigInt hs (Or.inl rfl) fun l hl => Or.inr ⟨l, hl, rfl⟩).map (hplain nofun)

end Operations

theorem Reading.slice_of_error {α β : Type} {read : Slice → Except Fault (α × Slice)} {g : α → β} {s t : Slice}
    {f : Fault} (h : (do return g (← take read) : Reading β) s = .error f t) : t = s := by
  rw [bind_apply, take] at h
  cases hread : read s with
  | ok p =>
    rw [hread] at h
    cases h
  | error e =>
    rw [hread] at h
    cases h
    rfl

/-- Only an integer literal may be taken in part. -/
theorem Op.slice_of_error {o : Op} (ho : o ≠ .bigInt) {s t : Slice} {f : Fault} (h : o.run s = .error f t) : t = s := by
  cases o with
  | bigInt => exact absurd rfl ho
  | copy => cases h
  | trimMarker => cases h
  | toHex => cases h
  | peekNat _ => exact Reading.slice_of_error h
  | readNat _ => exact Reading.slice_of_error h
  | readInt _ => exact Reading.slice_of_error h
  | readByte => exact Reading.slice_of_error h
  | readBits _ => exact Reading.slice_of_error h
  | readSlice _ _ => exact Reading.slice_of_error h
  | reference _ => exact Reading.slice_of_error h
  | descend _ => exact Reading.slice_of_error h

end TvmCode.Slice
