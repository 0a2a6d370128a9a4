import TvmCode.Cell.Slice
import TvmCode.Note

/-!
# Dictionaries

A dictionary with keys of `n` bits is a tree of edges. An edge is a cell that starts with a label, the key bits common
to all its entries, in one of three forms: a unary length and the bits, a binary length and the bits, or one bit
repeated. If the label uses up the key, the rest of the cell is the value; otherwise the first two references are the
edges for the next key bit. `Dictionary.entries` lists the entries from left to right, which is by increasing key, up
to the first edge that is malformed.
-/

namespace TvmCode

/-- Why a cell is no dictionary. -/
inductive DictionaryError where
  /-- A label runs past the end of its cell. -/
  | truncated (fault : Fault)
  /-- A label is longer than the key bits left. -/
  | labelTooLong (length : Nat) (limit : Int)
  /-- A fork has fewer than two references. -/
  | brokenFork (key refs : Nat)

/-- The wording of a refusal. -/
def DictionaryError.message : DictionaryError → String
  | .truncated fault => s!"malformed dictionary edge: {fault.message}"
  | .labelTooLong length limit => s!"label length {length} exceeds {limit}"
  | .brokenFork key refs => s!"fork node at key prefix {Text.hexMarked key} has {refs} references"

namespace Dictionary

/-- A reader of the front of an edge. -/
abbrev Reader := StateT Slice (Except DictionaryError)

/-- The next bits of an edge as a number. -/
def bits (width : Nat) : Reader Nat := fun s =>
  match s.readNat width with
  | .ok r => .ok r
  | .error f => .error (.truncated f)

/-- A bit that was read is gone. -/
theorem remainingBits_lt_of_bits {s rest : Slice} {b : Nat} (h : bits 1 s = .ok (b, rest)) :
    rest.remainingBits < s.remainingBits := by
  simp only [bits, Slice.readNat, Slice.requireBits] at h
  split at h
  · rename_i r hr
    split at hr
    · cases hr
    · cases hr; cases h
      simp only [Slice.remainingBits, Slice.dropBits]
      omega
  · cases h

/-- The number of one bits up to the next zero, which is taken too. -/
def unary : Reader Nat := fun s =>
  match _h : bits 1 s with
  | .error e => .error e
  | .ok (0, rest) => .ok (0, rest)
  | .ok (_ + 1, rest) => (unary rest).map fun (n, last) => (n + 1, last)
termination_by s => s.remainingBits
decreasing_by exact remainingBits_lt_of_bits ‹_›

/-- The number of bits in which a length up to `limit` is written. -/
def lengthWidth (limit : Int) : Nat :=
  if limit = 0 then 0 else limit.natAbs.log2 + 1

/-- A label's length, which the key bits left bound. -/
def bounded (limit : Int) (length : Nat) : Reader Nat := fun s =>
  if limit < length then .error (.labelTooLong length limit) else .ok (length, s)

/-- A label: its length and its bits as a number. -/
def label (limit : Int) : Reader (Nat × Nat) := do
  if (← bits 1) = 0 then
    let length ← bounded limit (← unary)
    return (length, ← bits length)
  else if (← bits 1) = 0 then
    let length ← bounded limit (← bits (lengthWidth limit))
    return (length, ← bits length)
  else
    let bit ← bits 1
    let length ← bounded limit (← bits (lengthWidth limit))
    return (length, if bit = 1 then (1 <<< length) - 1 else 0)

/-- An entry: its key and the slice of its value, with the references of the leaf. -/
structure Entry where
  key : Nat
  value : Slice

/-- The entries found, and what was met after them if the dictionary is malformed. -/
structure Walk where
  entries : List Entry
  failure : Option DictionaryError

namespace Walk

/-- Goes on after a walk that met no failure. -/
def andThen (w : Walk) (next : Unit → Walk) : Walk :=
  match w.failure with
  | some _ => w
  | none =>
    let rest := next ()
    ⟨w.entries ++ rest.entries, rest.failure⟩

end Walk

/-- The entries below an edge, where `key` is spelled by the path to it and `limit` key bits are left. -/
def walk (edge : Cell) (key : Nat) (limit : Int) : Walk :=
  match label limit (Slice.ofCell edge) with
  | .error e => ⟨[], some e⟩
  | .ok ((length, bits), rest) =>
    let key := (key <<< length) + bits
    if limit = length then ⟨[⟨key, rest⟩], none⟩
    else match h : edge.refs with
      | left :: right :: _ =>
        (walk left (key * 2) (limit - length - 1)).andThen fun _ => walk right (key * 2 + 1) (limit - length - 1)
      | refs => ⟨[], some (.brokenFork key refs.length)⟩
termination_by sizeOf edge
decreasing_by all_goals exact Cell.sizeOf_lt_of_mem_refs (by simp [h])

/-- The entries of a dictionary; without a cell it is empty. -/
def entries (root : Option Cell) (keyBits : Int) : Walk :=
  match root with
  | none => ⟨[], none⟩
  | some edge => walk edge 0 keyBits

/-- All the entries of a dictionary, if it is well formed. -/
def read (root : Option Cell) (keyBits : Int) : Except DictionaryError (List Entry) :=
  let w := entries root keyBits
  match w.failure with
  | some e => .error e
  | none => .ok w.entries

/-- What is reported of a dictionary once it is read. -/
def notes (keyBits : Int) : Except DictionaryError (List Entry) → List Note
  | .ok es => [.dictionaryRead keyBits es.length]
  | .error _ => []

end Dictionary

end TvmCode
