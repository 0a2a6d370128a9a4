import TvmCode.Cell.Slice

/-!
# Dispatch tables

A table says what each next byte of an instruction, as a number below 256, leads to: nothing, the instruction itself,
or a further table for the byte after it. Tables are declared by records, and `Table.build` refuses a declaration in
which two records of the same level cover one byte or a code is no byte. `Table.find?` looks at the bytes at the front
of a slice.
-/

namespace TvmCode

/-- What a byte leads to. -/
inductive Slot (α : Type) where
  | vacant
  | leaf (a : α)
  | table (next : Nat → Slot α)

/-- What each byte leads to. -/
abbrev Table (α : Type) := Nat → Slot α

/-- A declaration: something under one byte, something under every byte of a range `lo ≤ · < hi`, or a table of its
own under one byte. -/
inductive Record (α : Type) where
  | byte (code : Int) (a : α)
  | span (lo hi : Int) (a : α)
  | group (code : Int) (records : List (Record α))

/-- Why records make no table. -/
inductive Conflict where
  /-- A range is empty or leaves the bytes. -/
  | badRange (lo hi : Int) (path : List Int)
  /-- A code is no byte. -/
  | notByte (code : Int)
  /-- Two records cover the byte at the end of the path. -/
  | twice (path : List Int)

/-- The bytes on the way to a slot. -/
def pathText (path : List Int) : String :=
  String.intercalate " " (path.map (Text.hexNumeral "" 2))

/-- The wording of a refusal. -/
def Conflict.message : Conflict → String
  | .badRange lo hi path =>
    s!"bad range {Text.hexMarked lo}..{Text.hexMarked hi} at {pathText (path ++ [lo])}"
  | .notByte code => s!"opcode byte {Text.hexMarked code} out of range"
  | .twice path => s!"opcode {pathText path} registered twice"

namespace Record

variable {α β : Type}

mutual

/-- The same declaration of other things. -/
def map (f : α → β) : Record α → Record β
  | .byte code a => .byte code (f a)
  | .span lo hi a => .span lo hi (f a)
  | .group code records => .group code (mapList f records)

/-- The same declarations of other things. -/
def mapList (f : α → β) : List (Record α) → List (Record β)
  | [] => []
  | r :: rs => map f r :: mapList f rs

end

end Record

namespace Slot

variable {α : Type}

/-- Nothing is filed here. -/
def isVacant : Slot α → Bool
  | .vacant => true
  | _ => false

/-- How many ways lead from here to something that is filed. -/
def count : Slot α → Nat
  | .vacant => 0
  | .leaf _ => 1
  | .table next => ((List.range 256).map fun b => (next b).count).sum

/-- What the bytes at the front of a slice lead to from here. -/
def find? : Slot α → Slice → Option α
  | .vacant, _ => none
  | .leaf a, _ => some a
  | .table next, s =>
    if 8 ≤ s.remainingBits then (next (s.cell.bitsAt s.bitPos 8)).find? (s.dropBits 8) else none

/-- The slot that a way of bytes leads to; there is none if it goes on after something that is filed. -/
def follow? : Slot α → List Nat → Option (Slot α)
  | slot, [] => some slot
  | .table next, b :: path => (next b).follow? path
  | _, _ :: _ => none

end Slot

namespace Table

variable {α : Type}

/-- Nothing is filed. -/
def empty : Table α := fun _ => .vacant

/-- Files something under a byte that is still vacant; `path` are the bytes before it. -/
def place (path : List Int) (code : Int) (target : Slot α) (t : Table α) : Except Conflict (Table α) :=
  if code < 0 ∨ 255 < code then .error (.notByte code)
  else if (t code.toNat).isVacant then .ok fun b => if b = code.toNat then target else t b
  else .error (.twice (path ++ [code]))

/-- Files something under `count` bytes from `lo` on. -/
def placeFrom (path : List Int) (a : α) (lo : Int) : Nat → Table α → Except Conflict (Table α)
  | 0, t => .ok t
  | count + 1, t => do placeFrom path a (lo + 1) count (← place path lo (.leaf a) t)

mutual

/-- Adds one record to a table. -/
def add (path : List Int) : Record α → Table α → Except Conflict (Table α)
  | .byte code a, t => place path code (.leaf a) t
  | .span lo hi a, t =>
    if 0 ≤ lo ∧ lo < hi ∧ hi ≤ 256 then placeFrom path a lo (hi - lo).toNat t else .error (.badRange lo hi path)
  | .group code records, t => do place path code (.table (← addAll (path ++ [code]) records empty)) t

/-- Adds records to a table, one after the other. -/
def addAll (path : List Int) : List (Record α) → Table α → Except Conflict (Table α)
  | [], t => .ok t
  | r :: rs, t => do addAll path rs (← add path r t)

end

/-- The table that records declare. -/
def build (records : List (Record α)) : Except Conflict (Table α) := addAll [] records empty

/-- The table that records declare; if they make none, nothing is filed. -/
@[inline] def ofRecords (records : List (Record α)) : Table α :=
  match build records with
  | .ok t => t
  | .error _ => empty

/-- What the bytes at the front of a slice lead to. -/
def find? (t : Table α) (s : Slice) : Option α := (Slot.table t).find? s

/-- How many ways of bytes lead to something that is filed. -/
def count (t : Table α) : Nat := (Slot.table t).count

end Table

end TvmCode
