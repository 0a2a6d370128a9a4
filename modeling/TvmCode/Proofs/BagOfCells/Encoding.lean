import TvmCode.Proofs.BagOfCells.Reading

/-!
# Writing bags of cells

A bag of cells as it is written: a table of cells that refer to later cells of the table by number (`Entry`), the layout
and what goes with it (`Format`), and the choices that do not matter to a reader, such as the stored hashes, the index,
the checksum and what follows (`Bag`). `Bag.encode` gives the bytes. The trees that a table stands for are described by
`Unfolds`.
-/

namespace TvmCode.BagOfCells

/-! ## Cells -/

/-- A cell of a table and the choices that are open when it is written: its level, stored hashes, and whether its data
ends with a completion tag, which only data of whole bytes can do without. -/
structure Entry where
  bits : List Bool
  refs : List Nat
  exotic : Bool
  level : Nat
  hashes : Option (List UInt8)
  tagged : Bool
  bits_le : bits.length ≤ maxBits
  refs_le : refs.length ≤ maxRefs
  level_lt : level < 8
  hashes_length : ∀ bytes ∈ hashes, bytes.length = (popCount3 level + 1) * (32 + 2)
  tagged_of_partial : bits.length % 8 ≠ 0 → tagged = true

namespace Entry

/-- The data bytes, with a completion tag if there is one. -/
def data (e : Entry) : List UInt8 := bytesOfBits (if e.tagged then e.bits ++ [true] else e.bits)

/-- The byte that says how many references there are, and the marks and the level of the cell. -/
def first (e : Entry) : Nat := e.refs.length + 8 * e.exotic.toNat + 16 * e.hashes.isSome.toNat + 32 * e.level

/-- The byte that says how many data bytes there are, and whether the last is completed by a tag. -/
def second (e : Entry) : Nat := 2 * e.data.length - e.tagged.toNat

/-- The bytes of a cell, where `refSize` bytes are used for each reference. -/
def encode (refSize : Nat) (e : Entry) : List UInt8 :=
  bytesOfNat 1 e.first ++ (bytesOfNat 1 e.second ++
    (e.hashes.getD [] ++ (e.data ++ e.refs.flatMap (bytesOfNat refSize))))

/-- The cell as a reader sees it. -/
def raw (e : Entry) : RawCell := ⟨bytesOfBits e.bits, e.bits.length, e.refs, e.exotic⟩

end Entry

/-! ## Headers -/

/-- The layout of a bag, the contents of its index and checksum, and its roots. -/
inductive Format where
  | generic (index checksum : Option (List UInt8)) (cached : Bool) (roots : List Nat)
  | indexed (index : List UInt8)
  | indexedChecked (index checksum : List UInt8)

namespace Format

def layout : Format → Layout
  | .generic _ _ _ _ => .generic
  | .indexed _ => .indexed
  | .indexedChecked _ _ => .indexedChecked

/-- The contents of the index, if there is one. -/
def index : Format → Option (List UInt8)
  | .generic index _ _ _ => index
  | .indexed index => some index
  | .indexedChecked index _ => some index

/-- The bytes of the checksum, if there is one. -/
def checksum : Format → Option (List UInt8)
  | .generic _ checksum _ _ => checksum
  | .indexed _ => none
  | .indexedChecked _ checksum => some checksum

/-- The numbers of the root cells; the indexed layouts have the first cell for a root. -/
def roots : Format → List Nat
  | .generic _ _ _ roots => roots
  | _ => [0]

/-- The byte after the magic number: the size of references, and in the generic layout marks above it. -/
def flags (refSize : Nat) : Format → Nat
  | .generic index checksum cached _ =>
    128 * index.isSome.toNat + 64 * checksum.isSome.toNat + 32 * cached.toNat + refSize
  | _ => refSize

/-- The bytes of the root numbers, which only the generic layout has. -/
def rootBytes (refSize : Nat) : Format → List UInt8
  | .generic _ _ _ roots => roots.flatMap (bytesOfNat refSize)
  | _ => []

end Format

/-- A table of cells and all that is said about it in a serialized bag. -/
structure Bag where
  entries : List Entry
  format : Format
  refSize : Nat
  offsetSize : Nat
  absent : Nat
  trailing : List UInt8
  refSize_pos : 1 ≤ refSize
  refSize_le : refSize ≤ 4
  offsetSize_pos : 1 ≤ offsetSize
  offsetSize_le : offsetSize ≤ 8
  /-- References lead to later cells of the table. -/
  forward : ∀ i e, entries[i]? = some e → ∀ target ∈ e.refs, i < target ∧ target < entries.length
  count_lt : entries.length < 2 ^ (8 * refSize)
  bytes_lt : (entries.flatMap (Entry.encode refSize)).length < 2 ^ (8 * offsetSize)
  roots_pos : 1 ≤ format.roots.length
  roots_le : format.roots.length ≤ entries.length
  roots_lt : ∀ root ∈ format.roots, root < entries.length
  absent_le : absent ≤ entries.length
  index_length : ∀ bytes ∈ format.index, bytes.length = entries.length * offsetSize
  checksum_length : ∀ bytes ∈ format.checksum, bytes.length = 4

/-- The bag of one empty cell. -/
instance : Inhabited Bag where
  default :=
    { entries := [⟨[], [], false, 0, none, false, by decide, by decide, by decide, by simp, by simp⟩]
      format := .generic none none false [0]
      refSize := 1
      offsetSize := 1
      absent := 0
      trailing := []
      refSize_pos := by decide
      refSize_le := by decide
      offsetSize_pos := by decide
      offsetSize_le := by decide
      forward := by
        intro i e he target ht
        obtain rfl := List.mem_singleton.1 (List.mem_of_getElem? he)
        simp at ht
      count_lt := by decide
      bytes_lt := by decide
      roots_pos := by decide
      roots_le := by decide
      roots_lt := by decide
      absent_le := by decide
      index_length := by simp [Format.index]
      checksum_length := by simp [Format.checksum] }

namespace Bag

/-- The bytes of the cells. -/
def cellBytes (b : Bag) : List UInt8 := b.entries.flatMap (Entry.encode b.refSize)

/-- The bytes before the index. -/
def headerBytes (b : Bag) : List UInt8 :=
  bytesOfNat 4 b.format.layout.magic ++ (bytesOfNat 1 (b.format.flags b.refSize) ++ (bytesOfNat 1 b.offsetSize ++
    (bytesOfNat b.refSize b.entries.length ++ (bytesOfNat b.refSize b.format.roots.length ++
      (bytesOfNat b.refSize b.absent ++ (bytesOfNat b.offsetSize b.cellBytes.length ++
        b.format.rootBytes b.refSize))))))

/-- The bytes of a bag and whatever follows them. -/
def encode (b : Bag) : List UInt8 :=
  b.headerBytes ++ (b.format.index.getD [] ++ (b.cellBytes ++ (b.format.checksum.getD [] ++ b.trailing)))

end Bag

example : (default : Bag).encode = [0xb5, 0xee, 0x9c, 0x72, 1, 1, 1, 1, 0, 2, 0, 0, 0] := by decide

/-! ## Trees -/

/-- The tree that the cell with the given number stands for: its bits packed into bytes, its mark, and for its
references in order the trees that they stand for. -/
inductive Unfolds (entries : List Entry) : Nat → Cell → Prop
  | intro {i : Nat} {e : Entry} {c : Cell} (entry : entries[i]? = some e) (data : c.data = bytesOfBits e.bits)
      (bitLen : c.bitLen = e.bits.length) (exotic : c.exotic = e.exotic) (count : c.refs.length = e.refs.length)
      (children : ∀ p ∈ e.refs.zip c.refs, Unfolds entries p.1 p.2) : Unfolds entries i c

/-- The bits of a tree are those of the table. -/
theorem Unfolds.bits_eq {entries : List Entry} {i : Nat} {c : Cell} (h : Unfolds entries i c) :
    ∃ e, entries[i]? = some e ∧ c.bits = e.bits := by
  cases h with
  | intro entry data bitLen _ _ _ =>
    refine ⟨_, entry, ?_⟩
    rw [Cell.bits, data, bitLen, bitsOfBytes_bytesOfBits, List.take_left]

/-- The tree of a cell is determined by the table. -/
theorem Unfolds.unique {entries : List Entry} {i : Nat} {c d : Cell} (h : Unfolds entries i c)
    (h' : Unfolds entries i d) : c = d := by
  induction h generalizing d with
  | @intro i e c entry data bitLen exotic count children ih =>
    cases h' with
    | @intro _ e' _ entry' data' bitLen' exotic' count' children' =>
      obtain rfl : e = e' := Option.some.inj (entry.symm.trans entry')
      have hrefs : c.refs = d.refs := by
        apply List.ext_getElem (count.trans count'.symm)
        intro k hk hk'
        have hzip : (e.refs[k], c.refs[k]) ∈ e.refs.zip c.refs :=
          List.mem_iff_getElem.2 ⟨k, by simp; omega, by simp⟩
        have hzip' : (e.refs[k], d.refs[k]) ∈ e.refs.zip d.refs :=
          List.mem_iff_getElem.2 ⟨k, by simp; omega, by simp⟩
        exact ih _ hzip (children' _ hzip')
      cases c
      cases d
      simp_all

end TvmCode.BagOfCells
