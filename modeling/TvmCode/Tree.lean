import TvmCode.Cell.Basic

/-!
# Cell trees as text

`Cell.treeText` draws the tree of a cell with one group of lines for each cell: its bits in hexadecimal, in pieces of
64 characters, behind connectors that show where the cell hangs. The cells still to be drawn wait on a stack.
-/

namespace TvmCode.Tree

/-- The characters of a cell's bits that stand on one line. -/
def lineWidth : Nat := 64

/-- A list in pieces of `size`, the last of which may be shorter. -/
def pieces {α : Type} (size : Nat) (xs : List α) : List (List α) :=
  if size = 0 ∨ xs.length ≤ size then [xs]
  else xs.take size :: pieces size (xs.drop size)
termination_by xs.length
decreasing_by simp only [List.length_drop]; omega

/-- The connector in front of a cell, which is the last one below its parent or not. -/
def branch (last : Bool) : String := if last then "└ " else "├ "

/-- What stands under a connector. -/
def trunk (last : Bool) : String := if last then "  " else "│ "

/-- The pieces after the first one; all but the last are followed by an ellipsis. -/
def moreLines (lead : String) : List String → List String
  | [] => []
  | [piece] => [lead ++ piece]
  | piece :: rest => (lead ++ piece ++ "…") :: moreLines lead rest

/-- The lines of one cell. A cell without bits is shown as a completion tag alone. -/
def cellLines (c : Cell) (margin : String) (last : Bool) : List String :=
  match (pieces lineWidth c.toHex.toList).map String.ofList with
  | [] => []
  | [piece] => [margin ++ branch last ++ (if piece.isEmpty then "1_" else piece)]
  | piece :: rest => (margin ++ branch last ++ piece ++ "…") :: moreLines (margin ++ trunk last) rest

/-- A cell still to be drawn, with what stands in front of it. -/
structure Pending where
  cell : Cell
  margin : String
  last : Bool

/-- The references of a cell, the last one marked. -/
def children (margin : String) : List Cell → List Pending
  | [] => []
  | [c] => [⟨c, margin, true⟩]
  | c :: cs => ⟨c, margin, false⟩ :: children margin cs

/-- How much is still to be drawn. -/
noncomputable def weight : List Pending → Nat
  | [] => 0
  | p :: stack => sizeOf p.cell + weight stack

theorem weight_append (xs ys : List Pending) : weight (xs ++ ys) = weight xs + weight ys := by
  induction xs with
  | nil => simp [weight]
  | cons p xs ih => simp [weight, ih]; omega

theorem weight_children_le (margin : String) (cs : List Cell) : weight (children margin cs) < sizeOf cs := by
  induction cs using children.induct with
  | case1 => simp only [children, weight, List.nil.sizeOf_spec]; omega
  | case2 c => simp only [children, weight, List.cons.sizeOf_spec]; omega
  | case3 c cs h ih =>
    rw [children.eq_3 _ _ _ h]
    simp only [weight, List.cons.sizeOf_spec] at *
    omega

/-- The lines of the cells on a stack, each followed by its references. -/
def draw : List Pending → List String
  | [] => []
  | p :: stack =>
    cellLines p.cell p.margin p.last ++ draw (children (p.margin ++ trunk p.last) p.cell.refs ++ stack)
termination_by stack => weight stack
decreasing_by
  rw [weight_append]
  have h := weight_children_le (p.margin ++ trunk p.last) p.cell.refs
  have : sizeOf p.cell.refs < sizeOf p.cell := by
    cases p.cell
    simp only [Cell.mk.sizeOf_spec]
    omega
  simp only [weight] at *
  omega

end TvmCode.Tree

namespace TvmCode

/-- The tree of a cell as text. -/
def Cell.treeText (c : Cell) : String :=
  String.join ((Tree.draw [⟨c, "", true⟩]).map (· ++ "\n"))

end TvmCode
