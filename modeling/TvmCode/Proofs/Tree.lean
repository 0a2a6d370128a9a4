import TvmCode.Proofs.Layout
import TvmCode.Tree

/-!
# Trees drawn by recursion

A tree is drawn line by line with a stack of the cells still to be drawn (`Tree.draw`). The same lines come of a
recursion over the tree (`Tree.render`): a cell is shown by its hexadecimal text (`Tree.shown`), which is broken into
lines (`Tree.wrap`) behind a connector, and its references follow in order behind a longer margin.

What carries the comparison is that a stack is drawn as its cells are, one after the other (`Tree.draw_eq`). Turn by
turn the loop draws the cells of the tree in the order in which they stand before their references (`Cell.preorder`),
each as often as it occurs, and then it is over (`Tree.Turns`, `Tree.turns_stack`). All this together is
`Tree.treeText_drawn`.
-/

namespace TvmCode

mutual

/-- The cells of a tree, each before what it refers to, and as often as there are paths to it. -/
def Cell.preorder : Cell → List Cell
  | ⟨data, bitLen, refs, exotic⟩ => ⟨data, bitLen, refs, exotic⟩ :: Cell.preorderAll refs

/-- The cells of trees one after the other. -/
def Cell.preorderAll : List Cell → List Cell
  | [] => []
  | c :: cs => c.preorder ++ Cell.preorderAll cs

end

theorem Cell.preorder_eq (c : Cell) : c.preorder = c :: preorderAll c.refs := by
  cases c
  rfl

namespace Tree

/-! ## The recursion -/

/-- A text on lines of 64 characters. All but the last end with an ellipsis; the first stands behind one margin and the
others behind another. -/
def wrap (first more text : List Char) : List (List Char) :=
  if text.length ≤ 64 then [first ++ text] else (first ++ text.take 64 ++ ['…']) :: wrap more more (text.drop 64)
termination_by text.length
decreasing_by simp only [List.length_drop]; omega

/-- What is shown of a cell: its bits in hexadecimal, and a completion tag where there are none. -/
def shown (c : Cell) : List Char := if c.bitLen = 0 then ['1', '_'] else c.toHex.toList

/-- The connector in front of a cell. -/
def corner (last : Bool) : List Char := if last then ['└', ' '] else ['├', ' ']

/-- What a connector adds to the margin below it. -/
def below (last : Bool) : List Char := if last then [' ', ' '] else ['│', ' ']

mutual

/-- The lines of a tree behind a margin, where its root is the last of several cells or not. -/
def render (margin : List Char) (last : Bool) : Cell → List (List Char)
  | ⟨data, bitLen, refs, exotic⟩ =>
    wrap (margin ++ corner last) (margin ++ below last) (shown ⟨data, bitLen, refs, exotic⟩) ++
      renderAll (margin ++ below last) refs

/-- The lines of several trees behind a margin. -/
def renderAll (margin : List Char) : List Cell → List (List Char)
  | [] => []
  | c :: cs => render margin cs.isEmpty c ++ renderAll margin cs

end

theorem render_eq (margin : List Char) (last : Bool) (c : Cell) :
    render margin last c =
      wrap (margin ++ corner last) (margin ++ below last) (shown c) ++ renderAll (margin ++ below last) c.refs := by
  cases c
  rfl

/-! ## The lines of a cell -/

theorem hexPadded_ne_nil (width n : Nat) : (Text.hexPadded width n).toList ≠ [] := by
  have hdigits : Text.hexDigits n ≠ [] := by
    rw [Text.hexDigits]
    split <;> simp
  simp [Text.hexPadded, List.leftpad, hdigits]

/-- Only no bits are written as no text. -/
theorem hexOfBits_ne_nil {value width : Nat} (h : width ≠ 0) : (hexOfBits value width).toList ≠ [] := by
  rw [hexOfBits, if_neg h]
  split
  · exact hexPadded_ne_nil _ _
  · simp

theorem pieces_ne_nil {α : Type} (size : Nat) (xs : List α) : pieces size xs ≠ [] := by
  rw [pieces]
  split <;> simp

/-- Further lines are those of the recursion behind one margin. -/
theorem moreLines_pieces (lead : String) (text : List Char) :
    moreLines lead ((pieces lineWidth text).map String.ofList) =
      (wrap lead.toList lead.toList text).map String.ofList := by
  induction text using pieces.induct lineWidth with
  | case1 text h =>
    have hshort : text.length ≤ 64 := by simpa [lineWidth] using h
    rw [pieces, if_pos h, wrap, if_pos hshort]
    simp [moreLines]
  | case2 text h ih =>
    have hlong : ¬text.length ≤ 64 := by simpa [lineWidth] using h
    have hmore : (pieces lineWidth (text.drop lineWidth)).map String.ofList ≠ [] := by simp [pieces_ne_nil]
    rw [pieces, if_neg h, wrap, if_neg hlong, List.map_cons, List.map_cons, moreLines.eq_3 _ _ _ hmore, ih]
    simp [lineWidth, String.append_assoc]

/-- The lines of a cell are those of the recursion. -/
theorem cellLines_eq (c : Cell) (margin : String) (last : Bool) :
    cellLines c margin last =
      (wrap (margin.toList ++ corner last) (margin.toList ++ below last) (shown c)).map String.ofList := by
  have hcorner : (branch last).toList = corner last := by cases last <;> rfl
  have hbelow : (trunk last).toList = below last := by cases last <;> rfl
  rw [← hcorner, ← hbelow, ← String.toList_append, ← String.toList_append, cellLines, shown]
  generalize margin ++ branch last = first
  generalize margin ++ trunk last = more
  by_cases hempty : c.bitLen = 0
  · have hhex : c.toHex.toList = [] := by simp [Cell.toHex, hexOfBits, hempty]
    rw [if_pos hempty, hhex, wrap, if_pos (by decide), pieces, if_pos (by decide)]
    simp
  · have hhex : c.toHex.toList ≠ [] := hexOfBits_ne_nil hempty
    rw [if_neg hempty]
    generalize c.toHex.toList = text at hhex
    by_cases hshort : text.length ≤ lineWidth
    · rw [wrap, if_pos (show text.length ≤ 64 from hshort), pieces, if_pos (Or.inr hshort)]
      simp [hhex]
    · have hlong : ¬(lineWidth = 0 ∨ text.length ≤ lineWidth) := by simpa [lineWidth] using hshort
      rw [wrap, if_neg (show ¬text.length ≤ 64 from hshort), pieces, if_neg hlong, List.map_cons,
        List.map_cons, ← moreLines_pieces]
      obtain ⟨piece, rest, hrest⟩ := List.exists_cons_of_ne_nil (pieces_ne_nil lineWidth (text.drop lineWidth))
      rw [show text.drop 64 = text.drop lineWidth from rfl, hrest]
      simp [lineWidth, String.append_assoc]

/-! ## The stack -/

/-- The lines of a cell that waits to be drawn, and of all that is below it. -/
def Pending.lines (p : Pending) : List (List Char) := render p.margin.toList p.last p.cell

theorem children_lines (margin : String) (cs : List Cell) :
    (children margin cs).flatMap Pending.lines = renderAll margin.toList cs := by
  induction cs using children.induct with
  | case1 => rfl
  | case2 c => simp [children, renderAll, Pending.lines]
  | case3 c cs h ih =>
    rw [children.eq_3 _ _ _ h, List.flatMap_cons, ih, renderAll, Pending.lines, List.isEmpty_eq_false_iff.mpr h]

/-- A cell that waits is drawn before those that it refers to. -/
theorem Pending.lines_eq (p : Pending) :
    p.lines.map String.ofList = cellLines p.cell p.margin p.last ++
      ((children (p.margin ++ trunk p.last) p.cell.refs).flatMap Pending.lines).map String.ofList := by
  have hbelow : (p.margin ++ trunk p.last).toList = p.margin.toList ++ below p.last := by
    rw [String.toList_append]
    cases p.last <;> rfl
  rw [children_lines, cellLines_eq, hbelow, ← List.map_append, Pending.lines, render_eq]

/-- **A stack is drawn** as its cells are, one after the other. -/
theorem draw_eq (stack : List Pending) : draw stack = (stack.flatMap Pending.lines).map String.ofList := by
  fun_induction draw stack with
  | case1 => rfl
  | case2 p stack ih =>
    rw [ih, List.flatMap_append, List.map_append, ← List.append_assoc, ← p.lines_eq, List.flatMap_cons,
      List.map_append]

/-- Where the loop stands: the lines drawn, and the cells that wait, with the next one in front. -/
structure Loop where
  lines : List String
  pending : List Pending

/-- The turns of the loop, with the cells that are drawn: the cell in front is drawn, and its references take its
place. -/
inductive Turns : Loop → List Cell → Loop → Prop
  | none (s : Loop) : Turns s [] s
  | turn {lines : List String} {p : Pending} {stack : List Pending} {cells : List Cell} {t : Loop}
      (rest : Turns ⟨lines ++ cellLines p.cell p.margin p.last,
        children (p.margin ++ trunk p.last) p.cell.refs ++ stack⟩ cells t) :
      Turns ⟨lines, p :: stack⟩ (p.cell :: cells) t

theorem children_cells (margin : String) (cs : List Cell) :
    (children margin cs).flatMap (fun p => p.cell.preorder) = Cell.preorderAll cs := by
  induction cs using children.induct with
  | case1 => rfl
  | case2 c => simp [children, Cell.preorderAll]
  | case3 c cs h ih => rw [children.eq_3 _ _ _ h, List.flatMap_cons, ih, Cell.preorderAll]

/-- **The loop ends** when every cell below the stack has been drawn, in order and as often as it occurs. -/
theorem turns_stack (lines : List String) (stack : List Pending) :
    Turns ⟨lines, stack⟩ (stack.flatMap fun p => p.cell.preorder) ⟨lines ++ draw stack, []⟩ := by
  fun_induction draw stack generalizing lines with
  | case1 =>
    rw [List.append_nil]
    exact .none _
  | case2 p stack ih =>
    have hrest := ih (lines ++ cellLines p.cell p.margin p.last)
    rw [List.flatMap_append, children_cells, List.append_assoc] at hrest
    rw [List.flatMap_cons, Cell.preorder_eq]
    exact .turn hrest

/-- The whole of a tree is a stack of one cell. -/
theorem draw_root (c : Cell) : draw [⟨c, "", true⟩] = (render [] true c).map String.ofList := by
  simp [draw_eq, Pending.lines]

/-- The text of a tree is made of the lines of the recursion. -/
theorem treeText_eq_lines (c : Cell) : c.treeText = String.ofList ((render [] true c).flatMap (· ++ ['\n'])) := by
  rw [Cell.treeText, draw_root, ← String.toList_inj, String.toList_join, String.toList_ofList]
  simp [List.flatMap_map]

/-- **A tree is drawn as by recursion**: as the lines of its root and then of the trees that it refers to in order. The
loop draws each cell once for every time that it occurs, before the cells that it refers to, and then nothing waits any
more. -/
theorem treeText_drawn (c : Cell) :
    c.treeText = String.ofList ((render [] true c).flatMap (· ++ ['\n'])) ∧
      Turns ⟨[], [⟨c, "", true⟩]⟩ c.preorder ⟨(render [] true c).map String.ofList, []⟩ := by
  refine ⟨treeText_eq_lines c, ?_⟩
  have hturns := turns_stack [] [⟨c, "", true⟩]
  rwa [draw_root, List.flatMap_singleton] at hturns

end Tree

end TvmCode
