import Mathlib.Algebra.Group.Basic
import Mathlib.Algebra.Group.Int.Defs
import Mathlib.Data.List.Basic
import TvmCode.Proofs.Layout

/-!
# Lines and their depths

A text of nested blocks is a list of rows, each a line and how deep it is nested. `printRows` prints rows with a given
number of spaces for each level.

- rows are an outline (`Outline`) when no line is blank, broken or starts with a space, and when every row is as deep
  as the braces before it say (`Tracks`) and all braces are closed at the end;
- to put a margin in front of printed rows is to print them one level deeper (`indent_printRows`);
- a line is an outline (`outline_line`), and so are outlines one after the other (`Outline.append`) and as the blocks
  of a line (`outline_blockRows`);
- an outline is told by the text without margins (`eq_of_printRows_zero`).
-/

namespace TvmCode.Text

/-- A line without its break, and how deep it is nested. -/
structure Row where
  depth : Nat
  line : List Char

namespace Row

/-- The same line one level deeper. -/
def deeper (r : Row) : Row := ⟨r.depth + 1, r.line⟩

/-- The line behind `indent` spaces for each level, and a line feed. -/
def print (indent : Nat) (r : Row) : List Char := List.replicate (indent * r.depth) ' ' ++ (r.line ++ ['\n'])

/-- The line has no breaks within it and starts with a character that is not blank. -/
structure Tidy (r : Row) : Prop where
  unbroken : ∀ c ∈ r.line, isLineBreak c = false
  ink : ∃ c ∈ r.line.head?, isBlank c = false

end Row

/-- The text of rows, with `indent` spaces for each level. -/
def printRows (indent : Nat) (rows : List Row) : List Char := rows.flatMap (Row.print indent)

/-- How many more braces a text opens than it closes. -/
def braces (cs : List Char) : Int := cs.count '\x7b' - cs.count '\x7d'

/-- How many more braces rows open than they close. -/
def balance : List Row → Int
  | [] => 0
  | r :: rows => braces r.line + balance rows

/-- One for a line that starts with a closing brace, which counts for the line itself. -/
def closing (line : List Char) : Int := if line.head? = some '\x7d' then 1 else 0

/-- Every row is as deep as there are open braces, `opened` of them before the first row. -/
def Tracks : (opened : Int) → List Row → Prop
  | _, [] => True
  | opened, r :: rows => (r.depth : Int) = opened - closing r.line ∧ Tracks (opened + braces r.line) rows

/-- Rows of tidy lines that are as deep as their braces say, with all braces closed at the end. -/
structure Outline (rows : List Row) : Prop where
  tidy : ∀ r ∈ rows, r.Tidy
  tracks : Tracks 0 rows
  balanced : balance rows = 0

/-! ## Rows one after the other -/

@[simp] theorem printRows_nil (indent : Nat) : printRows indent [] = [] := rfl

@[simp] theorem printRows_cons (indent : Nat) (r : Row) (rows : List Row) :
    printRows indent (r :: rows) = r.print indent ++ printRows indent rows := rfl

@[simp] theorem printRows_append (indent : Nat) (xs ys : List Row) :
    printRows indent (xs ++ ys) = printRows indent xs ++ printRows indent ys := List.flatMap_append

@[simp] theorem balance_nil : balance [] = 0 := rfl

@[simp] theorem balance_cons (r : Row) (rows : List Row) : balance (r :: rows) = braces r.line + balance rows := rfl

@[simp] theorem balance_append (xs ys : List Row) : balance (xs ++ ys) = balance xs + balance ys := by
  induction xs with
  | nil => simp
  | cons r xs ih => rw [List.cons_append, balance_cons, balance_cons, ih, Int.add_assoc]

@[simp] theorem balance_deeper (rows : List Row) : balance (rows.map Row.deeper) = balance rows := by
  induction rows with
  | nil => rfl
  | cons r rows ih => rw [List.map_cons, balance_cons, balance_cons, ih, Row.deeper]

theorem tracks_append {opened : Int} {xs ys : List Row} :
    Tracks opened (xs ++ ys) ↔ Tracks opened xs ∧ Tracks (opened + balance xs) ys := by
  induction xs generalizing opened with
  | nil => simp [Tracks]
  | cons x xs ih => simp [Tracks, ih, and_assoc, add_assoc]

/-- Rows within one more brace are one level deeper. -/
theorem Tracks.deeper {opened : Int} {rows : List Row} (h : Tracks opened rows) :
    Tracks (opened + 1) (rows.map Row.deeper) := by
  induction rows generalizing opened with
  | nil => trivial
  | cons r rows ih =>
    obtain ⟨hdepth, hrows⟩ := h
    constructor
    · simp only [Row.deeper]
      omega
    · have hrest := ih hrows
      rwa [add_right_comm] at hrest

/-- The depth of a row is the balance of the rows before it. -/
theorem Tracks.depth_eq {opened : Int} {before after : List Row} {r : Row}
    (h : Tracks opened (before ++ r :: after)) : (r.depth : Int) = opened + balance before - closing r.line :=
  (tracks_append.mp h).2.1

theorem outline_nil : Outline [] := ⟨by simp, trivial, rfl⟩

theorem Outline.append {xs ys : List Row} (hx : Outline xs) (hy : Outline ys) : Outline (xs ++ ys) where
  tidy := List.forall_mem_append.mpr ⟨hx.tidy, hy.tidy⟩
  tracks := tracks_append.mpr ⟨hx.tracks, by rw [hx.balanced]; exact hy.tracks⟩
  balanced := by rw [balance_append, hx.balanced, hy.balanced, add_zero]

/-! ## Margins -/

namespace Row.Tidy

variable {r : Row}

theorem deeper (h : r.Tidy) : r.deeper.Tidy := ⟨h.unbroken, h.ink⟩

/-- The line is not empty, and its first character is not a space. -/
theorem head (h : r.Tidy) : r.line ≠ [] ∧ r.line.head? ≠ some ' ' := by
  obtain ⟨c, hc, hink⟩ := h.ink
  constructor
  · rintro hnil
    simp [hnil] at hc
  · intro hspace
    rw [hspace] at hc
    cases hc
    cases hink

theorem isLine_print (h : r.Tidy) (indent : Nat) : IsLine (r.print indent) := by
  have hspaces : Plain (List.replicate (indent * r.depth) ' ') := by
    intro c hc
    rw [List.eq_of_mem_replicate hc]
    rfl
  obtain ⟨c, hc, hink⟩ := h.ink
  exact IsLine.margin ⟨r.line, rfl, h.unbroken, c, List.mem_of_mem_head? hc, hink⟩ hspaces

end Row.Tidy

/-- Printed rows fall into their lines again. -/
theorem splitLines_printRows {rows : List Row} (h : ∀ r ∈ rows, r.Tidy) (indent : Nat) :
    splitLines (printRows indent rows) = rows.map (Row.print indent) := by
  rw [printRows, List.flatMap_def]
  apply splitLines_flatten
  intro l hl
  obtain ⟨r, hr, rfl⟩ := List.mem_map.mp hl
  exact (h r hr).isLine_print indent

theorem Row.print_deeper (indent : Nat) (r : Row) :
    r.deeper.print indent = List.replicate indent ' ' ++ r.print indent := by
  simp only [print, deeper, Nat.mul_succ, Nat.add_comm _ indent, List.replicate_add, List.append_assoc]

/-- **A margin is one more level**: what was printed with a margin is printed one level deeper. -/
theorem indent_printRows {rows : List Row} (h : ∀ r ∈ rows, r.Tidy) {width : Nat} {text : String}
    (htext : text.toList = printRows width rows) :
    (indent width text).toList = printRows width (rows.map Row.deeper) := by
  rw [indent, String.toList_ofList, htext, splitLines_printRows h, printRows, List.flatMap_map, List.flatMap_map]
  simp only [List.flatMap_def]
  congr 1
  apply List.map_congr_left
  intro r hr
  rw [((h r hr).isLine_print width).indentLine_eq, Row.print_deeper]

/-- Rows of the same lines that both track their braces are the same. -/
theorem Tracks.eq_of_lines {opened : Int} {xs ys : List Row} (hx : Tracks opened xs) (hy : Tracks opened ys)
    (h : xs.map Row.line = ys.map Row.line) : xs = ys := by
  induction xs generalizing opened ys with
  | nil => exact (List.map_eq_nil_iff.mp h.symm).symm
  | cons x xs ih =>
    cases ys with
    | nil => cases h
    | cons y ys =>
      obtain ⟨dx, lx⟩ := x
      obtain ⟨dy, ly⟩ := y
      rw [List.map_cons, List.map_cons, List.cons.injEq] at h
      obtain ⟨rfl, hlines⟩ := h
      obtain ⟨hdx, hx⟩ := hx
      obtain ⟨hdy, hy⟩ := hy
      have hdepth : dx = dy := Int.ofNat_inj.mp (hdx.trans hdy.symm)
      rw [hdepth, ih hx hy hlines]

/-- **An outline is told by the text without margins.** -/
theorem eq_of_printRows_zero {xs ys : List Row} (hx : Outline xs) (hy : Outline ys)
    (h : printRows 0 xs = printRows 0 ys) : xs = ys := by
  have hlines := congrArg splitLines h
  rw [splitLines_printRows hx.tidy, splitLines_printRows hy.tidy] at hlines
  apply hx.tracks.eq_of_lines hy.tracks
  have hbare := congrArg (List.map List.dropLast) hlines
  simpa [Row.print, Function.comp_def] using hbare

/-! ## Lines and blocks -/

theorem braces_append (xs ys : List Char) : braces (xs ++ ys) = braces xs + braces ys := by
  simp only [braces, List.count_append]
  omega

theorem braces_plain {cs : List Char} (h : Plain cs) : braces cs = 0 := by
  have hopen : '\x7b' ∉ cs := fun hc => by
    have hcode := h _ hc
    revert hcode
    decide
  have hclose : '\x7d' ∉ cs := fun hc => by
    have hcode := h _ hc
    revert hcode
    decide
  rw [braces, List.count_eq_zero_of_not_mem hopen, List.count_eq_zero_of_not_mem hclose]
  rfl

theorem closing_plain {cs : List Char} (h : Plain cs) (tail : List Char) (hne : cs ≠ []) :
    closing (cs ++ tail) = 0 := by
  cases cs with
  | nil => exact absurd rfl hne
  | cons c cs =>
    rw [closing, List.cons_append, List.head?_cons, if_neg]
    rintro hc
    cases hc
    have hcode := h _ List.mem_cons_self
    revert hcode
    decide

/-- A line that starts with a plain character which is not a space. -/
theorem tidy_of_head {depth : Nat} {head tail : List Char} (hplain : Plain head)
    (hink : ∃ c ∈ head.head?, isBlank c = false) (htail : ∀ c ∈ tail, isLineBreak c = false) :
    Row.Tidy ⟨depth, head ++ tail⟩ := by
  constructor
  · exact List.forall_mem_append.mpr ⟨not_isLineBreak_of_plain hplain, htail⟩
  · obtain ⟨c, hc, hblank⟩ := hink
    exact ⟨c, by simp [List.head?_append, Option.mem_def.mp hc], hblank⟩

/-- A plain line is an outline. -/
theorem outline_line {line : List Char} (hplain : Plain line) (hink : ∃ c ∈ line.head?, isBlank c = false) :
    Outline [⟨0, line⟩] := by
  have hne : line ≠ [] := by
    rintro rfl
    simp at hink
  have hclosing := closing_plain hplain [] hne
  rw [List.append_nil] at hclosing
  refine ⟨?_, ⟨?_, trivial⟩, ?_⟩
  · rintro r hr
    rw [List.mem_singleton.mp hr, ← List.append_nil line]
    exact tidy_of_head hplain hink (by simp)
  · simp [hclosing]
  · simp [braces_plain hplain]

theorem Leads.head_ink {cs : List Char} (h : Leads cs) : ∃ c ∈ cs.head?, isBlank c = false := by
  cases cs with
  | nil => exact h.elim
  | cons c cs =>
    have hlead := isLeadCode_iff.mp h.1
    have hcode := isPlainCode_iff.mp (h.2 c List.mem_cons_self)
    exact ⟨c, rfl, not_isBlank_of_code (by omega)⟩

/-- Rows that close one brace more than they open. -/
structure Closing (rows : List Row) : Prop where
  tidy : ∀ r ∈ rows, r.Tidy
  tracks : Tracks 1 rows
  balanced : balance rows = -1

/-- An outline within a brace, the line that closes the brace, and what follows it. -/
theorem Outline.closing {block more : List Row} {line : List Char} (h : Outline block) (hline : Row.Tidy ⟨0, line⟩)
    (hclosing : Text.closing line = 1) (htidy : ∀ r ∈ more, r.Tidy) (htracks : Tracks (1 + braces line) more)
    (hbalance : braces line + balance more = -1) : Closing (block.map Row.deeper ++ ⟨0, line⟩ :: more) := by
  refine ⟨List.forall_mem_append.mpr ⟨?_, List.forall_mem_cons.mpr ⟨hline, htidy⟩⟩, ?_, ?_⟩
  · intro r hr
    obtain ⟨r', hr', rfl⟩ := List.mem_map.mp hr
    exact (h.tidy r' hr').deeper
  · apply tracks_append.mpr
    rw [balance_deeper, h.balanced, add_zero]
    exact ⟨h.tracks.deeper, by simp [hclosing], htracks⟩
  · simp [h.balanced, hbalance]

/-- The rows after the line that opens a first block: each block one level deeper, and behind it a closing brace and,
if there is a next block, an opening one. -/
def enclosedRows : List Row → List (List Row) → List Row
  | block, [] => block.map Row.deeper ++ [⟨0, ['\x7d']⟩]
  | block, next :: blocks => block.map Row.deeper ++ ⟨0, ['\x7d', ' ', '\x7b']⟩ :: enclosedRows next blocks

/-- The rows of a line with blocks. -/
def blockRows (head : List Char) : List (List Row) → List Row
  | [] => [⟨0, head ++ [' ']⟩]
  | block :: blocks => ⟨0, head ++ [' ', '\x7b']⟩ :: enclosedRows block blocks

theorem closing_enclosedRows {block : List Row} {blocks : List (List Row)} (hblock : Outline block)
    (hblocks : ∀ b ∈ blocks, Outline b) : Closing (enclosedRows block blocks) := by
  have hblank : isBlank '\x7d' = false := by decide
  induction blocks generalizing block with
  | nil => exact hblock.closing ⟨by simp [isLineBreak], '\x7d', rfl, hblank⟩ rfl (by simp) trivial rfl
  | cons next blocks ih =>
    obtain ⟨hnext, hrest⟩ := List.forall_mem_cons.mp hblocks
    have hmore := ih hnext hrest
    refine hblock.closing ⟨by simp [isLineBreak], '\x7d', rfl, hblank⟩ rfl hmore.tidy hmore.tracks ?_
    rw [hmore.balanced]
    rfl

/-- **A line with outlines as its blocks is an outline.** -/
theorem outline_blockRows {head : List Char} (hhead : Leads head) {blocks : List (List Row)}
    (h : ∀ block ∈ blocks, Outline block) : Outline (blockRows head blocks) := by
  have hne : head ≠ [] := by
    rintro rfl
    exact hhead
  cases blocks with
  | nil =>
    refine outline_line (plain_append.mpr ⟨hhead.plain, plain_of_isWord (s := " ") (by decide)⟩) ?_
    obtain ⟨c, hc, hblank⟩ := hhead.head_ink
    exact ⟨c, by simp [List.head?_append, Option.mem_def.mp hc], hblank⟩
  | cons block blocks =>
    obtain ⟨hblock, hblocks⟩ := List.forall_mem_cons.mp h
    have hrest := closing_enclosedRows hblock hblocks
    have hopens : braces (head ++ [' ', '\x7b']) = 1 := by
      rw [braces_append, braces_plain hhead.plain]
      rfl
    refine ⟨?_, ⟨?_, ?_⟩, ?_⟩
    · refine List.forall_mem_cons.mpr ⟨?_, hrest.tidy⟩
      exact tidy_of_head hhead.plain hhead.head_ink (by simp [isLineBreak])
    · simp [closing_plain hhead.plain _ hne]
    · rw [hopens]
      exact hrest.tracks
    · simp [blockRows, hopens, hrest.balanced]

theorem depth_le_deeper {bound : Nat} {rows : List Row} (h : ∀ r ∈ rows, r.depth < bound) :
    ∀ r ∈ rows.map Row.deeper, r.depth ≤ bound := by
  intro r hr
  obtain ⟨r', hr', rfl⟩ := List.mem_map.mp hr
  exact h r' hr'

theorem depth_le_enclosedRows {bound : Nat} {block : List Row} {blocks : List (List Row)}
    (hblock : ∀ r ∈ block, r.depth < bound) (hblocks : ∀ b ∈ blocks, ∀ r ∈ b, r.depth < bound) :
    ∀ r ∈ enclosedRows block blocks, r.depth ≤ bound := by
  induction blocks generalizing block with
  | nil => exact List.forall_mem_append.mpr ⟨depth_le_deeper hblock, by simp⟩
  | cons next blocks ih =>
    obtain ⟨hnext, hrest⟩ := List.forall_mem_cons.mp hblocks
    have hmore := ih hnext hrest
    exact List.forall_mem_append.mpr ⟨depth_le_deeper hblock, List.forall_mem_cons.mpr ⟨Nat.zero_le _, hmore⟩⟩

/-- Blocks are one level deeper than their line. -/
theorem depth_le_blockRows {bound : Nat} {head : List Char} {blocks : List (List Row)}
    (h : ∀ block ∈ blocks, ∀ r ∈ block, r.depth < bound) : ∀ r ∈ blockRows head blocks, r.depth ≤ bound := by
  cases blocks with
  | nil => simp [blockRows]
  | cons block blocks =>
    obtain ⟨hblock, hblocks⟩ := List.forall_mem_cons.mp h
    exact List.forall_mem_cons.mpr ⟨Nat.zero_le _, depth_le_enclosedRows hblock hblocks⟩

/-- The text of one block between its braces. -/
def blockText (indent : Nat) (block : List Row) : List Char :=
  ['\x7b', '\n'] ++ printRows indent (block.map Row.deeper) ++ ['\x7d']

theorem printRows_enclosedRows (indent : Nat) (block : List Row) (blocks : List (List Row)) :
    ['\x7b', '\n'] ++ printRows indent (enclosedRows block blocks) =
      [' '].intercalate ((block :: blocks).map (blockText indent)) ++ ['\n'] := by
  induction blocks generalizing block with
  | nil => simp [enclosedRows, blockText, Row.print]
  | cons next blocks ih =>
    rw [List.map_cons, List.map_cons, List.intercalate_cons_cons, List.append_assoc, List.append_assoc,
      ← List.map_cons, ← ih next]
    simp [enclosedRows, blockText, Row.print]

/-- The text of a line with blocks. -/
theorem printRows_blockRows (indent : Nat) (head : List Char) (blocks : List (List Row)) :
    printRows indent (blockRows head blocks) =
      head ++ [' '] ++ [' '].intercalate (blocks.map (blockText indent)) ++ ['\n'] := by
  cases blocks with
  | nil => simp [blockRows, Row.print]
  | cons block blocks =>
    rw [List.append_assoc, ← printRows_enclosedRows]
    simp [blockRows, Row.print]

end TvmCode.Text
