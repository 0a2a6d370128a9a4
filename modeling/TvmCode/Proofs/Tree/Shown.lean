import Mathlib.Data.List.Basic
import TvmCode.Proofs.Hex
import TvmCode.Proofs.Tree

/-!
# What the drawing of a tree shows

Two trees look alike when they have the same shape and corresponding cells have the same bits, where no bits and three
zeros are taken for the same (`Cell.LooksLike`). Just the trees that look alike are drawn with the same text
(`Tree.treeText_eq_iff`).

A text has its lines, since none has a line feed of its own (`Tree.lines_inj`). A cell is read from the front of the
lines: where a line has no ellipsis, its text is over (`Tree.wrap_append_inj`). The trees that it refers to follow until
there is a line that does not start with their margin (`Tree.Outside`), and the last of them has another connector than
the others. So a tree is read from its lines, whatever comes behind these (`Tree.legible`).
-/

namespace TvmCode

/-- Bits that are shown as a completion tag alone. -/
def Blank (bits : List Bool) : Prop := bits = [] ∨ bits = [false, false, false]

instance (bits : List Bool) : Decidable (Blank bits) :=
  inferInstanceAs (Decidable (bits = [] ∨ bits = [false, false, false]))

/-- Two trees of the same shape and bits, as far as a cell shows whether it has bits. -/
inductive Cell.LooksLike : Cell → Cell → Prop
  | intro {c d : Cell} (bits : c.bits = d.bits ∨ Blank c.bits ∧ Blank d.bits)
      (count : c.refs.length = d.refs.length) (children : ∀ p ∈ c.refs.zip d.refs, LooksLike p.1 p.2) : LooksLike c d

theorem Cell.looksLike_iff {c d : Cell} :
    c.LooksLike d ↔ (c.bits = d.bits ∨ Blank c.bits ∧ Blank d.bits) ∧ List.Forall₂ LooksLike c.refs d.refs := by
  constructor
  · rintro ⟨bits, count, children⟩
    exact ⟨bits, List.forall₂_iff_zip.mpr ⟨count, fun hab => children _ hab⟩⟩
  · rintro ⟨bits, children⟩
    obtain ⟨count, hzip⟩ := List.forall₂_iff_zip.mp children
    exact ⟨bits, count, fun p hp => hzip hp⟩

namespace Tree

/-! ## The text of a cell -/

/-- The bits whose hexadecimal text is shown. -/
def shownBits (bits : List Bool) : List Bool := if bits = [] then [false, false, false] else bits

theorem shownBits_eq_iff {xs ys : List Bool} : shownBits xs = shownBits ys ↔ xs = ys ∨ Blank xs ∧ Blank ys := by
  unfold shownBits Blank
  by_cases hx : xs = [] <;> by_cases hy : ys = []
  · simp [hx, hy]
  · simp only [hx, hy, if_true, if_false, true_or, true_and, false_or]
    constructor
    · intro h
      exact Or.inr h.symm
    · rintro (h | h)
      · exact absurd h.symm hy
      · exact h.symm
  · simp [hx, hy]
  · simp only [hx, hy, if_false, false_or]
    constructor
    · exact Or.inl
    · rintro (h | ⟨rfl, rfl⟩)
      · exact h
      · rfl

theorem shown_eq {c : Cell} (hc : c.WellFormed) :
    shown c = (hexOfBits (natOfBits (shownBits c.bits)) (shownBits c.bits).length).toList := by
  have hnone : c.bitLen = 0 ↔ c.bits = [] := by rw [← hc.length_bits, List.length_eq_zero_iff]
  rw [shown, shownBits]
  by_cases hempty : c.bits = []
  · rw [if_pos (hnone.mpr hempty), if_pos hempty]
    simp [natOfBits, hexOfBits, Text.hexPadded, Text.hexDigits, Text.hexDigit]
  · rw [if_neg (mt hnone.mp hempty), if_neg hempty, Cell.toHex_eq hc]

/-- The text of a cell tells its bits, apart from those that are shown as a tag alone. -/
theorem shown_eq_iff {c d : Cell} (hc : c.WellFormed) (hd : d.WellFormed) :
    shown c = shown d ↔ c.bits = d.bits ∨ Blank c.bits ∧ Blank d.bits := by
  rw [← shownBits_eq_iff, shown_eq hc, shown_eq hd, String.toList_inj]
  constructor
  · intro h
    have hbits := congrArg Text.bitsOfHex? h
    rw [Text.bitsOfHex?_hexOfBits, Text.bitsOfHex?_hexOfBits] at hbits
    exact Option.some.inj hbits
  · intro h
    rw [h]

theorem shown_eq_tag_iff {c : Cell} (hc : c.WellFormed) : shown c = ['1', '_'] ↔ Blank c.bits := by
  have hnone : Cell.WellFormed ⟨[], 0, [], false⟩ := .intro (by decide) (by decide) (by decide) nofun
  rw [show ['1', '_'] = shown ⟨[], 0, [], false⟩ from rfl, shown_eq_iff hc hnone]
  constructor
  · rintro (h | ⟨h, -⟩)
    · exact Or.inl h
    · exact h
  · intro h
    exact Or.inr ⟨h, Or.inl rfl⟩

theorem plain_shown (c : Cell) : Text.Plain (shown c) := by
  rw [shown]
  split
  · exact Text.plain_of_isWord (s := "1_") (by decide)
  · exact Text.plain_hexOfBits _ _

theorem ellipsis_notMem_shown (c : Cell) : '…' ∉ shown c := fun h => absurd (plain_shown c _ h) (by decide)

theorem break_notMem_shown (c : Cell) : '\n' ∉ shown c := fun h => absurd (plain_shown c _ h) (by decide)

/-! ## The lines of a cell -/

/-- The first line starts with its margin. -/
theorem wrap_head (first more text : List Char) :
    ∃ start lines, wrap first more text = (first ++ start) :: lines := by
  rw [wrap]
  split
  · exact ⟨text, [], rfl⟩
  · exact ⟨text.take 64 ++ ['…'], _, by rw [List.append_assoc]⟩

/-- The line that ends a text is not one that breaks a text. -/
theorem append_ne_of_notMem {xs : List Char} (hx : '…' ∉ xs) (first ys : List Char) :
    first ++ xs ≠ first ++ ys ++ ['…'] := by
  intro h
  rw [List.append_assoc, List.append_cancel_left_eq] at h
  exact hx (h ▸ List.mem_append_right ys List.mem_cons_self)

/-- **A text is read from the front of its lines**, as the ellipses tell where it is over. -/
theorem wrap_append_inj {first more xs ys : List Char} {rest rest' : List (List Char)} (hx : '…' ∉ xs) (hy : '…' ∉ ys)
    (h : wrap first more xs ++ rest = wrap first more ys ++ rest') : xs = ys ∧ rest = rest' := by
  fun_induction wrap first more xs generalizing ys with
  | case1 first xs hshort =>
    rw [wrap] at h
    split at h
    · simpa using h
    · exact absurd (List.cons.inj h).1 (append_ne_of_notMem hx _ _)
  | case2 first xs hlong ih =>
    rw [wrap.eq_def first more ys] at h
    split at h
    · exact absurd (List.cons.inj h).1.symm (append_ne_of_notMem hy _ _)
    · obtain ⟨hline, hlines⟩ := List.cons.inj h
      have htake : xs.take 64 = ys.take 64 := by simpa using hline
      obtain ⟨hdrop, hrest⟩ := ih (mt List.mem_of_mem_drop hx) (mt List.mem_of_mem_drop hy) hlines
      rw [← List.take_append_drop 64 xs, ← List.take_append_drop 64 ys, htake, hdrop]
      exact ⟨rfl, hrest⟩

/-! ## The lines of a text -/

theorem break_notMem_wrap {first more text : List Char} (hfirst : '\n' ∉ first) (hmore : '\n' ∉ more)
    (htext : '\n' ∉ text) : ∀ line ∈ wrap first more text, '\n' ∉ line := by
  fun_induction wrap first more text with
  | case1 first text hshort => simpa using ⟨hfirst, htext⟩
  | case2 first text hlong ih =>
    rw [List.forall_mem_cons]
    refine ⟨?_, ih hmore (mt List.mem_of_mem_drop htext)⟩
    simpa using ⟨hfirst, mt List.mem_of_mem_take htext⟩

theorem break_notMem_margin {margin : List Char} (h : '\n' ∉ margin) (last : Bool) :
    '\n' ∉ margin ++ corner last ∧ '\n' ∉ margin ++ below last := by
  cases last <;> simp [h, corner, below]

mutual

theorem break_notMem_render {margin : List Char} (h : '\n' ∉ margin) (last : Bool) :
    ∀ (c : Cell), ∀ line ∈ render margin last c, '\n' ∉ line
  | ⟨data, bitLen, refs, exotic⟩ => by
    obtain ⟨hcorner, hbelow⟩ := break_notMem_margin h last
    rw [render, List.forall_mem_append]
    exact ⟨break_notMem_wrap hcorner hbelow (break_notMem_shown _), break_notMem_renderAll hbelow refs⟩

theorem break_notMem_renderAll {margin : List Char} (h : '\n' ∉ margin) :
    ∀ (cs : List Cell), ∀ line ∈ renderAll margin cs, '\n' ∉ line
  | [] => nofun
  | c :: cs => by
    rw [renderAll, List.forall_mem_append]
    exact ⟨break_notMem_render h cs.isEmpty c, break_notMem_renderAll h cs⟩

end

theorem append_break_inj {x y xs ys : List Char} (hx : '\n' ∉ x) (hy : '\n' ∉ y)
    (h : x ++ '\n' :: xs = y ++ '\n' :: ys) : x = y ∧ xs = ys := by
  induction x generalizing y with
  | nil =>
    cases y with
    | nil => simpa using h
    | cons b y => exact absurd (List.cons.inj h).1 (List.ne_of_not_mem_cons hy)
  | cons a x ih =>
    cases y with
    | nil => exact absurd (List.cons.inj h).1.symm (List.ne_of_not_mem_cons hx)
    | cons b y =>
      obtain ⟨rfl, htail⟩ := List.cons.inj h
      obtain ⟨rfl, hrest⟩ := ih (List.not_mem_of_not_mem_cons hx) (List.not_mem_of_not_mem_cons hy) htail
      exact ⟨rfl, hrest⟩

/-- A text has its lines. -/
theorem lines_inj {xs ys : List (List Char)} (hx : ∀ line ∈ xs, '\n' ∉ line) (hy : ∀ line ∈ ys, '\n' ∉ line)
    (h : xs.flatMap (· ++ ['\n']) = ys.flatMap (· ++ ['\n'])) : xs = ys := by
  induction xs generalizing ys with
  | nil =>
    cases ys with
    | nil => rfl
    | cons y ys => simp at h
  | cons x xs ih =>
    cases ys with
    | nil => simp at h
    | cons y ys =>
      rw [List.forall_mem_cons] at hx hy
      rw [List.flatMap_cons, List.flatMap_cons, List.append_assoc, List.append_assoc] at h
      obtain ⟨rfl, hrest⟩ := append_break_inj hx.1 hy.1 h
      rw [ih hx.2 hy.2 hrest]

/-! ## The lines of a tree -/

/-- What follows the lines behind a margin: no more such line. -/
def Outside (margin : List Char) (rest : List (List Char)) : Prop := ∀ line ∈ rest.head?, ¬margin <+: line

theorem outside_nil (margin : List Char) : Outside margin [] := nofun

theorem Outside.append {margin : List Char} {rest : List (List Char)} (h : Outside margin rest) (more : List Char) :
    Outside (margin ++ more) rest :=
  fun line hline hstart => h line hline ((List.prefix_append margin more).trans hstart)

theorem renderAll_head (margin : List Char) (c : Cell) (cs : List Cell) (rest : List (List Char)) :
    ∃ start lines, renderAll margin (c :: cs) ++ rest = (margin ++ corner cs.isEmpty ++ start) :: lines := by
  obtain ⟨start, lines, hwrap⟩ :=
    wrap_head (margin ++ corner cs.isEmpty) (margin ++ below cs.isEmpty) (shown c)
  exact ⟨start, _, by rw [renderAll, render_eq, hwrap]; rfl⟩

theorem Outside.ne {margin : List Char} {rest : List (List Char)} (h : Outside margin rest) (c : Cell) (cs : List Cell)
    (rest' : List (List Char)) : rest ≠ renderAll margin (c :: cs) ++ rest' := by
  rintro rfl
  obtain ⟨start, lines, hhead⟩ := renderAll_head margin c cs rest'
  rw [hhead, List.append_assoc] at h
  exact h _ rfl (List.prefix_append _ _)

/-- The connectors tell whether further trees follow. -/
theorem isEmpty_eq_of_renderAll {margin : List Char} {c d : Cell} {cs ds : List Cell} {rest rest' : List (List Char)}
    (h : renderAll margin (c :: cs) ++ rest = renderAll margin (d :: ds) ++ rest') : cs.isEmpty = ds.isEmpty := by
  obtain ⟨start, lines, hhead⟩ := renderAll_head margin c cs rest
  obtain ⟨start', lines', hhead'⟩ := renderAll_head margin d ds rest'
  rw [hhead, hhead', List.append_assoc, List.append_assoc] at h
  have hline := List.append_cancel_left (List.cons.inj h).1
  cases hc : cs.isEmpty <;> cases hd : ds.isEmpty <;> simp [hc, hd, corner] at hline ⊢

/-- A tree is over where the next one begins. -/
theorem outside_renderAll {margin : List Char} {rest : List (List Char)} (h : Outside margin rest) (cs : List Cell) :
    Outside (margin ++ below cs.isEmpty) (renderAll margin cs ++ rest) := by
  cases cs with
  | nil => exact h.append _
  | cons c cs =>
    obtain ⟨start, lines, hhead⟩ := renderAll_head margin c cs rest
    rw [hhead]
    intro line hline hstart
    obtain rfl : _ = line := Option.some.inj hline
    rw [List.append_assoc, List.prefix_append_right_inj] at hstart
    cases cs <;> simp [below, corner] at hstart

/-- A tree that is read from the front of its lines. -/
def Legible (c : Cell) : Prop :=
  ∀ {margin : List Char} {last : Bool} {d : Cell} {rest rest' : List (List Char)}, d.WellFormed →
    Outside (margin ++ below last) rest → Outside (margin ++ below last) rest' →
    render margin last c ++ rest = render margin last d ++ rest' → c.LooksLike d ∧ rest = rest'

theorem renderAll_append_inj {margin : List Char} {cs ds : List Cell} {rest rest' : List (List Char)}
    (hcs : ∀ c ∈ cs, Legible c) (hds : ∀ d ∈ ds, d.WellFormed) (hrest : Outside margin rest)
    (hrest' : Outside margin rest') (h : renderAll margin cs ++ rest = renderAll margin ds ++ rest') :
    List.Forall₂ Cell.LooksLike cs ds ∧ rest = rest' := by
  induction cs generalizing ds with
  | nil =>
    cases ds with
    | nil => exact ⟨.nil, h⟩
    | cons d ds => exact absurd h (hrest.ne d ds rest')
  | cons c cs ih =>
    cases ds with
    | nil => exact absurd h.symm (hrest'.ne c cs rest)
    | cons d ds =>
      rw [List.forall_mem_cons] at hcs hds
      have hlast : cs.isEmpty = ds.isEmpty := isEmpty_eq_of_renderAll h
      rw [renderAll, renderAll, hlast, List.append_assoc, List.append_assoc] at h
      obtain ⟨hlike, hmore⟩ := hcs.1 hds.1 (hlast ▸ outside_renderAll hrest cs) (outside_renderAll hrest' ds) h
      obtain ⟨hlikes, hend⟩ := ih hcs.2 hds.2 hmore
      exact ⟨.cons hlike hlikes, hend⟩

/-- **A tree is read from the front of its lines**, if no line behind its margin follows. -/
theorem legible {c : Cell} (hc : c.WellFormed) : Legible c := by
  induction hc with
  | @intro c bits refs data children ih =>
    intro margin last d rest rest' hd hrest hrest' h
    rw [render_eq, render_eq, List.append_assoc, List.append_assoc] at h
    obtain ⟨hshown, hlines⟩ := wrap_append_inj (ellipsis_notMem_shown c) (ellipsis_notMem_shown d) h
    obtain ⟨hrefs, hend⟩ := renderAll_append_inj ih (fun _ => hd.of_mem_refs) hrest hrest' hlines
    exact ⟨Cell.looksLike_iff.mpr ⟨(shown_eq_iff (.intro bits refs data children) hd).mp hshown, hrefs⟩, hend⟩

/-! ## Trees that look alike -/

theorem renderAll_congr {cs ds : List Cell}
    (h : List.Forall₂ (fun c d => ∀ margin last, render margin last c = render margin last d) cs ds)
    (margin : List Char) : renderAll margin cs = renderAll margin ds := by
  induction h with
  | nil => rfl
  | @cons c d cs ds hcd hrest ih =>
    have hlast : cs.isEmpty = ds.isEmpty := by cases hrest <;> rfl
    rw [renderAll, renderAll, hcd, ih, hlast]

theorem render_of_looksLike {c d : Cell} (h : c.LooksLike d) (hc : c.WellFormed) (hd : d.WellFormed)
    (margin : List Char) (last : Bool) : render margin last c = render margin last d := by
  induction h generalizing margin last with
  | @intro c d bits count children ih =>
    have hrefs : List.Forall₂ (fun c d => ∀ margin last, render margin last c = render margin last d) c.refs d.refs :=
      List.forall₂_iff_zip.mpr ⟨count, fun hab =>
        ih _ hab (hc.of_mem_refs (List.of_mem_zip hab).1) (hd.of_mem_refs (List.of_mem_zip hab).2)⟩
    rw [render_eq, render_eq, (shown_eq_iff hc hd).mpr bits, renderAll_congr hrefs]

/-- **The drawing of a tree tells its shape and its bits**: just the trees that look alike have the same text. The cells
that look alike but differ in their bits are those that are shown as a completion tag alone. -/
theorem treeText_eq_iff {c d : Cell} (hc : c.WellFormed) (hd : d.WellFormed) :
    (c.treeText = d.treeText ↔ c.LooksLike d) ∧ (shown c = ['1', '_'] ↔ Blank c.bits) := by
  refine ⟨?_, shown_eq_tag_iff hc⟩
  rw [treeText_eq_lines, treeText_eq_lines, String.ofList_inj]
  have hroot : '\n' ∉ ([] : List Char) := List.not_mem_nil
  constructor
  · intro h
    have hlines := lines_inj (break_notMem_render hroot true c) (break_notMem_render hroot true d) h
    have hread : render [] true c ++ [] = render [] true d ++ [] := by rw [hlines]
    exact (legible hc hd (outside_nil _) (outside_nil _) hread).1
  · intro h
    rw [render_of_looksLike h hc hd]

/-- A cell without bits, marked or not, is drawn as one of three zeros, but not as one of two. -/
theorem treeText_eq_zeros :
    let bare : Cell := ⟨[], 0, [], true⟩
    let three : Cell := ⟨[0x1f], 3, [], false⟩
    let two : Cell := ⟨[0x00], 2, [], false⟩
    let fork (leaf : Cell) : Cell := ⟨[0xab], 8, [leaf, two], false⟩
    ((fork bare).WellFormed ∧ (fork three).WellFormed ∧ (fork two).WellFormed) ∧
      (fork bare).treeText = (fork three).treeText ∧ (fork bare).treeText ≠ (fork two).treeText ∧
      shown bare = ['1', '_'] := by
  intro bare three two fork
  have hbare : bare.WellFormed := .intro (by decide) (by decide) (by decide) (by simp [bare])
  have hthree : three.WellFormed := .intro (by decide) (by decide) (by decide) (by simp [three])
  have htwo : two.WellFormed := .intro (by decide) (by decide) (by decide) (by simp [two])
  have hfork : ∀ leaf : Cell, leaf.WellFormed → (fork leaf).WellFormed := fun leaf hleaf =>
    .intro (by simp [fork]; decide) (by simp [fork]; decide) (by simp [fork]) (by simpa [fork] using ⟨hleaf, htwo⟩)
  have hzeros : Cell.LooksLike bare three := .intro (Or.inr (by decide)) rfl nofun
  have hsame : Cell.LooksLike two two := .intro (Or.inl rfl) rfl nofun
  have halike : Cell.LooksLike (fork bare) (fork three) :=
    Cell.looksLike_iff.mpr ⟨Or.inl rfl, .cons hzeros (.cons hsame .nil)⟩
  have hdiffer : ¬Cell.LooksLike (fork bare) (fork two) := by
    intro h
    obtain ⟨-, hrefs⟩ := Cell.looksLike_iff.mp h
    cases hrefs with
    | cons hleaf _ => exact absurd (Cell.looksLike_iff.mp hleaf).1 (by decide)
  refine ⟨⟨hfork _ hbare, hfork _ hthree, hfork _ htwo⟩, ?_, ?_, ?_⟩
  · exact (treeText_eq_iff (hfork _ hbare) (hfork _ hthree)).1.mpr halike
  · exact mt (treeText_eq_iff (hfork _ hbare) (hfork _ htwo)).1.mp hdiffer
  · exact (treeText_eq_iff hbare hthree).2.mpr (Or.inl rfl)

end Tree

end TvmCode
