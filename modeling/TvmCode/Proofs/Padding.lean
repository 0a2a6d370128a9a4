import TvmCode.Proofs.Contract
import TvmCode.Tree

/-!
# Padding is not seen

The last byte of a cell may hold anything beyond the bits of the cell. Two trees that differ in nothing else
(`Cell.Like`) are drawn as the same tree, their windows are listed with the same text and faults, their contracts have
the same sections, and their dictionaries the same entries (`Cell.Indistinct`, `Cell.BitEq.indistinct`).

Each function runs on both trees at once. What carries the two runs is that their windows are at the same place of like
cells (`Slice.Like`): reads keep it (`Dictionary.Reader.Steady`), and so do listings (`disassemble_like`).
-/

namespace TvmCode

/-- Two outcomes that are the same refusal, or results so related. -/
inductive SameOutcome {ε α : Type} (R : α → α → Prop) : Except ε α → Except ε α → Prop
  | ok {a b : α} (h : R a b) : SameOutcome R (.ok a) (.ok b)
  | error (e : ε) : SameOutcome R (.error e) (.error e)

namespace SameOutcome

variable {ε α : Type} {R Q : α → α → Prop} {x y : Except ε α}

theorem mono (h : SameOutcome R x y) (hRQ : ∀ a b, R a b → Q a b) : SameOutcome Q x y := by
  cases h with
  | ok h => exact .ok (hRQ _ _ h)
  | error e => exact .error e

theorem map {β : Type} {Q : β → β → Prop} {f : α → β} (h : SameOutcome R x y) (hf : ∀ a b, R a b → Q (f a) (f b)) :
    SameOutcome Q (x.map f) (y.map f) := by
  cases h with
  | ok h => exact .ok (hf _ _ h)
  | error e => exact .error e

theorem eq_error {e : ε} (h : SameOutcome R (.error e) y) : y = .error e := by
  cases h
  rfl

theorem exists_ok {a : α} (h : SameOutcome R (.ok a) y) : ∃ b, y = .ok b ∧ R a b := by
  cases h with
  | ok h => exact ⟨_, rfl, h⟩

end SameOutcome

/-! ## Like cells -/

/-- Two trees that differ at most in what the last bytes of their cells hold beyond the bits. -/
structure Cell.Like (c d : Cell) : Prop where
  left : c.WellFormed
  right : d.WellFormed
  alike : c.BitEq d

theorem Cell.forall₂_like {cs ds : List Cell} (hc : ∀ c ∈ cs, c.WellFormed) (hd : ∀ d ∈ ds, d.WellFormed)
    (h : List.Forall₂ BitEq cs ds) : List.Forall₂ Like cs ds := by
  obtain ⟨hlen, hzip⟩ := List.forall₂_iff_zip.mp h
  refine List.forall₂_iff_zip.mpr ⟨hlen, ?_⟩
  intro c d hmem
  obtain ⟨hmemc, hmemd⟩ := List.of_mem_zip hmem
  exact ⟨hc c hmemc, hd d hmemd, hzip hmem⟩

/-- Two windows at the same place that show the same bits and like references. -/
structure Slice.Like (s t : Slice) : Prop extends Slice.Twin 0 s t where
  refPos : s.refPos = t.refPos

namespace Cell.Like

variable {c d : Cell}

theorem bitLen_eq (h : c.Like d) : c.bitLen = d.bitLen := by
  rw [← h.left.length_bits, ← h.right.length_bits, h.alike.bits_eq]

theorem refs (h : c.Like d) : List.Forall₂ Like c.refs d.refs :=
  forall₂_like (fun _ => h.left.of_mem_refs) (fun _ => h.right.of_mem_refs) h.alike.refs_alike

theorem isEmpty_eq (h : c.Like d) : c.isEmpty = d.isEmpty := by
  rw [Bool.eq_iff_iff]
  simp [isEmpty, ← List.length_eq_zero_iff, h.bitLen_eq, h.refs.length_eq]

/-- The same window of like cells. -/
theorem window (h : c.Like d) {bitPos bitEnd refPos refEnd : Nat}
    (hv : Slice.Valid ⟨c, bitPos, bitEnd, refPos, refEnd⟩) :
    Slice.Like ⟨c, bitPos, bitEnd, refPos, refEnd⟩ ⟨d, bitPos, bitEnd, refPos, refEnd⟩ := by
  have hv' : Slice.Valid ⟨d, bitPos, bitEnd, refPos, refEnd⟩ := by
    simpa only [Slice.Valid, h.bitLen_eq, h.refs.length_eq] using hv
  refine ⟨⟨⟨hv, h.left⟩, ⟨hv', h.right⟩, ?_, ?_, rfl⟩, rfl⟩
  · simp only [Slice.bits, Slice.remainingBits, h.alike.bits_eq]
  · exact List.forall₂_take _ (List.forall₂_drop _ h.alike.refs_alike)

theorem ofCell (h : c.Like d) : (Slice.ofCell c).Like (Slice.ofCell d) := ⟨.ofCell h.left h.right h.alike, rfl⟩

theorem toHex_eq (h : c.Like d) : c.toHex = d.toHex := h.ofCell.toHex_eq

end Cell.Like

/-! ## Like windows -/

namespace Slice.Like

variable {s t : Slice}

theorem bitPos_eq (h : s.Like t) : s.bitPos = t.bitPos := h.pos

theorem bitEnd_eq (h : s.Like t) : s.bitEnd = t.bitEnd := by
  have hlen := h.remainingBits_eq
  have hpos := h.bitPos_eq
  have hs := h.left.valid.1
  have ht := h.right.valid.1
  unfold remainingBits at hlen
  omega

theorem refEnd_eq (h : s.Like t) : s.refEnd = t.refEnd := by
  have hlen := h.remainingRefs_eq
  have hpos := h.refPos
  have hs := h.left.valid.2.2.1
  have ht := h.right.valid.2.2.1
  unfold remainingRefs at hlen
  omega

theorem dropBits (h : s.Like t) {n : Nat} (hn : n ≤ s.remainingBits) : (s.dropBits n).Like (t.dropBits n) :=
  ⟨h.toTwin.dropBits hn, h.refPos⟩

theorem refs_like (h : s.Like t) : List.Forall₂ Cell.Like s.refs t.refs :=
  Cell.forall₂_like (fun _ hc => h.left.cell.of_mem_refs (mem_refs_of_mem hc))
    (fun _ hd => h.right.cell.of_mem_refs (mem_refs_of_mem hd)) h.refs

/-- Like windows lead to like cells. -/
theorem reference (h : s.Like t) (i : Nat) : SameOutcome Cell.Like (s.reference i) (t.reference i) := by
  rw [reference_eq h.left, reference_eq h.right, h.bitPos_eq]
  have hrefs := h.refs_like
  by_cases hi : i < s.refs.length
  · have hi' : i < t.refs.length := hrefs.length_eq ▸ hi
    rw [List.getElem?_eq_getElem hi, List.getElem?_eq_getElem hi']
    exact .ok (hrefs.get hi hi')
  · rw [List.getElem?_eq_none (by omega), List.getElem?_eq_none (by rw [← hrefs.length_eq]; omega)]
    exact .error _

end Slice.Like

/-- Bounds make like windows of like cells, or are refused for both. -/
theorem Cell.Like.ofBounds {c d : Cell} (h : c.Like d) (bitPos bitEnd refPos refEnd : Int) :
    SameOutcome Slice.Like (Slice.ofBounds c bitPos bitEnd refPos refEnd)
      (Slice.ofBounds d bitPos bitEnd refPos refEnd) := by
  simp only [Slice.ofBounds, ← h.bitLen_eq, ← h.refs.length_eq]
  generalize (if bitEnd < 0 then (c.bitLen : Int) else bitEnd) = bitStop
  generalize (if refEnd < 0 then (c.refs.length : Int) else refEnd) = refStop
  split
  · exact .error _
  · split
    · exact .error _
    · rename_i hbits hrefs
      refine .ok (h.window ?_)
      simp only [Slice.Valid]
      omega

/-! ## Trees -/

namespace Tree

/-- Two cells that wait to be drawn at the same place. -/
structure Pending.Like (p q : Pending) : Prop where
  cell : p.cell.Like q.cell
  margin : p.margin = q.margin
  last : p.last = q.last

theorem children_like (margin : String) {cs ds : List Cell} (h : List.Forall₂ Cell.Like cs ds) :
    List.Forall₂ Pending.Like (children margin cs) (children margin ds) := by
  induction h with
  | nil => exact .nil
  | cons hcd hrest ih =>
    cases hrest with
    | nil => exact .cons ⟨hcd, rfl, rfl⟩ .nil
    | cons _ _ => exact .cons ⟨hcd, rfl, rfl⟩ ih

theorem cellLines_like {p q : Pending} (h : p.Like q) :
    cellLines p.cell p.margin p.last = cellLines q.cell q.margin q.last := by
  rw [cellLines, cellLines, h.cell.toHex_eq, h.margin, h.last]

/-- Like stacks are drawn alike. -/
theorem draw_like {stack stack' : List Pending} (h : List.Forall₂ Pending.Like stack stack') :
    draw stack = draw stack' := by
  fun_induction draw stack generalizing stack' with
  | case1 =>
    cases h
    rw [draw]
  | case2 p stack ih =>
    cases h with
    | @cons _ q _ stack' hpq hrest =>
      have hchildren := children_like (p.margin ++ trunk p.last) hpq.cell.refs
      rw [draw, cellLines_like hpq, ih (List.rel_append hchildren hrest), hpq.margin, hpq.last]

end Tree

theorem Cell.Like.treeText_eq {c d : Cell} (h : c.Like d) : c.treeText = d.treeText := by
  have hstack : List.Forall₂ Tree.Pending.Like [⟨c, "", true⟩] [⟨d, "", true⟩] := .cons ⟨h, rfl, rfl⟩ .nil
  rw [treeText, treeText, Tree.draw_like hstack]

/-! ## Listings -/

/-- Two listings with the same text and fault that leave like windows. -/
structure Region.Like (r r' : Region) : Prop where
  text : r.text = r'.text
  failure : r.failure? = r'.failure?
  rest : r.rest.Like r'.rest

/-- **Like windows are listed alike.** -/
theorem disassemble_like {s t : Slice} (h : s.Like t) (config : Config) (continuing : Bool) :
    (disassemble CodePage.zero config s continuing).Like (disassemble CodePage.zero config t continuing) := by
  have halike := listing_twin CodePage.faithful_zero (fun _ _ => rfl) config.maxDepth config.indent config.maxDepth
    h.toTwin continuing
  refine ⟨halike.text, ?_, halike.rest, ?_⟩
  · rw [Region.failure?, Region.failure?, disassemble, disassemble, halike.ending.eq]
  · -- as many references are taken from the two windows, which start at the same one
    have htaken := (disassemble_twin h.toTwin config continuing).refs
    have hstart := h.refPos
    omega

/-! ## Dictionaries -/

namespace Dictionary

/-- A reader of an edge does the same on like windows. -/
def Reader.Steady {α : Type} (r : Reader α) : Prop :=
  ∀ s t : Slice, s.Like t → SameOutcome (fun p q => p.1 = q.1 ∧ p.2.Like q.2) (r s) (r t)

namespace Reader.Steady

variable {α β : Type}

theorem pure (a : α) : Steady (pure a) := fun _ _ h => .ok ⟨rfl, h⟩

theorem bind {r : Reader α} {f : α → Reader β} (h : Steady r) (h' : ∀ a, Steady (f a)) : Steady (r >>= f) := by
  intro s t hst
  change SameOutcome _ (r s >>= fun p => f p.1 p.2) (r t >>= fun p => f p.1 p.2)
  have hr := h s t hst
  cases hs : r s with
  | error e =>
    rw [hs] at hr
    rw [hr.eq_error]
    exact .error e
  | ok p =>
    rw [hs] at hr
    obtain ⟨⟨a, v⟩, ht, rfl, huv⟩ := hr.exists_ok
    rw [ht]
    exact h' p.1 p.2 v huv

theorem ite {p : Prop} [Decidable p] {r r' : Reader α} (h : Steady r) (h' : Steady r') :
    Steady (if p then r else r') := by
  split
  · exact h
  · exact h'

theorem bits (width : Nat) : Steady (bits width) := by
  intro s t h
  rw [bits_eq h.left, bits_eq h.right, ← h.remainingBits_eq, ← h.bits, h.bitPos_eq]
  split
  · exact .ok ⟨rfl, h.dropBits ‹_›⟩
  · exact .error _

theorem bounded (limit : Int) (length : Nat) : Steady (bounded limit length) := by
  intro s t h
  unfold Dictionary.bounded
  split
  · exact .error _
  · exact .ok ⟨rfl, h⟩

theorem unary : Steady unary := by
  intro s t h
  have hbit := bits 1 s t h
  fun_induction Dictionary.unary s generalizing t with
  | case1 s e hs =>
    rw [hs] at hbit
    rw [Dictionary.unary, hbit.eq_error]
    exact .error e
  | case2 s rest hs =>
    rw [hs] at hbit
    obtain ⟨⟨b, rest'⟩, ht, rfl, hrest⟩ := hbit.exists_ok
    rw [Dictionary.unary, ht]
    exact .ok ⟨rfl, hrest⟩
  | case3 s n rest hs ih =>
    rw [hs] at hbit
    obtain ⟨⟨b, rest'⟩, ht, rfl, hrest⟩ := hbit.exists_ok
    have hmore : Dictionary.unary t = (Dictionary.unary rest').map fun p => (p.1 + 1, p.2) := by
      rw [Dictionary.unary, ht]
    rw [hmore]
    exact (ih rest' hrest (bits 1 rest rest' hrest)).map fun p q hpq => ⟨congrArg (· + 1) hpq.1, hpq.2⟩

theorem label (limit : Int) : Steady (label limit) := by
  refine .bind (.bits 1) fun _ => .ite ?_ (.bind (.bits 1) fun _ => .ite ?_ ?_)
  · exact .bind .unary fun _ => .bind (.bounded limit _) fun _ => .bind (.bits _) fun _ => .pure _
  · exact .bind (.bits _) fun _ => .bind (.bounded limit _) fun _ => .bind (.bits _) fun _ => .pure _
  · exact .bind (.bits 1) fun _ => .bind (.bits _) fun _ => .bind (.bounded limit _) fun _ => .pure _

end Reader.Steady

/-- Two entries under the same key, with like values. -/
structure Entry.Like (e e' : Entry) : Prop where
  key : e.key = e'.key
  value : e.value.Like e'.value

/-- Two walks that find like entries and meet the same failure. -/
structure Walk.Like (w w' : Walk) : Prop where
  entries : List.Forall₂ Entry.Like w.entries w'.entries
  failure : w.failure = w'.failure

theorem Walk.Like.andThen {w w' next next' : Walk} (h : w.Like w') (hnext : next.Like next') :
    (w.andThen fun _ => next).Like (w'.andThen fun _ => next') := by
  unfold Walk.andThen
  rw [← h.failure]
  cases hfail : w.failure with
  | some e => exact h
  | none => exact ⟨List.rel_append h.entries hnext.entries, hnext.failure⟩

/-- **Like edges have like entries below them.** -/
theorem walk_like {c d : Cell} (h : c.Like d) (key : Nat) (limit : Int) :
    (walk c key limit).Like (walk d key limit) := by
  have hlabel := Reader.Steady.label limit _ _ h.ofCell
  cases hc : label limit (.ofCell c) with
  | error e =>
    rw [hc] at hlabel
    rw [walk, walk, hc, hlabel.eq_error]
    exact ⟨.nil, rfl⟩
  | ok r =>
    obtain ⟨⟨length, bits⟩, rest⟩ := r
    rw [hc] at hlabel
    obtain ⟨⟨_, rest'⟩, hd, rfl, hrest⟩ := hlabel.exists_ok
    by_cases hused : limit = length
    · subst hused
      rw [walk_leaf hc, walk_leaf hd]
      exact ⟨.cons ⟨rfl, hrest⟩ .nil, rfl⟩
    · obtain hfew | ⟨left, right, others, hrefs⟩ :
          c.refs.length < 2 ∨ ∃ left right others, c.refs = left :: right :: others := by
        rcases c.refs with _ | ⟨left, _ | ⟨right, others⟩⟩ <;> simp
      · rw [walk_few_refs hc hused hfew, walk_few_refs hd hused (h.refs.length_eq ▸ hfew), h.refs.length_eq]
        exact ⟨.nil, rfl⟩
      · have hlike := h.refs
        rw [hrefs] at hlike
        obtain ⟨left', _, hleft, hlike, hrefs'⟩ := List.forall₂_cons_left_iff.mp hlike
        obtain ⟨right', others', hright, -, rfl⟩ := List.forall₂_cons_left_iff.mp hlike
        have := Cell.sizeOf_lt_of_mem_refs (show left ∈ c.refs by simp [hrefs])
        have := Cell.sizeOf_lt_of_mem_refs (show right ∈ c.refs by simp [hrefs])
        rw [walk_two_refs hc hused hrefs, walk_two_refs hd hused hrefs']
        exact (walk_like hleft _ _).andThen (walk_like hright _ _)
termination_by sizeOf c

theorem entries_like {c d : Cell} (h : c.Like d) (keyBits : Int) :
    (entries (some c) keyBits).Like (entries (some d) keyBits) := walk_like h 0 keyBits

/-- Like cells are read as dictionaries with like entries, or are none for the same reason. -/
theorem read_like {c d : Cell} (h : c.Like d) (keyBits : Int) :
    SameOutcome (List.Forall₂ Entry.Like) (read (some c) keyBits) (read (some d) keyBits) := by
  have hlike := entries_like h keyBits
  simp only [read, ← hlike.failure]
  cases (entries (some c) keyBits).failure with
  | some e => exact .error e
  | none => exact .ok hlike.entries

end Dictionary

/-! ## Contracts -/

namespace Contract

/-- Two reports with the same text and fault. -/
structure Report.Same (r r' : Report) : Prop where
  text : r.text = r'.text
  failure : r.failure = r'.failure

theorem Report.Same.refl (r : Report) : r.Same r := ⟨rfl, rfl⟩

theorem Report.Same.andThen {r r' : Report} {next next' : Unit → Report} (h : r.Same r')
    (hnext : (next ()).Same (next' ())) : (r.andThen next).Same (r'.andThen next') := by
  unfold Report.andThen
  rw [← h.failure]
  cases r.failure with
  | some f => exact h
  | none => exact ⟨congrArg₂ (· ++ ·) h.text hnext.text, hnext.failure⟩

theorem Report.same_ofRegion {r r' : Region} (h : r.Like r') : (ofRegion r).Same (ofRegion r') := ⟨h.text, h.failure⟩

variable {config : Config} {title : Nat → String} {s t : Slice} {c d : Cell}

theorem entry_same (h : s.Like t) (config : Config) (title : String) :
    (entry config title s).Same (entry config title t) := by
  have hlike := disassemble_like h config true
  simp only [entry, hlike.text, hlike.failure]
  cases (disassemble CodePage.zero config t true).failure? with
  | none => exact ⟨rfl, rfl⟩
  | some f => exact ⟨rfl, rfl⟩

theorem sections_same {es es' : List Dictionary.Entry} (h : List.Forall₂ Dictionary.Entry.Like es es') :
    (sections config title es).Same (sections config title es') := by
  induction h with
  | nil => exact .refl _
  | cons he _ ih =>
    rw [sections, sections, he.key]
    exact (entry_same he.value config _).andThen ih

theorem dictionary_same (h : c.Like d) {what : String} {next next' : Unit → Report}
    (hnext : (next ()).Same (next' ())) :
    (dictionary config what title c next).Same (dictionary config what title d next') := by
  have hread := Dictionary.read_like h keyBits
  unfold dictionary
  generalize Dictionary.read (some c) keyBits = x at hread ⊢
  generalize Dictionary.read (some d) keyBits = y at hread ⊢
  cases hread with
  | error e => exact ⟨rfl, rfl⟩
  | ok hlike =>
    obtain ⟨htext, hfailure⟩ := (sections_same hlike).andThen hnext
    exact ⟨htext, hfailure⟩

theorem functions_same (h : s.Like t) : (functions config s).Same (functions config t) := by
  have href : SameOutcome Cell.Like (s.reference 0) (t.reference 0) := h.reference 0
  unfold functions
  generalize s.reference 0 = x at href ⊢
  generalize t.reference 0 = y at href ⊢
  cases href with
  | error f => exact .refl _
  | ok hroot =>
    simp only [hroot.isEmpty_eq]
    split
    · exact .refl _
    · exact dictionary_same hroot (.refl _)

theorem continuation_same (h : s.Like t) : (continuation config s).Same (continuation config t) := by
  have href : SameOutcome Cell.Like (s.reference 1) (t.reference 1) := h.reference 1
  refine .andThen (.refl _) ?_
  generalize s.reference 1 = x at href ⊢
  generalize t.reference 1 = y at href ⊢
  cases href with
  | error f => exact .refl _
  | ok hc3 =>
    have hlike := disassemble_like hc3.ofCell config false
    exact (Report.same_ofRegion hlike).andThen (functions_same hlike.rest)

/-- **Like cells are listed alike as contracts.** -/
theorem list_same (h : c.Like d) (config : Config) : (list config c).Same (list config d) := by
  have hlike := disassemble_like h.ofCell config false
  refine .andThen (.refl _) ((Report.same_ofRegion hlike).andThen ?_)
  generalize disassemble CodePage.zero config (.ofCell c) false = r at hlike ⊢
  generalize disassemble CodePage.zero config (.ofCell d) false = r' at hlike ⊢
  have href : SameOutcome Cell.Like (r.rest.reference 0) (r'.rest.reference 0) := hlike.rest.reference 0
  generalize r.rest.reference 0 = x at href ⊢
  generalize r'.rest.reference 0 = y at href ⊢
  cases href with
  | error f => exact .refl _
  | ok hroot => exact dictionary_same hroot (continuation_same hlike.rest)

end Contract

/-! ## What is seen -/

/-- Two windows with the same bits in hexadecimal at the same place. -/
structure Slice.SameView (s t : Slice) : Prop where
  hex : s.toHex = t.toHex
  bitPos : s.bitPos = t.bitPos
  bitEnd : s.bitEnd = t.bitEnd
  refPos : s.refPos = t.refPos
  refEnd : s.refEnd = t.refEnd

theorem Slice.Like.sameView {s t : Slice} (h : s.Like t) : s.SameView t :=
  ⟨h.toHex_eq, h.bitPos_eq, h.bitEnd_eq, h.refPos, h.refEnd_eq⟩

/-- Two listings with the same text and fault that leave their windows at the same place. -/
structure Region.SameView (r r' : Region) : Prop where
  text : r.text = r'.text
  failure : r.failure? = r'.failure?
  rest : r.rest.SameView r'.rest

theorem Region.Like.sameView {r r' : Region} (h : r.Like r') : r.SameView r' := ⟨h.text, h.failure, h.rest.sameView⟩

/-- Two entries under the same key, with the same value. -/
structure Dictionary.Entry.SameView (e e' : Entry) : Prop where
  key : e.key = e'.key
  value : e.value.SameView e'.value

theorem Dictionary.Entry.Like.sameView {e e' : Entry} (h : e.Like e') : e.SameView e' := ⟨h.key, h.value.sameView⟩

/-- Two cells that nothing made of them tells apart. -/
structure Cell.Indistinct (c d : Cell) : Prop where
  /-- They are drawn as the same tree. -/
  tree : c.treeText = d.treeText
  /-- Bounds are refused for both, or make windows that are listed alike. -/
  windows (config : Config) (bitPos bitEnd refPos refEnd : Int) (continuing : Bool) :
    SameOutcome
      (fun s t => s.SameView t ∧ (disassemble CodePage.zero config s continuing).SameView
        (disassemble CodePage.zero config t continuing))
      (Slice.ofBounds c bitPos bitEnd refPos refEnd) (Slice.ofBounds d bitPos bitEnd refPos refEnd)
  /-- They are the same contract. -/
  contract (config : Config) : (Contract.list config c).Same (Contract.list config d)
  /-- They have the same entries as dictionaries, up to the same failure. -/
  entries (keyBits : Int) :
    List.Forall₂ Dictionary.Entry.SameView (Dictionary.entries (some c) keyBits).entries
        (Dictionary.entries (some d) keyBits).entries ∧
      (Dictionary.entries (some c) keyBits).failure = (Dictionary.entries (some d) keyBits).failure
  /-- They are refused as dictionaries for the same reason, or have the same entries. -/
  dictionary (keyBits : Int) :
    SameOutcome (List.Forall₂ Dictionary.Entry.SameView) (Dictionary.read (some c) keyBits)
      (Dictionary.read (some d) keyBits)

/-- **Padding is not seen**: trees of cells with the same shape, bits and exotic marks are not told apart. -/
theorem Cell.BitEq.indistinct {c d : Cell} (hc : c.WellFormed) (hd : d.WellFormed) (h : c.BitEq d) :
    c.Indistinct d := by
  have hlike : c.Like d := ⟨hc, hd, h⟩
  refine ⟨hlike.treeText_eq, ?_, Contract.list_same hlike, ?_, ?_⟩
  · intro config bitPos bitEnd refPos refEnd continuing
    refine (hlike.ofBounds bitPos bitEnd refPos refEnd).mono ?_
    intro s t hst
    exact ⟨hst.sameView, (disassemble_like hst config continuing).sameView⟩
  · intro keyBits
    obtain ⟨hentries, hfailure⟩ := Dictionary.entries_like hlike keyBits
    exact ⟨hentries.imp fun _ _ he => he.sameView, hfailure⟩
  · intro keyBits
    exact (Dictionary.read_like hlike keyBits).mono fun _ _ hes => hes.imp fun _ _ he => he.sameView

/-- A cell of twelve bits over one of five, with zeros and with ones after the last bit of each. -/
theorem indistinct_of_other_padding :
    let c : Cell := ⟨[0x00, 0x90], 12, [⟨[0x38], 5, [], false⟩], false⟩
    let d : Cell := ⟨[0x00, 0x9f], 12, [⟨[0x3f], 5, [], false⟩], false⟩
    c.WellFormed ∧ d.WellFormed ∧ c.BitEq d ∧ c.Indistinct d := by
  intro c d
  have hleaf : ∀ byte, Cell.WellFormed ⟨[byte], 5, [], false⟩ := fun byte =>
    .intro (by simp [maxBits]) (by simp) (by simp) (by simp)
  have hc : c.WellFormed := .intro (by decide) (by decide) (by decide) (by simpa [c] using hleaf _)
  have hd : d.WellFormed := .intro (by decide) (by decide) (by decide) (by simpa [d] using hleaf _)
  have hleaves : Cell.BitEq ⟨[0x38], 5, [], false⟩ ⟨[0x3f], 5, [], false⟩ := .intro (by decide) rfl rfl (by simp)
  have h : c.BitEq d := .intro (by decide) rfl rfl (by simpa [c, d] using hleaves)
  exact ⟨hc, hd, h, h.indistinct hc hd⟩

end TvmCode
