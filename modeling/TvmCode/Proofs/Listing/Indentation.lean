import TvmCode.Proofs.Listing.Layout
import TvmCode.Proofs.Listing.Pairs
import TvmCode.Proofs.Listing.Twins
import TvmCode.Proofs.Rows

/-!
# Listings as printed rows

A body is indented as a whole, and so is the body around it, so a line at depth `k` gets its margin in `k` turns. All
this comes to the same as printing each line once with the margin of its depth: a listing prints rows that do not
depend on the width of the margin, and these rows are an outline (`disassemble_rows`).

Listings with two margins are two listings of the same code (`Pairing.margins`), and each level puts the margin in
front of the rows of its bodies (`bodies_margins`). That the rows are the same for all margins follows because they can
be told from the listing without margins (`Text.eq_of_printRows_zero`).
-/

namespace TvmCode

/-- Listings with margins of `n` and of `m` spaces: both print the same rows, up to `levels` deep. -/
def Pairing.margins (n m levels : Nat) : Pairing where
  excused _ := False
  bodies t u := ∃ rows, Text.Outline rows ∧ (∀ r ∈ rows, r.depth < levels) ∧
    t.toList = Text.printRows n (rows.map Text.Row.deeper) ∧ u.toList = Text.printRows m (rows.map Text.Row.deeper)
  texts t u := ∃ rows, Text.Outline rows ∧ (∀ r ∈ rows, r.depth ≤ levels) ∧
    t.toList = Text.printRows n rows ∧ u.toList = Text.printRows m rows

section Margins

variable {find? : Dispatcher} {n m levels : Nat}

/-- A line at the outermost level has no margin. -/
theorem margins_line {line : String} (hplain : Text.Plain line.toList)
    (hink : ∃ c ∈ line.toList.head?, Text.isBlank c = false) :
    (Pairing.margins n m levels).texts (line ++ "\n") (line ++ "\n") := by
  have htext : ∀ k, (line ++ "\n").toList = Text.printRows k [⟨0, line.toList⟩] := by
    intro k
    simp [Text.Row.print]
  exact ⟨[⟨0, line.toList⟩], Text.outline_line hplain hink, by simp, htext n, htext m⟩

/-- The rows of bodies. -/
theorem margins_rows {ts us : List String} (h : List.Forall₂ (Pairing.margins n m levels).bodies ts us) :
    ∃ blocks : List (List Text.Row), (∀ block ∈ blocks, Text.Outline block) ∧
      (∀ block ∈ blocks, ∀ r ∈ block, r.depth < levels) ∧
      ts.map String.toList = blocks.map (fun b => Text.printRows n (b.map Text.Row.deeper)) ∧
      us.map String.toList = blocks.map (fun b => Text.printRows m (b.map Text.Row.deeper)) := by
  induction h with
  | nil => exact ⟨[], by simp, by simp, rfl, rfl⟩
  | cons hb _ ih =>
    obtain ⟨rows, hrows, hdepth, ht, hu⟩ := hb
    obtain ⟨blocks, hblocks, hdepths, hts, hus⟩ := ih
    refine ⟨rows :: blocks, List.forall_mem_cons.mpr ⟨hrows, hblocks⟩,
      List.forall_mem_cons.mpr ⟨hdepth, hdepths⟩, ?_, ?_⟩
    · rw [List.map_cons, List.map_cons, ht, hts]
    · rw [List.map_cons, List.map_cons, hu, hus]

theorem margins_blocks {head : String} (hhead : Text.Leads head.toList) {ts us : List String}
    (h : List.Forall₂ (Pairing.margins n m levels).bodies ts us) :
    (Pairing.margins n m levels).texts (Form.withBlocks head ts ++ "\n") (Form.withBlocks head us ++ "\n") := by
  obtain ⟨blocks, hblocks, hdepths, hts, hus⟩ := margins_rows h
  have htext : ∀ (k : Nat) (texts : List String),
      texts.map String.toList = blocks.map (fun b => Text.printRows k (b.map Text.Row.deeper)) →
      (Form.withBlocks head texts ++ "\n").toList = Text.printRows k (Text.blockRows head.toList blocks) := by
    intro k texts htexts
    rw [String.toList_append, Form.toList_withBlocks, htexts, List.map_map, Text.printRows_blockRows]
    rfl
  exact ⟨Text.blockRows head.toList blocks, Text.outline_blockRows hhead hblocks, Text.depth_le_blockRows hdepths,
    htext n ts hts, htext m us hus⟩

theorem margins_join {ts us : List String} {t u : String}
    (hs : List.Forall₂ (Pairing.margins n m levels).bodies ts us) (h : (Pairing.margins n m levels).bodies t u) :
    (Pairing.margins n m levels).bodies (String.join ts ++ t) (String.join us ++ u) := by
  induction hs with
  | nil => simpa using h
  | cons hb _ ih =>
    obtain ⟨xs, hxs, hdepth, ht, hu⟩ := hb
    obtain ⟨ys, hys, hdepth', hts, hus⟩ := ih
    refine ⟨xs ++ ys, hxs.append hys, List.forall_mem_append.mpr ⟨hdepth, hdepth'⟩, ?_, ?_⟩
    · rw [String.join_cons, String.append_assoc, String.toList_append, ht, hts, List.map_append, Text.printRows_append]
    · rw [String.join_cons, String.append_assoc, String.toList_append, hu, hus, List.map_append, Text.printRows_append]

theorem margins_kept (hw : find?.Worded) : (Pairing.margins n m levels).Kept find? where
  empty := ⟨[], Text.outline_nil, by simp, rfl, rfl⟩
  append := by
    rintro t t' u u' ⟨xs, hxs, hdepth, ht, ht'⟩ ⟨ys, hys, hdepth', hu, hu'⟩
    refine ⟨xs ++ ys, hxs.append hys, List.forall_mem_append.mpr ⟨hdepth, hdepth'⟩, ?_, ?_⟩
    · rw [String.toList_append, ht, hu, Text.printRows_append]
    · rw [String.toList_append, ht', hu', Text.printRows_append]
  line {s i e} hfind he := by
    have hleads := he.leads (hw s i hfind)
    exact margins_line hleads.plain hleads.head_ink
  blocks {s i head ts us} hfind hhead h := margins_blocks (hhead.leads (hw s i hfind)) h
  mark s := by
    refine margins_line (plain_marker_hex s) ⟨'>', ?_, by decide⟩
    rw [String.toList_append]
    rfl
  join := margins_join

/-- A body of rows is a listing of rows one level further out behind a margin. -/
theorem Region.Paired.rendered_margins {r r' : Region} (h : r.Paired (.margins n m levels) r') :
    (r.rendered n).Paired (.margins n m (levels + 1)) (r'.rendered m) := by
  obtain ⟨⟨rows, hrows, hdepth, ht, hu⟩, -, hend⟩ := h.settles fun _ _ hf => hf
  have hbody : (Pairing.margins n m (levels + 1)).bodies (Text.indent n r.text) (Text.indent m r'.text) := by
    refine ⟨rows, hrows, fun r hr => Nat.lt_succ_of_le (hdepth r hr), ?_, ?_⟩
    · exact Text.indent_printRows hrows.tidy ht
    · exact Text.indent_printRows hrows.tidy hu
  unfold Region.rendered
  rw [← hend]
  cases r.ending with
  | complete => exact hbody
  | marked => exact hbody
  | failed f => exact Or.inr rfl

theorem bodies_margins (hw : find?.Worded) (limit n m levels : Nat) :
    (bodies find? limit n levels).Paired (.margins n m levels) (bodies find? limit m levels) := by
  induction levels with
  | zero =>
    intro s continuing
    exact Or.inr rfl
  | succ levels ih =>
    intro s continuing
    rw [bodies_succ, bodies_succ]
    exact (region_paired (margins_kept hw) ih s continuing).rendered_margins

/-- Listings with two margins print the same rows. -/
theorem listing_margins (hw : find?.Worded) (limit n m levels : Nat) (s : Slice) (continuing : Bool) :
    (listing find? limit n levels s continuing).Paired (.margins n m levels)
      (listing find? limit m levels s continuing) := by
  rw [listing_eq, listing_eq]
  exact region_paired (margins_kept hw) (bodies_margins hw limit n m levels) s continuing

end Margins

/-- The listing of a slice prints the given rows, whatever the margin. -/
structure Printed (config : Config) (s : Slice) (continuing : Bool) (rows : List Text.Row) : Prop where
  /-- Each row is printed once, behind a margin for its depth, and a line feed follows it. -/
  text (indent : Nat) :
    (disassemble CodePage.zero { config with indent := indent } s continuing).failure? = none ∧
      (disassemble CodePage.zero { config with indent := indent } s continuing).text =
        String.ofList (rows.flatMap fun r => List.replicate (indent * r.depth) ' ' ++ r.line ++ ['\n'])
  line {r : Text.Row} (h : r ∈ rows) : r.line ≠ [] ∧ '\n' ∉ r.line ∧ r.line.head? ≠ some ' '
  depth_le {r : Text.Row} (h : r ∈ rows) : r.depth ≤ config.maxDepth
  /-- A row is as deep as there are open braces before it, less the one that it closes at its start. -/
  depth_eq {before after : List Text.Row} {r : Text.Row} (h : rows = before ++ r :: after) :
    (r.depth : Int) = Text.balance before - if r.line.head? = some '\x7d' then 1 else 0
  balanced : Text.balance rows = 0

/-- **A listing is printed from rows that do not depend on the margin.** -/
theorem disassemble_rows (config : Config) (s : Slice) (continuing : Bool)
    (h : (disassemble CodePage.zero config s continuing).failure? = none) :
    ∃ rows, Printed config s continuing rows := by
  have hpair := fun n m => listing_margins CodePage.worded_zero config.maxDepth n m config.maxDepth s continuing
  obtain ⟨⟨rows, hrows, hdepth, -, hzero⟩, -, hend⟩ := (hpair config.indent 0).settles fun _ _ hf => hf
  refine ⟨rows, ?_, ?_, fun {r} hr => hdepth r hr, ?_, hrows.balanced⟩
  · intro indent
    obtain ⟨⟨rows', hrows', -, htext, hzero'⟩, -, hend'⟩ := (hpair indent 0).settles fun _ _ hf => hf
    have hsame : rows' = rows := Text.eq_of_printRows_zero hrows' hrows (hzero'.symm.trans hzero)
    subst hsame
    have hending : (disassemble CodePage.zero { config with indent := indent } s continuing).ending =
        (disassemble CodePage.zero config s continuing).ending := hend'.trans hend.symm
    constructor
    · rw [Region.failure?, hending]
      exact h
    · apply String.toList_inj.mp
      rw [disassemble, htext, String.toList_ofList]
      simp only [List.append_assoc]
      rfl
  · intro r hr
    have htidy := hrows.tidy r hr
    refine ⟨htidy.head.1, fun hfeed => ?_, htidy.head.2⟩
    have hunbroken := htidy.unbroken _ hfeed
    cases hunbroken
  · intro before after r hsplit
    have hdepth := (hsplit ▸ hrows.tracks).depth_eq
    rwa [zero_add] at hdepth

/-- Code of one instruction, which pushes a continuation of one byte that does nothing. -/
def pushedNop : Cell := ⟨[0x91, 0x00], 16, [], false⟩

theorem wellFormed_pushedNop : pushedNop.WellFormed :=
  .intro (by decide) (by decide) (by decide) (by simp [pushedNop])

theorem step_pushedNop {nested : Nested} {text : String}
    (h : nested ⟨pushedNop, 8, 16, 0, 0⟩ false = ⟨.ok text, []⟩) :
    step CodePage.zero.find? nested (.ofCell pushedNop) =
      .line (Form.withBlocks "PUSHCONT" ["" ++ text]) ⟨⟨pushedNop, 16, 16, 0, 0⟩, []⟩ := by
  have hstep := CodePage.step_pushcont (Slice.sound_ofCell wellFormed_pushedNop) (n := 1) (by decide)
    ⟨by decide, by decide, trivial⟩ (by decide) nested
  have hpart : ((Slice.ofCell pushedNop).dropBits 8).front (8 * 1) = ⟨pushedNop, 8, 16, 0, 0⟩ := rfl
  rw [hpart, h] at hstep
  exact hstep

theorem rows_of_pushedNop :
    (disassemble CodePage.zero ⟨1, 2, Nat.one_pos⟩ (.ofCell pushedNop) false).failure? = none ∧
      ∃ rows, Printed ⟨1, 2, Nat.one_pos⟩ (.ofCell pushedNop) false rows := by
  have hpart : Slice.Sound ⟨pushedNop, 8, 16, 0, 0⟩ :=
    ⟨by simp [Slice.Valid, pushedNop], wellFormed_pushedNop⟩
  have hnop := CodePage.step_nop hpart ⟨by decide, by decide, trivial⟩
  have hbody : bodies CodePage.zero.find? 1 2 1 ⟨pushedNop, 8, 16, 0, 0⟩ false = ⟨.ok "  NOP\n", []⟩ := by
    rw [bodies_succ, region, if_neg (by simp), straight_more (by decide) (hnop _), straight_done (by decide)]
    rfl
  have h : (disassemble CodePage.zero ⟨1, 2, Nat.one_pos⟩ (.ofCell pushedNop) false).failure? = none := by
    rw [disassemble, listing_eq, region, if_neg (by simp), straight_more (by decide) (step_pushedNop hbody),
      straight_done (by decide)]
    rfl
  exact ⟨h, disassemble_rows _ _ _ h⟩

end TvmCode
