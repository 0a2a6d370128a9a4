import TvmCode.Proofs.CodePage
import TvmCode.Proofs.Coupling
import TvmCode.Proofs.Layout
import TvmCode.Proofs.Listing.Steps

/-!
# The layout of listings

A listing is a text of lines whose braces match, whatever the code (`listing_laid`). Each instruction is shown by one
outer line and by the blocks behind it, and its line never looks like a marker (`headed_of_step`), so the markers among
the outer lines (`markers`) are those that the end of the listing puts there: none where all bits were listed
(`markers_of_clear`) and one otherwise (`markers_append_markedLine`).
-/

namespace TvmCode

/-! ## Words of instructions -/

/-- The first piece of a text can start a line, and the others are plain. -/
def Template.worded : Template → Bool
  | [] => false
  | piece :: pieces => Text.isLead piece && pieces.all Text.isWord

/-- All texts of a form can start a line and are plain. -/
def Form.worded : Form → Bool
  | .line text _ _ | .blocks text _ _ => Template.worded text
  | .register zero other => Text.isLead zero && Text.isLead other
  | .smallInt name | .bigInt name | .literal name _ _ _ | .inlineBody name _ _ => Text.isLead name
  | .select choices => choices.all fun (_, text, _) => Template.worded text
  | .debugText => true

theorem Template.plain_fillPlaces {pieces : List String} (h : pieces.all Text.isWord = true) {values : List Int}
    {e : String} (he : fillPlaces pieces values = some e) : Text.Plain e.toList := by
  induction pieces generalizing values e with
  | nil =>
    cases he
    exact Text.plain_nil
  | cons piece pieces ih =>
    rw [List.all_cons, Bool.and_eq_true] at h
    have hpiece := Text.plain_of_isWord h.1
    cases values with
    | nil =>
      obtain ⟨rest, hrest, hshown⟩ := Option.bind_eq_some_iff.mp he
      cases hshown
      rw [String.toList_append]
      exact Text.plain_append.mpr ⟨hpiece, ih h.2 hrest⟩
    | cons v values =>
      obtain ⟨shown, hshown, hbehind⟩ := Option.bind_eq_some_iff.mp he
      obtain ⟨rest, hrest, hall⟩ := Option.bind_eq_some_iff.mp hbehind
      cases hall
      rw [String.toList_append, String.toList_append]
      exact Text.plain_append.mpr ⟨Text.plain_append.mpr ⟨Text.plain_writeInt hshown, hpiece⟩, ih h.2 hrest⟩

theorem Template.leads_fill {text : Template} (h : text.worded = true) {values : List Int} {e : String}
    (he : text.fill values = some e) : Text.Leads e.toList := by
  cases text with
  | nil => cases h
  | cons head pieces =>
    rw [worded, Bool.and_eq_true] at h
    obtain ⟨rest, hrest, rfl⟩ := Option.map_eq_some_iff.mp he
    rw [String.toList_append]
    exact (Text.leads_of_isLead h.1).append (plain_fillPlaces h.2 hrest)

/-- What a form shows can start a line and is plain. -/
theorem Form.Shows.leads {f : Form} {e : String} (h : f.Shows e) (hf : f.worded = true) : Text.Leads e.toList := by
  cases f with
  | line text operands refs => obtain ⟨values, he⟩ := h; exact Template.leads_fill hf he
  | blocks text operands refs => obtain ⟨values, he⟩ := h; exact Template.leads_fill hf he
  | register zero other =>
    rw [worded, Bool.and_eq_true] at hf
    rcases h with rfl | ⟨i, rfl⟩
    · exact Text.leads_of_isLead hf.1
    · rw [String.toList_append]
      exact (Text.leads_of_isLead hf.2).append (Text.plain_toString_nat i)
  | smallInt name =>
    obtain ⟨x, rfl⟩ := h
    rw [String.toList_append]
    exact (Text.leads_of_isLead hf).append (Text.plain_toString_int x)
  | bigInt name =>
    obtain ⟨x, rfl⟩ := h
    rw [String.toList_append]
    exact (Text.leads_of_isLead hf).append (Text.plain_toString_int x)
  | literal lead reserved size extra =>
    obtain ⟨value, width, rfl⟩ := h
    rw [String.toList_append]
    exact (Text.leads_of_isLead hf).append (Text.plain_hexOfBits value width)
  | inlineBody name refBits sizeBits =>
    cases h
    exact Text.leads_of_isLead hf
  | select choices =>
    obtain ⟨key, text, operands, values, hmem, he⟩ := h
    exact Template.leads_fill (List.all_eq_true.mp hf _ hmem) he
  | debugText =>
    rcases h with rfl | ⟨value, width, rfl | rfl⟩
    · exact Text.leads_of_isLead (by decide)
    · rw [String.toList_append]
      exact (Text.leads_of_isLead (by decide)).append (Text.plain_hexOfBits value width)
    · rw [String.toList_append]
      exact (Text.leads_of_isLead (by decide)).append (Text.plain_hexOfBits value width)

/-- A dispatcher finds only instructions whose texts can start a line. -/
def Dispatcher.Worded (find? : Dispatcher) : Prop :=
  ∀ (s : Slice) (i : Instr), find? s = some i → i.form.worded = true

namespace CodePage

/-- All texts of code page zero can start a line and are plain. -/
theorem worded_zeroRecords : Record.allList (fun i => i.form.worded) zeroRecords = true := by decide +kernel

theorem worded_zero : Dispatcher.Worded zero.find? := by
  intro s i h
  obtain ⟨path, hdecl, -⟩ := find?_eq_some_iff.mp h
  have hall := worded_zeroRecords
  generalize zeroRecords = records at hdecl hall
  exact hdecl.of_all hall

end CodePage

/-! ## Instructions -/

/-- A line that shows bits behind a marker. -/
def isMarked (line : List Char) : Bool := marker.toList.isPrefixOf line

theorem not_isMarked {head : List Char} (h : Text.Leads head) (tail : List Char) : isMarked (head ++ tail) = false := by
  cases head with
  | nil => exact h.elim
  | cons c cs =>
    have hc : c ≠ '>' := by
      rintro rfl
      cases h.1
    have hmarker : marker.toList = ['>', ' '] := by decide
    rw [isMarked, hmarker, List.cons_append, List.isPrefixOf_cons_cons, Bool.and_eq_false_iff]
    exact Or.inl (beq_eq_false_iff_ne.mpr hc.symm)

/-- The text of an instruction is laid out with one outer line, and this line is not a marked one. -/
def Headed (e : String) : Prop := ∃ line, Text.Laid [line] (e.toList ++ ['\n']) ∧ isMarked line = false

/-- Continuations are laid out. -/
def Nested.Laid (nested : Nested) : Prop :=
  ∀ (s : Slice) (continuing : Bool) (text : String), (nested s continuing).text = .ok text →
    ∃ outer, Text.Laid outer text.toList

theorem headed_of_leads {e : String} (h : Text.Leads e.toList) : Headed e :=
  ⟨_, Text.laid_line h.plain h.ink, not_isMarked h _⟩

theorem Form.toList_withBlocks (head : String) (bodies : List String) :
    (withBlocks head bodies).toList = head.toList ++ [' '] ++
      [' '].intercalate ((bodies.map String.toList).map fun b => ['\x7b', '\n'] ++ b ++ ['\x7d']) := by
  have hspace : " ".toList = [' '] := by decide
  have hopen : "\x7b\n".toList = ['\x7b', '\n'] := by decide
  have hclose : "\x7d".toList = ['\x7d'] := by decide
  simp only [withBlocks, String.toList_append, String.toList_intercalate, List.map_map, Function.comp_def, hspace,
    hopen, hclose]

theorem headed_withBlocks {head : String} (hhead : Text.Leads head.toList) {bodies : List String}
    (h : ∀ b ∈ bodies, ∃ outer, Text.Laid outer b.toList) : Headed (Form.withBlocks head bodies) := by
  have hbodies : ∀ cs ∈ bodies.map String.toList, ∃ outer, Text.Laid outer cs := by
    intro cs hcs
    obtain ⟨b, hb, rfl⟩ := List.mem_map.mp hcs
    exact h b hb
  obtain ⟨tail, hlaid⟩ := Text.laid_blocks hhead hbodies
  rw [← Form.toList_withBlocks] at hlaid
  exact ⟨_, hlaid, not_isMarked hhead tail⟩

/-- One run beside itself, with continuations that are laid out. -/
def Coupling.laid : Coupling where
  cursors := Eq
  faults := Eq
  excused _ := False
  parts := Eq
  cells := Eq
  bodies t u := t = u ∧ ∃ outer, Text.Laid outer t.toList

theorem Coupling.laid_self {α : Type} {R : α → α → Prop} (hR : ∀ a, R a a) (d : Decoder α) :
    laid.Alongside R d d := by
  rintro c _ rfl
  cases d c with
  | ok a k => exact ⟨hR a, rfl⟩
  | error f k => exact Or.inr ⟨rfl, rfl⟩

theorem Coupling.laid_body {nested : Nested} (h : nested.Laid) (code : Slice) (continuing : Bool) :
    laid.Alongside laid.bodies (Form.body nested code continuing) (Form.body nested code continuing) := by
  rintro c _ rfl
  rw [Form.body_apply]
  cases htext : (nested code continuing).text with
  | ok text => exact ⟨⟨rfl, h _ _ _ htext⟩, rfl⟩
  | error f => exact Or.inr ⟨rfl, rfl⟩

theorem Coupling.of_laid_bodies {ts us : List String} (h : List.Forall₂ laid.bodies ts us) :
    ts = us ∧ ∀ t ∈ ts, ∃ outer, Text.Laid outer t.toList := by
  induction h with
  | nil => exact ⟨rfl, by simp⟩
  | cons hb _ ih => exact ⟨by rw [hb.1, ih.1], List.forall_mem_cons.mpr ⟨hb.2, ih.2⟩⟩

theorem laid_join {ts : List String} {t : String} (hs : ∀ t ∈ ts, ∃ outer, Text.Laid outer t.toList)
    (h : ∃ outer, Text.Laid outer t.toList) : ∃ outer, Text.Laid outer (String.join ts ++ t).toList := by
  induction ts with
  | nil => simpa using h
  | cons b ts ih =>
    obtain ⟨o₁, h₁⟩ := hs b List.mem_cons_self
    obtain ⟨o₂, h₂⟩ := ih fun t ht => hs t (List.mem_cons_of_mem b ht)
    rw [String.join_cons, String.append_assoc, String.toList_append]
    exact ⟨_, h₁.append h₂⟩

theorem Coupling.laid_reads {nested : Nested} (h : nested.Laid) : laid.Reads nested nested where
  nat width := laid_self (fun _ => rfl) _
  bits width := laid_self (fun _ => rfl) _
  ref := laid_self (fun _ => rfl) _
  part hp := by
    cases hp
    exact laid_body h _ _
  cell hc := by
    cases hc
    exact laid_body h _ _
  digits := rfl
  hex hp := congrArg _ hp
  plain hp := congrArg _ (congrArg _ hp)
  join hs ht := by
    obtain ⟨rfl, hlaid⟩ := of_laid_bodies hs
    obtain ⟨rfl, ht⟩ := ht
    exact ⟨rfl, laid_join hlaid ht⟩

section Listings

variable {find? : Dispatcher} {nested : Nested} {s t : Slice} {text : String} {lines : List String}

/-- **An instruction is shown by one outer line**, which is not a marked one. -/
theorem headed_of_step (hw : find?.Worded) (hn : nested.Laid) {c : Cursor}
    (h : step find? nested s = .line text c) : Headed text := by
  obtain ⟨i, hfind, hdec, -⟩ := step_eq_line_iff.mp h
  obtain ⟨us, k, -, hform⟩ := Decoder.exists_of_bind_eq_ok hdec
  have hshows : ∀ e, i.form.Shows e → Text.Leads e.toList := fun e he => he.leads (hw s i hfind)
  have halong := (Coupling.laid_reads hn).form i.form (L := fun e _ => Headed e)
    (fun e he => headed_of_leads (hshows e he))
    (fun head ts us hhead hts => headed_withBlocks (hshows head hhead) (Coupling.of_laid_bodies hts).2) k k rfl
  rw [hform] at halong
  cases halong.1 with
  | some hheaded => exact hheaded

theorem Steps.headed (hw : find?.Worded) (hn : nested.Laid) (h : Steps find? nested s lines t) :
    ∀ l ∈ lines, Headed l := by
  induction h with
  | done s => simp
  | more _ hstep _ ih => exact List.forall_mem_cons.mpr ⟨headed_of_step hw hn hstep, ih⟩

/-! ## Listings -/

/-- A text is laid out, and no outer line of it is a marked one. -/
def Clear (text : String) : Prop := ∃ outer, Text.Laid outer text.toList ∧ ∀ line ∈ outer, isMarked line = false

theorem Clear.append {a b : String} (ha : Clear a) (hb : Clear b) : Clear (a ++ b) := by
  obtain ⟨o₁, h₁, hc₁⟩ := ha
  obtain ⟨o₂, h₂, hc₂⟩ := hb
  rw [Clear, String.toList_append]
  exact ⟨_, h₁.append h₂, List.forall_mem_append.mpr ⟨hc₁, hc₂⟩⟩

theorem clear_empty : Clear "" := ⟨[], Text.laid_nil, by simp⟩

/-- The lines of instructions are laid out without a marked line. -/
theorem clear_linesText (h : ∀ l ∈ lines, Headed l) : Clear (linesText lines) := by
  induction lines with
  | nil => exact clear_empty
  | cons l lines ih =>
    obtain ⟨line, hlaid, hmark⟩ := h l List.mem_cons_self
    refine Clear.append ⟨[line], ?_, ?_⟩ (ih fun l' hl' => h l' (List.mem_cons_of_mem l hl'))
    · rw [String.toList_append]
      exact hlaid
    · simpa using hmark

/-- The outer lines of a text that show bits behind a marker. -/
def markers (text : String) : List String :=
  ((Text.outerLines 0 (Text.splitLines text.toList)).filter isMarked).map String.ofList

theorem markers_of_clear (h : Clear text) : markers text = [] := by
  obtain ⟨outer, hlaid, hclear⟩ := h
  rw [markers, hlaid.outerLines_eq, List.filter_eq_nil_iff.mpr (by simpa using hclear), List.map_nil]

/-- The line that shows bits behind a marker. -/
def markedLine (t : Slice) : String := marker ++ t.toHex ++ "\n"

theorem plain_marker_hex (t : Slice) : Text.Plain (marker ++ t.toHex).toList := by
  rw [String.toList_append]
  exact Text.plain_append.mpr ⟨Text.plain_of_isWord (by decide), Text.plain_hexOfBits _ _⟩

theorem ink_marker_hex (t : Slice) : ∃ c ∈ (marker ++ t.toHex).toList, Text.isBlank c = false := by
  refine ⟨'>', ?_, by decide⟩
  rw [String.toList_append]
  exact List.mem_append_left _ (by decide)

theorem isLine_markedLine (t : Slice) : Text.IsLine (markedLine t).toList := by
  rw [markedLine, String.toList_append]
  exact Text.isLine_of_plain (plain_marker_hex t) (ink_marker_hex t)

theorem laid_markedLine (t : Slice) : Text.Laid [(markedLine t).toList] (markedLine t).toList := by
  rw [markedLine, String.toList_append]
  exact Text.laid_line (plain_marker_hex t) (ink_marker_hex t)

/-- A marked line at the end of a text is its only marker. -/
theorem markers_append_markedLine (h : Clear text) (t : Slice) : markers (text ++ markedLine t) = [markedLine t] := by
  obtain ⟨outer, hlaid, hclear⟩ := h
  have hmark : isMarked (markedLine t).toList = true := by
    rw [isMarked, markedLine, String.append_assoc, String.toList_append]
    exact List.isPrefixOf_iff_prefix.mpr (List.prefix_append _ _)
  rw [markers, String.toList_append, (hlaid.append (laid_markedLine t)).outerLines_eq, List.filter_append,
    List.filter_eq_nil_iff.mpr (by simpa using hclear), List.filter_cons_of_pos hmark]
  simp

/-- A marked line at the end of a text is its last line. -/
theorem getLast?_append_markedLine (h : Clear text) (t : Slice) :
    (Text.splitLines (text ++ markedLine t).toList).getLast? = some (markedLine t).toList := by
  obtain ⟨outer, ⟨lines, hlines, harr⟩, -⟩ := h
  have hlast := Text.splitLines_cons (isLine_markedLine t) []
  rw [List.append_nil] at hlast
  rw [String.toList_append, hlines, Text.splitLines_append harr.isLine, hlast, Text.splitLines,
    List.getLast?_append_of_ne_nil _ (List.cons_ne_nil _ _)]
  rfl

/-- A listing is laid out, and no outer line of it is a marked one unless it says so itself. -/
structure Region.Laid (r : Region) : Prop where
  laid : ∃ outer, Text.Laid outer r.text.toList
  clear : r.ending ≠ .marked → Clear r.text

theorem Region.laid_of_clear {r : Region} (h : Clear r.text) : r.Laid := by
  obtain ⟨outer, hlaid, -⟩ := id h
  exact ⟨⟨outer, hlaid⟩, fun _ => h⟩

theorem Region.laid_of_marked {r : Region} (h : Clear text) (htext : r.text = text ++ markedLine t)
    (hend : r.ending = .marked) : r.Laid := by
  obtain ⟨outer, hlaid, -⟩ := h
  refine ⟨?_, fun hne => absurd hend hne⟩
  rw [htext, String.toList_append]
  exact ⟨_, hlaid.append (laid_markedLine t)⟩

theorem straight_laid (hw : find?.Worded) (hn : nested.Laid) (s : Slice) : (straight find? nested s).Laid := by
  obtain ⟨lines, t, hsteps, hhalts⟩ := straight_halts find? nested s
  have hclear := clear_linesText (hsteps.headed hw hn)
  cases hhalts with
  | complete _ htext _ _ => exact Region.laid_of_clear (htext ▸ hclear)
  | failed _ _ htext _ _ => exact Region.laid_of_clear (htext ▸ hclear)
  | marked _ _ htext hend => exact Region.laid_of_marked hclear htext hend

theorem Region.Laid.continueWith {r later : Region} (h : r.Laid) (hend : r.ending ≠ .marked) (h' : later.Laid) :
    (r.continueWith later).Laid := by
  obtain ⟨o₁, h₁⟩ := h.laid
  obtain ⟨o₂, h₂⟩ := h'.laid
  refine ⟨⟨o₁ ++ o₂, ?_⟩, fun hne => (h.clear hend).append (h'.clear hne)⟩
  rw [Region.continueWith, String.toList_append]
  exact h₁.append h₂

theorem chain_laid (hw : find?.Worded) (hn : nested.Laid) (s : Slice) : (chain find? nested s).Laid := by
  fun_induction chain find? nested s with
  | case1 s r hend hrefs => exact straight_laid hw hn s
  | case2 s r hend hrefs hone next hnext ih =>
    have hst := straight_laid hw hn s
    refine Region.Laid.continueWith ⟨hst.laid, hst.clear⟩ ?_ ih
    simp [hend]
  | case3 s r hend hrefs hone hnext => exact straight_laid hw hn s
  | case4 s r hend hrefs hfork =>
    refine Region.laid_of_clear ((straight_laid hw hn s).clear ?_)
    rw [show (straight find? nested s).ending = .complete from hend]
    simp
  | case5 s r hend => exact straight_laid hw hn s

theorem region_laid (hw : find?.Worded) (hn : nested.Laid) (s : Slice) (continuing : Bool) :
    (region find? nested s continuing).Laid := by
  cases continuing with
  | false => exact straight_laid hw hn s
  | true => exact chain_laid hw hn s

theorem Region.Laid.rendered {r : Region} (h : r.Laid) {indent : Nat} (hr : (r.rendered indent).text = .ok text) :
    ∃ outer, Text.Laid outer text.toList := by
  obtain ⟨outer, hlaid⟩ := h.laid
  unfold Region.rendered at hr
  split at hr
  · cases hr
  · cases hr
    exact ⟨_, hlaid.indent indent⟩

theorem bodies_laid (hw : find?.Worded) (limit indent levels : Nat) : (bodies find? limit indent levels).Laid := by
  induction levels with
  | zero =>
    intro s continuing text h
    cases h
  | succ levels ih =>
    intro s continuing text h
    rw [bodies_succ] at h
    exact (region_laid hw ih s continuing).rendered h

/-- **Every listing is laid out.** -/
theorem listing_laid (hw : find?.Worded) (limit indent levels : Nat) (s : Slice) (continuing : Bool) :
    (listing find? limit indent levels s continuing).Laid := by
  rw [listing_eq]
  exact region_laid hw (bodies_laid hw limit indent levels) s continuing

end Listings

end TvmCode
