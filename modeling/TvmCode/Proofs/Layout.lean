import Mathlib.Tactic.Common
import TvmCode.Text.Hex
import TvmCode.Text.Numeral

/-!
# Words, lines and blocks

What a listing is made of as a text: words of printable characters, lines, and blocks of lines between braces.

- a text is plain when it has no braces and stays on its line (`Text.Plain`); numerals and hexadecimal texts are
  plain, and for a fixed text this is checked byte by byte (`Text.plain_of_isWord`, `Text.leads_of_isLead`);
- the lines of a text that lie outside all braces are its outer lines (`Text.outerLines`);
- a text is laid out (`Text.Laid`) when it consists of lines that are not blank and its braces match. Laid texts are put
  together one after the other, by indentation and as blocks of a line (`Text.Laid.append`, `Text.Laid.indent`,
  `Text.laid_blocks`).
-/

namespace TvmCode.Text

/-! ## Words -/

/-- The codes of printable characters below 128 other than braces. -/
def isPlainCode (n : Nat) : Bool := (Nat.ble 0x20 n && Nat.ble n 0x7a) || Nat.beq n 0x7c || Nat.beq n 0x7e

theorem isPlainCode_iff {n : Nat} : isPlainCode n = true ↔ (0x20 ≤ n ∧ n ≤ 0x7a) ∨ n = 0x7c ∨ n = 0x7e := by
  simp only [isPlainCode, Bool.or_eq_true, Bool.and_eq_true, Nat.ble_eq, Nat.beq_eq, or_assoc]

/-- The codes with which a line of its own can start: no space, and not the sign of a marker. -/
def isLeadCode (n : Nat) : Bool := (Nat.ble 0x21 n && Nat.ble n 0x3d) || Nat.ble 0x3f n

theorem isLeadCode_iff {n : Nat} : isLeadCode n = true ↔ (0x21 ≤ n ∧ n ≤ 0x3d) ∨ 0x3f ≤ n := by
  simp only [isLeadCode, Bool.or_eq_true, Bool.and_eq_true, Nat.ble_eq]

/-- Only printable characters and no braces. -/
def Plain (cs : List Char) : Prop := ∀ c ∈ cs, isPlainCode c.toNat = true

/-- A plain text that can start a line of its own and is not taken for bits behind a marker. -/
def Leads : List Char → Prop
  | [] => False
  | c :: cs => isLeadCode c.toNat = true ∧ Plain (c :: cs)

theorem Leads.plain {cs : List Char} (h : Leads cs) : Plain cs := by
  cases cs with
  | nil => exact h.elim
  | cons c cs => exact h.2

theorem plain_nil : Plain [] := by
  intro c hc
  cases hc

theorem plain_append {xs ys : List Char} : Plain (xs ++ ys) ↔ Plain xs ∧ Plain ys := by
  simp only [Plain, List.forall_mem_append]

theorem Leads.append {xs ys : List Char} (hx : Leads xs) (hy : Plain ys) : Leads (xs ++ ys) := by
  cases xs with
  | nil => exact hx.elim
  | cons c xs => exact ⟨hx.1, plain_append.mpr ⟨hx.2, hy⟩⟩

/-- All bytes of a text are those of plain characters. -/
def isWord (s : String) : Bool := s.toByteArray.data.toList.all fun b => isPlainCode b.toNat

/-- All bytes of a text are those of plain characters, and a line can start with the first. -/
def isLead (s : String) : Bool :=
  match s.toByteArray.data.toList with
  | [] => false
  | b :: bs => isLeadCode b.toNat && (b :: bs).all fun b => isPlainCode b.toNat

theorem bytes_eq (s : String) : s.toByteArray.data.toList = s.toList.flatMap String.utf8EncodeChar := by
  rw [← String.utf8Encode_toList, List.utf8Encode, List.toList_data_toByteArray]

/-- A character that starts with a plain byte is this byte. -/
theorem utf8EncodeChar_of_plain {c : Char} (h : ∀ b ∈ String.utf8EncodeChar c, isPlainCode b.toNat = true) :
    ∃ b, String.utf8EncodeChar c = [b] ∧ b.toNat = c.toNat := by
  have hv : c.val.toNat = c.toNat := rfl
  unfold String.utf8EncodeChar at h ⊢
  simp only [hv] at h ⊢
  by_cases hsmall : c.toNat ≤ 0x7f
  · rw [if_pos hsmall]
    exact ⟨_, rfl, by rw [UInt8.toNat_ofNat']; omega⟩
  · rw [if_neg hsmall] at h
    -- the first byte of a longer encoding is at least 0xc0
    exfalso
    split_ifs at h <;> have hfirst := isPlainCode_iff.mp (h _ List.mem_cons_self) <;>
      rw [UInt8.toNat_ofNat'] at hfirst <;> omega

theorem plain_of_bytes {cs : List Char} (h : ∀ b ∈ cs.flatMap String.utf8EncodeChar, isPlainCode b.toNat = true) :
    Plain cs := by
  intro c hc
  have hbytes : ∀ b ∈ String.utf8EncodeChar c, isPlainCode b.toNat = true := fun b hb =>
    h b (List.mem_flatMap.mpr ⟨c, hc, hb⟩)
  obtain ⟨b, hb, hcode⟩ := utf8EncodeChar_of_plain hbytes
  exact hcode ▸ hbytes b (by rw [hb]; exact List.mem_singleton_self b)

theorem plain_of_isWord {s : String} (h : isWord s = true) : Plain s.toList := by
  rw [isWord, bytes_eq, List.all_eq_true] at h
  exact plain_of_bytes h

theorem leads_of_isLead {s : String} (h : isLead s = true) : Leads s.toList := by
  rw [isLead, bytes_eq] at h
  split at h
  · cases h
  · rename_i b bs hbytes
    rw [Bool.and_eq_true, List.all_eq_true, ← hbytes] at h
    have hplain := plain_of_bytes h.2
    cases hs : s.toList with
    | nil => rw [hs] at hbytes; cases hbytes
    | cons c cs =>
      rw [hs] at h hbytes hplain
      refine ⟨?_, hplain⟩
      obtain ⟨b', hb', hcode⟩ := utf8EncodeChar_of_plain fun b hb =>
        h.2 b (List.mem_flatMap.mpr ⟨c, List.mem_cons_self, hb⟩)
      rw [List.flatMap_cons, hb'] at hbytes
      cases hbytes
      exact hcode ▸ h.1

/-! ## Numerals -/

theorem plain_toString_nat (n : Nat) : Plain (toString n).toList := by
  intro c hc
  rw [Nat.toString_eq_repr, Nat.toList_repr] at hc
  have hdigit := Nat.isDigit_of_mem_toDigits (by omega) (by omega) hc
  obtain ⟨hlo, hhi⟩ := Char.isDigit_iff_toNat.mp hdigit
  exact isPlainCode_iff.mpr (Or.inl ⟨Nat.le_trans (by decide) hlo, Nat.le_trans hhi (by decide)⟩)

theorem plain_toString_int (x : Int) : Plain (toString x).toList := by
  cases x with
  | ofNat n => exact plain_toString_nat n
  | negSucc n =>
    rw [Int.toString_eq_repr, Int.repr, String.toList_append]
    exact plain_append.mpr ⟨plain_of_isWord (by decide), plain_toString_nat (n + 1)⟩

theorem plain_writeInt {x : Int} {t : String} (h : writeInt? x = some t) : Plain t.toList := by
  rw [writeInt?] at h
  split at h
  · cases h
    exact plain_toString_int x
  · cases h

theorem plain_hexDigit : ∀ n < 16, isPlainCode (hexDigit n).toNat = true := by decide

theorem plain_hexDigits (n : Nat) : Plain (hexDigits n) := by
  fun_induction hexDigits n with
  | case1 n h =>
    intro c hc
    rw [List.mem_singleton.mp hc]
    exact plain_hexDigit n h
  | case2 n h ih =>
    refine plain_append.mpr ⟨ih, ?_⟩
    intro c hc
    rw [List.mem_singleton.mp hc]
    exact plain_hexDigit _ (Nat.mod_lt _ (by omega))

theorem plain_hexPadded (width n : Nat) : Plain (hexPadded width n).toList := by
  rw [hexPadded, String.toList_ofList, List.leftpad]
  refine plain_append.mpr ⟨?_, plain_hexDigits n⟩
  intro c hc
  rw [List.eq_of_mem_replicate hc]
  rfl

/-- A bit string in hexadecimal is plain. -/
theorem plain_hexOfBits (value width : Nat) : Plain (hexOfBits value width).toList := by
  unfold hexOfBits
  split
  · exact plain_nil
  · split
    · exact plain_hexPadded _ _
    · rw [String.toList_append]
      exact plain_append.mpr ⟨plain_hexPadded _ _, plain_of_isWord (by decide)⟩

/-! ## Lines -/

/-- How many braces are open after a text, where `depth` are open before it. -/
def nesting (depth : Nat) (cs : List Char) : Nat :=
  cs.foldl (fun d c => if c = '\x7b' then d + 1 else if c = '\x7d' then d - 1 else d) depth

/-- The lines that start outside all braces, where `depth` braces are open before the first. -/
def outerLines : Nat → List (List Char) → List (List Char)
  | _, [] => []
  | depth, line :: lines =>
    if depth = 0 then line :: outerLines (nesting depth line) lines else outerLines (nesting depth line) lines

/-- A line with its break, not blank and without another break. -/
def IsLine (line : List Char) : Prop :=
  ∃ body, line = body ++ ['\n'] ∧ (∀ c ∈ body, isLineBreak c = false) ∧ ∃ c ∈ body, isBlank c = false

theorem nesting_append (d : Nat) (xs ys : List Char) : nesting d (xs ++ ys) = nesting (nesting d xs) ys :=
  List.foldl_append

theorem nesting_plain {cs : List Char} (h : Plain cs) (d : Nat) : nesting d cs = d := by
  induction cs generalizing d with
  | nil => rfl
  | cons c cs ih =>
    have hc := isPlainCode_iff.mp (h c List.mem_cons_self)
    have hopen : c ≠ '\x7b' := by rintro rfl; revert hc; decide
    have hclose : c ≠ '\x7d' := by rintro rfl; revert hc; decide
    have hstep : nesting d (c :: cs) = nesting d cs := by
      rw [nesting, List.foldl_cons, if_neg hopen, if_neg hclose, nesting]
    rw [hstep]
    exact ih (fun b hb => h b (List.mem_cons_of_mem c hb)) d

theorem outerLines_append (d : Nat) (xs ys : List (List Char)) :
    outerLines d (xs ++ ys) = outerLines d xs ++ outerLines (nesting d xs.flatten) ys := by
  induction xs generalizing d with
  | nil => rfl
  | cons x xs ih =>
    rw [List.cons_append, outerLines, outerLines, ih, List.flatten_cons, nesting_append]
    split <;> rfl

theorem splitLines_cons {line : List Char} (h : IsLine line) (rest : List Char) :
    splitLines (line ++ rest) = line :: splitLines rest := by
  obtain ⟨body, rfl, hbody, -⟩ := h
  induction body with
  | nil => rfl
  | cons c body ih =>
    have hc : isLineBreak c = false := hbody c List.mem_cons_self
    have hcr : c ≠ '\r' := by rintro rfl; cases hc
    have htail := ih fun b hb => hbody b (List.mem_cons_of_mem c hb)
    rw [List.cons_append, List.cons_append, splitLines, hc, htail]
    · rfl
    · intro cs hcr'
      exact absurd hcr' hcr

/-- The first lines of a text are found again. -/
theorem splitLines_append {lines : List (List Char)} (h : ∀ l ∈ lines, IsLine l) (rest : List Char) :
    splitLines (lines.flatten ++ rest) = lines ++ splitLines rest := by
  induction lines with
  | nil => rfl
  | cons l lines ih =>
    rw [List.flatten_cons, List.append_assoc, splitLines_cons (h l List.mem_cons_self),
      ih fun l' hl' => h l' (List.mem_cons_of_mem l hl'), List.cons_append]

/-- The lines of a text are found again. -/
theorem splitLines_flatten {lines : List (List Char)} (h : ∀ l ∈ lines, IsLine l) :
    splitLines lines.flatten = lines := by
  have hall := splitLines_append h []
  rwa [List.append_nil, splitLines, List.append_nil] at hall

/-! ## Laid out texts -/

/-- Lines whose braces match, and their outer lines. -/
structure Arranged (outer lines : List (List Char)) : Prop where
  isLine : ∀ l ∈ lines, IsLine l
  nesting_eq (d : Nat) : nesting d lines.flatten = d
  outer_eq : outerLines 0 lines = outer
  inner_eq (d : Nat) : outerLines (d + 1) lines = []

/-- A text of lines whose braces match, and its outer lines. -/
def Laid (outer : List (List Char)) (text : List Char) : Prop := ∃ lines, text = lines.flatten ∧ Arranged outer lines

theorem laid_nil : Laid [] [] := by
  refine ⟨[], rfl, ?_, fun _ => rfl, rfl, fun _ => rfl⟩
  intro l hl
  cases hl

/-- A text of lines ends with a line feed, unless it is empty. -/
theorem Laid.ends {outer : List (List Char)} {text : List Char} (h : Laid outer text) :
    text = [] ∨ ∃ front, text = front ++ ['\n'] := by
  obtain ⟨lines, rfl, harr⟩ := h
  rcases List.eq_nil_or_concat lines with rfl | ⟨lines, line, rfl⟩
  · exact Or.inl rfl
  · obtain ⟨body, rfl, -⟩ := harr.isLine line (by simp)
    exact Or.inr ⟨lines.flatten ++ body, by simp⟩

theorem Laid.outerLines_eq {outer : List (List Char)} {text : List Char} (h : Laid outer text) :
    outerLines 0 (splitLines text) = outer := by
  obtain ⟨lines, rfl, harr⟩ := h
  rw [splitLines_flatten harr.isLine, harr.outer_eq]

theorem Laid.append {o₁ o₂ : List (List Char)} {t₁ t₂ : List Char} (h₁ : Laid o₁ t₁) (h₂ : Laid o₂ t₂) :
    Laid (o₁ ++ o₂) (t₁ ++ t₂) := by
  obtain ⟨l₁, rfl, h₁⟩ := h₁
  obtain ⟨l₂, rfl, h₂⟩ := h₂
  refine ⟨l₁ ++ l₂, by rw [List.flatten_append], ?_, ?_, ?_, ?_⟩
  · exact List.forall_mem_append.mpr ⟨h₁.isLine, h₂.isLine⟩
  · intro d
    rw [List.flatten_append, nesting_append, h₁.nesting_eq, h₂.nesting_eq]
  · rw [outerLines_append, h₁.nesting_eq, h₁.outer_eq, h₂.outer_eq]
  · intro d
    rw [outerLines_append, h₁.nesting_eq, h₁.inner_eq, h₂.inner_eq, List.append_nil]

theorem not_isLineBreak_of_plain {cs : List Char} (h : Plain cs) : ∀ c ∈ cs, isLineBreak c = false := by
  intro c hc
  have hcode := isPlainCode_iff.mp (h c hc)
  simp only [isLineBreak, Bool.or_eq_false_iff, Bool.and_eq_false_iff, decide_eq_false_iff_not, beq_eq_false_iff_ne]
  omega

theorem not_isBlank_of_code {c : Char} (h : 0x21 ≤ c.toNat ∧ c.toNat ≤ 0x7e) : isBlank c = false := by
  simp only [isBlank, isSpace, Bool.or_eq_false_iff, Bool.and_eq_false_iff, decide_eq_false_iff_not,
    beq_eq_false_iff_ne]
  omega

/-- A text that leads is not blank. -/
theorem Leads.ink {cs : List Char} (h : Leads cs) : ∃ c ∈ cs, isBlank c = false := by
  cases cs with
  | nil => exact h.elim
  | cons c cs =>
    have hlead := isLeadCode_iff.mp h.1
    have hcode := isPlainCode_iff.mp (h.2 c List.mem_cons_self)
    exact ⟨c, List.mem_cons_self, not_isBlank_of_code (by omega)⟩

theorem isLine_of_plain {body : List Char} (h : Plain body) (hink : ∃ c ∈ body, isBlank c = false) :
    IsLine (body ++ ['\n']) :=
  ⟨body, rfl, not_isLineBreak_of_plain h, hink⟩

/-- A line without braces is laid out. -/
theorem laid_line {body : List Char} (h : Plain body) (hink : ∃ c ∈ body, isBlank c = false) :
    Laid [body ++ ['\n']] (body ++ ['\n']) := by
  have hnest : ∀ d, nesting d (body ++ ['\n']) = d := fun d => by rw [nesting_append, nesting_plain h]; rfl
  refine ⟨[body ++ ['\n']], (List.flatten_singleton).symm, ?_, ?_, ?_, ?_⟩
  · intro l hl
    rw [List.mem_singleton.mp hl]
    exact isLine_of_plain h hink
  · intro d
    rw [List.flatten_singleton, hnest]
  · rfl
  · intro d
    rw [outerLines, if_neg (Nat.succ_ne_zero d), outerLines]

/-! ## Margins -/

theorem IsLine.indentLine_eq {line : List Char} (h : IsLine line) (margin : List Char) :
    indentLine margin line = margin ++ line := by
  obtain ⟨body, rfl, -, c, hc, hink⟩ := h
  rw [indentLine, if_neg]
  intro hall
  rw [List.all_eq_true.mp hall c (List.mem_append_left _ hc)] at hink
  cases hink

theorem IsLine.margin {line margin : List Char} (h : IsLine line) (hm : Plain margin) : IsLine (margin ++ line) := by
  obtain ⟨body, rfl, hbody, c, hc, hink⟩ := h
  refine ⟨margin ++ body, by rw [List.append_assoc], ?_, c, List.mem_append_right _ hc, hink⟩
  exact List.forall_mem_append.mpr ⟨not_isLineBreak_of_plain hm, hbody⟩

theorem nesting_flatten_margin {margin : List Char} (hm : Plain margin) (lines : List (List Char)) (d : Nat) :
    nesting d (lines.map (margin ++ ·)).flatten = nesting d lines.flatten := by
  induction lines generalizing d with
  | nil => rfl
  | cons l lines ih =>
    rw [List.map_cons, List.flatten_cons, List.flatten_cons, nesting_append, nesting_append, nesting_append, ih,
      nesting_plain hm]

theorem outerLines_margin {margin : List Char} (hm : Plain margin) (lines : List (List Char)) (d : Nat) :
    outerLines d (lines.map (margin ++ ·)) = (outerLines d lines).map (margin ++ ·) := by
  induction lines generalizing d with
  | nil => rfl
  | cons l lines ih =>
    rw [List.map_cons, outerLines, outerLines, nesting_append, nesting_plain hm, ih]
    split <;> rfl

/-- A laid out text is laid out behind a margin. -/
theorem Laid.indent {outer : List (List Char)} {text : String} (h : Laid outer text.toList) (width : Nat) :
    Laid (outer.map (List.replicate width ' ' ++ ·)) (indent width text).toList := by
  obtain ⟨lines, htext, harr⟩ := h
  have hm : Plain (List.replicate width ' ') := by
    intro c hc
    rw [List.eq_of_mem_replicate hc]
    rfl
  refine ⟨lines.map (List.replicate width ' ' ++ ·), ?_, ?_, ?_, ?_, ?_⟩
  · rw [Text.indent, String.toList_ofList, htext, splitLines_flatten harr.isLine, List.flatMap_def]
    exact congrArg _ (List.map_congr_left fun l hl => (harr.isLine l hl).indentLine_eq _)
  · intro l hl
    obtain ⟨l', hl', rfl⟩ := List.mem_map.mp hl
    exact (harr.isLine l' hl').margin hm
  · intro d
    rw [nesting_flatten_margin hm, harr.nesting_eq]
  · rw [outerLines_margin hm, harr.outer_eq]
  · intro d
    rw [outerLines_margin hm, harr.inner_eq, List.map_nil]

/-! ## Blocks -/

/-- Lines that close one brace more than they open, and only at their end. -/
structure Closes (lines : List (List Char)) : Prop where
  isLine : ∀ l ∈ lines, IsLine l
  nesting_eq (d : Nat) : nesting (d + 1) lines.flatten = d
  inner_eq (d : Nat) : outerLines (d + 1) lines = []

/-- A line that starts with a closing brace and leaves as many open as it says, behind the lines of a block. -/
theorem Arranged.closes {outer lines more : List (List Char)} {line : List Char} (h : Arranged outer lines)
    (hline : IsLine line) (hmore : ∀ l ∈ more, IsLine l)
    (hnest : ∀ d, nesting (nesting (d + 1) line) more.flatten = d)
    (hinner : ∀ d, outerLines (nesting (d + 1) line) more = []) : Closes (lines ++ line :: more) where
  isLine := List.forall_mem_append.mpr ⟨h.isLine, List.forall_mem_cons.mpr ⟨hline, hmore⟩⟩
  nesting_eq d := by rw [List.flatten_append, List.flatten_cons, nesting_append, h.nesting_eq, nesting_append, hnest]
  inner_eq d := by
    rw [outerLines_append, h.inner_eq, h.nesting_eq, outerLines, if_neg (Nat.succ_ne_zero d), hinner]
    rfl

/-- Blocks one after the other are an opening line and lines that close it. -/
theorem exists_closes {bodies : List (List Char)} (hne : bodies ≠ []) (h : ∀ b ∈ bodies, ∃ outer, Laid outer b) :
    ∃ lines, Closes lines ∧
      [' '].intercalate (bodies.map fun b => ['\x7b', '\n'] ++ b ++ ['\x7d']) ++ ['\n'] =
        ['\x7b', '\n'] ++ lines.flatten := by
  induction bodies with
  | nil => exact absurd rfl hne
  | cons b bodies ih =>
    obtain ⟨outer, lines, rfl, harr⟩ := h b List.mem_cons_self
    cases bodies with
    | nil =>
      refine ⟨lines ++ [['\x7d', '\n']], harr.closes ?_ ?_ ?_ ?_, ?_⟩
      · exact ⟨['\x7d'], rfl, by simp [isLineBreak], '\x7d', by simp, by decide⟩
      · intro l hl
        cases hl
      · intro d
        rfl
      · intro d
        rfl
      · simp
    | cons b' bodies =>
      obtain ⟨more, hmore, htext⟩ := ih (by simp) fun b hb => h b (List.mem_cons_of_mem _ hb)
      refine ⟨lines ++ ['\x7d', ' ', '\x7b', '\n'] :: more, harr.closes ?_ hmore.isLine ?_ ?_, ?_⟩
      · exact ⟨['\x7d', ' ', '\x7b'], rfl, by simp [isLineBreak], '\x7d', by simp, by decide⟩
      · intro d
        exact hmore.nesting_eq d
      · intro d
        exact hmore.inner_eq d
      · rw [List.map_cons] at htext
        rw [List.map_cons, List.map_cons, List.intercalate_cons_cons, List.append_assoc, List.append_assoc, htext]
        simp

/-- A line with blocks is laid out, and its head is the only outer line. -/
theorem laid_blocks {head : List Char} (hhead : Leads head) {bodies : List (List Char)}
    (h : ∀ b ∈ bodies, ∃ outer, Laid outer b) :
    ∃ tail, Laid [head ++ tail] (head ++ [' '] ++
      [' '].intercalate (bodies.map fun b => ['\x7b', '\n'] ++ b ++ ['\x7d']) ++ ['\n']) := by
  have hplain : Plain (head ++ [' ']) := by
    refine plain_append.mpr ⟨hhead.plain, ?_⟩
    intro c hc
    rw [List.mem_singleton.mp hc]
    rfl
  obtain ⟨c, hc, hink⟩ := hhead.ink
  by_cases hne : bodies = []
  · subst hne
    refine ⟨[' ', '\n'], ?_⟩
    have hline := laid_line hplain ⟨c, List.mem_append_left _ hc, hink⟩
    simpa using hline
  · obtain ⟨lines, hcloses, htext⟩ := exists_closes hne h
    have hnest : ∀ d, nesting d (head ++ [' ', '\x7b', '\n']) = d + 1 := by
      intro d
      rw [nesting_append, nesting_plain hhead.plain]
      rfl
    refine ⟨[' ', '\x7b', '\n'], (head ++ [' ', '\x7b', '\n']) :: lines, ?_, ?_, ?_, ?_, ?_⟩
    · rw [List.append_assoc, htext]
      simp
    · refine List.forall_mem_cons.mpr ⟨⟨head ++ [' ', '\x7b'], by simp, ?_, c, ?_, hink⟩, hcloses.isLine⟩
      · exact List.forall_mem_append.mpr ⟨not_isLineBreak_of_plain hhead.plain, by simp [isLineBreak]⟩
      · exact List.mem_append_left _ hc
    · intro d
      rw [List.flatten_cons, nesting_append, hnest, hcloses.nesting_eq]
    · rw [outerLines, if_pos rfl, hnest, hcloses.inner_eq]
    · intro d
      rw [outerLines, if_neg (Nat.succ_ne_zero d), hnest, hcloses.inner_eq]

end TvmCode.Text
