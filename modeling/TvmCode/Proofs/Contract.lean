import TvmCode.Contract
import TvmCode.Proofs.Dictionary.Order
import TvmCode.Proofs.Listing.Safety
import TvmCode.Proofs.Listing.Windows

/-!
# Contracts are listed section by section

The listing of a contract by what the contract holds, apart from how it is made: the section of a dictionary entry is a
text of its own (`block`), the sections of a dictionary are those of its leaves by increasing key (`Blocks`), and what
comes after what is told by the references that the selector and the continuation leave (`Functions`, `Listed`). Each
contract is listed in just the one way that is told so (`list_iff`).
-/

namespace TvmCode.Contract

open Dictionary

/-! ## Sections -/

/-- The section of a dictionary entry: its title, the listing of its code and of the references in which the code goes
on, and the fault that ended it early. -/
def block (config : Config) (title : String) (code : Slice) : String :=
  let r := disassemble CodePage.zero config code true
  "\n;; " ++ title ++ "\n" ++ r.text ++ r.failure?.elim "" fun f => ";; error: " ++ f.message ++ "\n"

/-- The sections of the dictionary at a cell. The leaves come by increasing key, and the faults shown are those that
code can cause. -/
inductive Blocks (config : Config) (title : Nat → String) (root : Cell) : String → Prop
  | intro {leaves : List Leaf} (edge : Edge 32 root leaves)
      (sorted : leaves.Pairwise fun l l' => natOfBits l.path < natOfBits l'.path)
      (faults : ∀ l ∈ leaves, ∀ f, (disassemble CodePage.zero config l.value true).failure? = some f → f.Recoverable) :
      Blocks config title root (String.join (leaves.map fun l => block config (title (natOfBits l.path)) l.value))

/-- The sections of the internal functions, by the references that the continuation leaves. -/
inductive Functions (config : Config) : List Cell → String → Prop
  | absent : Functions config [] ";; current dictionary is empty\n"
  | empty {root : Cell} {others : List Cell} (bits : root.bits = []) (refs : root.refs = []) :
      Functions config (root :: others) ";; current dictionary is empty\n"
  | unrecognized {root : Cell} {others : List Cell} (filled : root.bits ≠ [] ∨ root.refs ≠ [])
      (unread : ∀ leaves, ¬Edge 32 root leaves) :
      Functions config (root :: others) ";; failed to recognize functions dictionary\n"
  | listed {root : Cell} {others : List Cell} {text : String}
      (blocks : Blocks config (fun key => "function " ++ toString key) root text) :
      Functions config (root :: others) text

/-- The listing of the code within a cell, without that in its references. -/
def inner (config : Config) (c : Cell) : Region := disassemble CodePage.zero config (Slice.ofCell c) false

/-- The listing of a contract: its text, and the fault that ended it early. -/
inductive Listed (config : Config) (code : Cell) : String → Option Fault → Prop
  /-- The selector fails. -/
  | selector {f : Fault} (failed : (inner config code).failure? = some f) (recoverable : f.Recoverable) :
      Listed config code (";; selector\n" ++ (inner config code).text) (some f)
  /-- There is no dictionary of methods at the first reference that the selector leaves, or no such reference. -/
  | unrecognized (done : (inner config code).failure? = none)
      (unread : ∀ root ∈ (inner config code).rest.refs.head?, ∀ leaves, ¬Edge 32 root leaves) :
      Listed config code
        (";; selector\n" ++ (inner config code).text ++ ";; failed to recognize methods dictionary\n") none
  /-- There is no second reference. -/
  | missing {root : Cell} {methods : String} (done : (inner config code).failure? = none)
      (refs : (inner config code).rest.refs = [root])
      (blocks : Blocks config (fun key => "method " ++ Text.hex key) root methods) :
      Listed config code
        (";; selector\n" ++ (inner config code).text ++ methods ++ "\n;; c3 continuation (current dictionary)\n")
        (some (.underflow (inner config code).rest.bitPos 2 .refs))
  /-- The continuation fails. -/
  | continuation {root c3 : Cell} {others : List Cell} {methods : String} {f : Fault}
      (done : (inner config code).failure? = none) (refs : (inner config code).rest.refs = root :: c3 :: others)
      (blocks : Blocks config (fun key => "method " ++ Text.hex key) root methods)
      (failed : (inner config c3).failure? = some f) (recoverable : f.Recoverable) :
      Listed config code
        (";; selector\n" ++ (inner config code).text ++ methods ++ "\n;; c3 continuation (current dictionary)\n" ++
          (inner config c3).text)
        (some f)
  /-- All sections are there. -/
  | complete {root c3 : Cell} {others : List Cell} {methods functions : String}
      (done : (inner config code).failure? = none) (refs : (inner config code).rest.refs = root :: c3 :: others)
      (blocks : Blocks config (fun key => "method " ++ Text.hex key) root methods)
      (continued : (inner config c3).failure? = none) (last : Functions config (inner config c3).rest.refs functions) :
      Listed config code
        (";; selector\n" ++ (inner config code).text ++ methods ++ "\n;; c3 continuation (current dictionary)\n" ++
          (inner config c3).text ++ functions)
        none

/-! ## Reports -/

/-- What is seen of a report, apart from the notes. -/
def Report.Shows (r : Report) (text : String) (failure : Option Fault) : Prop := r.text = text ∧ r.failure = failure

namespace Report

variable {r : Report} {next : Unit → Report} {t u : String} {f : Fault} {failure : Option Fault}

theorem shows_lines (text : String) : (lines text).Shows text none := ⟨rfl, rfl⟩

theorem shows_ofRegion {r : Region} (h : r.failure? = failure) : (ofRegion r).Shows r.text failure := ⟨rfl, h⟩

theorem Shows.andThen (h : r.Shows t none) (h' : (next ()).Shows u failure) :
    (r.andThen next).Shows (t ++ u) failure := by
  obtain ⟨rfl, hr⟩ := h
  obtain ⟨rfl, rfl⟩ := h'
  rw [Report.andThen, hr]
  exact ⟨rfl, rfl⟩

/-- Nothing comes after a fault. -/
theorem Shows.stop (h : r.Shows t (some f)) : (r.andThen next).Shows t (some f) := by
  rw [Report.andThen, h.2]
  exact h

end Report

/-! ## Listings -/

/-- The references of a sound slice lead to cells. -/
theorem wellFormed_of_left {s : Slice} (hs : s.Sound) {c : Cell} (h : c ∈ s.refs) : c.WellFormed :=
  hs.cell.of_mem_refs (Slice.mem_refs_of_mem h)

theorem sound_rest_inner (config : Config) {c : Cell} (hc : c.WellFormed) : (inner config c).rest.Sound := by
  rw [inner, disassemble, listing_eq]
  exact (advance_region _ _ _ _).sound (Slice.sound_ofCell hc)

theorem inner_of_no_bits (config : Config) {c : Cell} (hc : c.bitLen = 0) :
    inner config c = ⟨"", .ofCell c, [], .complete⟩ := by
  rw [inner, disassemble, listing_eq]
  exact straight_done hc

/-! ## Dictionaries -/

section Sections

variable {config : Config} {title : Nat → String} {what : String} {root : Cell} {next : Unit → Report}
  {text later : String} {failure : Option Fault}

theorem shows_entry (config : Config) (title : String) (code : Slice) :
    (entry config title code).Shows (block config title code) none := by
  cases h : (disassemble CodePage.zero config code true).failure? with
  | none =>
    simp only [entry, block, h]
    exact ⟨String.append_empty.symm, rfl⟩
  | some f =>
    simp only [entry, block, h]
    exact ⟨by simp only [Option.elim, String.append_assoc], rfl⟩

theorem shows_sections (config : Config) (title : Nat → String) (es : List Entry) :
    (sections config title es).Shows (String.join (es.map fun e => block config (title e.key) e.value)) none := by
  induction es with
  | nil => exact Report.shows_lines ""
  | cons e es ih =>
    rw [List.map_cons, String.join_cons]
    exact (shows_entry config (title e.key) e.value).andThen ih

/-- A dictionary, and what comes after it. -/
theorem shows_dictionary (hroot : root.WellFormed) (h : Blocks config title root text)
    (hnext : (next ()).Shows later failure) :
    (dictionary config what title root next).Shows (text ++ later) failure := by
  obtain @⟨leaves, hedge, -, -⟩ := h
  have hread : Dictionary.read (some root) keyBits = .ok (leaves.map Leaf.entry) := read_of_edge hroot hedge
  have hsections := shows_sections config title (leaves.map Leaf.entry)
  rw [List.map_map] at hsections
  rw [dictionary, hread]
  exact hsections.andThen hnext

/-- Nothing comes after what is no dictionary. -/
theorem shows_dictionary_unread (hroot : root.WellFormed) (h : ∀ leaves, ¬Edge 32 root leaves) :
    (dictionary config what title root next).Shows (";; failed to recognize " ++ what ++ " dictionary\n") none := by
  cases hread : Dictionary.read (some root) keyBits with
  | ok es =>
    obtain ⟨leaves, hedge⟩ := exists_edge hroot (failure_of_read hread)
    exact absurd hedge (h leaves)
  | error e =>
    rw [dictionary, hread]
    exact ⟨rfl, rfl⟩

/-- The sections of the dictionary at a cell, if there is one. -/
theorem exists_blocks (config : Config) (title : Nat → String) (hroot : root.WellFormed)
    (h : ∃ leaves, Edge 32 root leaves) : ∃ text, Blocks config title root text := by
  obtain ⟨leaves, hedge⟩ := h
  refine ⟨_, .intro hedge (hedge.sorted hroot) ?_⟩
  intro l hl f hf
  exact disassemble_recoverable (hedge.sound_value hroot l hl) hf

end Sections

/-! ## Internal functions -/

section Functions

variable {config : Config} {s : Slice} {text : String}

theorem isEmpty_iff {c : Cell} (hc : c.WellFormed) : c.isEmpty = true ↔ c.bits = [] ∧ c.refs = [] := by
  rw [← List.length_eq_zero_iff, hc.length_bits]
  simp [Cell.isEmpty]

theorem shows_functions_absent (hs : s.Sound) (h : s.refs = []) :
    (functions config s).Shows ";; current dictionary is empty\n" none := by
  have hfirst : s.reference 0 = .error (.underflow s.bitPos 1 .refs) := (Slice.reference_eq hs 0).trans (by rw [h]; rfl)
  rw [functions, hfirst]
  exact Report.shows_lines _

theorem functions_eq (hs : s.Sound) {root : Cell} {others : List Cell} (h : s.refs = root :: others) :
    functions config s = if root.isEmpty then .lines ";; current dictionary is empty\n"
      else dictionary config "functions" (fun key => "function " ++ toString key) root fun _ => .lines "" := by
  have hfirst : s.reference 0 = .ok root := (Slice.reference_eq hs 0).trans (by rw [h]; rfl)
  rw [functions, hfirst]

theorem shows_functions (hs : s.Sound) (h : Functions config s.refs text) : (functions config s).Shows text none := by
  have hcell : ∀ c ∈ s.refs, c.WellFormed := fun c => wellFormed_of_left hs
  generalize hrefs : s.refs = refs at h hcell
  cases h with
  | absent => exact shows_functions_absent hs hrefs
  | @empty root others hbits hnone =>
    rw [functions_eq hs hrefs, if_pos ((isEmpty_iff (hcell root (by simp))).mpr ⟨hbits, hnone⟩)]
    exact Report.shows_lines _
  | @unrecognized root others hfilled hunread =>
    have hroot := hcell root (by simp)
    rw [functions_eq hs hrefs, if_neg (by rw [isEmpty_iff hroot]; tauto)]
    exact shows_dictionary_unread hroot hunread
  | @listed root others _ hblocks =>
    have hroot := hcell root (by simp)
    have hfilled : root.bits ≠ [] := by
      obtain @⟨leaves, hedge, -, -⟩ := hblocks
      exact hedge.bits_ne_nil
    rw [functions_eq hs hrefs, if_neg (by rw [isEmpty_iff hroot]; tauto), ← String.append_empty (s := text)]
    exact shows_dictionary hroot hblocks (Report.shows_lines "")

theorem exists_functions (config : Config) (hs : s.Sound) : ∃ text, Functions config s.refs text := by
  cases hrefs : s.refs with
  | nil => exact ⟨_, .absent⟩
  | cons root others =>
    by_cases hempty : root.bits = [] ∧ root.refs = []
    · exact ⟨_, .empty hempty.1 hempty.2⟩
    · by_cases hread : ∃ leaves, Edge 32 root leaves
      · obtain ⟨text, hblocks⟩ := exists_blocks config (fun key => "function " ++ toString key)
          (wellFormed_of_left hs (by simp [hrefs])) hread
        exact ⟨text, .listed hblocks⟩
      · exact ⟨_, .unrecognized (not_and_or.mp hempty) (not_exists.mp hread)⟩

end Functions

/-! ## The continuation -/

section Continuation

variable {config : Config} {s : Slice} {root c3 : Cell} {others : List Cell} {text : String} {f : Fault}

theorem shows_continuation_missing (hs : s.Sound) (h : s.refs = [root]) :
    (continuation config s).Shows "\n;; c3 continuation (current dictionary)\n"
      (some (.underflow s.bitPos 2 .refs)) := by
  have hsecond : s.reference 1 = .error (.underflow s.bitPos 2 .refs) :=
    (Slice.reference_eq hs 1).trans (by rw [h]; rfl)
  rw [continuation, hsecond]
  exact ⟨String.append_empty, rfl⟩

theorem continuation_eq (hs : s.Sound) (h : s.refs = root :: c3 :: others) :
    continuation config s = (Report.lines "\n;; c3 continuation (current dictionary)\n").andThen fun _ =>
      (Report.ofRegion (inner config c3)).andThen fun _ => functions config (inner config c3).rest := by
  have hsecond : s.reference 1 = .ok c3 := (Slice.reference_eq hs 1).trans (by rw [h]; rfl)
  rw [continuation, hsecond]
  rfl

theorem shows_continuation_failed (hs : s.Sound) (h : s.refs = root :: c3 :: others)
    (hfailed : (inner config c3).failure? = some f) :
    (continuation config s).Shows ("\n;; c3 continuation (current dictionary)\n" ++ (inner config c3).text)
      (some f) := by
  rw [continuation_eq hs h]
  exact (Report.shows_lines _).andThen (Report.shows_ofRegion hfailed).stop

theorem shows_continuation (hs : s.Sound) (h : s.refs = root :: c3 :: others)
    (hdone : (inner config c3).failure? = none) (hlast : Functions config (inner config c3).rest.refs text) :
    (continuation config s).Shows
      ("\n;; c3 continuation (current dictionary)\n" ++ ((inner config c3).text ++ text)) none := by
  have hc3 : c3.WellFormed := wellFormed_of_left hs (by simp [h])
  have hfunctions := shows_functions (sound_rest_inner config hc3) hlast
  rw [continuation_eq hs h]
  exact (Report.shows_lines _).andThen ((Report.shows_ofRegion hdone).andThen hfunctions)

end Continuation

/-! ## Contracts -/

section Contracts

variable {config : Config} {code root : Cell} {others : List Cell} {text later : String} {failure : Option Fault}

/-- The selector, and what comes after it. -/
theorem shows_list (hdone : (inner config code).failure? = none)
    (hnext : Report.Shows (match (inner config code).rest.reference 0 with
      | .error _ => ⟨";; failed to recognize methods dictionary\n", none, [.noMethods]⟩
      | .ok root => dictionary config "methods" (fun key => "method " ++ Text.hex key) root fun _ =>
        continuation config (inner config code).rest) later failure) :
    (list config code).Shows (";; selector\n" ++ (inner config code).text ++ later) failure := by
  rw [String.append_assoc]
  exact (Report.shows_lines _).andThen ((Report.shows_ofRegion hdone).andThen hnext)

/-- A selector that leaves no dictionary. -/
theorem shows_list_unrecognized (hc : code.WellFormed) (hdone : (inner config code).failure? = none)
    (h : ∀ root ∈ (inner config code).rest.refs.head?, ∀ leaves, ¬Edge 32 root leaves) :
    (list config code).Shows
      (";; selector\n" ++ (inner config code).text ++ ";; failed to recognize methods dictionary\n") none := by
  have hs := sound_rest_inner config hc
  have hfirst := Slice.reference_eq hs 0
  refine shows_list hdone ?_
  cases hrefs : (inner config code).rest.refs with
  | nil =>
    rw [hrefs] at hfirst
    rw [show (inner config code).rest.reference 0 = _ from hfirst]
    exact ⟨rfl, rfl⟩
  | cons root others =>
    rw [hrefs] at hfirst h
    rw [show (inner config code).rest.reference 0 = _ from hfirst]
    exact shows_dictionary_unread (wellFormed_of_left hs (by simp [hrefs])) (h root rfl)

/-- A selector that leaves a dictionary, and what comes after it. -/
theorem shows_list_methods (hc : code.WellFormed) (hdone : (inner config code).failure? = none)
    (hrefs : (inner config code).rest.refs = root :: others)
    (hblocks : Blocks config (fun key => "method " ++ Text.hex key) root text)
    (hnext : (continuation config (inner config code).rest).Shows later failure) :
    (list config code).Shows (";; selector\n" ++ (inner config code).text ++ (text ++ later)) failure := by
  have hs := sound_rest_inner config hc
  have hfirst : (inner config code).rest.reference 0 = .ok root :=
    (Slice.reference_eq hs 0).trans (by rw [hrefs]; rfl)
  refine shows_list hdone ?_
  rw [hfirst]
  exact shows_dictionary (wellFormed_of_left hs (by simp [hrefs])) hblocks hnext

theorem shows_of_listed (hc : code.WellFormed) (h : Listed config code text failure) :
    (list config code).Shows text failure := by
  have hs := sound_rest_inner config hc
  cases h with
  | selector hfailed _ => exact (Report.shows_lines _).andThen (Report.shows_ofRegion hfailed).stop
  | unrecognized hdone hunread => exact shows_list_unrecognized hc hdone hunread
  | missing hdone hrefs hblocks =>
    simpa only [String.append_assoc] using
      shows_list_methods hc hdone hrefs hblocks (shows_continuation_missing hs hrefs)
  | continuation hdone hrefs hblocks hfailed _ =>
    simpa only [String.append_assoc] using
      shows_list_methods hc hdone hrefs hblocks (shows_continuation_failed hs hrefs hfailed)
  | complete hdone hrefs hblocks hcontinued hlast =>
    simpa only [String.append_assoc] using
      shows_list_methods hc hdone hrefs hblocks (shows_continuation hs hrefs hcontinued hlast)

theorem exists_listed (config : Config) (hc : code.WellFormed) : ∃ text failure, Listed config code text failure := by
  have hs := sound_rest_inner config hc
  cases hend : (inner config code).failure? with
  | some f => exact ⟨_, _, .selector hend (disassemble_recoverable (Slice.sound_ofCell hc) hend)⟩
  | none =>
    by_cases hread : ∃ root ∈ (inner config code).rest.refs.head?, ∃ leaves, Edge 32 root leaves
    · obtain ⟨root, hhead, hread⟩ := hread
      obtain ⟨others, hrefs⟩ := List.head?_eq_some_iff.mp hhead
      obtain ⟨methods, hblocks⟩ := exists_blocks config (fun key => "method " ++ Text.hex key)
        (wellFormed_of_left hs (by simp [hrefs])) hread
      cases others with
      | nil => exact ⟨_, _, .missing hend hrefs hblocks⟩
      | cons c3 others =>
        have hc3 : c3.WellFormed := wellFormed_of_left hs (by simp [hrefs])
        cases hend' : (inner config c3).failure? with
        | some f =>
          have hf := disassemble_recoverable (Slice.sound_ofCell hc3) hend'
          exact ⟨_, _, .continuation hend hrefs hblocks hend' hf⟩
        | none =>
          obtain ⟨functions, hlast⟩ := exists_functions config (sound_rest_inner config hc3)
          exact ⟨_, _, .complete hend hrefs hblocks hend' hlast⟩
    · push Not at hread
      exact ⟨_, _, .unrecognized hend hread⟩

/-- **A contract is listed section by section**, in the one way that its parts tell. -/
theorem list_iff (hc : code.WellFormed) (config : Config) (text : String) (failure : Option Fault) :
    (list config code).text = text ∧ (list config code).failure = failure ↔ Listed config code text failure := by
  constructor
  · rintro ⟨rfl, rfl⟩
    obtain ⟨text, failure, h⟩ := exists_listed config hc
    obtain ⟨htext, hfailure⟩ := shows_of_listed hc h
    rwa [htext, hfailure]
  · exact shows_of_listed hc

/-- A contract without internal functions, whose only method leaves two references to go on in. -/
theorem listed_of_forked_method :
    let empty : Cell := ⟨[], 0, [], false⟩
    let method : Cell := ⟨[0xd0, 0x00], 9, [empty, empty], false⟩
    let code : Cell := ⟨[], 0, [method, empty], false⟩
    code.WellFormed ∧ (list .default code).failure = none ∧ (list .default code).text =
      ";; selector\n" ++
        "\n;; method 0\n;; error: 2 references left at continuation boundary, expected at most 1\n" ++
        "\n;; c3 continuation (current dictionary)\n" ++ ";; current dictionary is empty\n" := by
  intro empty method code
  have hempty : empty.WellFormed := .intro (by decide) (by decide) (by decide) (by simp [empty])
  have hmethod : method.WellFormed := .intro (by decide) (by decide) (by decide) (by simpa [method] using hempty)
  have hcode : code.WellFormed :=
    .intro (by decide) (by decide) (by decide) (by simpa [code] using ⟨hmethod, hempty⟩)
  have hedge : Edge 32 method [⟨List.replicate 32 false, ⟨method, 9, 9, 0, 2⟩⟩] :=
    .leaf (.same (by decide) rfl rfl)
      (show method.bits = [true, true, false, true, false, false, false, false, false] ++ [] by decide) rfl
  have hbody : disassemble CodePage.zero .default ⟨method, 9, 9, 0, 2⟩ true =
      ⟨"", ⟨method, 9, 9, 0, 2⟩, [], .failed (.forkedTail 2 9)⟩ := by
    rw [disassemble, listing_eq, region, if_pos rfl, chain, straight_done rfl]
    rfl
  have hblock : block .default ("method " ++ Text.hex (natOfBits (List.replicate 32 false))) ⟨method, 9, 9, 0, 2⟩ =
      "\n;; method 0\n;; error: 2 references left at continuation boundary, expected at most 1\n" := by
    have hkey : Text.hex 0 = "0" := by
      rw [Text.hex, Text.hexPadded, Text.hexDigits, if_pos (by decide)]
      rfl
    rw [block, hbody, natOfBits_replicate_false, hkey]
    decide
  have hblocks : Blocks .default (fun key => "method " ++ Text.hex key) method _ :=
    .intro hedge (List.pairwise_singleton _ _) (by simp [hbody, Region.failure?, Fault.Recoverable])
  rw [List.map_singleton, hblock] at hblocks
  have hselector := inner_of_no_bits .default (show code.bitLen = 0 from rfl)
  have hc3 := inner_of_no_bits .default (show empty.bitLen = 0 from rfl)
  have hlisted := Listed.complete (by rw [hselector]; rfl) (by rw [hselector]; rfl) hblocks (by rw [hc3]; rfl)
    (by rw [hc3]; exact .absent)
  obtain ⟨htext, hfailure⟩ := (list_iff hcode .default _ none).mpr hlisted
  refine ⟨hcode, hfailure, htext.trans ?_⟩
  rw [hselector, hc3]
  simp only [String.join_cons, String.join_nil, String.append_empty]

end Contracts

end TvmCode.Contract
