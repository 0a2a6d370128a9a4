import TvmCode.Proofs.Slice.Operations

/-!
# Runs of operations on slices

A slice is read by operations in any order, and some of them give further slices, which are read in turn: `Slice.run`
carries out a run of operations on a growing list of slices. One operation keeps every slice within its cell and takes
at most something from the front of one (`Slice.act_safe`), so a whole run does (`Slice.run_valid`), and at each point
of every run the next operation is a safe one (`Slice.run_safe`). It fails with an underflow, or because the number that
it asks for has too many digits for the wording of one (`Slice.reference_of_many_digits`).
-/

namespace TvmCode.Slice

/-- The slices after an operation on one of them, which a slice that is given joins. -/
def act (slices : List Slice) (step : Nat × Op) : List Slice :=
  match slices[step.1]? with
  | none => slices
  | some s =>
    match step.2.run s with
    | .ok (.slice t) rest => slices.set step.1 rest ++ [t]
    | .ok _ rest => slices.set step.1 rest
    | .error _ rest => slices.set step.1 rest

/-- The slices after some operations, each on the slice of the given number. -/
def run (slices : List Slice) (steps : List (Nat × Op)) : List Slice := steps.foldl act slices

/-- All slices are windows within their cells. -/
def AllValid (slices : List Slice) : Prop := ∀ s ∈ slices, s.Valid

/-- Each slice is still there, with some bits and references less at its front. -/
def AllAdvance (before after : List Slice) : Prop :=
  ∀ (i : Nat) (s : Slice), before[i]? = some s → ∃ t, after[i]? = some t ∧ s.Advance t

theorem AllAdvance.refl (slices : List Slice) : AllAdvance slices slices := fun _ s h => ⟨s, h, .refl s⟩

theorem AllAdvance.trans {xs ys zs : List Slice} (h : AllAdvance xs ys) (h' : AllAdvance ys zs) : AllAdvance xs zs := by
  intro i s hs
  obtain ⟨t, ht, hst⟩ := h i s hs
  obtain ⟨u, hu, htu⟩ := h' i t ht
  exact ⟨u, hu, hst.trans htu⟩

/-- One slice moves on, and others join. -/
theorem AllAdvance.set {slices : List Slice} {i : Nat} {s t : Slice} (hi : slices[i]? = some s) (h : s.Advance t)
    (more : List Slice) : AllAdvance slices (slices.set i t ++ more) := by
  intro j u hj
  have hlt : j < (slices.set i t).length := by
    rw [List.length_set]
    exact (List.getElem?_eq_some_iff.mp hj).1
  rw [List.getElem?_append_left hlt, List.getElem?_set]
  by_cases hij : i = j
  · subst hij
    rw [hj] at hi
    cases hi
    rw [if_pos rfl, if_pos (by simpa using hlt)]
    exact ⟨t, rfl, h⟩
  · rw [if_neg hij]
    exact ⟨u, hj, .refl u⟩

theorem AllValid.set {slices : List Slice} (hs : AllValid slices) (i : Nat) {t : Slice} (ht : t.Valid)
    {more : List Slice} (hmore : AllValid more) : AllValid (slices.set i t ++ more) := by
  intro u hu
  rcases List.mem_append.mp hu with hu | hu
  · rcases List.mem_or_eq_of_mem_set hu with hu | rfl
    · exact hs u hu
    · exact ht
  · exact hmore u hu

/-- **An operation on one of the slices** leaves all of them valid, and takes at most something from one. -/
theorem act_safe {slices : List Slice} (hs : AllValid slices) (step : Nat × Op) :
    AllValid (act slices step) ∧ AllAdvance slices (act slices step) := by
  obtain ⟨i, o⟩ := step
  unfold act
  cases hi : slices[i]? with
  | none => exact ⟨hs, .refl slices⟩
  | some s =>
    have hvalid := hs s (List.mem_of_getElem? hi)
    have hnone : AllValid [] := nofun
    cases Op.safe_run hvalid o with
    | @ok a rest _ hrun good later =>
      have hrest := later.valid hvalid
      have hplain : AllValid (slices.set i rest) ∧ AllAdvance slices (slices.set i rest) := by
        rw [← List.append_nil (slices.set i rest)]
        exact ⟨hs.set i hrest hnone, .set hi later []⟩
      simp only [hrun]
      cases a with
      | slice t =>
        have hmade : AllValid [t] := by simpa [AllValid] using (good t rfl).valid
        exact ⟨hs.set i hrest hmade, .set hi later [t]⟩
      | number _ => exact hplain
      | text _ => exact hplain
      | cell _ => exact hplain
    | @error _ _ _ rest _ _ hrun later =>
      simp only [hrun]
      rw [← List.append_nil (slices.set i rest)]
      exact ⟨hs.set i (later.valid hvalid) hnone, .set hi later []⟩

/-- **Every run** leaves all slices valid, and takes at most something from each. -/
theorem run_valid {slices : List Slice} (hs : AllValid slices) (steps : List (Nat × Op)) :
    AllValid (run slices steps) ∧ AllAdvance slices (run slices steps) := by
  induction steps generalizing slices with
  | nil => exact ⟨hs, .refl slices⟩
  | cons step steps ih =>
    obtain ⟨hvalid, hadvance⟩ := act_safe hs step
    obtain ⟨hvalid', hadvance'⟩ := ih hvalid
    exact ⟨hvalid', hadvance.trans hadvance'⟩

/-- **Slices are safe over whole runs.** Start from bounds that make a window, and carry out any operations with any
arguments on it and on the slices that come of it. Whichever slice there is then, it lies within its cell, and whatever
is done later, it only loses bits and references at its front. Whatever operation comes next looks up nothing outside
the cell and makes no window without proper bounds; a slice that it gives lies inside this one; it fails only for want
of the bits or references that it asks for, with an underflow unless their number has too many digits for the wording,
and then nothing is taken, except of an integer literal. -/
theorem run_safe {c : Cell} {bitPos bitEnd refPos refEnd : Int} {s : Slice}
    (h : ofBounds c bitPos bitEnd refPos refEnd = .ok s) (before : List (Nat × Op)) {i : Nat} {t : Slice}
    (ht : (run [s] before)[i]? = some t) :
    t.Valid ∧
    (∀ after, ∃ u, (run [s] (before ++ after))[i]? = some u ∧ t.Advance u) ∧
    ∀ o : Op,
      o.watched t = EStateM.adaptExcept Trouble.fault o.run t ∧
      (∀ u rest, o.run t = .ok (.slice u) rest → u.Within t) ∧
      ∀ f rest, o.run t = .error f rest →
        (∃ width, o.Asks width ∧ ((Text.Writable width ∧ ∃ offset kind, f = .underflow offset width kind) ∨
          (¬Text.Writable width ∧ f = .tooManyDigits))) ∧
        (o ≠ .bigInt → rest = t) := by
  have hstart : AllValid [s] := by simpa [AllValid] using valid_of_ofBounds h
  have hbefore := (run_valid hstart before).1
  have hvalid := hbefore t (List.mem_of_getElem? ht)
  refine ⟨hvalid, ?_, ?_⟩
  · intro after
    have happend : run [s] (before ++ after) = run (run [s] before) after := List.foldl_append
    rw [happend]
    exact (run_valid hbefore after).2 i t ht
  · intro o
    have hsafe := Op.safe_run hvalid o
    refine ⟨hsafe.watched_eq, ?_, ?_⟩
    · intro u rest hrun
      cases hsafe with
      | ok _ hrun' good _ =>
        rw [hrun] at hrun'
        cases hrun'
        exact good u rfl
      | error _ _ hrun' _ =>
        rw [hrun] at hrun'
        cases hrun'
    · intro f rest hrun
      refine ⟨?_, fun ho => Op.slice_of_error ho hrun⟩
      cases hsafe with
      | ok _ hrun' _ _ =>
        rw [hrun] at hrun'
        cases hrun'
      | @error offset width kind _ hasked _ hrun' _ =>
        rw [hrun] at hrun'
        cases hrun'
        refine ⟨width, hasked, ?_⟩
        by_cases hwidth : Text.Writable width
        · exact Or.inl ⟨hwidth, offset, kind, Fault.short_of_writable hwidth offset kind⟩
        · exact Or.inr ⟨hwidth, Fault.short_of_not_writable hwidth offset kind⟩

/-- A slice of a slice is read on, gives one of its own, and is asked for a reference too many. -/
theorem run_safe_of_part :
    let c : Cell := ⟨[0xb4, 0x80], 9, [default, default], false⟩
    let s : Slice := ⟨c, 1, 9, 0, 2⟩
    let before : List (Nat × Op) := [(0, .readSlice 6 1), (1, .readBits 7), (1, .readNat 1)]
    let t : Slice := ⟨c, 2, 7, 0, 1⟩
    ofBounds c 1 (-1) 0 (-1) = .ok s ∧ (run [s] before)[1]? = some t ∧ t.Valid ∧
      (∃ u, (run [s] (before ++ [(0, .bigInt), (1, .descend 0)]))[1]? = some u ∧ t.Advance u) ∧
      Op.watched .trimMarker t = EStateM.adaptExcept Trouble.fault (Op.run .trimMarker) t ∧
      Op.run .trimMarker t = .ok (.slice t.trimMarker) t ∧ t.trimMarker.Within t ∧
      ∃ f rest, Op.run (.readSlice 0 2) t = .error f rest ∧
        (∃ width, Op.Asks (.readSlice 0 2) width ∧
          ((Text.Writable width ∧ ∃ offset kind, f = .underflow offset width kind) ∨
            (¬Text.Writable width ∧ f = .tooManyDigits))) ∧
        rest = t := by
  intro c s before t
  have hs : ofBounds c 1 (-1) 0 (-1) = .ok s := rfl
  have ht : (run [s] before)[1]? = some t := rfl
  have hmarker : Op.run .trimMarker t = .ok (.slice t.trimMarker) t := rfl
  have hlack : Op.run (.readSlice 0 2) t = .error (.underflow 2 2 .refs) t := rfl
  obtain ⟨hvalid, hlater, hnext⟩ := run_safe hs before ht
  obtain ⟨hwatched, hmade, -⟩ := hnext .trimMarker
  obtain ⟨hfault, hkept⟩ := (hnext (.readSlice 0 2)).2.2 _ _ hlack
  exact ⟨hs, ht, hvalid, hlater _, hwatched, hmarker, hmade _ _ hmarker, _, _, hlack, hfault, hkept nofun⟩

/-- A reference of so great a number is asked for that the wording of the underflow cannot show it. -/
theorem reference_of_many_digits :
    let s : Slice := .ofCell ⟨[], 0, [], false⟩
    let o : Op := .reference (10 ^ Text.maxDecimalDigits - 1)
    ofBounds s.cell 0 (-1) 0 (-1) = .ok s ∧ o.run s = .error .tooManyDigits s ∧
      ¬∃ offset width kind rest, o.run s = .error (.underflow offset width kind) rest := by
  intro s o
  have hlack : s.requireRef (10 ^ Text.maxDecimalDigits - 1) = .error .tooManyDigits := by
    rcases requireRef_cases s (10 ^ Text.maxDecimalDigits - 1) with ⟨i, -, hroom, -⟩ | hlack
    · exact absurd hroom (Nat.not_lt_zero _)
    · rw [hlack, Int.sub_add_cancel, Fault.short_of_not_writable Text.not_writable_pow]
  have hrun : o.run s = .error .tooManyDigits s := by
    simp only [o, Op.run, bind_apply, Reading.peek, Reading.take, Slice.reference, hlack]
    rfl
  refine ⟨rfl, hrun, ?_⟩
  rintro ⟨offset, width, kind, rest, hunderflow⟩
  rw [hrun] at hunderflow
  cases hunderflow

end TvmCode.Slice
