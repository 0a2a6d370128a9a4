import TvmCode.Proofs.Listing.Pairs
import TvmCode.Proofs.Listing.Twins

/-!
# Listings under two limits

How deep continuations may nest is checked before each body is listed. A listing that was not stopped by this check is
the same under every larger limit, and one that was stopped is the front of the listing under a larger limit
(`disassemble_deeper`).

Listings under two limits are two listings of the same code in which the check of the smaller limit excuses whatever
the other listing does (`Pairing.limits`). The levels that are left go down together, and where the smaller limit has
none left, its fault is excused (`bodies_limits`).
-/

namespace TvmCode

/-- Listings under two limits: all is the same until the first of them meets a continuation that is too deep. -/
def Pairing.limits : Pairing where
  excused f := ∃ limit, f = .tooDeep limit
  bodies := Eq
  texts := Eq

section Limits

variable {find? : Dispatcher}

theorem limits_kept : Pairing.limits.Kept find? where
  empty := rfl
  append h h' := congrArg₂ (· ++ ·) h h'
  line _ _ := rfl
  blocks {s i head ts us} _ _ h := by
    have hsame : ts = us := List.forall₂_eq_eq_eq ▸ h
    rw [hsame]
    exact rfl
  mark _ := rfl
  join {ts us t u} hs h := by
    have hsame : ts = us := List.forall₂_eq_eq_eq ▸ hs
    exact congrArg₂ (String.join · ++ ·) hsame h

/-- A body that is too deep belongs to every other. -/
theorem Rendered.paired_of_tooDeep {r : Rendered} {limit : Nat} (h : r.text = .error (.tooDeep limit)) (r' : Rendered) :
    r.Paired .limits r' := by
  have hexcused : Pairing.limits.excused (.tooDeep limit) := ⟨limit, rfl⟩
  unfold Rendered.Paired
  rw [h]
  cases r'.text with
  | ok text => exact hexcused
  | error f => exact Or.inl hexcused

/-- Two listings up to too deep a continuation, as bodies. -/
theorem Region.Paired.rendered_limits {r r' : Region} (h : r.Paired .limits r') (indent : Nat) :
    (r.rendered indent).Paired .limits (r'.rendered indent) := by
  by_cases hexc : ∃ limit, r.ending = .failed (.tooDeep limit)
  · obtain ⟨limit, hend⟩ := hexc
    have hbody : (r.rendered indent).text = .error (.tooDeep limit) := by rw [rendered, hend]
    exact Rendered.paired_of_tooDeep hbody _
  · obtain ⟨htext, -, hend⟩ := h.settles (by
      rintro f hf ⟨limit, rfl⟩
      exact hexc ⟨limit, hf⟩)
    have htext : r.text = r'.text := htext
    unfold rendered
    rw [← hend, ← htext]
    cases r.ending with
    | complete => exact rfl
    | marked => exact rfl
    | failed f => exact Or.inr rfl

/-- Bodies under two limits, where the second leaves at least as many levels. -/
theorem bodies_limits {limit limit' indent levels levels' : Nat} (h : levels ≤ levels') :
    (bodies find? limit indent levels).Paired .limits (bodies find? limit' indent levels') := by
  induction levels generalizing levels' with
  | zero =>
    intro s continuing
    exact Rendered.paired_of_tooDeep rfl _
  | succ levels ih =>
    intro s continuing
    obtain ⟨more, rfl⟩ := Nat.exists_eq_add_of_le' h
    rw [bodies_succ, ← Nat.add_assoc, bodies_succ]
    exact (region_paired limits_kept (ih (Nat.le_add_left levels more)) s continuing).rendered_limits indent

/-- Listings under two limits, where the second leaves at least as many levels. -/
theorem listing_limits {limit limit' indent levels levels' : Nat} (h : levels ≤ levels') (s : Slice)
    (continuing : Bool) :
    (listing find? limit indent levels s continuing).Paired .limits
      (listing find? limit' indent levels' s continuing) := by
  rw [listing_eq, listing_eq]
  exact region_paired limits_kept (bodies_limits h) s continuing

end Limits

/-- What a listing becomes under a larger limit: it stays as it is, unless it stopped at a continuation that was too
deep, and then it is the front of what it becomes. -/
structure Region.Deepens (r r' : Region) : Prop where
  same (h : ∀ limit, r.failure? ≠ some (.tooDeep limit)) :
    r'.text = r.text ∧ r'.rest = r.rest ∧ r'.ending = r.ending
  starts {limit : Nat} (h : r.failure? = some (.tooDeep limit)) : ∃ more, r'.text = r.text ++ more

theorem Region.failure?_of_failed {r : Region} {f : Fault} (h : r.ending = .failed f) : r.failure? = some f := by
  rw [failure?, h]

theorem Region.Paired.deepens {r r' : Region} (h : r.Paired .limits r') : r.Deepens r' where
  same hdeep := by
    obtain ⟨htext, hrest, hend⟩ := h.settles (by
      rintro f hf ⟨limit, rfl⟩
      exact hdeep limit (failure?_of_failed hf))
    exact ⟨htext.symm, hrest.symm, hend.symm⟩
  starts _ := by
    obtain ⟨front, more, hsplit, hfront⟩ := h.starts
    have hfront : r.text = front := hfront
    exact ⟨more, hfront ▸ hsplit⟩

/-- **A larger limit changes no listing but those that it stopped**, and these it makes longer. -/
theorem disassemble_deeper {config config' : Config} (hdepth : config.maxDepth ≤ config'.maxDepth)
    (hindent : config.indent = config'.indent) (s : Slice) (continuing : Bool) :
    (disassemble CodePage.zero config s continuing).Deepens (disassemble CodePage.zero config' s continuing) := by
  rw [disassemble, disassemble, ← hindent]
  exact (listing_limits hdepth s continuing).deepens

/-- A short continuation that cannot be listed. -/
theorem CodePage.step_pushcont_failed {s : Slice} (hs : s.Sound) {n : Nat} (hn : n < 16) (h : s.Starts [0x90 + n])
    (hroom : 8 + 8 * n ≤ s.remainingBits) {nested : Nested} {f : Fault} {notes : List Note}
    (hbody : nested ((s.dropBits 8).front (8 * n)) false = ⟨.error f, notes⟩) :
    step zero.find? nested s = .failed f ⟨s.dropBits (8 + 8 * n), notes⟩ := by
  rw [step_pushcont hs hn h hroom, hbody]

/-- Code of two instructions, of which the second pushes a continuation that pushes an empty one. -/
def pushedPush : Cell := ⟨[0x00, 0x91, 0x90], 24, [], false⟩

theorem sound_pushedPush : (Slice.ofCell pushedPush).Sound :=
  Slice.sound_ofCell (.intro (by decide) (by decide) (by decide) (by simp [pushedPush]))

/-- Two levels are too deep where one is allowed. -/
theorem failure?_pushedPush :
    (disassemble CodePage.zero ⟨1, 2, Nat.one_pos⟩ (.ofCell pushedPush) false).failure? = some (.tooDeep 1) := by
  have hs := sound_pushedPush
  have hpush := hs.dropBits (show 8 ≤ (Slice.ofCell pushedPush).remainingBits by decide)
  have hbody := (hs.dropBits (show 16 ≤ (Slice.ofCell pushedPush).remainingBits by decide)).front
    (show 8 * 1 ≤ ((Slice.ofCell pushedPush).dropBits 16).remainingBits by decide)
  have hbodies : bodies CodePage.zero.find? 1 2 1 (((Slice.ofCell pushedPush).dropBits 16).front (8 * 1)) false =
      ⟨.error (.tooDeep 1), []⟩ := by
    have hstep := CodePage.step_pushcont_failed hbody (n := 0) (by decide) ⟨by decide, by decide, trivial⟩ (by decide)
      (show bodies CodePage.zero.find? 1 2 0 _ false = ⟨.error (.tooDeep 1), []⟩ from rfl)
    rw [bodies_succ, region, if_neg (by simp), straight_failed (by decide) hstep]
    rfl
  have hstep := CodePage.step_pushcont_failed hpush (n := 1) (by decide) ⟨by decide, by decide, trivial⟩ (by decide)
    hbodies
  rw [disassemble, listing_eq, region, if_neg (by simp),
    straight_more (by decide) (CodePage.step_nop hs ⟨by decide, by decide, trivial⟩ _),
    straight_failed (by decide) hstep]
  rfl

/-- A limit of one level stops the listing, which goes on under a limit of two. -/
theorem deeper_of_pushedPush :
    let one : Config := ⟨1, 2, Nat.one_pos⟩
    let two : Config := ⟨2, 2, Nat.two_pos⟩
    one.maxDepth ≤ two.maxDepth ∧ one.indent = two.indent ∧
      (disassemble CodePage.zero one (.ofCell pushedPush) false).failure? = some (.tooDeep 1) ∧
      ∃ more, (disassemble CodePage.zero two (.ofCell pushedPush) false).text =
        (disassemble CodePage.zero one (.ofCell pushedPush) false).text ++ more := by
  intro one two
  have hle : one.maxDepth ≤ two.maxDepth := Nat.le_succ 1
  have hindent : one.indent = two.indent := rfl
  exact ⟨hle, hindent, failure?_pushedPush,
    (disassemble_deeper hle hindent (.ofCell pushedPush) false).starts failure?_pushedPush⟩

end TvmCode
