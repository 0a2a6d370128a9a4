import TvmCode.Proofs.Listing.Digits

/-!
# Listings fail only for want of code

The dispatch table and the instructions agree about the opcodes: whatever code page zero finds at the front of a window
passes its own check there, takes at least the bits that it was found by, and has a place for each of its operands. The
parts and cells that are read from a window are windows and cells again (`Slice.Secure`). No number has too many digits
to be shown (`listing_writes`).

So a listing fails only where the bits or references run out, where a chain forks, or where continuations nest too
deep, and this at every level, because the windows of all levels are sound (`disassemble_safe`).
-/

namespace TvmCode

/-- What holds wherever code page zero looks for an instruction. -/
structure Slice.Secure (s : Slice) : Prop where
  /-- The opcode check succeeds: there are enough bits and they are the right ones. -/
  checks {i : Instr} (h : CodePage.zero.find? s = some i) (notes : List Note) :
    ∃ us, Decoder.each Opcode.check i.opcodes ⟨s, notes⟩ = .ok us ⟨s.dropBits (Opcode.total i.opcodes), notes⟩
  /-- Every text has as many places as there are operands. -/
  shaped {i : Instr} (h : CodePage.zero.find? s = some i) : i.form.shaped = true
  /-- What is shown as an instruction takes bits and leaves a sound slice. -/
  takes {i : Instr} (h : CodePage.zero.find? s = some i) {nested : Nested} {text : String} {c : Cursor}
    (hdec : i.decode nested ⟨s, []⟩ = .ok (some text) c) : c.slice.Sound ∧ c.slice.size < s.size
  /-- The next bits are a window, also without a completion tag. -/
  parts {width : Int} {part rest : Slice} (h : s.readBits width = .ok (part, rest)) :
    part.Sound ∧ part.trimMarker.Sound ∧ rest.Sound
  /-- The next reference leads to a cell. -/
  cells {c : Cell} {rest : Slice} (h : s.descend 0 = .ok (c, rest)) : c.WellFormed ∧ rest.Sound

section Secure

variable {s : Slice}

theorem Slice.Sound.readBits (hs : s.Sound) {width : Int} {part rest : Slice}
    (h : s.readBits width = .ok (part, rest)) : part.Sound ∧ part.trimMarker.Sound ∧ rest.Sound := by
  unfold Slice.readBits requireBits at h
  split at h
  · cases h
  · rename_i hroom
    cases h
    have hn : width.toNat ≤ s.remainingBits := by
      have := hs.valid.1
      unfold remainingBits
      omega
    have hpart := hs.front hn
    refine ⟨hpart, ?_, hs.dropBits hn⟩
    show (s.front width.toNat).trimMarker.Sound
    rw [trimMarker_eq hpart]
    exact hpart.front (hpart.length_bits ▸ untagged_le _)

theorem Slice.Sound.descend (hs : s.Sound) {c : Cell} {rest : Slice} (h : s.descend 0 = .ok (c, rest)) :
    c.WellFormed ∧ rest.Sound := by
  unfold Slice.descend requireRef at h
  split at h
  · cases h
  · rename_i hroom
    cases h
    have hn : 0 < s.remainingRefs := by
      unfold remainingRefs
      omega
    have hmem := List.mem_of_mem_head? (getD_refs_eq hs hn)
    exact ⟨hs.cell.of_mem_refs (mem_refs_of_mem hmem), hs.dropRefs hn⟩

/-- **Code page zero and its instructions agree** at every window. -/
theorem Slice.Sound.secure (hs : s.Sound) : s.Secure where
  checks h notes := by
    obtain ⟨bits, -, hroom, hfits, -⟩ := CodePage.fits_of_find? hs h
    exact Opcode.each_check_eq_ok hs hroom (Instr.fits_iff.mp hfits).1 notes
  shaped h := by
    obtain ⟨bits, -, -, hfits, -⟩ := CodePage.fits_of_find? hs h
    exact (Instr.fits_iff.mp hfits).2.2.2
  takes {i} h nested text c hdec := by
    obtain ⟨bits, hpos, hroom, hfits, -⟩ := CodePage.fits_of_find? hs h
    obtain ⟨m, hm, hle⟩ := Instr.bitPos_of_decode hs hroom hfits hdec
    have hadv : s.Advance c.slice := (i.orderly_decode nested).advance hdec
    exact ⟨hadv.sound hs, hadv.size_lt (by omega)⟩
  parts h := hs.readBits h
  cells h := hs.descend h

end Secure

/-- What holds of the listing of a slice: its faults are those that code can cause, and at no level is an instruction
looked for outside a sound window, in that the answers a dispatcher gives there make no difference; and wherever it is
looked for, table and instructions agree. -/
structure Region.Safe (config : Config) (s : Slice) (continuing : Bool) : Prop where
  faults {f : Fault} (h : (disassemble CodePage.zero config s continuing).failure? = some f) : f.Recoverable
  windows {find?' : Dispatcher} (h : Dispatcher.Same CodePage.zero.find? find?') :
    let r := listing find?' config.maxDepth config.indent config.maxDepth s continuing
    (disassemble CodePage.zero config s continuing).text = r.text ∧
      (disassemble CodePage.zero config s continuing).ending = r.ending
  secure {t : Slice} (h : t.Sound) : t.Secure

/-- A listing that fails like another one does so with a fault that code can cause, if its numbers can be written. -/
theorem Ending.Alike.recoverable {shift : Nat} {r r' : Region} (h : r.ending.Alike shift r'.ending) (hw : r.Writes)
    {f : Fault} (hf : r.failure? = some f) : f.Recoverable := by
  obtain ⟨text, rest, notes, ending⟩ := r
  generalize r'.ending = e at h
  cases h with
  | complete => cases hf
  | marked => cases hf
  | failed hfollows =>
    cases hf
    cases f with
    | underflow offset width kind => trivial
    | forkedTail refs offset => trivial
    | tooDeep limit => trivial
    | wrongOpcode code width actual => exact hfollows.opcode code width actual rfl
    | tooManyDigits => exact hw rfl

/-- Code page zero fails only with faults that code can cause. -/
theorem disassemble_recoverable {s : Slice} (hs : s.Sound) {config : Config} {continuing : Bool} {f : Fault}
    (h : (disassemble CodePage.zero config s continuing).failure? = some f) : f.Recoverable :=
  (listing_twin CodePage.faithful_zero (fun _ _ => rfl) _ _ _ (.refl hs) continuing).ending.recoverable
    (listing_writes CodePage.modest_zero _ _ _ s continuing) h

/-- **Listings fail only for want of code**: bits or references that run out, chains that fork, and continuations that
nest too deep. -/
theorem disassemble_safe {s : Slice} (hs : s.Sound) (config : Config) (continuing : Bool) :
    Region.Safe config s continuing where
  faults h := disassemble_recoverable hs h
  windows h := by
    have halike := listing_twin CodePage.faithful_zero h config.maxDepth config.indent config.maxDepth (.refl hs)
      continuing
    exact ⟨halike.text, halike.ending.eq⟩
  secure h := h.secure

/-- The listing of an instruction whose reference is missing. -/
theorem safe_of_missing_reference :
    Region.Safe .default (Slice.ofCell ⟨[0x88], 8, [], false⟩) true :=
  disassemble_safe (Slice.sound_ofCell (.intro (by decide) (by decide) (by decide) (by simp))) .default true

end TvmCode
