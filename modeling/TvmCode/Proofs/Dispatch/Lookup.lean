import TvmCode.Proofs.Decoder
import TvmCode.Proofs.Dispatch

/-!
# Look-ups and declarations

What a slice starts with can be read off its bits (`Slice.starts_iff`), so a look-up in a table that records build finds
what they declare for the first bytes of the slice, wherever in a byte of its cell the slice begins
(`Table.find?_eq_some_iff`). No way that leads to something goes on to something else, so there is only one such number
of bytes (`Table.eq_of_meets`).

A look-up is also a walk of a cursor that reads one byte after the other (`Slot.walk`). It reads only bytes that are
there, and done from a copy it leaves the cursor where it was (`Table.lookup_eq`).
-/

namespace TvmCode

variable {α : Type}

/-! ## Bytes at the front -/

namespace Slice

variable {s : Slice}

/-- A byte at the front, as a number and as bits. -/
theorem bitsAt_eq_toNat_iff (hs : s.Sound) (h : 8 ≤ s.remainingBits) (b : UInt8) :
    s.cell.bitsAt s.bitPos 8 = b.toNat ↔ s.bits.take 8 = bitsOfByte b := by
  rw [bitsAt_eq hs h, ← natOfBits_bitsOfByte b]
  constructor
  · have hlen : (s.bits.take 8).length = (bitsOfByte b).length := by
      rw [List.length_take, hs.length_bits, length_bitsOfByte]
      omega
    exact natOfBits_inj hlen
  · exact congrArg natOfBits

/-- A slice starts with bytes just when it starts with their bits. -/
theorem starts_iff (hs : s.Sound) (bytes : List UInt8) :
    s.Starts (bytes.map UInt8.toNat) ↔ bitsOfBytes bytes <+: s.bits := by
  induction bytes generalizing s with
  | nil => simp [Starts]
  | cons b bytes ih =>
    rw [List.map_cons, Starts, bitsOfBytes_cons]
    constructor
    · rintro ⟨hroom, hbyte, hrest⟩
      rw [bitsAt_eq_toNat_iff hs hroom] at hbyte
      rw [ih (hs.dropBits hroom), bits_dropBits] at hrest
      rw [← List.take_append_drop 8 s.bits, hbyte]
      exact (List.prefix_append_right_inj _).mpr hrest
    · rintro ⟨rest, hbits⟩
      rw [List.append_assoc] at hbits
      have hroom : 8 ≤ s.remainingBits := by
        rw [← hs.length_bits, ← hbits, List.length_append, length_bitsOfByte]
        exact Nat.le_add_right _ _
      refine ⟨hroom, (bitsAt_eq_toNat_iff hs hroom b).mpr ?_, (ih (hs.dropBits hroom)).mpr ?_⟩
      · rw [← hbits, List.take_left' (length_bitsOfByte b)]
      · rw [bits_dropBits, ← hbits, List.drop_left' (length_bitsOfByte b)]
        exact List.prefix_append _ _

/-- A look-up goes on behind the first byte. -/
theorem find?_of_byte (t : Table α) (hs : s.Sound) {b : UInt8} (h : bitsOfByte b <+: s.bits) :
    t.find? s = (t b.toNat).find? (s.dropBits 8) := by
  obtain ⟨hroom, hbyte, -⟩ := (starts_iff hs [b]).mpr (by simpa using h)
  rw [Table.find?, Slot.find?, if_pos hroom, hbyte]

/-- What a slice starts with are bytes. -/
theorem Starts.exists_bytes (hs : s.Sound) {path : List Nat} (h : s.Starts path) :
    ∃ bytes : List UInt8, path = bytes.map UInt8.toNat := by
  induction path generalizing s with
  | nil => exact ⟨[], rfl⟩
  | cons b path ih =>
    obtain ⟨hroom, hbyte, hrest⟩ := h
    obtain ⟨bytes, rfl⟩ := ih (hs.dropBits hroom) hrest
    have hlt : b < 2 ^ 8 := by
      rw [← hbyte, bitsAt_eq hs hroom]
      have hval := natOfBits_lt (s.bits.take 8)
      rwa [List.length_take, hs.length_bits, Nat.min_eq_left hroom] at hval
    exact ⟨UInt8.ofNat b :: bytes, by rw [List.map_cons, UInt8.toNat_ofNat', Nat.mod_eq_of_lt hlt]⟩

/-- Records declare something under bytes that the slice starts with. -/
def Meets (s : Slice) (records : List (Record α)) (bytes : List UInt8) (a : α) : Prop :=
  bitsOfBytes bytes <+: s.bits ∧ Declares records (bytes.map UInt8.toNat) a

end Slice

/-! ## Walks -/

/-- A look-up by reading: as long as there is a table to be consulted and a byte to be read, the byte says how to go
on. -/
def Slot.walk : Slot α → Decoder (Option α)
  | .vacant => return none
  | .leaf a => return some a
  | .table next => do
    if 8 ≤ (← get).slice.remainingBits then (next (← Decoder.nat 8)).walk else return none

/-- A walk never fails: it ends where the look-up does, behind the bytes that the look-up reads. -/
theorem Slot.walk_eq (slot : Slot α) (c : Cursor) :
    slot.walk c = .ok (slot.find? c.slice) { c with slice := c.slice.dropBits (8 * slot.reach c.slice) } := by
  induction slot generalizing c with
  | vacant => rfl
  | leaf a => rfl
  | table next ih =>
    have hread : (Slot.table next).walk c =
        if 8 ≤ c.slice.remainingBits then (Decoder.nat 8 >>= fun b => (next b).walk) c else .ok none c := by
      rw [walk, Decoder.bind_apply]
      show (if 8 ≤ c.slice.remainingBits then _ else _ : Decoder (Option α)) c = _
      split <;> rfl
    rw [hread, find?, reach]
    by_cases hroom : 8 ≤ c.slice.remainingBits
    · have hfits : (0 : Int) ≤ 8 ∧ c.slice.bitPos + (8 : Int).toNat ≤ c.slice.bitEnd := by
        unfold Slice.remainingBits at hroom
        omega
      rw [if_pos hroom, if_pos hroom, if_pos hroom, Decoder.bind_apply, Decoder.nat_eq, Decoder.takeBits_apply,
        if_pos hfits]
      simp only [ih, Int.reduceToNat, Slice.dropBits_dropBits, Nat.mul_add, Nat.mul_one, Nat.add_comm]
    · rw [if_neg hroom, if_neg hroom, if_neg hroom]
      rfl

namespace Table

/-- A look-up with a copy of the cursor. -/
def lookup (t : Table α) : Decoder (Option α) := do
  let start ← get
  let found ← (Slot.table t).walk
  set start
  return found

/-- A look-up with a copy of the cursor leaves the cursor where it was. -/
theorem lookup_eq (t : Table α) (c : Cursor) : t.lookup c = .ok (t.find? c.slice) c := by
  have hwalk := Slot.walk_eq (.table t) c
  show ((Slot.table t).walk >>= fun found => (set c >>= fun _ => pure found : Decoder (Option α))) c = _
  rw [Decoder.bind_apply, hwalk]
  rfl

/-! ## What is found -/

variable {records : List (Record α)} {t : Table α} {s : Slice}

/-- A built table finds what is declared for the first bytes. -/
theorem find?_eq_some_iff (h : build records = .ok t) (hs : s.Sound) {a : α} :
    t.find? s = some a ↔ ∃ bytes, s.Meets records bytes a := by
  rw [find?, Slot.find?_eq_some_iff]
  simp only [follow?_build h]
  constructor
  · rintro ⟨path, hdecl, hstart⟩
    obtain ⟨bytes, rfl⟩ := hstart.exists_bytes hs
    exact ⟨bytes, (Slice.starts_iff hs bytes).mp hstart, hdecl⟩
  · rintro ⟨bytes, hbits, hdecl⟩
    exact ⟨_, hdecl, (Slice.starts_iff hs bytes).mpr hbits⟩

/-- There is only one number of bytes under which something is declared: that which the look-up reads. -/
theorem eq_of_meets (h : build records = .ok t) (hs : s.Sound) {bytes bytes' : List UInt8} {a a' : α}
    (hmeets : s.Meets records bytes a) (hmeets' : s.Meets records bytes' a') : bytes = bytes' := by
  have hreach : ∀ {bytes : List UInt8} {a : α}, s.Meets records bytes a → t.reach s = bytes.length := by
    rintro bytes a ⟨hbits, hdecl⟩
    have hlen := Slot.reach_eq_length ((follow?_build h).mpr hdecl) ((Slice.starts_iff hs bytes).mpr hbits)
    rwa [List.length_map] at hlen
  have hlen : (bitsOfBytes bytes).length = (bitsOfBytes bytes').length := by
    rw [length_bitsOfBytes, length_bitsOfBytes, ← hreach hmeets, ← hreach hmeets']
  apply bitsOfBytes_inj
  exact (List.prefix_of_prefix_length_le hmeets.1 hmeets'.1 hlen.le).eq_of_length hlen

/-- **Dispatch agrees with the declaration.** In a table that records build, a look-up finds just what is declared under
the first bytes of a slice, and nothing if nothing is; the number of these bytes is unique. It reads no byte that is not
there, and the slice is left as it was. -/
theorem build_dispatches (h : build records = .ok t) (hs : s.Sound) :
    (∀ a, t.find? s = some a ↔ ∃ bytes, s.Meets records bytes a) ∧
      (t.find? s = none ↔ ¬∃ bytes a, s.Meets records bytes a) ∧
      (∀ bytes bytes' a a', s.Meets records bytes a → s.Meets records bytes' a' → bytes = bytes' ∧ a = a') ∧
      ∀ notes, t.lookup ⟨s, notes⟩ = .ok (t.find? s) ⟨s, notes⟩ := by
  have hfound : ∀ a, t.find? s = some a ↔ ∃ bytes, s.Meets records bytes a := fun a => find?_eq_some_iff h hs
  refine ⟨hfound, ?_, ?_, fun notes => lookup_eq t ⟨s, notes⟩⟩
  · rw [Option.eq_none_iff_forall_ne_some, exists_comm]
    simp only [ne_eq, hfound, not_exists]
  · intro bytes bytes' a a' hmeets hmeets'
    refine ⟨eq_of_meets h hs hmeets hmeets', ?_⟩
    have hsome := (hfound a).mpr ⟨bytes, hmeets⟩
    rw [(hfound a').mpr ⟨bytes', hmeets'⟩] at hsome
    exact (Option.some.inj hsome).symm

/-- Sixteen bits that begin within a byte and lead through a table within a table. -/
theorem dispatches_unaligned :
    let records : List (Record Nat) := [.byte 0 10, .group 1 [.span 2 5 20]]
    let s : Slice := ⟨⟨[0xa0, 0x20, 0x60], 19, [], false⟩, 3, 19, 0, 0⟩
    ∃ t, build records = .ok t ∧ s.Sound ∧ s.Meets records [0x01, 0x03] 20 ∧ t.find? s = some 20 ∧
      t.lookup ⟨s, []⟩ = .ok (some 20) ⟨s, []⟩ := by
  intro records s
  have htidy : Record.tidyList 0 records = true := by decide
  obtain ⟨t, ht⟩ := exists_build htidy
  have hs : s.Sound := ⟨⟨by decide, by decide, by decide, by decide⟩, .intro (by decide) (by decide) (by decide) nofun⟩
  have hmeets : s.Meets records [0x01, 0x03] 20 := by
    refine ⟨by decide, .group (b := 1) (List.mem_of_getElem? (show records[1]? = _ from rfl)) ?_⟩
    exact .span List.mem_cons_self (by decide) (by decide)
  obtain ⟨hfound, -, -, hlookup⟩ := build_dispatches ht hs
  have hfind := (hfound 20).mpr ⟨_, hmeets⟩
  exact ⟨t, ht, hs, hmeets, hfind, hfind ▸ hlookup []⟩

end Table

end TvmCode
