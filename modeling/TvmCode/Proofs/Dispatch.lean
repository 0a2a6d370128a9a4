import TvmCode.Dispatch
import TvmCode.Proofs.Slice

/-!
# What dispatch tables find

Looking something up in a table follows the bytes at the front of a slice (`Slot.find?_eq_some_iff`), of which it reads
as many as it follows (`Slot.reach_eq_length`). In a table that records build, the ways that lead to something are the
declared ones (`Table.follow?_build`); `Declares` says what a declaration files under a way of bytes. Records that cover
no byte twice and keep to bytes build a table (`Table.exists_build`).
-/

namespace TvmCode

variable {α : Type}

/-! ## Looking up -/

/-- The first bytes of a slice. -/
def Slice.Starts (s : Slice) : List Nat → Prop
  | [] => True
  | b :: path => 8 ≤ s.remainingBits ∧ s.cell.bitsAt s.bitPos 8 = b ∧ (s.dropBits 8).Starts path

/-- A look-up follows the bytes at the front of the slice. -/
theorem Slot.find?_eq_some_iff {slot : Slot α} {s : Slice} {a : α} :
    slot.find? s = some a ↔ ∃ path, slot.follow? path = some (.leaf a) ∧ s.Starts path := by
  constructor
  · intro h
    induction slot generalizing s with
    | vacant => cases h
    | leaf b => cases h; exact ⟨[], rfl, trivial⟩
    | table next ih =>
      rw [find?] at h
      split at h
      · rename_i hroom
        obtain ⟨path, hfollow, hstart⟩ := ih _ h
        exact ⟨_ :: path, hfollow, hroom, rfl, hstart⟩
      · cases h
  · rintro ⟨path, hfollow, hstart⟩
    induction path generalizing slot s with
    | nil => cases slot <;> cases hfollow; rfl
    | cons b path ih =>
      cases slot with
      | vacant => cases hfollow
      | leaf c => cases hfollow
      | table next =>
        obtain ⟨hroom, hbyte, hrest⟩ := hstart
        rw [find?, if_pos hroom, hbyte]
        exact ih hfollow hrest

/-- The number of bytes that a look-up reads. -/
def Slot.reach : Slot α → Slice → Nat
  | .vacant, _ => 0
  | .leaf _, _ => 0
  | .table next, s =>
    if 8 ≤ s.remainingBits then (next (s.cell.bitsAt s.bitPos 8)).reach (s.dropBits 8) + 1 else 0

@[inherit_doc Slot.reach]
def Table.reach (t : Table α) (s : Slice) : Nat := (Slot.table t).reach s

/-- A look-up that finds something has read the bytes on the way to it. -/
theorem Slot.reach_eq_length {slot : Slot α} {s : Slice} {path : List Nat} {a : α}
    (hfollow : slot.follow? path = some (.leaf a)) (hstart : s.Starts path) : slot.reach s = path.length := by
  induction path generalizing slot s with
  | nil => cases slot <;> cases hfollow; rfl
  | cons b path ih =>
    cases slot with
    | vacant => cases hfollow
    | leaf c => cases hfollow
    | table next =>
      obtain ⟨hroom, hbyte, hrest⟩ := hstart
      rw [reach, if_pos hroom, hbyte, ih hfollow hrest, List.length_cons]

/-- The same bits lead to the same. -/
theorem Slot.find?_of_bits_eq (slot : Slot α) {s t : Slice} (hs : s.Sound) (ht : t.Sound) (h : s.bits = t.bits) :
    slot.find? s = slot.find? t := by
  induction slot generalizing s t with
  | vacant => rfl
  | leaf a => rfl
  | table next ih =>
    have hlen : s.remainingBits = t.remainingBits := by rw [← hs.length_bits, ← ht.length_bits, h]
    rw [find?, find?, hlen]
    split
    · rename_i hroom
      rw [Slice.bitsAt_eq hs (hlen ▸ hroom), Slice.bitsAt_eq ht hroom, h]
      refine ih _ (hs.dropBits (hlen ▸ hroom)) (ht.dropBits hroom) ?_
      rw [Slice.bits_dropBits, Slice.bits_dropBits, h]
    · rfl

/-- The same slots with other things filed. -/
def Slot.map {β : Type} (f : α → β) : Slot α → Slot β
  | .vacant => .vacant
  | .leaf a => .leaf (f a)
  | .table next => .table fun b => (next b).map f

/-- What is found among other things is what stands for what was found. -/
theorem Slot.find?_map {β : Type} (f : α → β) (slot : Slot α) (s : Slice) :
    (slot.map f).find? s = (slot.find? s).map f := by
  induction slot generalizing s with
  | vacant => rfl
  | leaf a => rfl
  | table next ih =>
    rw [map, find?, find?]
    split
    · exact ih _ _
    · rfl

/-- A look-up in a window with fewer bits finds the same or nothing. -/
theorem Slot.find?_withEnds (slot : Slot α) {s : Slice} {bitEnd : Nat} (h : bitEnd ≤ s.bitEnd) (refEnd : Nat) :
    slot.find? (s.withEnds bitEnd refEnd) = none ∨ slot.find? (s.withEnds bitEnd refEnd) = slot.find? s := by
  induction slot generalizing s with
  | vacant => exact Or.inl rfl
  | leaf a => exact Or.inr rfl
  | table next ih =>
    by_cases hroom : 8 ≤ (s.withEnds bitEnd refEnd).remainingBits
    · have hroom' : 8 ≤ s.remainingBits := by
        simp only [Slice.remainingBits, Slice.withEnds] at hroom ⊢
        omega
      rw [find?, find?, if_pos hroom, if_pos hroom', Slice.dropBits_withEnds]
      exact ih _ h
    · rw [find?, if_neg hroom]
      exact Or.inl rfl

/-- The bytes that a slice starts with are there. -/
theorem Slice.Starts.length_le {s : Slice} {path : List Nat} (h : s.Starts path) :
    8 * path.length ≤ s.remainingBits := by
  induction path generalizing s with
  | nil => exact Nat.zero_le _
  | cons b path ih =>
    obtain ⟨hroom, -, hrest⟩ := h
    have := ih hrest
    rw [remainingBits_dropBits] at this
    rw [List.length_cons]
    omega

/-- A slice starts with the same bytes whatever its ends are, if they leave room for the bytes. -/
theorem Slice.Starts.withEnds {s : Slice} {path : List Nat} (h : s.Starts path) {bitEnd refEnd : Nat}
    (hroom : s.bitPos + 8 * path.length ≤ bitEnd) : (s.withEnds bitEnd refEnd).Starts path := by
  induction path generalizing s with
  | nil => trivial
  | cons b path ih =>
    obtain ⟨-, hbyte, hrest⟩ := h
    rw [List.length_cons] at hroom
    refine ⟨?_, hbyte, ?_⟩
    · simp only [remainingBits, Slice.withEnds]
      omega
    · rw [dropBits_withEnds]
      exact ih hrest (by simp only [dropBits]; omega)

/-! ## Building -/

namespace Record

/-- The bytes under which a record files something. -/
def Covers : Record α → Nat → Prop
  | .byte code _, b => code = b
  | .span lo hi _, b => lo ≤ b ∧ b < hi
  | .group code _, b => code = b

/-- The first byte that a record covers. -/
def first : Record α → Int
  | .byte code _ => code
  | .span lo _ _ => lo
  | .group code _ => code

/-- The byte after the last that a record covers. -/
def stop : Record α → Int
  | .byte code _ => code + 1
  | .span _ hi _ => hi
  | .group code _ => code + 1

theorem covers_iff (r : Record α) (b : Nat) : r.Covers b ↔ r.first ≤ b ∧ b < r.stop := by
  cases r <;> simp only [Covers, first, stop] <;> omega

/-- The bytes that a record covers, as the one bits of a number. -/
def cover (r : Record α) : Nat := (1 <<< (r.stop - r.first).toNat - 1) <<< r.first.toNat

theorem testBit_cover {r : Record α} (h : 0 ≤ r.first) (b : Nat) : r.cover.testBit b = true ↔ r.Covers b := by
  rw [cover, Nat.one_shiftLeft, Nat.testBit_shiftLeft, Nat.testBit_two_pow_sub_one, Bool.and_eq_true,
    decide_eq_true_eq, decide_eq_true_eq, covers_iff]
  omega

mutual

/-- A record covers bytes and nothing else, and so do those within it, of which no two cover the same byte. -/
def tidy : Record α → Bool
  | .byte code _ => decide (0 ≤ code ∧ code ≤ 255)
  | .span lo hi _ => decide (0 ≤ lo ∧ lo < hi ∧ hi ≤ 256)
  | .group code records => decide (0 ≤ code ∧ code ≤ 255) && tidyList 0 records

/-- Tidy records that cover no byte twice and none of those taken, which are the one bits of a number. -/
def tidyList (taken : Nat) : List (Record α) → Bool
  | [] => true
  | r :: rs => tidy r && taken &&& r.cover == 0 && tidyList (taken ||| r.cover) rs

end

mutual

/-- All that a record files passes a test. -/
def all (p : α → Bool) : Record α → Bool
  | .byte _ a => p a
  | .span _ _ a => p a
  | .group _ records => allList p records

/-- All that records file passes a test. -/
def allList (p : α → Bool) : List (Record α) → Bool
  | [] => true
  | r :: rs => all p r && allList p rs

end

theorem all_of_mem {p : α → Bool} {records : List (Record α)} (h : allList p records = true) {r : Record α}
    (hr : r ∈ records) : r.all p = true := by
  induction records with
  | nil => cases hr
  | cons q records ih =>
    rw [allList, Bool.and_eq_true] at h
    rcases List.mem_cons.mp hr with rfl | hr
    · exact h.1
    · exact ih h.2 hr

theorem first_nonneg {r : Record α} (h : r.tidy = true) : 0 ≤ r.first := by
  cases r <;> simp only [tidy, first, Bool.and_eq_true, decide_eq_true_eq] at h ⊢ <;> omega

end Record

/-- What records file under a way of bytes. -/
inductive Declares : List (Record α) → List Nat → α → Prop
  | byte {records : List (Record α)} {b : Nat} {a : α} (h : .byte b a ∈ records) : Declares records [b] a
  | span {records : List (Record α)} {lo hi : Int} {b : Nat} {a : α} (h : .span lo hi a ∈ records) (hlo : lo ≤ b)
      (hhi : b < hi) : Declares records [b] a
  | group {records inner : List (Record α)} {b : Nat} {path : List Nat} {a : α} (h : .group b inner ∈ records)
      (hinner : Declares inner path a) : Declares records (b :: path) a

/-- What passes for all records passes for what they file. -/
theorem Declares.of_all {p : α → Bool} {records : List (Record α)} {path : List Nat} {a : α}
    (hdecl : Declares records path a) (h : Record.allList p records = true) : p a = true := by
  induction hdecl with
  | byte hmem => exact Record.all_of_mem h hmem
  | span hmem _ _ => exact Record.all_of_mem h hmem
  | group hmem _ ih => exact ih (Record.all_of_mem h hmem)

namespace Table

/-- What a record puts in the slot of a byte. -/
inductive Fills : Record α → Nat → Slot α → Prop
  | byte (b : Nat) (a : α) : Fills (.byte b a) b (.leaf a)
  | span {lo hi : Int} {b : Nat} (a : α) (hlo : lo ≤ b) (hhi : b < hi) : Fills (.span lo hi a) b (.leaf a)
  | group (b : Nat) {path : List Int} {records : List (Record α)} {t : Table α}
      (h : addAll path records empty = .ok t) : Fills (.group b records) b (.table t)

theorem place_eq_ok_iff {path : List Int} {code : Int} {target : Slot α} {t t' : Table α} :
    place path code target t = .ok t' ↔
      (0 ≤ code ∧ code ≤ 255) ∧ (t code.toNat).isVacant = true ∧
        t' = fun b => if b = code.toNat then target else t b := by
  unfold place
  constructor
  · intro h
    split at h
    · cases h
    · split at h
      · cases h
        exact ⟨by omega, ‹_›, rfl⟩
      · cases h
  · rintro ⟨hcode, hvacant, rfl⟩
    rw [if_neg (by omega), if_pos hvacant]

/-- Filing under a run of bytes fills the run, which was vacant, and nothing else. -/
theorem placeFrom_eq_ok {path : List Int} {a : α} {lo : Int} {count : Nat} {t t' : Table α}
    (h : placeFrom path a lo count t = .ok t') (b : Nat) :
    if lo ≤ b ∧ b < lo + count then (t b).isVacant = true ∧ t' b = .leaf a else t' b = t b := by
  induction count generalizing lo t with
  | zero =>
    cases h
    rw [if_neg (by omega)]
  | succ count ih =>
    rw [placeFrom] at h
    cases hplace : place path lo (.leaf a) t with
    | error e => rw [hplace] at h; cases h
    | ok t₁ =>
      rw [hplace] at h
      obtain ⟨hcode, hvacant, rfl⟩ := place_eq_ok_iff.mp hplace
      have hlater := ih h
      by_cases hb : b = lo.toNat
      · subst hb
        rw [if_neg (by omega)] at hlater
        rw [if_pos (by omega), hlater, if_pos rfl]
        exact ⟨hvacant, rfl⟩
      · simp only [if_neg hb] at hlater
        split at hlater
        · rw [if_pos (by omega)]; exact hlater
        · rw [if_neg (by omega)]; exact hlater

/-- Adding a record fills the bytes that it covers, which were vacant, and no others. -/
theorem add_eq_ok {path : List Int} {r : Record α} {t t' : Table α} (h : add path r t = .ok t') (b : Nat) :
    (r.Covers b ∧ (t b).isVacant = true ∧ Fills r b (t' b)) ∨ (¬r.Covers b ∧ t' b = t b) := by
  cases r with
  | byte code a =>
    rw [add] at h
    obtain ⟨hcode, hvacant, rfl⟩ := place_eq_ok_iff.mp h
    by_cases hb : b = code.toNat
    · obtain rfl : code = (b : Int) := by omega
      exact Or.inl ⟨rfl, hb ▸ hvacant, by simp only [if_pos hb]; exact .byte b a⟩
    · exact Or.inr ⟨fun hcov => hb (by rw [Record.Covers] at hcov; omega), if_neg hb⟩
  | span lo hi a =>
    rw [add] at h
    split at h
    · rename_i hrange
      have hplace := placeFrom_eq_ok h b
      split at hplace
      · refine Or.inl ⟨⟨by omega, by omega⟩, hplace.1, ?_⟩
        rw [hplace.2]
        exact .span a (by omega) (by omega)
      · exact Or.inr ⟨fun hcov => by rw [Record.Covers] at hcov; omega, hplace⟩
    · cases h
  | group code records =>
    rw [add] at h
    cases hinner : addAll (path ++ [code]) records empty with
    | error e => rw [hinner] at h; cases h
    | ok inner =>
      rw [hinner] at h
      obtain ⟨hcode, hvacant, rfl⟩ := place_eq_ok_iff.mp h
      by_cases hb : b = code.toNat
      · obtain rfl : code = (b : Int) := by omega
        exact Or.inl ⟨rfl, hb ▸ hvacant, by simp only [if_pos hb]; exact .group b hinner⟩
      · exact Or.inr ⟨fun hcov => hb (by rw [Record.Covers] at hcov; omega), if_neg hb⟩

theorem not_isVacant_of_fills {r : Record α} {b : Nat} {slot : Slot α} (h : Fills r b slot) :
    slot.isVacant = false := by
  cases h <;> rfl

/-- In a built table every slot is that of the records that cover its byte, or the one from before. -/
theorem addAll_eq_ok {path : List Int} {rs : List (Record α)} {t t' : Table α} (h : addAll path rs t = .ok t')
    (b : Nat) :
    (∀ r ∈ rs, r.Covers b → Fills r b (t' b)) ∧ ((∃ r ∈ rs, r.Covers b) ∨ t' b = t b) ∧
      ((∃ r ∈ rs, r.Covers b) → (t b).isVacant = true) := by
  induction rs generalizing t with
  | nil => cases h; simp
  | cons r rs ih =>
    rw [addAll] at h
    cases hadd : add path r t with
    | error e => rw [hadd] at h; cases h
    | ok t₁ =>
      rw [hadd] at h
      obtain ⟨hfills, hkept, hvacant⟩ := ih h
      rcases add_eq_ok hadd b with ⟨hcov, hv, hfill⟩ | ⟨hcov, hsame⟩
      · -- the slot of `b` is no longer vacant, so no later record covers it
        have hnone : ¬∃ r ∈ rs, r.Covers b := by
          intro hlater
          have := hvacant hlater
          rw [not_isVacant_of_fills hfill] at this
          cases this
        have hslot : t' b = t₁ b := hkept.resolve_left hnone
        refine ⟨?_, Or.inl ⟨r, List.mem_cons_self, hcov⟩, fun _ => hv⟩
        intro q hq hqcov
        rcases List.mem_cons.mp hq with rfl | hq
        · rw [hslot]; exact hfill
        · exact absurd ⟨q, hq, hqcov⟩ hnone
      · rw [hsame] at hkept hvacant
        refine ⟨?_, ?_, ?_⟩
        · intro q hq hqcov
          rcases List.mem_cons.mp hq with rfl | hq
          · exact absurd hqcov hcov
          · exact hfills q hq hqcov
        · exact hkept.imp_left fun ⟨q, hq, hqcov⟩ => ⟨q, List.mem_cons_of_mem _ hq, hqcov⟩
        · rintro ⟨q, hq, hqcov⟩
          rcases List.mem_cons.mp hq with rfl | hq
          · exact absurd hqcov hcov
          · exact hvacant ⟨q, hq, hqcov⟩

/-- What a table leads to is declared by its records. -/
theorem declares_of_follow? {pre : List Int} {records : List (Record α)} {t : Table α}
    (h : addAll pre records empty = .ok t) {path : List Nat} {a : α}
    (hfollow : (Slot.table t).follow? path = some (.leaf a)) : Declares records path a := by
  induction path generalizing pre records t with
  | nil => cases hfollow
  | cons b path ih =>
    rw [Slot.follow?] at hfollow
    obtain ⟨hfills, hkept, -⟩ := addAll_eq_ok h b
    rcases hkept with ⟨r, hr, hcov⟩ | hsame
    · have hfill := hfills r hr hcov
      cases hslot : t b with
      | vacant => rw [hslot] at hfill; cases hfill
      | leaf a' =>
        rw [hslot] at hfill hfollow
        cases path with
        | cons => cases hfollow
        | nil =>
          cases hfollow
          cases hfill with
          | byte => exact .byte hr
          | span _ hlo hhi => exact .span hr hlo hhi
      | table inner =>
        rw [hslot] at hfill hfollow
        cases hfill with
        | group _ hinner => exact .group hr (ih hinner hfollow)
    · rw [hsame] at hfollow
      cases path <;> cases hfollow

/-- What records declare, their table leads to. -/
theorem follow?_of_declares {pre : List Int} {records : List (Record α)} {t : Table α}
    (h : addAll pre records empty = .ok t) {path : List Nat} {a : α} (hdecl : Declares records path a) :
    (Slot.table t).follow? path = some (.leaf a) := by
  induction hdecl generalizing pre t with
  | @byte records b a hmem =>
    have hfill := (addAll_eq_ok h b).1 _ hmem rfl
    rw [Slot.follow?]
    cases hslot : t b <;> rw [hslot] at hfill <;> cases hfill
    rfl
  | @span records lo hi b a hmem hlo hhi =>
    have hfill := (addAll_eq_ok h b).1 _ hmem ⟨hlo, hhi⟩
    rw [Slot.follow?]
    cases hslot : t b <;> rw [hslot] at hfill <;> cases hfill
    rfl
  | @group records inner b path a hmem _ ih =>
    have hfill := (addAll_eq_ok h b).1 _ hmem rfl
    rw [Slot.follow?]
    cases hslot : t b <;> rw [hslot] at hfill <;> cases hfill
    exact ih ‹_›

/-- The ways of a built table that lead to something are the declared ones. -/
theorem follow?_build {records : List (Record α)} {t : Table α} (h : build records = .ok t) {path : List Nat} {a : α} :
    (Slot.table t).follow? path = some (.leaf a) ↔ Declares records path a :=
  ⟨declares_of_follow? h, follow?_of_declares h⟩

theorem exists_placeFrom (path : List Int) (a : α) {lo : Int} {count : Nat} {t : Table α} (hlo : 0 ≤ lo)
    (hhi : lo + count ≤ 256) (hvacant : ∀ b : Nat, lo ≤ b → b < lo + count → (t b).isVacant = true) :
    ∃ t', placeFrom path a lo count t = .ok t' := by
  induction count generalizing lo t with
  | zero => exact ⟨t, rfl⟩
  | succ count ih =>
    rw [placeFrom, place_eq_ok_iff.mpr ⟨by omega, hvacant lo.toNat (by omega) (by omega), rfl⟩]
    apply ih (by omega) (by omega)
    intro b hb hb'
    rw [if_neg (by omega)]
    exact hvacant b (by omega) (by omega)

mutual

/-- A tidy record can be added where its bytes are vacant. -/
theorem exists_add : ∀ (r : Record α) (path : List Int) (t : Table α), r.tidy = true →
    (∀ b, r.Covers b → (t b).isVacant = true) → ∃ t', add path r t = .ok t'
  | .byte code a, path, t, htidy, hvacant => by
    rw [Record.tidy, decide_eq_true_eq] at htidy
    exact ⟨_, place_eq_ok_iff.mpr ⟨htidy, hvacant code.toNat (by rw [Record.Covers]; omega), rfl⟩⟩
  | .span lo hi a, path, t, htidy, hvacant => by
    rw [Record.tidy, decide_eq_true_eq] at htidy
    rw [add, if_pos htidy]
    exact exists_placeFrom path a htidy.1 (by omega) fun b hb hb' => hvacant b ⟨hb, by omega⟩
  | .group code records, path, t, htidy, hvacant => by
    rw [Record.tidy, Bool.and_eq_true, decide_eq_true_eq] at htidy
    obtain ⟨inner, hinner⟩ := exists_addAll records (path ++ [code]) 0 empty htidy.2 fun _ _ => rfl
    rw [add, hinner]
    exact ⟨_, place_eq_ok_iff.mpr ⟨htidy.1, hvacant code.toNat (by rw [Record.Covers]; omega), rfl⟩⟩

/-- Tidy records can be added where all but the bytes taken are vacant. -/
theorem exists_addAll : ∀ (rs : List (Record α)) (path : List Int) (taken : Nat) (t : Table α),
    Record.tidyList taken rs = true → (∀ b, taken.testBit b = false → (t b).isVacant = true) →
    ∃ t', addAll path rs t = .ok t'
  | [], _, _, t, _, _ => ⟨t, rfl⟩
  | r :: rs, path, taken, t, htidy, hvacant => by
    rw [Record.tidyList, Bool.and_eq_true, Bool.and_eq_true, beq_iff_eq] at htidy
    obtain ⟨⟨hr, hapart⟩, hrs⟩ := htidy
    have hfirst := Record.first_nonneg hr
    have hfree : ∀ b, r.Covers b → taken.testBit b = false := by
      intro b hb
      have hand : (taken &&& r.cover).testBit b = false := by rw [hapart, Nat.zero_testBit]
      rw [Nat.testBit_and, (Record.testBit_cover hfirst b).mpr hb, Bool.and_true] at hand
      exact hand
    obtain ⟨t₁, hadd⟩ := exists_add r path t hr fun b hb => hvacant b (hfree b hb)
    rw [addAll, hadd]
    apply exists_addAll rs path (taken ||| r.cover) t₁ hrs
    intro b hb
    rw [Nat.testBit_or, Bool.or_eq_false_iff] at hb
    rcases add_eq_ok hadd b with ⟨hcov, -⟩ | ⟨-, hsame⟩
    · rw [(Record.testBit_cover hfirst b).mpr hcov] at hb
      cases hb.2
    · rw [hsame]
      exact hvacant b hb.1

end

/-- Tidy records build a table. -/
theorem exists_build {records : List (Record α)} (h : Record.tidyList 0 records = true) :
    ∃ t, build records = .ok t :=
  exists_addAll records [] 0 empty h fun _ _ => rfl

/-- The table of records that build one. -/
theorem build_ofRecords {records : List (Record α)} (h : ∃ t, build records = .ok t) :
    build records = .ok (ofRecords records) := by
  obtain ⟨t, ht⟩ := h
  rw [ofRecords, ht]

end Table

end TvmCode
