import Mathlib.Algebra.BigOperators.Group.List.Basic
import Mathlib.Data.List.Pairwise
import TvmCode.Proofs.Dispatch

/-!
# What declarations build

Records build a table just when at every level they keep to bytes and no byte is covered twice (`ConflictFree`), and the
table is the one that can be read off them: under each byte stands what the record that covers it files (`tableOf`).
This is `Table.build_eq_ok_iff`, from which follow:

- the number of ways in a table is the number of bytes that its records cover, over all levels (`count_tableOf`);
- the order of the records does not matter, at no level (`build_of_shuffled`);
- a refusal because a way is covered twice is right (`Table.coveredTwice_of_addAll`).

All together is `Table.build_declares`.
-/

namespace TvmCode

variable {α : Type}

namespace Record

/-! ## Levels -/

/-- A record keeps to bytes, and a range is not empty. -/
def InRange : Record α → Prop
  | .byte code _ => 0 ≤ code ∧ code ≤ 255
  | .span lo hi _ => 0 ≤ lo ∧ lo < hi ∧ hi ≤ 256
  | .group code _ => 0 ≤ code ∧ code ≤ 255

/-- No byte is covered by both records. -/
def Apart (r q : Record α) : Prop := ∀ b, ¬(r.Covers b ∧ q.Covers b)

/-- The records of the level to which a way of codes leads. -/
inductive Level : List (Record α) → List Int → List (Record α) → Prop
  | top (records : List (Record α)) : Level records [] records
  | group {records inner level : List (Record α)} {code : Int} {path : List Int} (h : .group code inner ∈ records)
      (rest : Level inner path level) : Level records (code :: path) level

/-- At every level the records keep to bytes, and no two of them cover the same byte. -/
def ConflictFree (records : List (Record α)) : Prop :=
  ∀ path level, Level records path level → (∀ r ∈ level, r.InRange) ∧ level.Pairwise Apart

/-- A way of codes ends with a byte that two records of its level cover. -/
def CoveredTwice (records : List (Record α)) (path : List Int) : Prop :=
  ∃ (before : List Int) (b : Nat) (level : List (Record α)) (r q : Record α), path = before ++ [(b : Int)] ∧
    Level records before level ∧ [r, q].Sublist level ∧ r.Covers b ∧ q.Covers b

/-- The same records in another order, at any of the levels. -/
inductive Shuffled : List (Record α) → List (Record α) → Prop
  | perm {records others : List (Record α)} (h : records.Perm others) : Shuffled records others
  | within (before after : List (Record α)) (code : Int) {inner inner' : List (Record α)} (h : Shuffled inner inner') :
      Shuffled (before ++ .group code inner :: after) (before ++ .group code inner' :: after)
  | trans {records others more : List (Record α)} (h : Shuffled records others) (h' : Shuffled others more) :
      Shuffled records more

/-- What is covered twice is so with more records around. -/
theorem CoveredTwice.mono {records others : List (Record α)} {path : List Int} (h : CoveredTwice records path)
    (hsub : records.Sublist others) : CoveredTwice others path := by
  obtain ⟨before, b, level, r, q, rfl, hlevel, hpair, hr, hq⟩ := h
  cases hlevel with
  | top => exact ⟨[], b, others, r, q, rfl, .top others, hpair.trans hsub, hr, hq⟩
  | group hmem hrest => exact ⟨_, b, level, r, q, rfl, .group (hsub.mem hmem) hrest, hpair, hr, hq⟩

/-- A level is free of conflicts if its records are, and so is what lies below them. -/
theorem conflictFree_iff {records : List (Record α)} : ConflictFree records ↔
    (∀ r ∈ records, r.InRange) ∧ records.Pairwise Apart ∧
      ∀ code inner, .group code inner ∈ records → ConflictFree inner := by
  constructor
  · intro h
    obtain ⟨hrange, hapart⟩ := h [] records (.top records)
    refine ⟨hrange, hapart, ?_⟩
    intro code inner hmem path level hlevel
    exact h (code :: path) level (.group hmem hlevel)
  · rintro ⟨hrange, hapart, hinner⟩ path level hlevel
    cases hlevel with
    | top => exact ⟨hrange, hapart⟩
    | group hmem hrest => exact hinner _ _ hmem _ _ hrest

/-- A record keeps to bytes, and the level below it is free of conflicts. -/
def Sane (r : Record α) : Prop := r.InRange ∧ ∀ code inner, r = .group code inner → ConflictFree inner

theorem conflictFree_cons {r : Record α} {rs : List (Record α)} :
    ConflictFree (r :: rs) ↔ r.Sane ∧ (∀ q ∈ rs, r.Apart q) ∧ ConflictFree rs := by
  rw [conflictFree_iff, @conflictFree_iff α rs]
  simp only [Sane, List.mem_cons, List.pairwise_cons, forall_eq_or_imp]
  constructor
  · rintro ⟨⟨hr, hrs⟩, ⟨hapart, hpairs⟩, hinner⟩
    exact ⟨⟨hr, fun code inner h => hinner code inner (Or.inl h.symm)⟩, hapart, hrs, hpairs,
      fun code inner h => hinner code inner (Or.inr h)⟩
  · rintro ⟨⟨hr, hbelow⟩, hapart, hrs, hpairs, hinner⟩
    refine ⟨⟨hr, hrs⟩, ⟨hapart, hpairs⟩, ?_⟩
    rintro code inner (h | h)
    · exact hbelow code inner h.symm
    · exact hinner code inner h

theorem conflictFree_nil : ConflictFree ([] : List (Record α)) := conflictFree_iff.mpr (by simp)

theorem Sane.first_nonneg {r : Record α} (h : r.Sane) : 0 ≤ r.first := by
  have hrange := h.1
  cases r <;> exact hrange.1

/-- The bytes of a record are not taken. -/
theorem and_cover_eq_zero_iff {r : Record α} (h : 0 ≤ r.first) (taken : Nat) :
    taken &&& r.cover = 0 ↔ ∀ b, r.Covers b → taken.testBit b = false := by
  constructor
  · intro hand b hb
    have hbit : (taken &&& r.cover).testBit b = false := by rw [hand, Nat.zero_testBit]
    simpa [(testBit_cover h b).mpr hb] using hbit
  · intro hfree
    apply Nat.eq_of_testBit_eq
    intro b
    by_cases hb : r.Covers b
    · simp [hfree b hb]
    · have hbit : r.cover.testBit b = false := by simpa [← testBit_cover h b] using hb
      simp [hbit]

mutual

theorem tidy_iff : ∀ r : Record α, r.tidy = true ↔ r.Sane
  | .byte code a => by simp [tidy, Sane, InRange]
  | .span lo hi a => by simp [tidy, Sane, InRange]
  | .group code records => by simp [tidy, Sane, InRange, tidyList_iff records 0, and_assoc]

/-- The test for tidy records holds of those that are free of conflicts and cover none of the bytes taken. -/
theorem tidyList_iff : ∀ (rs : List (Record α)) (taken : Nat), tidyList taken rs = true ↔
    ConflictFree rs ∧ ∀ r ∈ rs, ∀ b, r.Covers b → taken.testBit b = false
  | [], taken => by simp [tidyList, conflictFree_nil]
  | r :: rs, taken => by
    rw [tidyList, Bool.and_eq_true, Bool.and_eq_true, beq_iff_eq, tidy_iff r, tidyList_iff rs, conflictFree_cons,
      List.forall_mem_cons]
    constructor
    · rintro ⟨⟨hr, hand⟩, hrs, hlater⟩
      have hfirst := hr.first_nonneg
      have hfree : ∀ q ∈ rs, ∀ b, q.Covers b → taken.testBit b = false ∧ ¬r.Covers b := by
        intro q hq b hb
        simpa [← testBit_cover hfirst b] using hlater q hq b hb
      exact ⟨⟨hr, fun q hq b hb => (hfree q hq b hb.2).2 hb.1, hrs⟩, (and_cover_eq_zero_iff hfirst taken).mp hand,
        fun q hq b hb => (hfree q hq b hb).1⟩
    · rintro ⟨⟨hr, hapart, hrs⟩, hfree, hlater⟩
      have hfirst := hr.first_nonneg
      refine ⟨⟨hr, (and_cover_eq_zero_iff hfirst taken).mpr hfree⟩, hrs, ?_⟩
      intro q hq b hb
      have hnot : ¬r.Covers b := fun h => hapart q hq b ⟨h, hb⟩
      simpa [← testBit_cover hfirst b, hlater q hq b hb] using hnot

end

instance (records : List (Record α)) : Decidable (ConflictFree records) :=
  decidable_of_iff (tidyList 0 records = true) (by simp [tidyList_iff])

/-! ## The table of declarations -/

instance (r : Record α) (b : Nat) : Decidable (r.Covers b) := decidable_of_iff _ (r.covers_iff b).symm

mutual

/-- What a record files under the bytes that it covers. -/
def slot : Record α → Slot α
  | .byte _ a => .leaf a
  | .span _ _ a => .leaf a
  | .group _ records => .table (tableOf records)

/-- The table in which each byte leads to what the first record that covers it files. -/
def tableOf : List (Record α) → Table α
  | [], _ => .vacant
  | r :: rs, b => if r.Covers b then slot r else tableOf rs b

end

mutual

/-- How many ways of bytes a record declares. -/
def ways : Record α → Nat
  | .byte _ _ => 1
  | .span lo hi _ => (hi - lo).toNat
  | .group _ records => waysOf records

/-- How many ways of bytes records declare. -/
def waysOf : List (Record α) → Nat
  | [] => 0
  | r :: rs => ways r + waysOf rs

end

theorem tableOf_of_uncovered {rs : List (Record α)} {b : Nat} (h : ∀ r ∈ rs, ¬r.Covers b) : tableOf rs b = .vacant := by
  induction rs with
  | nil => rfl
  | cons r rs ih =>
    simp only [List.forall_mem_cons] at h
    rw [tableOf, if_neg h.1, ih h.2]

/-- Records that come after the one that covers a byte, and records before it, do not matter. -/
theorem tableOf_between {before rs after : List (Record α)} {b : Nat} (hbefore : ∀ r ∈ before, ¬r.Covers b)
    (hafter : ∀ r ∈ after, ¬r.Covers b) : tableOf (before ++ (rs ++ after)) b = tableOf rs b := by
  induction before with
  | cons r before ih =>
    rw [List.forall_mem_cons] at hbefore
    rw [List.cons_append, tableOf, if_neg hbefore.1, ih hbefore.2]
  | nil =>
    rw [List.nil_append]
    induction rs with
    | nil => exact tableOf_of_uncovered hafter
    | cons r rs ih => rw [List.cons_append, tableOf, tableOf, ih]

theorem tableOf_of_covers {rs : List (Record α)} (hapart : rs.Pairwise Apart) {r : Record α} (hr : r ∈ rs) {b : Nat}
    (hb : r.Covers b) : tableOf rs b = r.slot := by
  induction rs with
  | nil => cases hr
  | cons q rs ih =>
    rw [List.pairwise_cons] at hapart
    rcases List.mem_cons.mp hr with rfl | hr
    · rw [tableOf, if_pos hb]
    · rw [tableOf, if_neg fun hq => hapart.1 r hr b ⟨hq, hb⟩, ih hapart.2 hr]

/-- The way to a level leads to the table of its records. -/
theorem follow?_tableOf {records level : List (Record α)} {path : List Int} (h : Level records path level)
    (hfree : ConflictFree records) :
    (Slot.table (tableOf records)).follow? (path.map Int.toNat) = some (.table (tableOf level)) := by
  induction h with
  | top records => rfl
  | @group records inner level code path hmem _ ih =>
    obtain ⟨hrange, hapart, hinner⟩ := conflictFree_iff.mp hfree
    have hcode : code = (code.toNat : Int) := (Int.toNat_of_nonneg (hrange _ hmem).1).symm
    rw [List.map_cons, Slot.follow?, tableOf_of_covers hapart hmem hcode, slot]
    exact ih (hinner _ _ hmem)

mutual

theorem slot_map {β : Type} (f : α → β) : ∀ r : Record α, (map f r).slot = r.slot.map f
  | .byte _ _ => rfl
  | .span _ _ _ => rfl
  | .group _ records => by
    rw [map, slot, slot, Slot.map]
    exact congrArg Slot.table (funext (tableOf_mapList f records))

/-- The table of other things has them where the table of these things has these. -/
theorem tableOf_mapList {β : Type} (f : α → β) : ∀ (rs : List (Record α)) (b : Nat),
    tableOf (mapList f rs) b = (tableOf rs b).map f
  | [], _ => rfl
  | r :: rs, b => by
    have hcovers : (map f r).Covers b ↔ r.Covers b := by cases r <;> exact Iff.rfl
    simp only [mapList, tableOf, hcovers, slot_map f r, tableOf_mapList f rs b]
    split <;> rfl

end

/-! ## Orders -/

theorem Apart.symm {r q : Record α} (h : r.Apart q) : q.Apart r := fun b hb => h b hb.symm

instance : Std.Symm (@Apart α) := ⟨fun _ _ => Apart.symm⟩

/-- The order of the records of one level does not matter. -/
theorem conflictFree_of_perm {records others : List (Record α)} (h : records.Perm others)
    (hfree : ConflictFree records) : ConflictFree others ∧ tableOf others = tableOf records := by
  obtain ⟨hrange, hapart, hinner⟩ := conflictFree_iff.mp hfree
  have hapart' := (h.pairwise_iff Apart.symm).mp hapart
  refine ⟨conflictFree_iff.mpr ⟨?_, hapart', ?_⟩, ?_⟩
  · exact fun r hr => hrange r (h.mem_iff.mpr hr)
  · exact fun code inner hmem => hinner code inner (h.mem_iff.mpr hmem)
  · funext b
    by_cases hcov : ∃ r ∈ records, r.Covers b
    · obtain ⟨r, hr, hb⟩ := hcov
      rw [tableOf_of_covers hapart hr hb, tableOf_of_covers hapart' (h.mem_iff.mp hr) hb]
    · rw [tableOf_of_uncovered fun r hr hb => hcov ⟨r, hr, hb⟩,
        tableOf_of_uncovered fun r hr hb => hcov ⟨r, h.mem_iff.mpr hr, hb⟩]

/-- Records that file the same under the same bytes stand in for each other. -/
theorem tableOf_replace {r q : Record α} (hcov : ∀ b, r.Covers b ↔ q.Covers b) (hslot : r.slot = q.slot)
    (before after : List (Record α)) : tableOf (before ++ r :: after) = tableOf (before ++ q :: after) := by
  induction before with
  | nil =>
    funext b
    simp only [List.nil_append, tableOf, hcov, hslot]
  | cons p before ih =>
    funext b
    simp only [List.cons_append, tableOf, ih]

/-- The order of the records does not matter at any level. -/
theorem conflictFree_of_shuffled {records others : List (Record α)} (h : Shuffled records others)
    (hfree : ConflictFree records) : ConflictFree others ∧ tableOf others = tableOf records := by
  induction h with
  | perm h => exact conflictFree_of_perm h hfree
  | within before after code _ ih =>
    obtain ⟨hrange, hapart, hinner⟩ := conflictFree_iff.mp hfree
    obtain ⟨hfree', htable⟩ := ih (hinner code _ (by simp))
    refine ⟨conflictFree_iff.mpr ⟨?_, ?_, ?_⟩, ?_⟩
    · simpa [InRange, or_imp, forall_and] using hrange
    · simpa [List.pairwise_append, Apart, Covers] using hapart
    · intro code' inner hmem
      simp only [List.mem_append, List.mem_cons, group.injEq] at hmem
      rcases hmem with hmem | ⟨-, rfl⟩ | hmem
      · exact hinner code' inner (by simp [hmem])
      · exact hfree'
      · exact hinner code' inner (by simp [hmem])
    · apply tableOf_replace
      · exact fun _ => Iff.rfl
      · simp only [slot, htable]
  | trans _ _ ih ih' =>
    obtain ⟨hfree', htable⟩ := ih hfree
    obtain ⟨hfree'', htable'⟩ := ih' hfree'
    exact ⟨hfree'', htable'.trans htable⟩

theorem Shuffled.symm {records others : List (Record α)} (h : Shuffled records others) : Shuffled others records := by
  induction h with
  | perm h => exact .perm h.symm
  | within before after code _ ih => exact .within before after code ih
  | trans _ _ ih ih' => exact .trans ih' ih

/-! ## Counting -/

@[simp] theorem count_vacant : (Slot.vacant : Slot α).count = 0 := rfl

@[simp] theorem count_leaf (a : α) : (Slot.leaf a).count = 1 := rfl

theorem count_table (t : Table α) : (Slot.table t).count = ((List.range 256).map fun b => (t b).count).sum := rfl

/-- A number for each byte of a range. -/
theorem sum_range_ite (lo hi c n : Nat) :
    ((List.range n).map fun b => if lo ≤ b ∧ b < hi then c else 0).sum = (min n hi - lo) * c := by
  induction n with
  | zero => simp
  | succ n ih =>
    rw [List.range_succ, List.map_append, List.sum_append, ih]
    by_cases h : lo ≤ n ∧ n < hi
    · have hmin : min (n + 1) hi - lo = min n hi - lo + 1 := by omega
      rw [List.map_singleton, List.sum_singleton, if_pos h, hmin, Nat.succ_mul]
    · have hmin : min (n + 1) hi - lo = min n hi - lo := by omega
      rw [List.map_singleton, List.sum_singleton, if_neg h, hmin, Nat.add_zero]

/-- A number for each byte that a record covers. -/
theorem sum_covers {r : Record α} (h : r.InRange) (c : Nat) :
    ((List.range 256).map fun b => if r.Covers b then c else 0).sum = (r.stop - r.first).toNat * c := by
  have hbounds : 0 ≤ r.first ∧ r.stop ≤ 256 := by
    cases r <;> simp only [InRange] at h <;> simp only [first, stop] <;> omega
  have hcovers : ∀ b : Nat, r.Covers b ↔ r.first.toNat ≤ b ∧ b < r.stop.toNat := by
    intro b
    rw [covers_iff]
    omega
  simp only [hcovers, sum_range_ite]
  congr 1
  omega

/-- What a table holds under a byte is filed by the first record or by the others. -/
theorem count_tableOf_cons {r : Record α} {rs : List (Record α)} (hapart : ∀ q ∈ rs, r.Apart q) (b : Nat) :
    (tableOf (r :: rs) b).count = (if r.Covers b then r.slot.count else 0) + (tableOf rs b).count := by
  by_cases hb : r.Covers b
  · have hrest : tableOf rs b = .vacant := tableOf_of_uncovered fun q hq hqb => hapart q hq b ⟨hb, hqb⟩
    simp [tableOf, hb, hrest]
  · simp [tableOf, hb]

mutual

theorem count_slot : ∀ r : Record α, r.Sane → (r.stop - r.first).toNat * r.slot.count = r.ways
  | .byte code a, _ => by simp [stop, first, slot, ways]
  | .span lo hi a, _ => by simp [stop, first, slot, ways]
  | .group code records, h => by
    have hinner : (Slot.table (tableOf records)).count = waysOf records := count_tableOf records (h.2 _ _ rfl)
    simp [stop, first, slot, ways, hinner]

/-- **A table holds as many ways as its records declare.** -/
theorem count_tableOf : ∀ rs : List (Record α), ConflictFree rs → Table.count (tableOf rs) = waysOf rs
  | [], _ => by
    simp only [Table.count, count_table, tableOf, count_vacant, waysOf, List.map_const', List.sum_replicate, nsmul_zero]
  | r :: rs, h => by
    obtain ⟨hr, hapart, hrs⟩ := conflictFree_cons.mp h
    have hrest : ((List.range 256).map fun b => (tableOf rs b).count).sum = waysOf rs := count_tableOf rs hrs
    simp only [Table.count, count_table, count_tableOf_cons hapart, List.sum_map_add]
    rw [sum_covers hr.1, count_slot r hr, hrest, waysOf]

end

end Record

namespace Table

open Record

/-! ## Building -/

mutual

theorem sane_of_add : ∀ (r : Record α) {path : List Int} {t t' : Table α}, add path r t = .ok t' → r.Sane
  | .byte code a, path, t, t', h => ⟨(place_eq_ok_iff.mp h).1, nofun⟩
  | .span lo hi a, path, t, t', h => by
    rw [add] at h
    split at h
    · exact ⟨‹_›, nofun⟩
    · cases h
  | .group code records, path, t, t', h => by
    rw [add] at h
    cases hinner : addAll (path ++ [code]) records empty with
    | error e => rw [hinner] at h; cases h
    | ok inner =>
      rw [hinner] at h
      refine ⟨(place_eq_ok_iff.mp h).1, ?_⟩
      rintro _ _ ⟨⟩
      exact conflictFree_of_addAll records hinner

/-- Records that can be added are free of conflicts. -/
theorem conflictFree_of_addAll : ∀ (rs : List (Record α)) {path : List Int} {t t' : Table α},
    addAll path rs t = .ok t' → ConflictFree rs
  | [], _, _, _, _ => conflictFree_nil
  | r :: rs, path, t, t', h => by
    rw [addAll] at h
    cases hadd : add path r t with
    | error e => rw [hadd] at h; cases h
    | ok t₁ =>
      rw [hadd] at h
      refine conflictFree_cons.mpr ⟨sane_of_add r hadd, ?_, conflictFree_of_addAll rs h⟩
      -- a later record needs the byte to be vacant, which the first has filled
      rintro q hq b ⟨hrb, hqb⟩
      have hvacant := (addAll_eq_ok h b).2.2 ⟨q, hq, hqb⟩
      rcases add_eq_ok hadd b with ⟨-, -, hfills⟩ | ⟨hnot, -⟩
      · rw [not_isVacant_of_fills hfills] at hvacant
        cases hvacant
      · exact hnot hrb

end

/-- If the slots of a built table are those of the records, it is the table of the records. -/
theorem eq_tableOf_of_slots {rs : List (Record α)} {path : List Int} {t : Table α} (h : addAll path rs empty = .ok t)
    (hslots : ∀ r ∈ rs, ∀ b slot, Fills r b slot → slot = r.slot) : t = tableOf rs := by
  obtain ⟨-, hapart, -⟩ := conflictFree_iff.mp (conflictFree_of_addAll rs h)
  funext b
  obtain ⟨hfills, hkept, -⟩ := addAll_eq_ok h b
  by_cases hcov : ∃ r ∈ rs, r.Covers b
  · obtain ⟨r, hr, hb⟩ := hcov
    rw [hslots r hr b _ (hfills r hr hb), tableOf_of_covers hapart hr hb]
  · rw [hkept.resolve_left hcov, tableOf_of_uncovered fun r hr hb => hcov ⟨r, hr, hb⟩, empty]

mutual

theorem slot_of_fills : ∀ (r : Record α) {b : Nat} {slot : Slot α}, Fills r b slot → slot = r.slot
  | .byte _ _, _, _, h => by cases h; rfl
  | .span _ _ _, _, _, h => by cases h; rfl
  | .group code records, b, slot, h => by
    cases h with
    | group _ hinner => rw [Record.slot, eq_tableOf_of_slots hinner (slots_of_fills records)]

theorem slots_of_fills : ∀ (rs : List (Record α)) (r : Record α), r ∈ rs → ∀ (b : Nat) (slot : Slot α),
    Fills r b slot → slot = r.slot
  | [], _, hr, _, _, _ => nomatch hr
  | q :: rs, r, hr, b, slot, h => by
    rcases List.mem_cons.mp hr with heq | hr
    · rw [heq] at h ⊢
      exact slot_of_fills q h
    · exact slots_of_fills rs r hr b slot h

end

/-- **Records build a table just when they are free of conflicts**, and it is the one that can be read off them. -/
theorem build_eq_ok_iff {records : List (Record α)} {t : Table α} :
    build records = .ok t ↔ ConflictFree records ∧ t = tableOf records := by
  have hread : ∀ {t : Table α}, build records = .ok t → t = tableOf records := fun h =>
    eq_tableOf_of_slots h (slots_of_fills records)
  constructor
  · intro h
    exact ⟨conflictFree_of_addAll records h, hread h⟩
  · rintro ⟨hfree, rfl⟩
    obtain ⟨t, ht⟩ := exists_build ((tidyList_iff records 0).mpr ⟨hfree, by simp⟩)
    rw [ht, hread ht]

theorem build_of_shuffled {records others : List (Record α)} (h : Shuffled records others) {t : Table α}
    (ht : build records = .ok t) : build others = .ok t := by
  obtain ⟨hfree, rfl⟩ := build_eq_ok_iff.mp ht
  obtain ⟨hfree', htable⟩ := conflictFree_of_shuffled h hfree
  exact build_eq_ok_iff.mpr ⟨hfree', htable.symm⟩

/-! ## Refusals -/

theorem of_place_twice {path way : List Int} {code : Int} {target : Slot α} {t : Table α}
    (h : place path code target t = .error (.twice way)) :
    ∃ b : Nat, code = b ∧ way = path ++ [(b : Int)] ∧ (t b).isVacant = false := by
  unfold place at h
  split at h
  · cases h
  · rename_i hcode
    split at h
    · cases h
    · rename_i hvacant
      cases h
      have hb : (code.toNat : Int) = code := Int.toNat_of_nonneg (by omega)
      exact ⟨code.toNat, hb.symm, by rw [hb], by simpa using hvacant⟩

theorem of_placeFrom_twice {path way : List Int} {a : α} {lo : Int} {count : Nat} {t : Table α}
    (h : placeFrom path a lo count t = .error (.twice way)) :
    ∃ b : Nat, (lo ≤ b ∧ b < lo + count) ∧ way = path ++ [(b : Int)] ∧ (t b).isVacant = false := by
  induction count generalizing lo t with
  | zero => cases h
  | succ count ih =>
    rw [placeFrom] at h
    cases hplace : place path lo (.leaf a) t with
    | error e =>
      rw [hplace] at h
      cases h
      obtain ⟨b, rfl, hway, hb⟩ := of_place_twice hplace
      exact ⟨b, by omega, hway, hb⟩
    | ok t₁ =>
      rw [hplace] at h
      obtain ⟨hlo, -, rfl⟩ := place_eq_ok_iff.mp hplace
      obtain ⟨b, hrange, hway, hb⟩ := ih h
      -- what was filed just now lies below the bytes that are still to come
      rw [if_neg (by omega)] at hb
      exact ⟨b, by omega, hway, hb⟩

mutual

/-- A record that cannot be added for a way that is covered twice: the way ends with a byte of the record that is no
longer vacant, or it is covered twice below the record. -/
theorem coveredTwice_of_add : ∀ (r : Record α) {path way : List Int} {t : Table α},
    add path r t = .error (.twice way) →
    (∃ b : Nat, way = path ++ [(b : Int)] ∧ r.Covers b ∧ (t b).isVacant = false) ∨
      ∃ rest, way = path ++ rest ∧ CoveredTwice [r] rest
  | .byte code a, path, way, t, h => by
    obtain ⟨b, hcode, hway, hb⟩ := of_place_twice h
    exact Or.inl ⟨b, hway, hcode, hb⟩
  | .span lo hi a, path, way, t, h => by
    rw [add] at h
    split at h
    · obtain ⟨b, hrange, hway, hb⟩ := of_placeFrom_twice h
      exact Or.inl ⟨b, hway, ⟨hrange.1, by omega⟩, hb⟩
    · cases h
  | .group code records, path, way, t, h => by
    rw [add] at h
    cases hinner : addAll (path ++ [code]) records empty with
    | error e =>
      rw [hinner] at h
      cases h
      rcases coveredTwice_of_addAll records hinner with ⟨b, -, -, -, -, hb⟩ | ⟨rest, rfl, htwice⟩
      · cases hb
      · obtain ⟨before, b, level, p, q, rfl, hlevel, hpq⟩ := htwice
        exact Or.inr ⟨code :: (before ++ [(b : Int)]), by simp, code :: before, b, level, p, q, rfl,
          .group (List.mem_singleton_self _) hlevel, hpq⟩
    | ok inner =>
      rw [hinner] at h
      obtain ⟨b, hcode, hway, hb⟩ := of_place_twice h
      exact Or.inl ⟨b, hway, hcode, hb⟩

/-- Records that cannot be added for a way that is covered twice: by one of them and by what the table holds, or by two
of them. -/
theorem coveredTwice_of_addAll : ∀ (rs : List (Record α)) {path way : List Int} {t : Table α},
    addAll path rs t = .error (.twice way) →
    (∃ (b : Nat) (r : Record α), way = path ++ [(b : Int)] ∧ r ∈ rs ∧ r.Covers b ∧ (t b).isVacant = false) ∨
      ∃ rest, way = path ++ rest ∧ CoveredTwice rs rest
  | [], _, _, _, h => nomatch h
  | r :: rs, path, way, t, h => by
    rw [addAll] at h
    cases hadd : add path r t with
    | error e =>
      rw [hadd] at h
      cases h
      rcases coveredTwice_of_add r hadd with ⟨b, hway, hrb, hb⟩ | ⟨rest, hway, htwice⟩
      · exact Or.inl ⟨b, r, hway, List.mem_cons_self, hrb, hb⟩
      · exact Or.inr ⟨rest, hway, htwice.mono (by simp)⟩
    | ok t₁ =>
      rw [hadd] at h
      rcases coveredTwice_of_addAll rs h with ⟨b, q, hway, hq, hqb, hb⟩ | ⟨rest, hway, htwice⟩
      · rcases add_eq_ok hadd b with ⟨hrb, -, -⟩ | ⟨-, hsame⟩
        · have hsub : [r, q].Sublist (r :: rs) := (List.singleton_sublist.mpr hq).cons_cons r
          exact Or.inr ⟨[(b : Int)], hway, [], b, r :: rs, r, q, rfl, .top _, hsub, hrb, hqb⟩
        · exact Or.inl ⟨b, q, hway, List.mem_cons_of_mem r hq, hqb, hsame ▸ hb⟩
      · exact Or.inr ⟨rest, hway, htwice.mono (List.sublist_cons_self r rs)⟩

end

/-! ## What tables hold -/

/-- A table that holds what records declare. -/
structure Holds (t : Table α) (records : List (Record α)) : Prop where
  /-- The way to a level leads to a table in which each byte leads to what the one record that covers it files, and
  where there is none, to nothing. -/
  levels {path : List Int} {level : List (Record α)} (h : Record.Level records path level) :
    ∃ u : Table α, (Slot.table t).follow? (path.map Int.toNat) = some (.table u) ∧
      (∀ b, (∀ r ∈ level, ¬r.Covers b) → u b = .vacant) ∧
      ∀ r ∈ level, ∀ b, r.Covers b → u b = r.slot ∧ ∀ q ∈ level, q.Covers b → q = r
  count : t.count = waysOf records

/-- In a list of records that are apart, one that covers a byte is the only one. -/
theorem eq_of_covers {level : List (Record α)} (hapart : level.Pairwise Apart) {r q : Record α} (hr : r ∈ level)
    (hq : q ∈ level) {b : Nat} (hrb : r.Covers b) (hqb : q.Covers b) : q = r := by
  by_contra hne
  exact hapart.forall hq hr hne b ⟨hqb, hrb⟩

theorem holds_tableOf {records : List (Record α)} (hfree : ConflictFree records) : Holds (tableOf records) records where
  levels {path level} hlevel := by
    obtain ⟨-, hapart⟩ := hfree path level hlevel
    refine ⟨tableOf level, follow?_tableOf hlevel hfree, fun b => tableOf_of_uncovered, ?_⟩
    intro r hr b hb
    exact ⟨tableOf_of_covers hapart hr hb, fun q hq => eq_of_covers hapart hr hq hb⟩
  count := count_tableOf records hfree

/-- **Records build a table just when they are free of conflicts**, and otherwise are refused. The table holds what they
declare, in whatever order they come, and a way that is refused for being covered twice is. -/
theorem build_declares (records : List (Record α)) :
    ((∃ t, build records = .ok t) ↔ ConflictFree records) ∧
      ((∃ e, build records = .error e) ↔ ¬ConflictFree records) ∧
      (∀ t, build records = .ok t → t.Holds records) ∧
      (∀ others, Shuffled records others → ∀ t, build others = .ok t ↔ build records = .ok t) ∧
      ∀ path, build records = .error (.twice path) → CoveredTwice records path := by
  have hok : (∃ t, build records = .ok t) ↔ ConflictFree records := by simp [build_eq_ok_iff]
  refine ⟨hok, ?_, ?_, ?_, ?_⟩
  · rw [← hok]
    cases build records <;> simp
  · intro t ht
    obtain ⟨hfree, rfl⟩ := build_eq_ok_iff.mp ht
    exact holds_tableOf hfree
  · intro others h t
    exact ⟨build_of_shuffled h.symm, build_of_shuffled h⟩
  · intro path h
    rcases coveredTwice_of_addAll records h with ⟨b, r, -, -, -, hb⟩ | ⟨rest, rfl, htwice⟩
    · cases hb
    · exact htwice

end Table

end TvmCode
