import TvmCode.Proofs.Dictionary

/-!
# The order of dictionary entries

An edge with `m` key bits below it has the keys from `key * 2 ^ m` up to `(key + 1) * 2 ^ m` to give, where `key` is
spelled by the path to it. A fork gives the lower half of what its label leaves to the left and the upper half to the
right, so the entries come by increasing key, also when a malformed edge ends them (`walk_ordered`).
-/

namespace TvmCode.Dictionary

/-- Entries by increasing key, from `lo` on and below `hi`. -/
structure Ordered (lo hi : Nat) (es : List Entry) : Prop where
  sorted : es.Pairwise fun e e' => e.key < e'.key
  within {e : Entry} (h : e ∈ es) : lo ≤ e.key ∧ e.key < hi

namespace Ordered

variable {lo mid hi : Nat} {xs ys : List Entry}

theorem nil (lo hi : Nat) : Ordered lo hi [] := ⟨.nil, nofun⟩

theorem singleton {e : Entry} (hlo : lo ≤ e.key) (hhi : e.key < hi) : Ordered lo hi [e] :=
  ⟨List.pairwise_singleton _ e, fun h => List.mem_singleton.mp h ▸ ⟨hlo, hhi⟩⟩

/-- Entries are ordered within every wider interval. -/
theorem widen (h : Ordered lo hi xs) {lo' hi' : Nat} (hlo : lo' ≤ lo) (hhi : hi ≤ hi') : Ordered lo' hi' xs :=
  ⟨h.sorted, fun he => ⟨hlo.trans (h.within he).1, (h.within he).2.trans_le hhi⟩⟩

/-- Entries of one interval before those of the next. -/
theorem append (h : Ordered lo mid xs) (h' : Ordered mid hi ys) (hlo : lo ≤ mid) (hhi : mid ≤ hi) :
    Ordered lo hi (xs ++ ys) := by
  constructor
  · rw [List.pairwise_append]
    exact ⟨h.sorted, h'.sorted, fun x hx y hy => (h.within hx).2.trans_le (h'.within hy).1⟩
  · intro e he
    rcases List.mem_append.mp he with he | he
    · exact (h.widen le_rfl hhi).within he
    · exact (h'.widen hlo le_rfl).within he

end Ordered

/-- One walk after another, whether or not the first meets a failure. -/
theorem Walk.andThen_ordered {w next : Walk} {lo mid hi : Nat} (h : Ordered lo mid w.entries)
    (h' : Ordered mid hi next.entries) (hlo : lo ≤ mid) (hhi : mid ≤ hi) :
    Ordered lo hi (w.andThen fun _ => next).entries := by
  unfold Walk.andThen
  cases w.failure with
  | none => exact h.append h' hlo hhi
  | some e => exact h.widen le_rfl hhi

/-- The keys that a label leaves of those of its edge. -/
theorem label_within (key : Nat) (label : List Bool) (k : Nat) :
    key * 2 ^ (label.length + k) ≤ ((key <<< label.length) + natOfBits label) * 2 ^ k ∧
      ((key <<< label.length) + natOfBits label + 1) * 2 ^ k ≤ (key + 1) * 2 ^ (label.length + k) := by
  have hlt := natOfBits_lt label
  rw [Nat.shiftLeft_eq, pow_add, ← Nat.mul_assoc, ← Nat.mul_assoc]
  constructor
  · exact Nat.mul_le_mul_right _ (Nat.le_add_right _ _)
  · refine Nat.mul_le_mul_right _ ?_
    rw [Nat.add_mul, Nat.one_mul]
    omega

/-- **Entries come by increasing key**, as far as they are found. -/
theorem walk_ordered {c : Cell} (hc : c.WellFormed) (key m : Nat) :
    Ordered (key * 2 ^ m) ((key + 1) * 2 ^ m) (walk c key m).entries := by
  induction hc generalizing key m with
  | @intro c hbits hcount hdata children ih =>
    have hat := walk_at ⟨hbits, hcount, hdata, children⟩ key m
    generalize walk c key m = w at hat
    cases hat with
    | refused e => exact .nil _ _
    | @leaf code label after t start bits length =>
      obtain ⟨hlo, hhi⟩ := label_within key label 0
      simp only [Nat.add_zero, pow_zero, Nat.mul_one] at hlo hhi
      rw [← length]
      exact .singleton hlo hhi
    | @fork k left right code label after others start bits length refs =>
      obtain ⟨hlo, hhi⟩ := label_within key label (1 + k)
      generalize (key <<< label.length) + natOfBits label = p at hlo hhi
      have hleft := ih left (by simp [refs]) (p * 2) k
      have hright := ih right (by simp [refs]) (p * 2 + 1) k
      have hboth := Walk.andThen_ordered hleft hright (Nat.mul_le_mul_right _ (Nat.le_succ _))
        (Nat.mul_le_mul_right _ (Nat.le_succ _))
      rw [← length, Nat.add_assoc]
      refine hboth.widen (hlo.trans_eq ?_) (Eq.trans_le ?_ hhi)
      · ring
      · ring

/-- The leaves of a dictionary by increasing key. -/
theorem Edge.sorted {c : Cell} {m : Nat} {leaves : List Leaf} (h : Edge m c leaves) (hc : c.WellFormed) :
    leaves.Pairwise fun l l' => natOfBits l.path < natOfBits l'.path := by
  have hwalk : walk c 0 m = ⟨leaves.map Leaf.entry, none⟩ := walk_of_edge h hc []
  have hsorted := (walk_ordered hc 0 m).sorted
  rw [hwalk, List.pairwise_map] at hsorted
  exact hsorted

end TvmCode.Dictionary
