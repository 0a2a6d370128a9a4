import TvmCode.Proofs.Dictionary.Order

/-!
# The loop over a dictionary

The entries of a dictionary can also be found without recursion, by a loop that keeps the edges it has still to visit on
a stack (`Loop.turn`). A turn changes neither what the loop will have found at its end, which is what the walks from
the edges on the stack add to the entries found so far (`Loop.outcome`), nor that every edge on the stack is a proper
one, and it lowers a weight of the stack (`turn_kept`). So the loop ends, and gives what `entries` gives
(`ends_outcome`): entries by increasing key, up to the first malformed edge (`entries_ascending`).
-/

namespace TvmCode.Dictionary

/-! ## Turns -/

/-- An edge to visit, the key that is spelled by the path to it, and the number of key bits left. -/
structure Pending where
  edge : Cell
  key : Nat
  limit : Nat

/-- Where the loop stands: the edges to visit, with the next one in front, and the entries found. -/
structure Loop where
  pending : List Pending
  found : List Entry

/-- What a turn of the loop comes to. -/
inductive Turn where
  | next (s : Loop)
  | done (w : Walk)

namespace Loop

/-- The loop before its first turn. -/
def start (root : Option Cell) (keyBits : Nat) : Loop := ⟨root.toList.map (⟨·, 0, keyBits⟩), []⟩

/-- One turn: the edge in front is a leaf, or a fork whose edges take its place, or it is malformed. -/
def turn (s : Loop) : Turn :=
  match s.pending with
  | [] => .done ⟨s.found, none⟩
  | p :: rest =>
    match label p.limit (Slice.ofCell p.edge) with
    | .error e => .done ⟨s.found, some e⟩
    | .ok ((length, bits), value) =>
      let key := (p.key <<< length) + bits
      if p.limit = length then .next ⟨rest, s.found ++ [⟨key, value⟩]⟩
      else match p.edge.refs with
        | left :: right :: _ =>
          let limit := p.limit - length - 1
          .next ⟨⟨left, key * 2, limit⟩ :: ⟨right, key * 2 + 1, limit⟩ :: rest, s.found⟩
        | refs => .done ⟨s.found, some (.brokenFork key refs.length)⟩

/-- The loop is over after so many turns, with this result. -/
inductive Ends : Loop → (turns : Nat) → Walk → Prop
  | done {s : Loop} {w : Walk} (last : s.turn = .done w) : Ends s 1 w
  | next {s t : Loop} {n : Nat} {w : Walk} (first : s.turn = .next t) (rest : Ends t n w) : Ends s (n + 1) w

end Loop

/-! ## Walks one after the other -/

namespace Walk

variable {w : Walk}

theorem andThen_of_some {e : DictionaryError} (h : w.failure = some e) (next : Unit → Walk) : w.andThen next = w := by
  rw [andThen, h]

theorem andThen_assoc (w : Walk) (f g : Unit → Walk) :
    (w.andThen f).andThen g = w.andThen fun _ => (f ()).andThen g := by
  cases hw : w.failure with
  | some e => rw [andThen_of_some hw, andThen_of_some hw, andThen_of_some hw]
  | none =>
    cases hf : (f ()).failure with
    | some e => simp [andThen, hw, hf]
    | none => simp [andThen, hw, hf]

theorem nil_andThen (next : Unit → Walk) : (⟨[], none⟩ : Walk).andThen next = next () := rfl

theorem andThen_nil (w : Walk) : (w.andThen fun _ => ⟨[], none⟩) = w := by
  obtain ⟨es, _ | e⟩ := w
  · rw [andThen_of_none rfl, List.append_nil]
  · rfl

/-- Entries in front of a walk. -/
theorem found_andThen (es es' : List Entry) (next : Unit → Walk) :
    (⟨es, none⟩ : Walk).andThen (fun _ => (⟨es', none⟩ : Walk).andThen next) =
      (⟨es ++ es', none⟩ : Walk).andThen next := by
  simp [andThen]

end Walk

namespace Pending

/-- The walk from an edge. -/
def walk (p : Pending) : Walk := Dictionary.walk p.edge p.key p.limit

/-- The walks from all edges on a stack, as far as there is no failure. -/
def walks : List Pending → Walk
  | [] => ⟨[], none⟩
  | p :: ps => p.walk.andThen fun _ => walks ps

/-- The number of edges that there can be below one with so many key bits left, itself included. -/
def weight (p : Pending) : Nat := 2 ^ (p.limit + 1) - 1

/-- The two edges of a fork weigh less than its own. -/
theorem weight_fork {limit length : Nat} (h : length < limit) :
    2 * (2 ^ (limit - length - 1 + 1) - 1) < 2 ^ (limit + 1) - 1 := by
  have hle : limit - length - 1 + 1 ≤ limit := by omega
  have hpow := Nat.pow_le_pow_right Nat.two_pos hle
  have hpos := Nat.two_pow_pos limit
  rw [Nat.pow_succ 2 limit]
  omega

end Pending

/-! ## One turn, and all of them -/

namespace Loop

variable {s : Loop}

/-- What the loop will have found at its end. -/
def outcome (s : Loop) : Walk := (⟨s.found, none⟩ : Walk).andThen fun _ => Pending.walks s.pending

/-- A bound on the turns that visit an edge. -/
def weight (s : Loop) : Nat := (s.pending.map Pending.weight).sum

/-- All edges on the stack are proper cells. -/
def Proper (s : Loop) : Prop := ∀ p ∈ s.pending, p.edge.WellFormed

/-- What a turn keeps: the outcome, which is the result if the loop is over, and otherwise the state is proper again and
weighs less. -/
inductive Kept (s : Loop) : Turn → Prop
  | done : Kept s (.done s.outcome)
  | next {t : Loop} (proper : t.Proper) (outcome : t.outcome = s.outcome) (weight : t.weight < s.weight) :
      Kept s (.next t)

/-- The edge in front is malformed. -/
theorem kept_refused {p : Pending} {rest : List Pending} {found : List Entry} {e : DictionaryError}
    (h : p.walk = ⟨[], some e⟩) : Kept ⟨p :: rest, found⟩ (.done ⟨found, some e⟩) := by
  have houtcome : outcome ⟨p :: rest, found⟩ = ⟨found, some e⟩ := by
    simp [outcome, Pending.walks, h, Walk.andThen]
  rw [← houtcome]
  exact .done

/-- The edge in front is a leaf. -/
theorem kept_leaf {p : Pending} {rest : List Pending} {found : List Entry} {e : Entry}
    (hs : Proper ⟨p :: rest, found⟩) (h : p.walk = ⟨[e], none⟩) :
    Kept ⟨p :: rest, found⟩ (.next ⟨rest, found ++ [e]⟩) := by
  refine .next (fun q hq => hs q (.tail _ hq)) ?_ ?_
  · rw [outcome, outcome, Pending.walks, h, Walk.found_andThen]
  · have hpos := Nat.two_pow_pos p.limit
    simp only [weight, List.map_cons, List.sum_cons, Pending.weight, Nat.pow_succ]
    omega

/-- The edge in front is a fork. -/
theorem kept_fork {p left right : Pending} {rest : List Pending} {found : List Entry} (hs : Proper ⟨p :: rest, found⟩)
    (hleft : left.edge ∈ p.edge.refs) (hright : right.edge ∈ p.edge.refs)
    (h : p.walk = left.walk.andThen fun _ => right.walk) (hweight : left.weight + right.weight < p.weight) :
    Kept ⟨p :: rest, found⟩ (.next ⟨left :: right :: rest, found⟩) := by
  have hp := hs p (.head _)
  refine .next ?_ ?_ ?_
  · rintro q (_ | ⟨_, _ | ⟨_, hq⟩⟩)
    · exact hp.of_mem_refs hleft
    · exact hp.of_mem_refs hright
    · exact hs q (.tail _ hq)
  · rw [outcome, outcome, Pending.walks, Pending.walks, Pending.walks, h, Walk.andThen_assoc]
  · simp only [weight, List.map_cons, List.sum_cons]
    omega

/-- **A turn changes nothing about the outcome and brings the end nearer.** -/
theorem turn_kept (hs : s.Proper) : s.Kept s.turn := by
  obtain ⟨pending, found⟩ := s
  rcases pending with _ | ⟨p, rest⟩
  · have houtcome : outcome ⟨[], found⟩ = ⟨found, none⟩ := by simp [outcome, Pending.walks, Walk.andThen]
    rw [turn, ← houtcome]
    exact .done
  have hp := hs p (.head _)
  cases hlabel : label p.limit (.ofCell p.edge) with
  | error e =>
    simp only [turn, hlabel]
    refine kept_refused ?_
    rw [Pending.walk, walk, hlabel]
  | ok r =>
    obtain ⟨⟨length, bits⟩, value⟩ := r
    obtain ⟨_, label, _, hstart, _, hpair, _⟩ := (label_eq_ok_iff hp).mp hlabel
    obtain rfl : length = label.length := congrArg Prod.fst hpair
    have hle := hstart.length_le
    by_cases hlimit : p.limit = label.length
    · simp only [turn, hlabel, if_pos hlimit]
      refine kept_leaf hs ?_
      rw [← hlimit] at hlabel ⊢
      exact walk_leaf hlabel
    · simp only [turn, hlabel, if_neg hlimit]
      split
      · rename_i left right others hrefs
        have hrest : label.length + 1 + (p.limit - label.length - 1) = p.limit := by omega
        refine kept_fork hs (by simp [hrefs]) (by simp [hrefs]) (walk_fork hlabel hrest hrefs) ?_
        simp only [Pending.weight]
        rw [← Nat.two_mul]
        exact Pending.weight_fork (by omega)
      · rename_i hfew
        refine kept_refused (walk_few_refs hlabel (by omega) ?_)
        rcases hrefs : p.edge.refs with _ | ⟨left, _ | ⟨right, others⟩⟩
        · simp
        · simp
        · exact absurd hrefs (hfew left right others)

/-- **The loop ends with its outcome**, after at most one turn more than its weight. -/
theorem ends_outcome (hs : s.Proper) : ∃ turns ≤ s.weight + 1, s.Ends turns s.outcome := by
  induction hn : s.weight using Nat.strong_induction_on generalizing s with
  | _ n ih =>
    have hkept := turn_kept hs
    cases hturn : s.turn with
    | done w =>
      rw [hturn] at hkept
      cases hkept
      exact ⟨1, by omega, .done hturn⟩
    | next t =>
      rw [hturn] at hkept
      obtain _ | ⟨hproper, houtcome, hweight⟩ := hkept
      obtain ⟨turns, hle, hends⟩ := ih t.weight (hn ▸ hweight) hproper rfl
      rw [houtcome] at hends
      exact ⟨turns + 1, by omega, .next hturn hends⟩

theorem outcome_start (root : Option Cell) (n : Nat) : (start root n).outcome = entries root n := by
  cases root with
  | none => rfl
  | some c =>
    change (⟨[], none⟩ : Walk).andThen (fun _ => (walk c 0 n).andThen fun _ => ⟨[], none⟩) = walk c 0 n
    rw [Walk.nil_andThen, Walk.andThen_nil]

theorem weight_start_lt (root : Option Cell) (n : Nat) : (start root n).weight < 2 ^ (n + 1) := by
  have hpos := Nat.two_pow_pos (n + 1)
  cases root with
  | none => exact hpos
  | some c =>
    simp only [start, weight, Option.toList_some, List.map_cons, List.map_nil, List.sum_singleton, Pending.weight]
    omega

end Loop

/-- **Entries come by increasing key, and come to an end.** Whatever tree of cells is taken for a dictionary with keys
of `n` bits, the loop over it ends after at most `2 ^ (n + 1)` turns with the entries of the dictionary, and their keys,
whether or not a malformed edge is met after them, increase and have at most `n` bits. -/
theorem entries_ascending {root : Option Cell} (hroot : ∀ c ∈ root, c.WellFormed) (n : Nat) :
    (∃ turns ≤ 2 ^ (n + 1), (Loop.start root n).Ends turns (entries root n)) ∧
      ((entries root n).entries.map Entry.key).Pairwise (· < ·) ∧
      ∀ key ∈ (entries root n).entries.map Entry.key, key < 2 ^ n := by
  have hproper : (Loop.start root n).Proper := by
    intro p hp
    obtain ⟨c, hc, rfl⟩ := List.mem_map.mp hp
    exact hroot c (Option.mem_toList.mp hc)
  have hordered : Ordered 0 (2 ^ n) (entries root n).entries := by
    cases root with
    | none => exact .nil _ _
    | some c => simpa [entries] using walk_ordered (hroot c rfl) 0 n
  refine ⟨?_, List.pairwise_map.mpr hordered.sorted, ?_⟩
  · obtain ⟨turns, hturns, hends⟩ := Loop.ends_outcome hproper
    rw [Loop.outcome_start] at hends
    exact ⟨turns, hturns.trans (Loop.weight_start_lt root n), hends⟩
  · intro key hkey
    obtain ⟨e, he, rfl⟩ := List.mem_map.mp hkey
    exact (hordered.within he).2

/-- A leaf that a fork has twice, before a fork that has it once. -/
theorem ascending_shared_leaf :
    let leaf : Cell := ⟨[0x5f], 8, [], false⟩
    let twice : Cell := ⟨[0x20], 3, [leaf, leaf], false⟩
    let once : Cell := ⟨[0x20], 3, [leaf], false⟩
    let root : Cell := ⟨[0x20], 3, [twice, once], false⟩
    let w : Walk := ⟨[⟨1, ⟨leaf, 4, 8, 0, 0⟩⟩, ⟨3, ⟨leaf, 4, 8, 0, 0⟩⟩], some (.brokenFork 1 1)⟩
    (∀ c ∈ some root, c.WellFormed) ∧ entries (some root) (3 : Nat) = w ∧
      (∃ turns ≤ 2 ^ (3 + 1), (Loop.start (some root) 3).Ends turns w) ∧
      (w.entries.map Entry.key).Pairwise (· < ·) ∧ ∀ key ∈ w.entries.map Entry.key, key < 2 ^ 3 := by
  intro leaf twice once root w
  have hleaf : leaf.WellFormed := .intro (by decide) (by decide) (by decide) (by simp [leaf])
  have htwice : twice.WellFormed := .intro (by decide) (by decide) (by decide) (by simpa [twice] using hleaf)
  have honce : once.WellFormed := .intro (by decide) (by decide) (by decide) (by simpa [once] using hleaf)
  have hroot : root.WellFormed :=
    .intro (by decide) (by decide) (by decide) (by simpa [root] using ⟨htwice, honce⟩)
  have hbare : ∀ {m : Nat} {c : Cell}, c.WellFormed → c.bits = [false, false, true] →
      label m (.ofCell c) = .ok ((0, 0), (Slice.ofCell c).dropBits 2) := fun hc hbits =>
    (label_eq_ok_iff hc).mpr ⟨[false, false], [], [true], @Label.short _ [] (Nat.zero_le _), hbits, rfl, rfl⟩
  have hbit : label (1 : Nat) (.ofCell leaf) = .ok ((1, 1), (Slice.ofCell leaf).dropBits 4) :=
    (label_eq_ok_iff hleaf).mpr ⟨[false, true, false, true], [true], [true, true, true, true],
      @Label.short 1 [true] (by decide), by decide, rfl, rfl⟩
  have hentries : entries (some root) (3 : Nat) = w := by
    rw [entries, walk_fork (hbare hroot (by decide)) (show 0 + 1 + 2 = 3 from rfl) rfl,
      walk_fork (hbare htwice (by decide)) (show 0 + 1 + 1 = 2 from rfl) rfl, walk_leaf hbit, walk_leaf hbit,
      walk_few_refs (hbare honce (by decide)) (by decide) (by decide)]
    rfl
  have hroot : ∀ c ∈ some root, c.WellFormed := by simpa using hroot
  have hgiven := entries_ascending hroot 3
  rw [hentries] at hgiven
  exact ⟨hroot, hentries, hgiven⟩

end TvmCode.Dictionary
