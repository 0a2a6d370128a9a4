import TvmCode.Proofs.BagOfCells.Soundness

/-!
# Bags of cells end by themselves

A bag says itself where it ends. The bytes that belong to it (`Bag.bytes`) are read in the same way whatever follows
them (`Bag.reads_readTable`), and bytes that are read so are never the front of others that are
(`Reader.Reads.eq_nil_of_append`). So an input that is accepted stays accepted, with the same roots, when what is left
over is changed, and is refused when it is cut anywhere before (`deserialize_delimits`).
-/

namespace TvmCode.BagOfCells

open Reader

/-! ## Readers -/

namespace Reader.Reads

variable {α : Type} {r : Reader α} {a b : α} {xs ys : List UInt8}

/-- A reader that counts the bytes it takes. -/
theorem measured (h : Reads r xs a) : Reads r.measured xs (a, xs.length) := by
  intro pos rest
  rw [Reader.measured, bind_position, h.run, bind_position, Nat.add_sub_cancel_left]
  rfl

/-- What a reader takes is never the front of something else that it takes. -/
theorem eq_nil_of_append (h : Reads r xs a) (h' : Reads r (xs ++ ys) b) : ys = [] := by
  have hshort := h 0 (ys ++ [])
  have hlong := h' 0 []
  rw [List.append_assoc, hshort] at hlong
  simp only [Except.ok.injEq, Prod.mk.injEq, Input.mk.injEq] at hlong
  simpa using hlong.2.2

end Reader.Reads

/-! ## The bytes of a bag -/

namespace Bag

variable (b : Bag)

/-- The bytes of a bag, without what follows them. -/
def bytes : List UInt8 :=
  b.headerBytes ++ (b.format.index.getD [] ++ (b.cellBytes ++ b.format.checksum.getD []))

theorem encode_eq : b.encode = b.bytes ++ b.trailing := by
  simp only [encode, bytes, List.append_assoc]

/-- The references of a bag lead to cells of the bag. -/
theorem refs_lt {target : Nat} (h : target ∈ (b.entries.map Entry.raw).flatMap (·.refs)) :
    target < b.entries.length := by
  obtain ⟨raw, hraw, ht⟩ := List.mem_flatMap.1 h
  obtain ⟨e, he, rfl⟩ := List.mem_map.1 hraw
  obtain ⟨k, hk⟩ := List.mem_iff_getElem?.1 he
  exact (b.forward k e hk target ht).2

/-- **The table of a bag is read back from its bytes**, whatever follows them. -/
theorem reads_readTable : readTable.Reads b.bytes (b.header, b.entries.map Entry.raw) := by
  have hrefs : ∀ target ∈ (b.entries.map Entry.raw).flatMap (·.refs), decide (b.header.cellCount ≤ target) = false :=
    fun target ht => decide_eq_false (Nat.not_le.2 (b.refs_lt ht))
  have hsize : ¬b.cellBytes.length ≠ b.header.cellBytes := fun h => h rfl
  refine Reads.bind b.reads_readHeader ?_
  refine Reads.bind (Reads.skipIf _ Iff.rfl b.index_length) ?_
  refine Reads.bind b.reads_table.measured ?_
  refine Reads.before (Reads.refuseIf _ hsize) (Reads.before (Reads.refuseAny _ hrefs) ?_)
  exact Reads.map (Reads.skipIf _ Iff.rfl b.checksum_length) fun _ => (b.header, b.entries.map Entry.raw)

end Bag

/-- A table that is read has been taken from the bytes of a bag at the front of the input. -/
theorem exists_reads_of_readTable {bytes : List UInt8} {p : Header × List RawCell} {i : Input}
    (h : readTable ⟨0, bytes⟩ = .ok (p, i)) : ∃ front rest, bytes = front ++ rest ∧ readTable.Reads front p := by
  obtain ⟨taken, hbag, htakes⟩ := only_readTable _ _ _ h
  obtain ⟨b, hencode, hheader, htable⟩ := hbag i.rest
  refine ⟨b.bytes, b.trailing, ?_, ?_⟩
  · rw [← b.encode_eq, hencode]
    exact htakes.rest
  · obtain ⟨header, table⟩ := p
    obtain rfl : header = b.header := hheader
    obtain rfl : table = b.entries.map Entry.raw := htable
    exact b.reads_readTable

/-! ## Inputs -/

theorem exists_readTable_of_deserialize {bytes : List UInt8} {cells : List Cell} (h : deserialize bytes = .ok cells) :
    ∃ p i, readTable ⟨0, bytes⟩ = .ok (p, i) := by
  cases hread : readTable ⟨0, bytes⟩ with
  | error e =>
    rw [deserialize_eq, hread] at h
    cases h
  | ok r => exact ⟨r.1, r.2, rfl⟩

/-- The bytes of a table give the same roots whatever follows them. -/
theorem deserialize_of_reads {front : List UInt8} {p : Header × List RawCell} (h : readTable.Reads front p)
    (rest : List UInt8) : deserialize (front ++ rest) = .ok (p.1.roots.map ((unfold 0 p.2).getD · default)) := by
  rw [deserialize_eq, h 0 rest]
  rfl

/-- The bytes of a table are refused when some are missing at their end. -/
theorem deserialize_of_missing {front missing : List UInt8} {p : Header × List RawCell}
    (h : readTable.Reads (front ++ missing) p) (hne : missing ≠ []) : ∃ e, deserialize front = .error e := by
  cases hread : deserialize front with
  | error e => exact ⟨e, rfl⟩
  | ok cells =>
    obtain ⟨p', i, htable⟩ := exists_readTable_of_deserialize hread
    obtain ⟨front', rest, rfl, hreads⟩ := exists_reads_of_readTable htable
    rw [List.append_assoc] at h
    have hnil := hreads.eq_nil_of_append h
    exact absurd (List.append_eq_nil_iff.mp hnil).2 hne

/-- **A bag ends by itself.** An input that is accepted starts with some number of bytes that decide on its roots: with
anything else behind them they give the same roots, and when any of them is missing at the end they are refused. -/
theorem deserialize_delimits {bytes : List UInt8} {cells : List Cell} (h : deserialize bytes = .ok cells) :
    ∃ n ≤ bytes.length, (∀ other : List UInt8, other.take n = bytes.take n → deserialize other = .ok cells) ∧
      ∀ k < n, ∃ e, deserialize (bytes.take k) = .error e := by
  obtain ⟨p, i, htable⟩ := exists_readTable_of_deserialize h
  obtain ⟨front, rest, rfl, hreads⟩ := exists_reads_of_readTable htable
  refine ⟨front.length, by simp, ?_, ?_⟩
  · intro other hother
    rw [List.take_left] at hother
    rw [← List.take_append_drop front.length other, hother, ← h, deserialize_of_reads hreads,
      deserialize_of_reads hreads]
  · intro k hk
    rw [List.take_append_of_le_length hk.le]
    rw [← List.take_append_drop k front] at hreads
    refine deserialize_of_missing hreads ?_
    rw [Ne, List.drop_eq_nil_iff]
    omega

/-- Two cells with an index and a checksum, and one more byte. -/
def twoCells : List UInt8 :=
  [0xb5, 0xee, 0x9c, 0x72, 0xc1, 1, 2, 1, 0, 6, 0, 4, 6, 1, 2, 0xab, 1, 0, 0, 9, 9, 9, 9, 7]

theorem delimits_twoCells :
    ∃ cells, deserialize twoCells = .ok cells ∧
      ∃ n ≤ twoCells.length, (∀ other : List UInt8, other.take n = twoCells.take n → deserialize other = .ok cells) ∧
        ∀ k < n, ∃ e, deserialize (twoCells.take k) = .error e := by
  have haccepted : (deserialize twoCells).isOk = true := by decide +kernel
  cases hread : deserialize twoCells with
  | error e =>
    rw [hread] at haccepted
    cases haccepted
  | ok cells => exact ⟨cells, rfl, deserialize_delimits hread⟩

end TvmCode.BagOfCells
