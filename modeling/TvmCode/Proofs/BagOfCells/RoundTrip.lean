import TvmCode.Proofs.BagOfCells.Encoding

/-!
# Reading bags of cells back

Each part of a written bag is read back by the reader of that part: the cells (`Entry.reads_readCell`), the header
(`Bag.reads_readHeader`) and the table (`Bag.reads_table`). The table is unfolded from its end (`unfolds_unfold`). So
reading undoes writing (`deserialize_encode`), in each of the three layouts and whatever is said in the parts that are
passed over.
-/

namespace TvmCode.BagOfCells

open Reader

/-! ## Cells -/

/-- Numbers of one size are read back. -/
theorem reads_numbers {w : Nat} {ns : List Nat} (what : String) (h : ∀ n ∈ ns, n < 2 ^ (8 * w)) :
    (forEach (fun _ => number w what) 0 ns.length).Reads (ns.flatMap (bytesOfNat w)) ns := by
  conv => rhs; rw [← List.map_id ns]
  exact Reads.forEach fun _ n hn => Reads.number what (h n (List.mem_of_getElem? hn))

namespace Entry

variable (e : Entry)

theorem whole_of_untagged (h : e.tagged = false) : e.bits.length % 8 = 0 := by
  by_contra hne
  cases h.symm.trans (e.tagged_of_partial hne)

theorem length_data : e.data.length = (e.bits.length + e.tagged.toNat + 7) / 8 := by
  rw [data, length_bytesOfBits]
  cases e.tagged <;> simp

theorem first_lt : e.first < 2 ^ (8 * 1) := by
  have hrefs : e.refs.length ≤ 4 := e.refs_le
  have hlevel := e.level_lt
  have hexotic := e.exotic.toNat_lt
  have hhashes := e.hashes.isSome.toNat_lt
  unfold first
  omega

theorem second_lt : e.second < 2 ^ (8 * 1) := by
  have hbits : e.bits.length ≤ 1023 := e.bits_le
  have hlength := e.length_data
  unfold second
  cases htagged : e.tagged with
  | true =>
    rw [htagged, Bool.toNat_true] at hlength
    rw [Bool.toNat_true]
    omega
  | false =>
    have hwhole := e.whole_of_untagged htagged
    rw [htagged, Bool.toNat_false] at hlength
    omega

/-- What the first byte says about a cell. -/
theorem first_parts : e.first % 8 = e.refs.length ∧ (e.first / 8 % 2 = 1 ↔ e.exotic = true) ∧
    (e.first / 16 % 2 = 1 ↔ e.hashes.isSome = true) ∧ e.first / 32 = e.level := by
  have hrefs : e.refs.length ≤ 4 := e.refs_le
  have hexotic := e.exotic.toNat_lt
  have hhashes := e.hashes.isSome.toNat_lt
  unfold first
  refine ⟨by omega, ?_, ?_, by omega⟩
  · rw [← Bool.toNat_eq_one]
    omega
  · rw [← Bool.toNat_eq_one]
    omega

/-- What the second byte says about a cell. -/
theorem second_parts : (e.second + 1) / 2 = e.data.length ∧ (e.second % 2 = 1 ↔ e.tagged = true) := by
  have hlength := e.length_data
  unfold second
  cases htagged : e.tagged with
  | true =>
    rw [htagged, Bool.toNat_true] at hlength
    rw [Bool.toNat_true, iff_true_right rfl]
    omega
  | false =>
    rw [Bool.toNat_false, iff_false_right Bool.false_ne_true]
    omega

/-- The data of a cell is told by its second byte. -/
theorem reads_untag : (untag e.second e.data).Reads [] (bytesOfBits e.bits, e.bits.length) := by
  obtain ⟨-, hodd⟩ := e.second_parts
  cases htagged : e.tagged with
  | true =>
    rw [untag, if_pos (hodd.2 htagged), data, if_pos htagged]
    exact Reads.lift (stripTag_tagged e.bits)
  | false =>
    have hwhole := e.whole_of_untagged htagged
    have hlength : (e.bits.length + 7) / 8 * 8 = e.bits.length := by omega
    have hdata : e.data = bytesOfBits e.bits := by
      rw [data, htagged]
      rfl
    rw [untag, if_neg (by simp [hodd, htagged]), hdata, length_bytesOfBits, hlength]
    exact Reads.pure _

/-- **A cell is read back**, if its references lead to later cells. -/
theorem reads_readCell {refSize index : Nat}
    (hrefs : ∀ target ∈ e.refs, index < target ∧ target < 2 ^ (8 * refSize)) :
    (readCell refSize index).Reads (e.encode refSize) e.raw := by
  obtain ⟨hcount, hexotic, hhashes, hlevel⟩ := e.first_parts
  obtain ⟨hsize, -⟩ := e.second_parts
  have hcount_le : e.refs.length ≤ 4 := e.refs_le
  have hbits : ¬maxBits < e.bits.length := Nat.not_lt.2 e.bits_le
  have hread := reads_numbers "cell reference" fun target ht => (hrefs target ht).2
  have hforward : ∀ target ∈ e.refs, decide (target ≤ index) = false := by
    intro target ht
    exact decide_eq_false (Nat.not_le.2 (hrefs target ht).1)
  have hraw : e.raw = ⟨bytesOfBits e.bits, e.bits.length, e.refs, e.first / 8 % 2 = 1⟩ := by simp [raw, hexotic]
  refine Reads.bind (Reads.number _ e.first_lt) (Reads.bind (Reads.number _ e.second_lt) ?_)
  refine Reads.before (Reads.refuseIf _ (by omega)) (Reads.before (Reads.refuseIf _ (by unfold maxRefs; omega)) ?_)
  refine Reads.bind (Reads.skipIf _ hhashes (by rw [hlevel]; exact e.hashes_length)) ?_
  refine Reads.bind (Reads.take _ hsize.symm) (Reads.before e.reads_untag ?_)
  rw [hraw, hcount, ← List.append_nil (e.refs.flatMap _)]
  refine Reads.before (Reads.refuseIf _ hbits) (Reads.bind hread ?_)
  exact Reads.before (Reads.refuseAny _ hforward) (Reads.pure _)

end Entry

/-! ## Headers -/

theorem Layout.ofMagic?_magic (l : Layout) : Layout.ofMagic? l.magic = some l := by
  cases l <;> rfl

theorem Layout.magic_lt (l : Layout) : l.magic < 2 ^ (8 * 4) := by
  cases l <;> decide

/-- The flags of a layout are read back. -/
theorem Format.reads_flags (f : Format) {refSize : Nat} (h : refSize ≤ 4) :
    (readLayoutFlags f.layout).Reads (bytesOfNat 1 (f.flags refSize)) (f.index.isSome, f.checksum.isSome, refSize) := by
  cases f with
  | generic index checksum cached roots =>
    let n := 128 * index.isSome.toNat + 64 * checksum.isSome.toNat + 32 * cached.toNat + refSize
    have hindex := index.isSome.toNat_lt
    have hchecksum := checksum.isSome.toNat_lt
    have hcached := cached.toNat_lt
    have hvalue : (index.isSome, checksum.isSome, refSize) =
        (decide (n / 128 % 2 = 1), decide (n / 64 % 2 = 1), n % 8) := by
      rw [show n / 128 % 2 = index.isSome.toNat by omega, show n / 64 % 2 = checksum.isSome.toNat by omega,
        show n % 8 = refSize by omega]
      simp
    show Reads _ (bytesOfNat 1 n) (index.isSome, checksum.isSome, refSize)
    rw [hvalue, ← List.append_nil (bytesOfNat 1 n)]
    refine Reads.bind (Reads.number _ (by omega)) ?_
    exact Reads.before (Reads.refuseIf _ (by omega)) (Reads.pure _)
  | indexed index =>
    have hlt : refSize < 2 ^ (8 * 1) := by omega
    exact Reads.map (Reads.number _ hlt) fun n => (true, false, n)
  | indexedChecked index checksum =>
    have hlt : refSize < 2 ^ (8 * 1) := by omega
    exact Reads.map (Reads.number _ hlt) fun n => (true, true, n)

/-- The root numbers are read back. -/
theorem Format.reads_roots (f : Format) {refSize : Nat} (h : ∀ root ∈ f.roots, root < 2 ^ (8 * refSize)) :
    (readRoots f.layout refSize f.roots.length).Reads (f.rootBytes refSize) f.roots := by
  cases f with
  | generic index checksum cached roots => exact reads_numbers _ h
  | indexed index => exact Reads.before (Reads.refuseIf _ (by simp [roots])) (Reads.pure _)
  | indexedChecked index checksum => exact Reads.before (Reads.refuseIf _ (by simp [roots])) (Reads.pure _)

namespace Bag

variable (b : Bag)

/-- The header as a reader sees it. -/
def header : Header :=
  ⟨b.format.index.isSome, b.format.checksum.isSome, b.refSize, b.offsetSize, b.entries.length, b.cellBytes.length,
    b.format.roots⟩

/-- **The header of a bag is read back.** -/
theorem reads_readHeader : readHeader.Reads b.headerBytes b.header := by
  have hrefSize : 1 ≤ b.refSize ∧ b.refSize ≤ 4 := ⟨b.refSize_pos, b.refSize_le⟩
  have hoffsetSize : 1 ≤ b.offsetSize ∧ b.offsetSize ≤ 8 := ⟨b.offsetSize_pos, b.offsetSize_le⟩
  have hroots : 1 ≤ b.format.roots.length ∧ b.format.roots.length ≤ b.entries.length := ⟨b.roots_pos, b.roots_le⟩
  have hcount := b.count_lt
  have habsent := b.absent_le
  have hrange : ∀ root ∈ b.format.roots, decide (b.entries.length ≤ root) = false := by
    intro root hr
    exact decide_eq_false (Nat.not_le.2 (b.roots_lt root hr))
  refine Reads.bind (Reads.number _ (Layout.magic_lt _)) ?_
  rw [Layout.ofMagic?_magic]
  refine Reads.bind (b.format.reads_flags hrefSize.2) (Reads.before (Reads.refuseIf _ (by omega)) ?_)
  refine Reads.bind (Reads.number _ (by omega)) (Reads.before (Reads.refuseIf _ (by omega)) ?_)
  refine Reads.bind (Reads.number _ hcount) ?_
  refine Reads.bind (Reads.number _ (by omega)) (Reads.bind (Reads.number _ (by omega)) ?_)
  refine Reads.bind (Reads.number _ b.bytes_lt) ?_
  refine Reads.before (Reads.refuseIf _ (by omega)) (Reads.before (Reads.refuseIf _ (by omega)) ?_)
  rw [← List.append_nil (Format.rootBytes _ _)]
  refine Reads.bind (b.format.reads_roots fun root hr => (b.roots_lt root hr).trans hcount) ?_
  exact Reads.before (Reads.refuseAny _ hrange) (Reads.pure _)

end Bag

/-! ## Trees -/

/-- The cells of the end of a table are unfolded into their trees. -/
theorem unfolds_unfold {table : List Entry} (hforward : ∀ i e, table[i]? = some e → ∀ target ∈ e.refs,
      i < target ∧ target < table.length) {pre entries : List Entry} (htable : table = pre ++ entries) {i : Nat}
    (hlow : pre.length ≤ i) (hhigh : i < table.length) :
    Unfolds table i ((unfold pre.length (entries.map Entry.raw)).getD (i - pre.length) default) := by
  -- the induction is on the end of the table; the references of its first cell lead behind that cell
  induction entries generalizing pre i with
  | nil =>
    subst htable
    simp at hhigh
    omega
  | cons e entries ih =>
    have hrest : ∀ j, pre.length < j → j < table.length →
        Unfolds table j ((unfold (pre.length + 1) (entries.map Entry.raw)).getD (j - (pre.length + 1)) default) := by
      intro j hlow hhigh
      have htable' : table = (pre ++ [e]) ++ entries := by simp [htable]
      have hj := ih htable' (by simp; omega) hhigh
      simpa using hj
    rcases Nat.eq_or_lt_of_le hlow with rfl | hlt
    · have hentry : table[pre.length]? = some e := by simp [htable]
      rw [Nat.sub_self]
      apply Unfolds.intro hentry rfl rfl rfl (List.length_map _)
      intro p hp
      obtain ⟨k, hk, rfl⟩ := List.mem_iff_getElem.1 hp
      have hk' : k < e.refs.length := by
        rw [List.length_zip] at hk
        omega
      obtain ⟨hlt, hlt'⟩ := hforward _ e hentry e.refs[k] (List.getElem_mem hk')
      have hchild := hrest e.refs[k] hlt hlt'
      simpa [Entry.raw, unfold] using hchild
    · have hindex : i - pre.length = i - (pre.length + 1) + 1 := by omega
      rw [hindex]
      exact hrest i hlt hhigh

/-! ## Bags -/

namespace Bag

variable (b : Bag)

/-- The cells of a bag are read back one after the other. -/
theorem reads_table :
    (forEach (readCell b.refSize) 0 b.entries.length).Reads b.cellBytes (b.entries.map Entry.raw) := by
  apply Reads.forEach
  intro k e he
  rw [Nat.zero_add]
  apply e.reads_readCell
  intro target ht
  obtain ⟨hlow, hhigh⟩ := b.forward k e he target ht
  have hcount := b.count_lt
  omega

/-- **A bag is read back**: its trees, how many cells it has, and how many bytes follow. -/
theorem contents_encode : contents b.encode =
    .ok ⟨b.format.roots.map ((unfold 0 (b.entries.map Entry.raw)).getD · default), b.entries.length,
      b.trailing.length⟩ := by
  have hindex : (skipIf b.header.hasIndex (b.header.cellCount * b.header.offsetSize) "cell index").Reads
      (b.format.index.getD []) () := Reads.skipIf _ Iff.rfl b.index_length
  have hchecksum : (skipIf b.header.hasChecksum 4 "crc32c").Reads (b.format.checksum.getD []) () :=
    Reads.skipIf _ Iff.rfl b.checksum_length
  have htable : (forEach (readCell b.header.refSize) 0 b.header.cellCount).Reads b.cellBytes
      (b.entries.map Entry.raw) := b.reads_table
  have hrefs : ∀ target ∈ (b.entries.map Entry.raw).flatMap (·.refs), decide (b.header.cellCount ≤ target) = false := by
    intro target ht
    obtain ⟨raw, hraw, ht⟩ := List.mem_flatMap.1 ht
    obtain ⟨e, he, rfl⟩ := List.mem_map.1 hraw
    obtain ⟨k, hk⟩ := List.mem_iff_getElem?.1 he
    have hlt := (b.forward k e hk target ht).2
    exact decide_eq_false (Nat.not_le.2 hlt)
  -- the places before and behind the cells are looked up, so the readers are run one by one
  unfold contents encode readBag
  rw [b.reads_readHeader.run, hindex.run, bind_position, htable.run, bind_position]
  have hsize : ¬0 + b.headerBytes.length + (b.format.index.getD []).length + b.cellBytes.length -
      (0 + b.headerBytes.length + (b.format.index.getD []).length) ≠ b.header.cellBytes := by
    rw [Nat.add_sub_cancel_left]
    exact fun h => h rfl
  rw [(Reads.refuseIf _ hsize).run_nil, (Reads.refuseAny _ hrefs).run_nil, hchecksum.run]
  rfl

end Bag

/-- **Reading undoes writing.** However a table of cells is written, what is read are the trees of its roots, in the
order of the roots. -/
theorem deserialize_encode (b : Bag) :
    ∃ cells, deserialize b.encode = .ok cells ∧ List.Forall₂ (Unfolds b.entries) b.format.roots cells := by
  refine ⟨_, by rw [deserialize, b.contents_encode]; rfl, ?_⟩
  rw [List.forall₂_map_right_iff, List.forall₂_same]
  intro root hr
  exact unfolds_unfold b.forward (List.nil_append _).symm (Nat.zero_le _) (b.roots_lt root hr)

end TvmCode.BagOfCells
