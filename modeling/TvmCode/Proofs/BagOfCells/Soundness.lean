import TvmCode.Proofs.BagOfCells.Accepting

/-!
# Every bag that is read was written

Reading a bag has two parts: the table is read, with all its checks (`readTable`), and its cells are put together. The
checks of the first part are all that the second needs. What is read is the table of some bag
(`exists_bag_of_readTable`), so putting its cells together never fails, even if each look-up may find nothing and each
cell is checked (`checkedRoots`, `assemble_eq_ok`), and gives the trees of its roots (`deserialize_accepts`).
-/

namespace TvmCode

/-! ## The cells of a tree -/

/-- The first cell is the second or hangs somewhere below it. -/
inductive Cell.Within (c : Cell) : Cell → Prop
  | self : Within c c
  | child {d e : Cell} (hd : d ∈ e.refs) (h : Within c d) : Within c e

/-- The cell keeps the bounds on bits and references, has as many bytes as its bits need, and zeros after its bits. -/
structure Cell.Packed (c : Cell) : Prop where
  bitLen_le : c.bitLen ≤ maxBits
  refs_le : c.refs.length ≤ maxRefs
  length_data : c.data.length = (c.bitLen + 7) / 8
  zeros : ∀ b ∈ (bitsOfBytes c.data).drop c.bitLen, b = false

namespace BagOfCells

open Reader

namespace Unfolds

variable {entries : List Entry} {i : Nat} {c d : Cell}

/-- Every cell of a tree is the tree of some cell of the table. -/
theorem of_within (h : Unfolds entries i c) (hd : d.Within c) : ∃ j, Unfolds entries j d := by
  induction hd generalizing i with
  | self => exact ⟨i, h⟩
  | @child _ c hmem _ ih =>
    cases h with
    | @intro _ e _ entry data bitLen exotic count children =>
      obtain ⟨k, hk, rfl⟩ := List.mem_iff_getElem.mp hmem
      have hzip : (e.refs[k], c.refs[k]) ∈ e.refs.zip c.refs :=
        List.mem_iff_getElem.mpr ⟨k, by rw [List.length_zip]; omega, List.getElem_zip⟩
      exact ih (children _ hzip)

theorem packed (h : Unfolds entries i c) : c.Packed := by
  cases h with
  | @intro _ e _ entry data bitLen exotic count children =>
    refine ⟨bitLen ▸ e.bits_le, count ▸ e.refs_le, ?_, ?_⟩
    · rw [data, bitLen, length_bytesOfBits]
    · rw [data, bitLen, bitsOfBytes_bytesOfBits, List.drop_left]
      intro b hb
      exact List.eq_of_mem_replicate hb

end Unfolds

/-! ## Reading the table -/

/-- The value of a reader and how many bytes it takes. -/
def Reader.measured {α : Type} (r : Reader α) : Reader (α × Nat) := do
  let start ← position
  let a ← r
  return (a, (← position) - start)

theorem Reader.Only.measured {α : Type} {r : Reader α} {P : List UInt8 → α → Prop} (h : Only r P) :
    Only r.measured fun bytes p => P bytes p.1 ∧ p.2 = bytes.length := by
  intro i p j hr
  rw [Reader.measured, bind_position] at hr
  obtain ⟨a, k, hr, hlast⟩ := exists_of_bind hr
  obtain ⟨bytes, hbytes, htakes⟩ := h i a k hr
  cases hlast
  refine ⟨bytes, ⟨hbytes, ?_⟩, htakes⟩
  rw [htakes.pos, Nat.add_sub_cancel_left]

/-- The header and the table of a bag at the front of the input. -/
def readTable : Reader (Header × List RawCell) := do
  let header ← readHeader
  skipIf header.hasIndex (header.cellCount * header.offsetSize) "cell index"
  let (table, parsed) ← (forEach (readCell header.refSize) 0 header.cellCount).measured
  refuseIf (parsed ≠ header.cellBytes) (.sizeMismatch header.cellBytes parsed)
  refuseAny (table.flatMap (·.refs)) (header.cellCount ≤ ·) .refIndex
  skipIf header.hasChecksum 4 "crc32c"
  return (header, table)

/-- A bag is read by reading its table. -/
theorem readBag_eq : readBag = do
    let (header, table) ← readTable
    let leftOver := (← get).rest.length
    return ⟨header.roots.map ((unfold 0 table).getD · default), header.cellCount, leftOver⟩ := by
  simp [readBag, readTable, measured]

/-- A header and what goes with it make a bag. -/
theorem Header.Written.exists_bag {header : Header} {headerBytes : List UInt8} (h : header.Written headerBytes)
    {entries : List Entry} (hcount : entries.length = header.cellCount)
    (hsize : (entries.flatMap (Entry.encode header.refSize)).length = header.cellBytes)
    (hforward : ∀ i e, entries[i]? = some e → ∀ target ∈ e.refs, i < target ∧ target < entries.length)
    {index checksum : Option (List UInt8)} (hindex : index.isSome = header.hasIndex)
    (hindexLength : ∀ bytes ∈ index, bytes.length = header.cellCount * header.offsetSize)
    (hchecksum : checksum.isSome = header.hasChecksum) (hchecksumLength : ∀ bytes ∈ checksum, bytes.length = 4)
    (trailing : List UInt8) :
    ∃ b : Bag, b.entries = entries ∧ b.header = header ∧ b.encode = headerBytes ++ (index.getD [] ++
      (entries.flatMap (Entry.encode header.refSize) ++ (checksum.getD [] ++ trailing))) := by
  obtain ⟨f, absent, habsent, rfl, rfl, hroots, rfl⟩ := h.format index checksum hindex hchecksum
  let b : Bag :=
    { entries, format := f, refSize := header.refSize, offsetSize := header.offsetSize, absent, trailing
      refSize_pos := h.refSize.1
      refSize_le := h.refSize.2
      offsetSize_pos := h.offsetSize.1
      offsetSize_le := h.offsetSize.2
      forward := hforward
      count_lt := hcount ▸ h.count_lt
      bytes_lt := hsize ▸ h.size_lt
      roots_pos := hroots ▸ h.roots_count.1
      roots_le := by rw [hroots, hcount]; exact h.roots_count.2
      roots_lt := by rw [hroots, hcount]; exact h.roots_lt
      absent_le := hcount ▸ habsent
      index_length := hcount ▸ hindexLength
      checksum_length := hchecksumLength }
  have hbytes : b.cellBytes.length = header.cellBytes := hsize
  have hheader : b.header = header := by
    rw [Bag.header, hbytes]
    simp only [b, hindex, hchecksum, hcount, hroots]
  have hheaderBytes : b.headerBytes =
      f.headerBytes header.refSize header.offsetSize header.cellCount absent header.cellBytes := by
    rw [Bag.headerBytes, hbytes, Format.headerBytes]
    simp only [b, hcount]
  refine ⟨b, rfl, hheader, ?_⟩
  rw [Bag.encode, hheaderBytes]
  rfl

/-- **What is taken for a table is that of a bag that was written**, whatever follows it. -/
theorem only_readTable : readTable.Only fun bytes p => ∀ trailing, ∃ b : Bag,
    b.encode = bytes ++ trailing ∧ p.1 = b.header ∧ p.2 = b.entries.map Entry.raw := by
  refine Only.bind only_readHeader ?_
  intro headerBytes header hwritten
  refine Only.bind (Only.skipIf _ _) ?_
  rintro _ - ⟨index, rfl, hindex, hindexLength⟩
  refine Only.bind (Only.forEach (only_readCell header.refSize) 0 header.cellCount).measured ?_
  rintro _ ⟨_, parsed⟩ ⟨⟨entries, rfl, rfl, hcount, hentries⟩, hparsed⟩
  refine Only.bind (Only.refuseIf _ _) ?_
  rintro _ - ⟨rfl, hsize⟩
  refine Only.bind (Only.refuseAny _ _ _) ?_
  rintro _ - ⟨rfl, hrange⟩
  refine Only.bind (Only.skipIf _ _) ?_
  rintro _ - ⟨checksum, rfl, hchecksum, hchecksumLength⟩
  have hforward : ∀ i e, entries[i]? = some e → ∀ target ∈ e.refs, i < target ∧ target < entries.length := by
    intro i e he target ht
    have hlow := (hentries i e he target ht).1
    have hmem : e.raw ∈ entries.map Entry.raw := List.mem_map_of_mem (List.mem_of_getElem? he)
    have hhigh := hrange target (List.mem_flatMap.mpr ⟨e.raw, hmem, ht⟩)
    rw [decide_eq_true_iff] at hhigh
    omega
  refine Only.pure ?_
  intro trailing
  obtain ⟨b, rfl, rfl, hencode⟩ := hwritten.exists_bag hcount (hparsed.symm.trans (not_not.mp hsize)) hforward
    (Bool.eq_iff_iff.mpr hindex.symm) hindexLength (Bool.eq_iff_iff.mpr hchecksum.symm) hchecksumLength trailing
  exact ⟨b, by simp [hencode], rfl, rfl⟩

/-! ## Putting the cells together -/

/-- What could go wrong with a bag if its table were not to be relied on. -/
inductive Mishap where
  /-- The table cannot be read. -/
  | refused (e : BagError)
  /-- There is no cell with this number. -/
  | noCell (number : Nat)
  /-- The parts of a cell make none. -/
  | badCell (e : CellError)

/-- The cell with the given number among those from `start` on. -/
def cellAt (start : Nat) (cells : List Cell) (number : Nat) : Except Mishap Cell :=
  if number < start then .error (.noCell number)
  else match cells[number - start]? with
    | some c => .ok c
    | none => .error (.noCell number)

/-- The cells of the end of a table, where each reference has to lead to a later cell and each cell is checked. -/
def assemble (start : Nat) : List RawCell → Except Mishap (List Cell)
  | [] => return []
  | raw :: later => do
    let cells ← assemble (start + 1) later
    let refs ← raw.refs.mapM (cellAt (start + 1) cells)
    let c ← (Cell.ofParts raw.data raw.bitLen refs raw.exotic).mapError .badCell
    return c :: cells

/-- The roots of a serialized bag of cells, where nothing is taken for granted once its table is read. -/
def checkedRoots (bytes : List UInt8) : Except Mishap (List Cell) := do
  let ((header, table), _) ← (readTable ⟨0, bytes⟩).mapError .refused
  let cells ← assemble 0 table
  header.roots.mapM (cellAt 0 cells)

theorem length_unfold (start : Nat) (table : List RawCell) : (unfold start table).length = table.length := by
  induction table generalizing start with
  | nil => rfl
  | cons raw table ih => rw [unfold, List.length_cons, List.length_cons, ih]

theorem cellAt_eq_ok {start number : Nat} {cells : List Cell} (hlow : start ≤ number)
    (hhigh : number < start + cells.length) :
    cellAt start cells number = .ok (cells.getD (number - start) default) := by
  have hlt : number - start < cells.length := by omega
  rw [cellAt, if_neg (Nat.not_lt.mpr hlow), List.getD_eq_getElem?_getD, List.getElem?_eq_getElem hlt]
  rfl

theorem mapM_eq_ok {α β ε : Type} {f : α → Except ε β} {g : α → β} {as : List α} (h : ∀ a ∈ as, f a = .ok (g a)) :
    as.mapM f = .ok (as.map g) := by
  induction as with
  | nil => rfl
  | cons a as ih =>
    rw [List.mapM_cons, h a List.mem_cons_self, ih fun b hb => h b (List.mem_cons_of_mem a hb)]
    rfl

/-- **The cells of a table whose references lead forward are put together without a mishap.** -/
theorem assemble_eq_ok {entries : List Entry} {start : Nat} (hforward : ∀ i e, entries[i]? = some e →
      ∀ target ∈ e.refs, start + i < target ∧ target < start + entries.length) :
    assemble start (entries.map Entry.raw) = .ok (unfold start (entries.map Entry.raw)) := by
  -- the later cells are final when a cell is made, and its references lead to them
  induction entries generalizing start with
  | nil => rfl
  | cons e entries ih =>
    let cells := unfold (start + 1) (entries.map Entry.raw)
    have hlater : assemble (start + 1) (entries.map Entry.raw) = .ok cells := by
      apply ih
      intro i e' he' target ht
      have hbounds := hforward (i + 1) e' he' target ht
      rw [List.length_cons] at hbounds
      omega
    have hrefs : e.refs.mapM (cellAt (start + 1) cells) =
        .ok (e.refs.map fun target => cells.getD (target - (start + 1)) default) := by
      apply mapM_eq_ok
      intro target ht
      have hbounds := hforward 0 e rfl target ht
      rw [List.length_cons] at hbounds
      apply cellAt_eq_ok
      · omega
      · rw [length_unfold, List.length_map]
        omega
    have hcount : (e.refs.map fun target => cells.getD (target - (start + 1)) default).length ≤ maxRefs := by
      rw [List.length_map]
      exact e.refs_le
    have hcell := Cell.ofParts_eq_ok e.exotic e.bits_le hcount (length_bytesOfBits e.bits)
    simp only [List.map_cons, assemble, Entry.raw, hlater, bind, Except.bind, hrefs, hcell]
    rfl

/-! ## Bags -/

theorem deserialize_eq (bytes : List UInt8) : deserialize bytes =
    (readTable ⟨0, bytes⟩).map fun r => r.1.1.roots.map ((unfold 0 r.1.2).getD · default) := by
  rw [deserialize, contents, readBag_eq]
  change ((readTable ⟨0, bytes⟩ >>= _).map _).map _ = _
  cases readTable ⟨0, bytes⟩ with
  | error e => rfl
  | ok r => rfl

namespace Bag

variable (b : Bag)

/-- The trees of the roots. -/
def rootCells : List Cell := b.format.roots.map ((unfold 0 (b.entries.map Entry.raw)).getD · default)

theorem unfolds_root {root : Nat} (h : root ∈ b.format.roots) :
    Unfolds b.entries root ((unfold 0 (b.entries.map Entry.raw)).getD root default) :=
  unfolds_unfold b.forward (List.nil_append _).symm (Nat.zero_le _) (b.roots_lt root h)

theorem unfolds_rootCells : List.Forall₂ (Unfolds b.entries) b.format.roots b.rootCells := by
  rw [rootCells, List.forall₂_map_right_iff, List.forall₂_same]
  exact fun root hr => b.unfolds_root hr

theorem rootCells_ne_nil : b.rootCells ≠ [] := by
  rw [rootCells, Ne, List.map_eq_nil_iff]
  exact List.ne_nil_of_length_pos b.roots_pos

theorem packed_of_within {root c : Cell} (hroot : root ∈ b.rootCells) (hc : c.Within root) : c.Packed := by
  obtain ⟨number, hnumber, rfl⟩ := List.mem_map.mp hroot
  obtain ⟨_, hunfolds⟩ := (b.unfolds_root hnumber).of_within hc
  exact hunfolds.packed

/-- The roots of a bag are found without a mishap. -/
theorem mapM_cellAt :
    b.format.roots.mapM (cellAt 0 (unfold 0 (b.entries.map Entry.raw))) = .ok b.rootCells := by
  apply mapM_eq_ok
  intro root hr
  apply cellAt_eq_ok (Nat.zero_le _)
  rw [length_unfold, List.length_map, Nat.zero_add]
  exact b.roots_lt root hr

/-- The table of a bag is all that is needed to give its roots. -/
theorem checkedRoots_eq {bytes : List UInt8} {i : Input}
    (h : readTable ⟨0, bytes⟩ = .ok ((b.header, b.entries.map Entry.raw), i)) :
    checkedRoots bytes = .ok b.rootCells := by
  have hcells : assemble 0 (b.entries.map Entry.raw) = .ok (unfold 0 (b.entries.map Entry.raw)) :=
    assemble_eq_ok (by simpa using b.forward)
  rw [checkedRoots, h]
  change (assemble 0 (b.entries.map Entry.raw) >>= fun cells => b.format.roots.mapM (cellAt 0 cells)) = _
  rw [hcells]
  exact b.mapM_cellAt

end Bag

/-- **A bag is read if and only if it was written.** Bytes that no bag is written as are refused, and nothing else goes
wrong. Other bytes are those of a bag, and its roots are read: there is at least one, they are the trees of the cells
that the bag marks as roots, and all their cells are within the bounds and have zeros after their bits. -/
theorem deserialize_accepts (bytes : List UInt8) :
    (∃ e, deserialize bytes = .error e ∧ checkedRoots bytes = .error (.refused e) ∧ ∀ b : Bag, b.encode ≠ bytes) ∨
      ∃ (b : Bag) (cells : List Cell), b.encode = bytes ∧ deserialize bytes = .ok cells ∧
        checkedRoots bytes = .ok cells ∧ cells ≠ [] ∧ List.Forall₂ (Unfolds b.entries) b.format.roots cells ∧
        ∀ root ∈ cells, ∀ c : Cell, c.Within root → c.Packed := by
  cases h : readTable ⟨0, bytes⟩ with
  | error e =>
    have hread : deserialize bytes = .error e := by
      rw [deserialize_eq, h]
      rfl
    refine Or.inl ⟨e, hread, ?_, ?_⟩
    · rw [checkedRoots, h]
      rfl
    · rintro b rfl
      rw [deserialize, b.contents_encode] at hread
      cases hread
  | ok r =>
    obtain ⟨⟨header, table⟩, i⟩ := r
    obtain ⟨_, hbag, htakes⟩ := only_readTable _ _ _ h
    obtain ⟨b, hencode, rfl, rfl⟩ := hbag i.rest
    have hread : deserialize bytes = .ok b.rootCells := by
      rw [deserialize_eq, h]
      rfl
    exact Or.inr ⟨b, b.rootCells, hencode.trans htakes.rest.symm, hread, b.checkedRoots_eq h, b.rootCells_ne_nil,
      b.unfolds_rootCells, fun _ hroot _ hc => b.packed_of_within hroot hc⟩

end BagOfCells

end TvmCode
