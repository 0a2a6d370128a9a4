import TvmCode.Proofs.BagOfCells.RoundTrip

/-!
# What readers accept

The other direction of `Reader.Reads`: a reader takes only bytes of some form (`Reader.Only`) when, however it
succeeds, the bytes that it has taken and its value are so related. Again the form of a record is put together from
that of its fields.

What is taken for a cell is some way of writing one (`only_readCell`), and what is taken for a header is the header of
some bag, whatever its index and checksum hold (`only_readHeader`).
-/

namespace TvmCode.BagOfCells

open Reader

/-! ## Readers -/

/-- The second input is the first less some bytes at its front. -/
structure Input.Takes (i : Input) (bytes : List UInt8) (j : Input) : Prop where
  rest : i.rest = bytes ++ j.rest
  pos : j.pos = i.pos + bytes.length

/-- Whenever the reader succeeds, the bytes taken and the value given are related. -/
def Reader.Only {α : Type} (r : Reader α) (P : List UInt8 → α → Prop) : Prop :=
  ∀ i a j, r i = .ok (a, j) → ∃ bytes, P bytes a ∧ i.Takes bytes j

theorem Input.Takes.trans {i j k : Input} {xs ys : List UInt8} (h : i.Takes xs j) (h' : j.Takes ys k) :
    i.Takes (xs ++ ys) k := by
  constructor
  · rw [h.rest, h'.rest, List.append_assoc]
  · rw [h'.pos, h.pos, List.length_append, Nat.add_assoc]

/-- A reader that succeeds after another has started where that one ended. -/
theorem Reader.exists_of_bind {α β : Type} {r : Reader α} {f : α → Reader β} {i j : Input} {b : β}
    (h : (r >>= f) i = .ok (b, j)) : ∃ a k, r i = .ok (a, k) ∧ f a k = .ok (b, j) := by
  change (r i >>= fun p => f p.1 p.2) = _ at h
  cases hr : r i with
  | error e =>
    rw [hr] at h
    cases h
  | ok p =>
    rw [hr] at h
    exact ⟨p.1, p.2, rfl, h⟩

namespace Reader.Only

variable {α β : Type} {r : Reader α} {f : α → Reader β} {P : List UInt8 → α → Prop} {Q : List UInt8 → β → Prop}

theorem mono {P' : List UInt8 → α → Prop} (h : Only r P) (hP : ∀ xs a, P xs a → P' xs a) : Only r P' := by
  intro i a j hr
  obtain ⟨xs, hxs, htakes⟩ := h i a j hr
  exact ⟨xs, hP xs a hxs, htakes⟩

theorem pure {a : α} (h : P [] a) : Only (pure a) P := by
  intro i a' j hr
  cases hr
  exact ⟨[], h, rfl, rfl⟩

theorem bind (h : Only r P) (h' : ∀ xs a, P xs a → Only (f a) fun ys => Q (xs ++ ys)) : Only (r >>= f) Q := by
  intro i b k hbind
  obtain ⟨a, j, hr, hf⟩ := exists_of_bind hbind
  obtain ⟨xs, hxs, htakes⟩ := h i a j hr
  obtain ⟨ys, hys, htakes'⟩ := h' xs a hxs j b k hf
  exact ⟨xs ++ ys, hys, htakes.trans htakes'⟩

theorem take (n : Nat) (what : String) : Only (take n what) fun bytes a => bytes = a ∧ a.length = n := by
  intro i a j hr
  simp only [Reader.take] at hr
  split at hr
  · cases hr
  · rename_i hlen
    have hlen : (i.rest.take n).length = n := by
      rw [List.length_take] at hlen ⊢
      omega
    cases hr
    exact ⟨_, ⟨rfl, hlen⟩, (List.take_append_drop n i.rest).symm, by rw [hlen]⟩

theorem number (w : Nat) (what : String) :
    Only (number w what) fun bytes n => bytes = bytesOfNat w n ∧ n < 2 ^ (8 * w) := by
  refine bind (take w what) ?_
  rintro bytes _ ⟨rfl, rfl⟩
  refine pure ⟨?_, natOfBytes_lt bytes⟩
  rw [List.append_nil, bytesOfNat_natOfBytes]

/-- What is passed over is a part that may be missing. -/
theorem skipIf {p : Prop} [Decidable p] (n : Nat) (what : String) :
    Only (skipIf p n what) fun bytes _ =>
      ∃ part : Option (List UInt8), bytes = part.getD [] ∧ (p ↔ part.isSome) ∧ ∀ xs ∈ part, xs.length = n := by
  unfold Reader.skipIf
  by_cases hp : p
  · rw [if_pos hp]
    refine bind (take n what) ?_
    rintro bytes _ ⟨rfl, hlen⟩
    exact pure ⟨some bytes, List.append_nil bytes, by simp [hp], by simpa using hlen⟩
  · rw [if_neg hp]
    exact pure ⟨none, rfl, by simp [hp], by simp⟩

theorem refuseIf (p : Prop) [Decidable p] (e : BagError) : Only (refuseIf p e) fun bytes _ => bytes = [] ∧ ¬p := by
  unfold Reader.refuseIf
  by_cases hp : p
  · rw [if_pos hp]
    intro i a j hr
    cases hr
  · rw [if_neg hp]
    exact pure ⟨rfl, hp⟩

theorem refuseAny (ns : List Nat) (p : Nat → Bool) (e : Nat → BagError) :
    Only (refuseAny ns p e) fun bytes _ => bytes = [] ∧ ∀ n ∈ ns, ¬p n := by
  unfold Reader.refuseAny
  cases hfind : ns.find? p with
  | none => exact pure ⟨rfl, List.find?_eq_none.mp hfind⟩
  | some n =>
    intro i a j hr
    cases hr

theorem lift (x : Except BagError α) : Only (liftM x : Reader α) fun bytes a => bytes = [] ∧ x = .ok a := by
  intro i a j hr
  cases x with
  | error e => cases hr
  | ok a =>
    cases hr
    exact ⟨[], ⟨rfl, rfl⟩, rfl, rfl⟩

/-- Readers of items in turn take the items one after the other. -/
theorem forEach {ι : Type} {read : Nat → Reader α} {encode : ι → List UInt8} {value : ι → α} {R : Nat → ι → Prop}
    (h : ∀ k, Only (read k) fun bytes a => ∃ item, bytes = encode item ∧ a = value item ∧ R k item)
    (start count : Nat) :
    Only (forEach read start count) fun bytes as => ∃ items : List ι, bytes = items.flatMap encode ∧
      as = items.map value ∧ items.length = count ∧ ∀ k item, items[k]? = some item → R (start + k) item := by
  induction count generalizing start with
  | zero => exact pure ⟨[], rfl, rfl, rfl, by simp⟩
  | succ count ih =>
    refine bind (h start) ?_
    rintro _ _ ⟨item, rfl, rfl, hitem⟩
    refine bind (ih (start + 1)) ?_
    rintro _ _ ⟨items, rfl, rfl, hlen, hitems⟩
    refine pure ⟨item :: items, by simp, rfl, by simp [hlen], ?_⟩
    intro k other hk
    cases k with
    | zero =>
      obtain rfl : item = other := by simpa using hk
      exact hitem
    | succ k =>
      have hother := hitems k other (by simpa using hk)
      rwa [Nat.add_assoc, Nat.add_comm 1 k] at hother

theorem numbers (w : Nat) (what : String) (count : Nat) :
    Only (Reader.forEach (fun _ => Reader.number w what) 0 count) fun bytes ns =>
      bytes = ns.flatMap (bytesOfNat w) ∧ ns.length = count ∧ ∀ n ∈ ns, n < 2 ^ (8 * w) := by
  have hitem : ∀ _ : Nat, Only (Reader.number w what) fun bytes n =>
      ∃ item, bytes = bytesOfNat w item ∧ n = id item ∧ item < 2 ^ (8 * w) := by
    intro _
    exact (number w what).mono fun _ n hn => ⟨n, hn.1, rfl, hn.2⟩
  refine (forEach hitem 0 count).mono ?_
  rintro _ _ ⟨ns, rfl, rfl, hlen, hlt⟩
  rw [List.map_id]
  refine ⟨rfl, hlen, ?_⟩
  intro n hn
  obtain ⟨k, hk⟩ := List.mem_iff_getElem?.mp hn
  exact hlt k n hk

end Reader.Only

/-! ## Cells -/

/-- Bytes of which the last is not zero are bits with a completion tag. -/
theorem exists_tagged {bytes : List UInt8} (h : (bytes.getLastD 0).toNat ≠ 0) :
    ∃ bits, bytes = bytesOfBits (bits ++ [true]) := by
  rcases List.eq_nil_or_concat' bytes with rfl | ⟨front, last, rfl⟩
  · exact absurd rfl h
  · rw [List.getLastD_concat, ← natOfBits_bitsOfByte] at h
    obtain ⟨bits, zeros, hlast⟩ := exists_last_one h
    have hlen := congrArg List.length hlast
    simp only [length_bitsOfByte, List.length_append, List.length_cons, List.length_replicate] at hlen
    -- the zeros behind the tag are those that fill up the last byte
    have hpad : padding (bitsOfBytes front ++ bits ++ [true]).length = zeros := by
      simp only [padding, List.length_append, length_bitsOfBytes, List.length_singleton]
      omega
    refine ⟨bitsOfBytes front ++ bits, bitsOfBytes_inj ?_⟩
    rw [bitsOfBytes_bytesOfBits, hpad, bitsOfBytes_append, bitsOfBytes_cons, hlast]
    simp

/-- Data from which a completion tag is taken away had one. -/
theorem eq_tagged_of_stripTag {bytes data : List UInt8} {bitLen : Nat} (h : stripTag bytes = .ok (data, bitLen)) :
    ∃ bits, bytes = bytesOfBits (bits ++ [true]) ∧ data = bytesOfBits bits ∧ bitLen = bits.length := by
  have hlast : (bytes.getLastD 0).toNat ≠ 0 := by
    intro hzero
    rw [stripTag, if_pos hzero] at h
    cases h
  obtain ⟨bits, rfl⟩ := exists_tagged hlast
  rw [stripTag_tagged] at h
  cases h
  exact ⟨bits, rfl, rfl, rfl⟩

theorem toNat_decide_odd (n : Nat) : (decide (n % 2 = 1)).toNat = n % 2 := by
  rcases Nat.mod_two_eq_zero_or_one n with h | h <;> simp [h]

/-- The data of a cell, with or without its tag. -/
theorem only_untag (d2 : Nat) (bytes : List UInt8) :
    (untag d2 bytes).Only fun taken p => taken = [] ∧ ∃ bits, p = (bytesOfBits bits, bits.length) ∧
      bytes = bytesOfBits (if d2 % 2 = 1 then bits ++ [true] else bits) ∧ (bits.length % 8 ≠ 0 → d2 % 2 = 1) := by
  unfold untag
  by_cases hodd : d2 % 2 = 1
  · simp only [if_pos hodd]
    refine (Only.lift (stripTag bytes)).mono ?_
    rintro _ ⟨data, bitLen⟩ ⟨rfl, hstrip⟩
    obtain ⟨bits, hbytes, rfl, rfl⟩ := eq_tagged_of_stripTag hstrip
    exact ⟨rfl, bits, rfl, hbytes, fun _ => hodd⟩
  · simp only [if_neg hodd]
    refine Only.pure ⟨rfl, bitsOfBytes bytes, ?_, ?_, ?_⟩
    · rw [bytesOfBits_bitsOfBytes, length_bitsOfBytes, Nat.mul_comm]
    · rw [bytesOfBits_bitsOfBytes]
    · rw [length_bitsOfBytes]
      omega

/-- **What is taken for a cell is a cell that was written**, and its references lead to later cells. -/
theorem only_readCell (refSize index : Nat) :
    (readCell refSize index).Only fun bytes raw => ∃ e : Entry, bytes = e.encode refSize ∧ raw = e.raw ∧
      ∀ target ∈ e.refs, index < target ∧ target < 2 ^ (8 * refSize) := by
  refine Only.bind (Only.number 1 _) ?_
  rintro _ d1 ⟨rfl, hd1⟩
  refine Only.bind (Only.number 1 _) ?_
  rintro _ d2 ⟨rfl, hd2⟩
  refine Only.bind (Only.refuseIf _ _) ?_
  rintro _ - ⟨rfl, -⟩
  refine Only.bind (Only.refuseIf _ _) ?_
  rintro _ - ⟨rfl, hcount⟩
  refine Only.bind (Only.skipIf _ _) ?_
  rintro _ - ⟨hashes, rfl, hsome, hhashes⟩
  refine Only.bind (Only.take _ _) ?_
  rintro data _ ⟨rfl, hdata⟩
  refine Only.bind (only_untag d2 data) ?_
  rintro _ _ ⟨rfl, bits, rfl, htag, hpartial⟩
  refine Only.bind (Only.refuseIf _ _) ?_
  rintro _ - ⟨rfl, hbits⟩
  refine Only.bind (Only.numbers refSize _ _) ?_
  rintro _ refs ⟨rfl, hrefs, hlt⟩
  refine Only.bind (Only.refuseAny _ _ _) ?_
  rintro _ - ⟨rfl, hforward⟩
  let e : Entry :=
    { bits, refs, hashes, exotic := d1 / 8 % 2 = 1, level := d1 / 32, tagged := d2 % 2 = 1
      bits_le := Nat.not_lt.mp hbits
      refs_le := hrefs ▸ Nat.not_lt.mp hcount
      level_lt := by omega
      hashes_length := hhashes
      tagged_of_partial := by simpa using hpartial }
  have hedata : e.data = data := by
    rw [htag]
    simp [Entry.data, e]
  have hfirst : e.first = d1 := by
    have hsome : hashes.isSome = decide (d1 / 16 % 2 = 1) := by simp [hsome]
    simp only [Entry.first, e, hrefs, hsome, toNat_decide_odd]
    omega
  have hsecond : e.second = d2 := by
    simp only [Entry.second, hedata, hdata, e, toNat_decide_odd]
    omega
  refine Only.pure ⟨e, ?_, rfl, ?_⟩
  · rw [Entry.encode, hfirst, hsecond, hedata]
    simp [e]
  · intro target ht
    exact ⟨by simpa using hforward target ht, hlt target ht⟩

/-! ## Headers -/

/-- The bytes before the index, where `size` bytes of cells follow. -/
def Format.headerBytes (f : Format) (refSize offsetSize count absent size : Nat) : List UInt8 :=
  bytesOfNat 4 f.layout.magic ++ (bytesOfNat 1 (f.flags refSize) ++ (bytesOfNat 1 offsetSize ++
    (bytesOfNat refSize count ++ (bytesOfNat refSize f.roots.length ++ (bytesOfNat refSize absent ++
      (bytesOfNat offsetSize size ++ f.rootBytes refSize))))))

/-- The header was written as these bytes, for a bag with any index and any checksum that go with it. -/
structure Header.Written (h : Header) (bytes : List UInt8) : Prop where
  refSize : 1 ≤ h.refSize ∧ h.refSize ≤ 4
  offsetSize : 1 ≤ h.offsetSize ∧ h.offsetSize ≤ 8
  count_lt : h.cellCount < 2 ^ (8 * h.refSize)
  size_lt : h.cellBytes < 2 ^ (8 * h.offsetSize)
  roots_count : 1 ≤ h.roots.length ∧ h.roots.length ≤ h.cellCount
  roots_lt : ∀ root ∈ h.roots, root < h.cellCount
  format (index checksum : Option (List UInt8)) (hi : index.isSome = h.hasIndex)
    (hc : checksum.isSome = h.hasChecksum) : ∃ f : Format, ∃ absent ≤ h.cellCount,
      f.index = index ∧ f.checksum = checksum ∧ f.roots = h.roots ∧
        bytes = f.headerBytes h.refSize h.offsetSize h.cellCount absent h.cellBytes

theorem Layout.magic_of_ofMagic? {magic : Nat} {l : Layout} (h : Layout.ofMagic? magic = some l) : l.magic = magic := by
  simpa using List.find?_some h

/-- The flags of a layout leave its index, its checksum and its roots open. -/
theorem only_readLayoutFlags (layout : Layout) :
    (readLayoutFlags layout).Only fun bytes p => ∀ index checksum roots, index.isSome = p.1 →
      checksum.isSome = p.2.1 → (layout ≠ .generic → roots = [0]) →
      ∃ f : Format, f.layout = layout ∧ f.index = index ∧ f.checksum = checksum ∧ f.roots = roots ∧
        bytes = bytesOfNat 1 (f.flags p.2.2) := by
  cases layout with
  | generic =>
    refine Only.bind (Only.number 1 _) ?_
    rintro _ flags ⟨rfl, hflags⟩
    refine Only.bind (Only.refuseIf _ _) ?_
    rintro _ - ⟨rfl, hreserved⟩
    refine Only.pure ?_
    intro index checksum roots hindex hchecksum _
    let f : Format := .generic index checksum (flags / 32 % 2 = 1) roots
    have hvalue : f.flags (flags % 8) = flags := by
      simp only [f, Format.flags, hindex, hchecksum, toNat_decide_odd]
      omega
    exact ⟨f, rfl, rfl, rfl, rfl, by simp [hvalue]⟩
  | indexed =>
    refine Only.bind (Only.number 1 _) ?_
    rintro _ refSize ⟨rfl, -⟩
    refine Only.pure ?_
    intro index checksum roots hindex hchecksum hroots
    obtain ⟨bytes, rfl⟩ := Option.isSome_iff_exists.mp hindex
    obtain rfl : checksum = none := by simpa using hchecksum
    obtain rfl := hroots (by decide)
    exact ⟨.indexed bytes, rfl, rfl, rfl, rfl, by simp [Format.flags]⟩
  | indexedChecked =>
    refine Only.bind (Only.number 1 _) ?_
    rintro _ refSize ⟨rfl, -⟩
    refine Only.pure ?_
    intro index checksum roots hindex hchecksum hroots
    obtain ⟨bytes, rfl⟩ := Option.isSome_iff_exists.mp hindex
    obtain ⟨sum, rfl⟩ := Option.isSome_iff_exists.mp hchecksum
    obtain rfl := hroots (by decide)
    exact ⟨.indexedChecked bytes sum, rfl, rfl, rfl, rfl, by simp [Format.flags]⟩

/-- Only the generic layout has bytes for its roots. -/
theorem Format.rootBytes_of_ne_generic {f : Format} (h : f.layout ≠ .generic) (refSize : Nat) :
    f.rootBytes refSize = [] := by
  cases f with
  | generic => exact absurd rfl h
  | indexed => rfl
  | indexedChecked => rfl

theorem Format.rootBytes_of_generic {f : Format} (h : f.layout = .generic) (refSize : Nat) :
    f.rootBytes refSize = f.roots.flatMap (bytesOfNat refSize) := by
  cases f with
  | generic => rfl
  | indexed => cases h
  | indexedChecked => cases h

theorem only_readRoots (layout : Layout) (refSize count : Nat) :
    (readRoots layout refSize count).Only fun bytes roots => roots.length = count ∧
      (layout ≠ .generic → roots = [0]) ∧
      ∀ f : Format, f.layout = layout → f.roots = roots → bytes = f.rootBytes refSize := by
  by_cases hl : layout = .generic
  · subst hl
    refine (Only.numbers refSize _ count).mono ?_
    rintro _ roots ⟨rfl, hlen, -⟩
    refine ⟨hlen, fun h => absurd rfl h, ?_⟩
    rintro f hf rfl
    exact (Format.rootBytes_of_generic hf refSize).symm
  · have hread : readRoots layout refSize count = do refuseIf (count ≠ 1) .severalRoots; return [0] := by
      cases layout with
      | generic => exact absurd rfl hl
      | indexed => rfl
      | indexedChecked => rfl
    rw [hread]
    refine Only.bind (Only.refuseIf _ _) ?_
    rintro _ - ⟨rfl, hcount⟩
    refine Only.pure ⟨(not_not.mp hcount).symm, fun _ => rfl, ?_⟩
    rintro f rfl -
    exact (Format.rootBytes_of_ne_generic hl refSize).symm

/-- **What is taken for a header is one that was written.** -/
theorem only_readHeader : readHeader.Only fun bytes h => h.Written bytes := by
  refine Only.bind (Only.number 4 _) ?_
  rintro _ magic ⟨rfl, -⟩
  cases hmagic : Layout.ofMagic? magic with
  | none =>
    intro i a j hr
    cases hr
  | some layout =>
    obtain rfl := Layout.magic_of_ofMagic? hmagic
    refine Only.bind (only_readLayoutFlags layout) ?_
    rintro flags ⟨hasIndex, hasChecksum, refSize⟩ hformat
    refine Only.bind (Only.refuseIf _ _) ?_
    rintro _ - ⟨rfl, hrefSize⟩
    refine Only.bind (Only.number 1 _) ?_
    rintro _ offsetSize ⟨rfl, -⟩
    refine Only.bind (Only.refuseIf _ _) ?_
    rintro _ - ⟨rfl, hoffsetSize⟩
    refine Only.bind (Only.number refSize _) ?_
    rintro _ cellCount ⟨rfl, hcount⟩
    refine Only.bind (Only.number refSize _) ?_
    rintro _ rootCount ⟨rfl, -⟩
    refine Only.bind (Only.number refSize _) ?_
    rintro _ absent ⟨rfl, -⟩
    refine Only.bind (Only.number offsetSize _) ?_
    rintro _ cellBytes ⟨rfl, hsize⟩
    refine Only.bind (Only.refuseIf _ _) ?_
    rintro _ - ⟨rfl, hroots⟩
    refine Only.bind (Only.refuseIf _ _) ?_
    rintro _ - ⟨rfl, habsent⟩
    refine Only.bind (only_readRoots layout refSize rootCount) ?_
    rintro rootBytes roots ⟨rfl, hfirst, hrootBytes⟩
    refine Only.bind (Only.refuseAny _ _ _) ?_
    rintro _ - ⟨rfl, hrange⟩
    refine Only.pure ⟨by dsimp only; omega, by dsimp only; omega, hcount, hsize, by dsimp only; omega, ?_, ?_⟩
    · intro root hroot
      simpa using hrange root hroot
    · intro index checksum hindex hchecksum
      obtain ⟨f, rfl, hfindex, hfchecksum, rfl, rfl⟩ := hformat index checksum roots hindex hchecksum hfirst
      obtain rfl := hrootBytes f rfl rfl
      exact ⟨f, absent, Nat.not_lt.mp habsent, hfindex, hfchecksum, rfl, by simp [Format.headerBytes]⟩

end TvmCode.BagOfCells
