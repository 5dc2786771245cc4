import EnsembleRecording.Proofs.Layout.Image

/-!
# Extent of a Region

Where a layout can place the region of a core.  The size has to be a machine size, and the byte
behind the last one of the region has to have an address of its own; only then is the alignment
judged.  A region that takes up the very last words of memory would lie in it with all its bytes,
but there is no address behind it, and it is refused.

The size itself is computed one operation at a time, and each of these fails where its result is no
machine size.  As long as no operation makes a number smaller, one that has become too large stays
so, and what comes of them all is the exact size or none.  Multiplying by the dimensions breaks this
when there are none: the rows are counted first, and where they are too many, the shape is refused
although it has no elements at all.
-/

namespace EnsembleRecording

namespace Address

/-- The number of bytes that have an address. -/
def spaceBytes : Nat := 0x100000000

theorem offset?_eq_none_iff {address : Address} {words : Nat} :
    address.offset? words = none ↔
      spaceBytes ≤ address.value.toNat + wordBytes * words := by
  constructor
  · intro hnone
    apply Nat.le_of_not_lt
    intro hfits
    have htarget : address.offset? words =
        some ⟨UInt32.ofNat (address.value.toNat + wordBytes * words)⟩ :=
      offset?_eq_some_iff.2 (UInt32.toNat_ofNat_of_lt' hfits)
    cases hnone.symm.trans htarget
  · intro hpast
    rw [Option.eq_none_iff_forall_ne_some]
    intro target htarget
    have hbound := target.value.toNat_lt
    rw [offset?_eq_some_iff.1 htarget] at hbound
    exact absurd hbound (Nat.not_lt_of_le hpast)

end Address

namespace Layout

variable {layout : Layout} {address : Address} {neurons : Nat}

/-- The region of a core, placed at the address, has a size, and the byte behind it an address. -/
def HasEndAt (layout : Layout) (address : Address) (neurons : Nat) : Prop :=
  ∃ size, layout.size? neurons = some size ∧
    address.value.toNat + Address.wordBytes * size < Address.spaceBytes

theorem region_eq_shapeTooLarge (h : ¬layout.HasEndAt address neurons) :
    layout.region address neurons = .error (.shapeTooLarge (layout.shape neurons)) := by
  rw [region]
  cases hsize : layout.size? neurons with
  | none => rfl
  | some size =>
    have hpast : Address.spaceBytes ≤ address.value.toNat + Address.wordBytes * size :=
      Nat.le_of_not_lt fun hfits ↦ h ⟨size, hsize, hfits⟩
    simp only [Address.offset?_eq_none_iff.2 hpast]

theorem region_eq_ofWords {size : Nat} (hsize : layout.size? neurons = some size)
    (hfits : address.value.toNat + Address.wordBytes * size < Address.spaceBytes) :
    layout.region address neurons =
      (Region.ofWords address (layout.initialWords size)).mapError .recording := by
  have hend : address.offset? size ≠ none := by
    intro hnone
    exact absurd (Address.offset?_eq_none_iff.1 hnone) (Nat.not_le_of_lt hfits)
  obtain ⟨behind, hbehind⟩ := Option.ne_none_iff_exists'.1 hend
  rw [region]
  simp only [hsize, hbehind]

theorem region_eq_misalignedAddress (h : layout.HasEndAt address neurons)
    (hmisaligned : ¬address.IsAligned) :
    layout.region address neurons = .error (.recording (.misalignedAddress address)) := by
  obtain ⟨size, hsize, hfits⟩ := h
  rw [region_eq_ofWords hsize hfits, Region.ofWords, dif_neg hmisaligned]
  rfl

theorem exists_region_eq_ok (h : layout.HasEndAt address neurons) (haligned : address.IsAligned) :
    ∃ image, layout.region address neurons = .ok image := by
  obtain ⟨size, hsize, hfits⟩ := h
  refine ⟨⟨address, layout.initialWords size, haligned⟩, ?_⟩
  rw [region_eq_ofWords hsize hfits, Region.ofWords, dif_pos haligned]
  rfl

theorem region_eq_shapeTooLarge_iff :
    layout.region address neurons = .error (.shapeTooLarge (layout.shape neurons)) ↔
      ¬layout.HasEndAt address neurons := by
  constructor
  · intro hrefused hend
    by_cases haligned : address.IsAligned
    · obtain ⟨image, hbuilt⟩ := exists_region_eq_ok hend haligned
      cases hbuilt.symm.trans hrefused
    · cases (region_eq_misalignedAddress hend haligned).symm.trans hrefused
  · exact region_eq_shapeTooLarge

theorem region_eq_misalignedAddress_iff :
    layout.region address neurons = .error (.recording (.misalignedAddress address)) ↔
      layout.HasEndAt address neurons ∧ ¬address.IsAligned := by
  constructor
  · intro hrefused
    by_cases hend : layout.HasEndAt address neurons
    · refine ⟨hend, ?_⟩
      intro haligned
      obtain ⟨image, hbuilt⟩ := exists_region_eq_ok hend haligned
      cases hbuilt.symm.trans hrefused
    · cases (region_eq_shapeTooLarge hend).symm.trans hrefused
  · rintro ⟨hend, hmisaligned⟩
    exact region_eq_misalignedAddress hend hmisaligned

/-- What comes of placing a region anywhere.  It is refused as too large exactly when it has no size
or no address behind it, and of the others exactly those off a word are refused as misaligned.  All
that are left are built: a flag that says whether the layout records, and zeros for the data. -/
theorem region_by_extent (layout : Layout) (address : Address) (neurons : Nat) :
    (layout.region address neurons = .error (.shapeTooLarge (layout.shape neurons)) ↔
      layout.size? neurons = none ∨ ∃ size, layout.size? neurons = some size ∧
        Address.spaceBytes ≤ address.value.toNat + Address.wordBytes * size) ∧
    (∀ size, layout.size? neurons = some size →
      address.value.toNat + Address.wordBytes * size < Address.spaceBytes →
      (layout.region address neurons = .error (.recording (.misalignedAddress address)) ↔
        ¬address.IsAligned) ∧
      (address.IsAligned → ∃ image, layout.region address neurons = .ok image ∧
        image.address = address ∧ image.size = size ∧
        image.word? Region.flagOffset = some (if 0 < layout.steps then 1 else 0) ∧
        ∀ i, Region.dataOffset ≤ i → i < size → image.word? i = some 0)) := by
  refine ⟨?_, ?_⟩
  · rw [region_eq_shapeTooLarge_iff, HasEndAt]
    cases hsize : layout.size? neurons <;> simp
  · intro size hsize hfits
    have hend : layout.HasEndAt address neurons := ⟨size, hsize, hfits⟩
    refine ⟨?_, ?_⟩
    · rw [region_eq_misalignedAddress_iff, and_iff_right hend]
    · intro haligned
      obtain ⟨image, hbuilt⟩ := exists_region_eq_ok hend haligned
      obtain ⟨haddress, himage⟩ := isImage_of_region_eq_ok hbuilt
      have hwords : image.size = size := Option.some.inj (himage.size?_eq.symm.trans hsize)
      refine ⟨image, hbuilt, haddress, hwords, ?_, ?_⟩
      · rw [himage.flag_eq, isEnabled]
        simp only [decide_eq_true_eq]
      · intro i hdata hi
        obtain ⟨position, rfl⟩ := Nat.exists_eq_add_of_le hdata
        apply himage.data_eq
        rw [Region.capacity, hwords]
        omega

/-- Three neurons at one step, in the four words before the last one of memory; two words that end
behind it; a region off a word; and a shape without a size, though it has no dimensions. -/
theorem region_by_extent_of_three_neurons :
    (∃ image, Layout.region ⟨1, 1⟩ ⟨0xffffffec⟩ 3 = .ok image ∧ image.size = 4 ∧
      image.word? 0 = some 1 ∧ image.word? 3 = some 0) ∧
    Layout.region ⟨1, 1⟩ ⟨0xfffffffc⟩ 1 = .error (.shapeTooLarge ⟨1, 1, 1⟩) ∧
    Layout.region ⟨1, 1⟩ ⟨0x1002⟩ 3 = .error (.recording (.misalignedAddress ⟨0x1002⟩)) ∧
    Layout.region ⟨2, 0⟩ ⟨0x1000⟩ 0x8000000000000000 =
      .error (.shapeTooLarge ⟨2, 0x8000000000000000, 0⟩) := by
  obtain ⟨-, hfits⟩ := region_by_extent ⟨1, 1⟩ ⟨0xffffffec⟩ 3
  obtain ⟨-, hbuilt⟩ := hfits 4 (by decide) (by decide)
  obtain ⟨image, himage, -, hsize, hflag, hdata⟩ := hbuilt (by decide)
  refine ⟨⟨image, himage, hsize, hflag, hdata 3 (by decide) (by decide)⟩, ?_, ?_, ?_⟩
  · exact (region_by_extent ⟨1, 1⟩ ⟨0xfffffffc⟩ 1).1.2 (.inr ⟨2, by decide, by decide⟩)
  · exact ((region_by_extent ⟨1, 1⟩ ⟨0x1002⟩ 3).2 4 (by decide) (by decide)).1.2 (by decide)
  · exact (region_by_extent ⟨2, 0⟩ ⟨0x1000⟩ 0x8000000000000000).1.2 (.inl (by decide))

/-- The last four words of memory are aligned and end with its last byte, and a region that would
take them up is refused as too large. -/
theorem region_of_last_words_is_refused :
    let address : Address := ⟨0xfffffff0⟩
    Layout.size? ⟨1, 1⟩ 3 = some 4 ∧ address.IsAligned ∧
      address.value.toNat + Address.wordBytes * 4 = Address.spaceBytes ∧
      Layout.region ⟨1, 1⟩ address 3 = .error (.shapeTooLarge ⟨1, 3, 1⟩) := by
  intro address
  exact ⟨by decide, by decide, by decide, rfl⟩

end Layout

namespace Size

/-- The number, where a machine can hold it. -/
def fit? (n : Nat) : Option Nat := if n < limit then some n else none

theorem fit?_eq_some {n : Nat} (h : n < limit) : fit? n = some n := if_pos h

theorem fit?_eq_none {n : Nat} (h : limit ≤ n) : fit? n = none := if_neg (Nat.not_lt_of_le h)

/-- An operation that makes a number no smaller can be left to fail where the number has. -/
theorem fit?_bind {f : Nat → Nat} {n : Nat} (h : n ≤ f n) :
    (fit? n).bind (fun m ↦ fit? (f m)) = fit? (f n) := by
  rcases Nat.lt_or_ge n limit with hfits | hpast
  · rw [fit?_eq_some hfits, Option.bind_some]
  · rw [fit?_eq_none hpast, Option.bind_none, fit?_eq_none (Nat.le_trans hpast h)]

end Size

namespace Shape

/-- The rows are more than a machine can count, but there are no elements in them. -/
def HasUncountedRows (shape : Shape) : Prop :=
  shape.dims = 0 ∧ Size.limit ≤ shape.steps * shape.neurons

variable {shape : Shape}

theorem count?_eq_fit? (h : ¬shape.HasUncountedRows) : shape.count? = Size.fit? shape.count := by
  by_cases hdims : shape.dims = 0
  · have hrows : shape.steps * shape.neurons < Size.limit :=
      Nat.lt_of_not_le fun hpast ↦ h ⟨hdims, hpast⟩
    calc shape.count?
        = (Size.fit? (shape.steps * shape.neurons)).bind fun rows ↦
            Size.fit? (rows * shape.dims) := rfl
      _ = Size.fit? shape.count := by
        rw [Size.fit?_eq_some hrows, Option.bind_some, count]
  · have hrows : shape.steps * shape.neurons ≤ shape.steps * shape.neurons * shape.dims :=
      Nat.le_mul_of_pos_right _ (Nat.pos_of_ne_zero hdims)
    exact Size.fit?_bind hrows

theorem count?_eq_none_of_hasUncountedRows (h : shape.HasUncountedRows) : shape.count? = none := by
  calc shape.count?
      = (Size.fit? (shape.steps * shape.neurons)).bind fun rows ↦
          Size.fit? (rows * shape.dims) := rfl
    _ = none := by rw [Size.fit?_eq_none h.2, Option.bind_none]

/-- A machine size is the count of a shape if it is the exact one. -/
theorem count?_eq_some_iff_eq_count (h : ¬shape.HasUncountedRows) {size : Nat}
    (hmachine : size < Size.limit) : shape.count? = some size ↔ size = shape.count := by
  refine ⟨eq_count_of_count?, ?_⟩
  rintro rfl
  rw [count?_eq_fit? h, Size.fit?_eq_some hmachine]

end Shape

namespace Trace

variable {shape : Shape} {data : Array Binary32}

theorem exists_ofArray?_eq_some (h : shape.count? = some data.size) :
    ∃ trace, ofArray? shape data = some trace ∧ trace.shape = shape ∧ trace.data = data :=
  ⟨_, dif_pos h, rfl, rfl⟩

theorem ofArray?_eq_none (h : shape.count? ≠ some data.size) : ofArray? shape data = none :=
  dif_neg h

end Trace

namespace Layout

variable {layout : Layout} {neurons : Nat}

theorem size?_eq_fit? (h : ¬(layout.shape neurons).HasUncountedRows) :
    layout.size? neurons = Size.fit? ((layout.shape neurons).count + Region.dataOffset) := by
  rw [size?, dataSize?, Shape.count?_eq_fit? h]
  exact Size.fit?_bind (Nat.le_add_right _ _)

theorem byteSize?_eq_fit? (h : ¬(layout.shape neurons).HasUncountedRows) :
    layout.byteSize? neurons =
      Size.fit? (((layout.shape neurons).count + Region.dataOffset) * Address.wordBytes) := by
  rw [byteSize?, size?_eq_fit? h]
  exact Size.fit?_bind (Nat.le_mul_of_pos_right _ (by decide))

/-- The sizes of a region and the elements that make up a trace go by the exact product of the three
extents, wherever a zero stands among them, unless there are no dimensions and more rows than a
machine can count.  In that case the product is zero, but no size is computed, and no elements are
taken for the shape, not even none. -/
theorem sizes_are_exact_unless_rows_uncounted (layout : Layout) (neurons : Nat) :
    let shape := layout.shape neurons
    let count := layout.steps * neurons * layout.dims
    (¬(layout.dims = 0 ∧ Size.limit ≤ layout.steps * neurons) →
      layout.dataSize? neurons = (if count < Size.limit then some count else none) ∧
      layout.size? neurons = (if 1 + count < Size.limit then some (1 + count) else none) ∧
      layout.byteSize? neurons =
        (if 4 * (1 + count) < Size.limit then some (4 * (1 + count)) else none) ∧
      ∀ data : Array Binary32, data.size < Size.limit →
        (data.size = count → ∃ trace, Trace.ofArray? shape data = some trace ∧
          trace.shape = shape ∧ trace.data = data) ∧
        (data.size ≠ count → Trace.ofArray? shape data = none)) ∧
    (layout.dims = 0 ∧ Size.limit ≤ layout.steps * neurons →
      layout.dataSize? neurons = none ∧ layout.size? neurons = none ∧
      layout.byteSize? neurons = none ∧ ∀ data, Trace.ofArray? shape data = none) := by
  intro shape count
  refine ⟨?_, ?_⟩
  · intro hrows
    have hcounted : ¬shape.HasUncountedRows := hrows
    refine ⟨Shape.count?_eq_fit? hcounted, ?_, ?_, ?_⟩
    · rw [Nat.add_comm 1]
      exact size?_eq_fit? hcounted
    · rw [Nat.add_comm 1, Nat.mul_comm 4]
      exact byteSize?_eq_fit? hcounted
    · intro data hmachine
      have hcount : shape.count? = some data.size ↔ data.size = count :=
        Shape.count?_eq_some_iff_eq_count hcounted hmachine
      exact ⟨fun hsize ↦ Trace.exists_ofArray?_eq_some (hcount.2 hsize),
        fun hsize ↦ Trace.ofArray?_eq_none fun hsome ↦ hsize (hcount.1 hsome)⟩
  · intro huncounted
    have hdata : shape.count? = none := Shape.count?_eq_none_of_hasUncountedRows huncounted
    have hsize : layout.size? neurons = none := congrArg (Option.bind · _) hdata
    refine ⟨hdata, hsize, congrArg (Option.bind · _) hsize, ?_⟩
    intro data
    apply Trace.ofArray?_eq_none
    rw [hdata]
    exact (Option.some_ne_none _).symm

/-- A product that is a machine size though four bytes for each element are not, the largest machine
size, to which the flag cannot be added, zeros in front of too large a product, four elements, and a
shape whose rows cannot be counted. -/
theorem sizes_are_exact_unless_rows_uncounted_of_large_shapes :
    Layout.size? ⟨0x4000000000000000, 2⟩ 1 = some 0x8000000000000001 ∧
    Layout.byteSize? ⟨0x4000000000000000, 2⟩ 1 = none ∧
    Layout.dataSize? ⟨0xffffffffffffffff, 1⟩ 1 = some 0xffffffffffffffff ∧
    Layout.size? ⟨0xffffffffffffffff, 1⟩ 1 = none ∧
    Layout.byteSize? ⟨0, 0xffffffffffffffff⟩ 0xffffffffffffffff = some 4 ∧
    (∃ trace, Trace.ofArray? ⟨2, 1, 2⟩ #[⟨1⟩, ⟨2⟩, ⟨3⟩, ⟨4⟩] = some trace ∧
      trace.data = #[⟨1⟩, ⟨2⟩, ⟨3⟩, ⟨4⟩]) ∧
    Trace.ofArray? ⟨0x4000000000000000, 4, 0⟩ #[] = none := by
  have hhalf := (sizes_are_exact_unless_rows_uncounted ⟨0x4000000000000000, 2⟩ 1).1 (by decide)
  have hlargest := (sizes_are_exact_unless_rows_uncounted ⟨0xffffffffffffffff, 1⟩ 1).1 (by decide)
  have hzero :=
    (sizes_are_exact_unless_rows_uncounted ⟨0, 0xffffffffffffffff⟩ 0xffffffffffffffff).1 (by decide)
  have hfour := (sizes_are_exact_unless_rows_uncounted ⟨2, 2⟩ 1).1 (by decide)
  have hrows := (sizes_are_exact_unless_rows_uncounted ⟨0x4000000000000000, 0⟩ 4).2 (by decide)
  obtain ⟨trace, hmade, -, hdata⟩ :=
    (hfour.2.2.2 #[⟨1⟩, ⟨2⟩, ⟨3⟩, ⟨4⟩] (by decide)).1 (by decide)
  exact ⟨hhalf.2.1, hhalf.2.2.1, hlargest.1, hlargest.2.1, hzero.2.2.1, ⟨trace, hmade, hdata⟩,
    hrows.2.2.2 #[]⟩

/-- A shape without elements is refused for its rows where it has no dimensions, and accepted with
the same extents in another order. -/
theorem shape_without_dims_is_refused :
    let layout : Layout := ⟨0x8000000000000000, 0⟩
    (layout.shape 2).count = 0 ∧ layout.dataSize? 2 = none ∧ layout.size? 2 = none ∧
      layout.byteSize? 2 = none ∧ Trace.ofArray? (layout.shape 2) #[] = none ∧
      ∃ trace, Trace.ofArray? ⟨0, 0x8000000000000000, 2⟩ #[] = some trace := by
  intro layout
  exact ⟨by decide, by decide, by decide, by decide, by decide, _, rfl⟩

end Layout

end EnsembleRecording
