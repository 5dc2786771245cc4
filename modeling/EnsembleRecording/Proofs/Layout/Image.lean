import EnsembleRecording.Layout
import EnsembleRecording.Proofs.Trace.Elements
import EnsembleRecording.Recorder

/-!
# Images of a Layout

The region that a layout builds for a core, and the trace that it reads from a region.  The two are
computed apart from each other, one by a number of words and one by a shape; what makes them fit is
that both put an element at the same distance behind the flag.

Any region can be read, whatever its size and whatever shape is asked for.  The shape is judged
first and the room behind the flag next, and a region that has the flag then gives its elements.  A
region without words, such as a core without a region of its own gives back, has no position behind
a flag: not even a recording without elements can be read from it, although it has the room for one.
-/

namespace EnsembleRecording

namespace Region

theorem exists_elements?_eq_some {region : Region} {offset count : Nat}
    (h : offset + count ≤ region.size) :
    ∃ elements, region.elements? offset count = some elements ∧
      ∀ i < count, elements[i]? = (region.word? (offset + i)).map Fixed.ofWord := by
  refine ⟨_, by rw [elements?, slice?, if_pos h, Option.map_some], ?_⟩
  intro i hi
  have hinside : i < min (offset + count) region.words.size - offset := by
    unfold size at h
    omega
  rw [Array.getElem?_map, Array.getElem?_extract, if_pos hinside, word?]

end Region

namespace Layout

variable {layout : Layout} {neurons : Nat}

theorem size?_eq_some_iff {size : Nat} :
    layout.size? neurons = some size ↔
      ∃ count, (layout.shape neurons).count? = some count ∧
        count + Region.dataOffset < Size.limit ∧ size = count + Region.dataOffset := by
  unfold size? dataSize?
  simp only [Option.bind_eq_some_iff, Size.add?_eq_some_iff]

/-- A region is as the layout builds it for a core with so many neurons: a flag, and a zero for
every element. -/
structure IsImage (layout : Layout) (neurons : Nat) (image : Region) : Prop where
  size?_eq : layout.size? neurons = some image.size
  count?_eq : (layout.shape neurons).count? = some image.capacity
  flag_eq : image.word? Region.flagOffset = some (if layout.isEnabled then 1 else 0)
  data_eq : ∀ i < image.capacity, image.word? (Region.dataOffset + i) = some 0

theorem isImage_of_region_eq_ok {address : Address} {image : Region}
    (h : layout.region address neurons = .ok image) :
    image.address = address ∧ layout.IsImage neurons image := by
  unfold region at h
  split at h
  · contradiction
  · next size hsize =>
    split at h
    · contradiction
    · unfold Region.ofWords at h
      split at h
      · next haligned =>
        cases h
        obtain ⟨count, hcount, -, rfl⟩ := size?_eq_some_iff.1 hsize
        have himage : (layout.initialWords (count + Region.dataOffset)).size =
            count + Region.dataOffset := by
          simp [initialWords]
        have hcapacity : (layout.initialWords (count + Region.dataOffset)).size -
            Region.dataOffset = count := by
          rw [himage, Nat.add_sub_cancel]
        refine ⟨rfl, ?_, ?_, ?_, ?_⟩
        · rw [hsize, Region.size, himage]
        · rw [hcount, Region.capacity, Region.size, hcapacity]
        · simp [Region.word?, initialWords, Region.flagOffset, Region.dataOffset]
        · intro i hi
          rw [Region.capacity, Region.size, hcapacity] at hi
          have hword : Region.dataOffset + i < count + Region.dataOffset := by omega
          have hflag : Region.flagOffset ≠ Region.dataOffset + i := by
            unfold Region.dataOffset
            omega
          rw [Region.word?, initialWords, Array.getElem?_setIfInBounds, if_neg hflag,
            Array.getElem?_replicate, if_pos hword]
      · contradiction

theorem IsImage.capacity_eq {image : Region} (h : layout.IsImage neurons image) :
    image.capacity = (layout.shape neurons).count :=
  Shape.eq_count_of_count? h.count?_eq

theorem IsImage.size_eq {image : Region} (h : layout.IsImage neurons image) :
    image.size = Region.dataOffset + (layout.shape neurons).count := by
  obtain ⟨count, hcount, -, hsize⟩ := size?_eq_some_iff.1 h.size?_eq
  rw [hsize, Shape.eq_count_of_count? hcount, Nat.add_comm]

/-- The inversion lemma: reading refuses a shape that cannot be counted, then one for which there is
no room, then a view that cannot be taken, and else gives the elements that it views. -/
theorem readBack_cases (layout : Layout) (region : Region) (neurons steps : Nat) :
    let shape : Shape := ⟨steps, neurons, layout.dims⟩
    (shape.count? = none ∧
        layout.readBack region neurons steps = .error (.shapeTooLarge shape)) ∨
      shape.count? = some shape.count ∧
        ((region.capacity < shape.count ∧ layout.readBack region neurons steps =
            .error (.recording (.capacityExceeded shape.count region.capacity))) ∨
          shape.count ≤ region.capacity ∧
            ((region.elements? Region.dataOffset shape.count = none ∧
              layout.readBack region neurons steps = .error .outOfBounds) ∨
            ∃ elements hsize, region.elements? Region.dataOffset shape.count = some elements ∧
              layout.readBack region neurons steps =
                .ok ⟨shape, elements.map Fixed.toBinary32, hsize⟩)) := by
  intro shape
  simp only [readBack]
  split
  · next hnone => exact .inl ⟨hnone, rfl⟩
  · next count hcount =>
    obtain rfl := Shape.eq_count_of_count? hcount
    refine .inr ⟨hcount, ?_⟩
    split
    · next hroom =>
      refine .inr ⟨hroom, ?_⟩
      split
      · next hnone => exact .inl ⟨hnone, rfl⟩
      · next elements helements =>
        have hsize : (elements.map Fixed.toBinary32).size = shape.count := by
          rw [Array.size_map, Region.size_of_elements? helements]
        exact .inr ⟨elements, hsize, helements, rfl⟩
    · next hfull => exact .inl ⟨Nat.lt_of_not_le hfull, rfl⟩

/-- Only a shape whose elements can be counted is read. -/
theorem shape_of_readBack_eq_ok {region : Region} {steps : Nat} {trace : Trace}
    (h : layout.readBack region neurons steps = .ok trace) :
    trace.shape = ⟨steps, neurons, layout.dims⟩ ∧
      trace.shape.count? = some trace.data.size := by
  rcases readBack_cases layout region neurons steps with
    ⟨-, hrefused⟩ | ⟨hcount, ⟨-, hrefused⟩ | ⟨-, ⟨-, hrefused⟩ | ⟨elements, hsize, -, hread⟩⟩⟩
  · rw [hrefused] at h
    contradiction
  · rw [hrefused] at h
    contradiction
  · rw [hrefused] at h
    contradiction
  · cases hread.symm.trans h
    exact ⟨rfl, hcount.trans (congrArg some hsize.symm)⟩

/-- A region with room for the elements is read from the first word behind the flag on, one word for
each element in storage order. -/
theorem exists_readBack_eq_ok {region : Region} {steps count : Nat}
    (hcount : (Shape.mk steps neurons layout.dims).count? = some count)
    (hroom : Region.dataOffset + count ≤ region.size) :
    ∃ trace, layout.readBack region neurons steps = .ok trace ∧
      trace.shape = ⟨steps, neurons, layout.dims⟩ ∧
      ∀ i < count, trace.data[i]? =
        (region.word? (Region.dataOffset + i)).map fun word ↦ (Fixed.ofWord word).toBinary32 := by
  obtain ⟨viewed, hviewed, hwords⟩ := Region.exists_elements?_eq_some hroom
  obtain rfl := Shape.eq_count_of_count? hcount
  rcases readBack_cases layout region neurons steps with
    ⟨hnone, -⟩ | ⟨-, ⟨hfull, -⟩ | ⟨-, ⟨hnone, -⟩ | ⟨elements, hsize, helements, hread⟩⟩⟩
  · rw [hcount] at hnone
    contradiction
  · unfold Region.capacity at hfull
    omega
  · rw [hviewed] at hnone
    contradiction
  · cases hviewed.symm.trans helements
    refine ⟨_, hread, rfl, ?_⟩
    intro i hi
    rw [Array.getElem?_map, hwords i hi, Option.map_map]
    rfl

/-- A region with room for the elements of a trace is read as that trace, each element from the word
that lies as far behind the flag as the element lies behind the first. -/
theorem readBack_eq_ok {region : Region} {steps count : Nat}
    (hcount : (Shape.mk steps neurons layout.dims).count? = some count)
    (hroom : Region.dataOffset + count ≤ region.size) :
    ∃ trace, layout.readBack region neurons steps = .ok trace ∧
      trace.shape = ⟨steps, neurons, layout.dims⟩ ∧
      ∀ step neuron dim, trace.shape.HasPlace step neuron dim →
        trace.get? step neuron dim =
          (region.word? (Region.dataOffset + trace.shape.index step neuron dim)).map
            fun word ↦ (Fixed.ofWord word).toBinary32 := by
  obtain ⟨trace, hread, hshape, hdata⟩ := exists_readBack_eq_ok hcount hroom
  refine ⟨trace, hread, hshape, ?_⟩
  intro step neuron dim hplace
  have hindex := Shape.index_lt_count hplace.step_lt hplace.neuron_lt hplace.dim_lt
  have hsize : trace.shape.count = count := by
    rw [hshape, Shape.eq_count_of_count? hcount]
  rw [Trace.get?_eq_data hplace, hdata _ (hsize ▸ hindex)]

end Layout

theorem Region.elements?_eq_none_iff {region : Region} {offset count : Nat} :
    region.elements? offset count = none ↔ region.size < offset + count := by
  rw [elements?, Option.map_eq_none_iff, slice?]
  split <;> simp <;> omega

namespace Layout

variable {layout : Layout} {region : Region} {neurons steps : Nat}

section

variable (hcount : (Shape.mk steps neurons layout.dims).count? ≠ none)

include hcount

theorem readBack_eq_capacityExceeded
    (hfull : region.capacity < (Shape.mk steps neurons layout.dims).count) :
    layout.readBack region neurons steps = .error (.recording
      (.capacityExceeded (Shape.mk steps neurons layout.dims).count region.capacity)) := by
  rcases readBack_cases layout region neurons steps with
    ⟨hnone, -⟩ | ⟨-, ⟨-, hrefused⟩ | ⟨hroom, -⟩⟩
  · exact absurd hnone hcount
  · exact hrefused
  · exact absurd hroom (Nat.not_le_of_lt hfull)

/-- Where there is room but no flag, the view of the elements cannot be taken. -/
theorem readBack_eq_outOfBounds
    (hroom : (Shape.mk steps neurons layout.dims).count ≤ region.capacity)
    (hsize : region.size = 0) : layout.readBack region neurons steps = .error .outOfBounds := by
  rcases readBack_cases layout region neurons steps with
    ⟨hnone, -⟩ | ⟨-, ⟨hfull, -⟩ | ⟨-, ⟨-, hpast⟩ | ⟨elements, -, helements, -⟩⟩⟩
  · exact absurd hnone hcount
  · exact absurd hroom (Nat.not_le_of_lt hfull)
  · exact hpast
  · have hnone : region.elements? Region.dataOffset
        (Shape.mk steps neurons layout.dims).count = none := by
      rw [Region.elements?_eq_none_iff, hsize, Region.dataOffset]
      omega
    rw [hnone] at helements
    contradiction

end

/-- What comes of reading any region as any shape.  A shape that cannot be counted is refused, and
then one with more elements than there are words behind the flag.  Otherwise the words behind the
flag are the elements in storage order, as many as the shape has, unless there is no flag. -/
theorem readBack_by_room (layout : Layout) (region : Region) (neurons steps : Nat) :
    let shape : Shape := ⟨steps, neurons, layout.dims⟩
    (shape.count? = none →
      layout.readBack region neurons steps = .error (.shapeTooLarge shape)) ∧
    (shape.count? ≠ none →
      (region.capacity < shape.count → layout.readBack region neurons steps =
        .error (.recording (.capacityExceeded shape.count region.capacity))) ∧
      (shape.count ≤ region.capacity → region.size ≠ 0 →
        ∃ trace, layout.readBack region neurons steps = .ok trace ∧ trace.shape = shape ∧
          trace.data.size = shape.count ∧
          ∀ i < shape.count, trace.data[i]? = (region.word? (Region.dataOffset + i)).map
            fun word ↦ (Fixed.ofWord word).toBinary32) ∧
      (shape.count ≤ region.capacity → region.size = 0 →
        layout.readBack region neurons steps = .error .outOfBounds)) := by
  intro shape
  refine ⟨?_, ?_⟩
  · intro hnone
    rcases readBack_cases layout region neurons steps with ⟨-, hrefused⟩ | ⟨hcount, -⟩
    · exact hrefused
    · rw [hnone] at hcount
      contradiction
  · intro hcount
    refine ⟨readBack_eq_capacityExceeded hcount, ?_, readBack_eq_outOfBounds hcount⟩
    intro hroom hsize
    obtain ⟨count, hsome⟩ := Option.ne_none_iff_exists'.1 hcount
    obtain rfl := Shape.eq_count_of_count? hsome
    have hflag : Region.dataOffset + shape.count ≤ region.size := by
      unfold Region.capacity Region.dataOffset Region.flagOffset at *
      omega
    obtain ⟨trace, hread, hshape, hdata⟩ := exists_readBack_eq_ok hsome hflag
    refine ⟨trace, hread, hshape, ?_, hdata⟩
    rw [trace.size_data, hshape]

/-- Two neurons at one step, three words for four elements, and a shape that outgrows the machine
though it has no dimensions. -/
theorem readBack_by_room_of_two_neurons :
    let region : Region := ⟨⟨0x1000⟩, #[1, 0x8000, 0xffff8000, 0x4000], by decide⟩
    (∃ trace, Layout.readBack ⟨5, 1⟩ region 2 1 = .ok trace ∧ trace.shape = ⟨1, 2, 1⟩ ∧
      trace.data[1]? = some ⟨0xbf800000⟩) ∧
    Layout.readBack ⟨5, 1⟩ region 2 2 = .error (.recording (.capacityExceeded 4 3)) ∧
    Layout.readBack ⟨5, 0⟩ region 0x8000000000000000 2 =
      .error (.shapeTooLarge ⟨2, 0x8000000000000000, 0⟩) := by
  intro region
  obtain ⟨trace, hread, hshape, -, hdata⟩ :=
    ((readBack_by_room ⟨5, 1⟩ region 2 1).2 (by decide)).2.1 (by decide) (by decide)
  refine ⟨⟨trace, hread, hshape, (hdata 1 (by decide)).trans (by decide +kernel)⟩, ?_, ?_⟩
  · exact ((readBack_by_room ⟨5, 1⟩ region 2 2).2 (by decide)).1 (by decide)
  · exact (readBack_by_room ⟨5, 0⟩ region 0x8000000000000000 2).1 (by decide)

/-- A core without a region gives back one from which a recording without steps should be read, and
cannot be. -/
theorem readBack_of_missing_region_is_out_of_bounds :
    let region := (Recorder.attachOrDisabled none none).region
    (Shape.mk 0 3 2).count? = some 0 ∧ 0 ≤ region.capacity ∧
      Layout.readBack ⟨0, 2⟩ region 3 0 = .error .outOfBounds := by
  intro region
  exact ⟨by decide, Nat.zero_le _, rfl⟩

end Layout

end EnsembleRecording
