import EnsembleRecording.Proofs.Number.Conversion
import EnsembleRecording.Source

/-!
# Quantisation

A single-precision number that is converted to fixed point and back comes to a whole number of
steps.  Two roundings meet there, and no number is changed by both: one that has digits behind the
last step is small enough for its steps to be exact in single precision, and any other is a whole
number of steps as it is.  So the error is half a step at most, and none from 256 on.

The other way round, what single precision cannot hold of a fixed-point number is lost at the first
time, which is at most sixty-four steps, and then nothing more.  Numbers of twenty-four bits, those
of an encoder source among them, lose nothing at all.  And neither conversion turns two numbers
around: each is a chain of roundings and bounds that keep order.
-/

namespace EnsembleRecording

open FloatFormat

namespace Fixed

variable {pattern : Binary32}

/-- Steps few enough are counted exactly. -/
theorem nearest_of_natAbs_le {n : ℤ} (h : n.natAbs ≤ 2 ^ 24) : single.nearest n = n :=
  single.nearest_of_natAbs_le h

/-- The range ends one step before a power of two, but single precision does not. -/
theorem nearest_saturated {n : ℤ} (h : single.nearest n = n) :
    single.nearest (max (-2 ^ 31) (min n (2 ^ 31 - 1))) = max (-2 ^ 31) (min n (2 ^ 31)) := by
  rcases le_or_gt n (-2 ^ 31) with hlow | hlow
  · rw [max_eq_left (by omega), max_eq_left (by omega), nearest_smallest]
  · rcases lt_or_ge n (2 ^ 31) with hhigh | hhigh
    · rw [max_eq_right (by omega), min_eq_left (by omega), min_eq_left hhigh.le,
        max_eq_right hlow.le, h]
    · rw [min_eq_right (by omega), min_eq_right hhigh, max_eq_right (by norm_num),
        max_eq_right (by norm_num), nearest_largest]

/-- From so many steps on, a number is a whole number of them. -/
theorem exists_units_eq_mul (h : 2 ^ 23 * unitsPerStep ≤ pattern.units.natAbs) :
    ∃ n : ℤ, pattern.units = n * unitsPerStep ∧ single.nearest n = n := by
  have hdivides : unitsPerStep ∣ pattern.units.natAbs := by
    rw [unitsPerStep_eq, Binary32.natAbs_units] at *
    exact single.two_pow_dvd_units h
  obtain ⟨n, hn⟩ := Int.natCast_dvd.2 hdivides
  have hunits : pattern.units = n * unitsPerStep := by rw [hn, mul_comm]
  refine ⟨n, hunits, ?_⟩
  have hnearest := pattern.nearest_units
  rw [hunits, nearest_mul_unitsPerStep] at hnearest
  exact mul_right_cancel₀ (Nat.cast_ne_zero.2 unitsPerStep_pos.ne') hnearest

/-- With many steps there is no rounding, only the bounds of the range. -/
theorem nearest_ofBinary32_of_many (hnan : pattern.isNaN = false) {n : ℤ}
    (hunits : pattern.units = n * unitsPerStep) (hn : single.nearest n = n) :
    single.nearest (ofBinary32 pattern).raw.toInt = max (-2 ^ 31) (min n (2 ^ 31)) := by
  rw [toInt_ofBinary32 hnan, hunits, roundHalfAway_mul _ unitsPerStep_pos, nearest_saturated hn]

/-- With few steps there are no bounds, only the rounding to a whole number of them. -/
theorem nearest_ofBinary32_of_few (hnan : pattern.isNaN = false)
    (h : pattern.units.natAbs < 2 ^ 23 * unitsPerStep) :
    single.nearest (ofBinary32 pattern).raw.toInt = roundHalfAway pattern.units unitsPerStep := by
  have hsmall : (roundHalfAway pattern.units unitsPerStep).natAbs ≤ 2 ^ 23 := by
    apply (isNearestAway_roundHalfAway pattern.units unitsPerStep_pos).natAbs_le
    rw [abs_div, Nat.abs_cast, div_le_iff₀ (Nat.cast_pos.2 unitsPerStep_pos), ← Int.cast_abs,
      ← Nat.cast_natAbs]
    exact_mod_cast h.le
  rw [toInt_ofBinary32 hnan, min_eq_left (by omega), max_eq_right (by omega),
    nearest_of_natAbs_le (by omega)]

/-- Few steps are less than 256. -/
theorem abs_units_mul_unit_lt (h : pattern.units.natAbs < 2 ^ 23 * unitsPerStep) :
    |pattern.units * single.unit| < 256 := by
  have hpos := unitsPerStep_cast_pos
  have hunits : |(pattern.units : ℚ)| < 2 ^ 23 * unitsPerStep := by
    rw [← Int.cast_abs, ← Nat.cast_natAbs]
    exact_mod_cast h
  rw [abs_mul, abs_of_pos single.unit_pos, unit_eq, mul_one_div, div_lt_iff₀ (by positivity)]
  linarith

/-- A whole number of steps is off by half of one at most. -/
theorem abs_roundHalfAway_sub_le (units : ℤ) :
    |(roundHalfAway units unitsPerStep : ℚ) / 2 ^ 15 - units * single.unit| ≤ 1 / 2 ^ 16 := by
  have hpos := unitsPerStep_cast_pos
  have herror : 2 * |(roundHalfAway units unitsPerStep : ℚ) * unitsPerStep - units| ≤
      unitsPerStep := by
    exact_mod_cast two_mul_abs_roundHalfAway_sub_le units unitsPerStep_pos
  have hsame : (roundHalfAway units unitsPerStep : ℚ) / 2 ^ 15 - units * single.unit =
      (roundHalfAway units unitsPerStep * unitsPerStep - units) / (2 ^ 15 * unitsPerStep) := by
    rw [unit_eq]
    field_simp
  rw [hsame, abs_div, abs_of_pos (show (0 : ℚ) < 2 ^ 15 * unitsPerStep by positivity),
    div_le_div_iff₀ (by positivity) (by positivity)]
  linarith

/-- The bounds of the range, in steps. -/
theorem max_min_div (n : ℤ) : max (-65536) (min ((n : ℚ) / 2 ^ 15) 65536) =
    ((max (-2 ^ 31) (min n (2 ^ 31)) : ℤ) : ℚ) / 2 ^ 15 := by
  push_cast
  rw [← max_div_div_right (by positivity), ← min_div_div_right (by positivity)]
  norm_num

/-- A whole number of steps and the number that it is have one place in the range, past the ends of
the exponents too. -/
theorem coe_max_min_eq {x : Extended} (hx : pattern.number.extended? = some x) {n : ℤ}
    (hunits : pattern.units = n * unitsPerStep) :
    ((max (-65536) (min ((n : ℚ) / 2 ^ 15) 65536) : ℚ) : Extended) =
      max ((-65536 : ℚ) : Extended) (min x (65536 : ℚ)) := by
  have hsteps : (unitsPerStep : ℤ) ≠ 0 := Nat.cast_ne_zero.2 unitsPerStep_pos.ne'
  rcases (Binary32.extended?_number_cases hx).2 with ⟨rfl, hend⟩ | ⟨rfl, hend⟩ | ⟨rfl, -⟩
  · have hn : n = -2 ^ 143 := by
      rw [hunits, limit_eq_steps, ← neg_mul] at hend
      exact mul_right_cancel₀ hsteps hend
    rw [hn, min_eq_left bot_le, max_eq_left bot_le]
    norm_num
  · have hn : n = 2 ^ 143 := by
      rw [hunits, limit_eq_steps] at hend
      exact mul_right_cancel₀ hsteps hend
    rw [hn, min_eq_right le_top, max_eq_right (Extended.coe_le_coe.2 (by norm_num))]
    norm_num
  · have hvalue : (pattern.units * single.unit : ℚ) = n / 2 ^ 15 := by
      rw [hunits, Int.cast_mul, Int.cast_natCast, mul_assoc, unitsPerStep_mul_unit, mul_one_div]
    rw [hvalue, Extended.coe_mono.map_max, Extended.coe_mono.map_min]

/-- Any single-precision number, an infinity too, is converted to fixed point and back to a number
within half a step of where it lies in the range, and exactly there from 256 on. -/
theorem toBinary32_ofBinary32_within_half_step (hnan : pattern.isNaN = false) :
    ∃ x, pattern.number.extended? = some x ∧
      ∃ y inRange : ℚ, (ofBinary32 pattern).toBinary32.number.value? = some y ∧
        (inRange : Extended) = max ((-65536 : ℚ) : Extended) (min x (65536 : ℚ)) ∧
        |y - inRange| ≤ 1 / 2 ^ 16 ∧
        (x ≤ (-256 : ℚ) ∨ (256 : ℚ) ≤ x → y = inRange) := by
  obtain ⟨x, hx⟩ := Binary32.exists_extended?_eq_some hnan
  refine ⟨x, hx, ?_⟩
  have hplace := (Binary32.extended?_number_cases hx).2
  have hvalue := value?_toBinary32 (ofBinary32 pattern)
  have hlimit := limit_eq_steps
  rcases lt_or_ge pattern.units.natAbs (2 ^ 23 * unitsPerStep) with hfew | hmany
  · obtain ⟨rfl, -⟩ : x = ((pattern.units * single.unit : ℚ) : Extended) ∧
        pattern.units.natAbs < single.limit := by
      rcases hplace with ⟨-, hunits⟩ | ⟨-, hunits⟩ | hfinite
      · omega
      · omega
      · exact hfinite
    rw [nearest_ofBinary32_of_few hnan hfew] at hvalue
    obtain ⟨hlow, hhigh⟩ := abs_lt.1 (abs_units_mul_unit_lt hfew)
    refine ⟨_, _, hvalue, ?_, abs_roundHalfAway_sub_le _, ?_⟩
    · rw [min_eq_left (Extended.coe_le_coe.2 (by linarith)),
        max_eq_right (Extended.coe_le_coe.2 (by linarith))]
    · rintro (hbelow | habove)
      · rw [Extended.coe_le_coe] at hbelow
        linarith
      · rw [Extended.coe_le_coe] at habove
        linarith
  · obtain ⟨n, hunits, hn⟩ := exists_units_eq_mul hmany
    rw [nearest_ofBinary32_of_many hnan hunits hn, ← max_min_div] at hvalue
    refine ⟨_, _, hvalue, coe_max_min_eq hx hunits, ?_, fun _ ↦ rfl⟩
    rw [sub_self, abs_zero]
    positivity

/-- Negative infinity comes back as the smallest number of the range. -/
theorem toBinary32_ofBinary32_within_half_step_of_negative_infinity :
    (Binary32.mk 0xff800000).isNaN = false ∧
      (ofBinary32 ⟨0xff800000⟩).toBinary32.number.value? = some (-65536) := by
  have hbottom : (Binary32.mk 0xff800000).number.extended? = some ⊥ := by decide +kernel
  have hnan : (Binary32.mk 0xff800000).isNaN = false := by decide
  obtain ⟨x, hx, y, inRange, hvalue, hrange, -, hexact⟩ :=
    toBinary32_ofBinary32_within_half_step hnan
  obtain rfl := Option.some.inj (hbottom.symm.trans hx)
  rw [min_eq_left bot_le, max_eq_left bot_le] at hrange
  have hbound : inRange = -65536 := Extended.coe_injective hrange
  rw [hvalue, hexact (.inl bot_le), hbound]
  exact ⟨hnan, rfl⟩

end Fixed

open FloatFormat

namespace Fixed

/-- The number that is read where the given one was written. -/
def requantised (number : Fixed) : Fixed := ofBinary32 number.toBinary32

theorem toInt_requantised (number : Fixed) : number.requantised.raw.toInt =
    max (-2 ^ 31) (min (single.nearest number.raw.toInt) (2 ^ 31 - 1)) := by
  rw [requantised, toInt_ofBinary32 number.isNaN_toBinary32, units_toBinary32,
    roundHalfAway_mul _ unitsPerStep_pos]

/-- A number is written as the steps are that single precision counts of it. -/
theorem toBinary32_eq_of_nearest_eq {a b : Fixed}
    (h : single.nearest a.raw.toInt = single.nearest b.raw.toInt) :
    a.toBinary32 = b.toBinary32 := by
  rw [toBinary32, toBinary32, ← Binary32.ofUnits_nearest, nearest_mul_unitsPerStep, h,
    ← nearest_mul_unitsPerStep, Binary32.ofUnits_nearest]

/-- The largest numbers are written as what lies past the range, which is read as the largest one
and written so again. -/
theorem toBinary32_requantised (number : Fixed) :
    number.requantised.toBinary32 = number.toBinary32 := by
  obtain ⟨hlow, hhigh⟩ := number.nearest_raw_bounds
  apply toBinary32_eq_of_nearest_eq
  rw [toInt_requantised, nearest_saturated (single.nearest_nearest _), min_eq_left hhigh,
    max_eq_right hlow]

/-- Below a power of two, thirty-one bits lose seven in single precision. -/
theorem abs_nearest_sub_le (number : Fixed) :
    |single.nearest number.raw.toInt - number.raw.toInt| ≤ 64 := by
  obtain ⟨hlow, hhigh⟩ := number.toInt_raw_bounds
  rcases hlow.eq_or_lt with hsmallest | hlow
  · rw [← hsmallest, nearest_smallest, sub_self, abs_zero]
    norm_num
  · have hdropped : single.dropped number.raw.toInt.natAbs ≤ 7 := by
      have hbits : number.raw.toInt.natAbs < 2 * 2 ^ 23 * 2 ^ 7 := by omega
      exact single.dropped_le hbits
    have herror := single.two_mul_abs_nearest_sub_le number.raw.toInt
    have hpower : (2 : ℤ) ^ single.dropped number.raw.toInt.natAbs ≤ 2 ^ 7 :=
      pow_le_pow_right₀ one_le_two hdropped
    omega

theorem abs_requantised_sub_le (number : Fixed) :
    |number.requantised.raw.toInt - number.raw.toInt| ≤ 64 := by
  have hbounds := number.toInt_raw_bounds
  have herror := abs_le.1 number.abs_nearest_sub_le
  rw [toInt_requantised, abs_le]
  omega

theorem requantised_of_abs_le {number : Fixed} (h : |number.raw.toInt| ≤ 2 ^ 24) :
    number.requantised = number := by
  have hbounds := abs_le.1 h
  apply eq_of_toInt_raw_eq
  rw [toInt_requantised, nearest_of_natAbs_le (by omega)]
  omega

end Fixed

namespace EncoderSource

/-- The upper seventeen bits of a word, centred on zero. -/
theorem toInt_element (word : UInt32) :
    (element word).raw.toInt = (word.toNat / 2 ^ 15 : ℕ) - 2 ^ 16 := by
  have hword := word.toNat_lt
  have hshift : (word >>> 15).toNat = word.toNat / 2 ^ 15 := by
    rw [UInt32.toNat_shiftRight, Nat.shiftRight_eq_div_pow]
    rfl
  have hupper : (word >>> 15).toInt32.toInt = (word.toNat / 2 ^ 15 : ℕ) := by
    calc (word >>> 15).toInt32.toInt = ((word >>> 15).toNat : ℤ).bmod (2 ^ 32) :=
          BitVec.toInt_eq_toNat_bmod _
      _ = (word.toNat / 2 ^ 15 : ℕ) := by
        rw [hshift, Int.bmod_eq_of_le (by omega) (by omega)]
  have hcentre : (65536 : Int32).toInt = 2 ^ 16 := by decide
  rw [element, Int32.toInt_sub, hupper, hcentre, Int.bmod_eq_of_le (by omega) (by omega)]

theorem abs_element_le (word : UInt32) : |(element word).raw.toInt| ≤ 2 ^ 16 := by
  have hword := word.toNat_lt
  rw [toInt_element, abs_le]
  omega

variable {γ : Type} [WordGenerator γ]

/-- All that is taken comes out of the stream. -/
theorem mem_takeElements {count : ℕ} {generator : γ} {taken : List Fixed}
    {number : Fixed} (h : number ∈ (takeElements count generator taken).1) :
    number ∈ taken ∨ ∃ word, number = element word := by
  induction count generalizing generator taken with
  | zero => exact .inl (List.mem_reverse.1 h)
  | succ count ih =>
    rcases ih h with hmem | hword
    · rcases List.mem_cons.1 hmem with rfl | hmem
      · exact .inr ⟨_, rfl⟩
      · exact .inl hmem
    · exact .inr hword

theorem exists_eq_element_of_mem_next {source : EncoderSource γ} {number : Fixed}
    (h : number ∈ source.next.1) : ∃ word, number = element word := by
  have htaken : number ∈ (takeElements source.dims source.generator []).1 := h
  exact (mem_takeElements htaken).resolve_left List.not_mem_nil

theorem mem_takeVectors {count : ℕ} {source : EncoderSource γ} {taken : List EncoderVector}
    {vector : EncoderVector} (h : vector ∈ (takeVectors count source taken).1) :
    vector ∈ taken ∨ ∃ earlier : EncoderSource γ, vector = earlier.next.1 := by
  induction count generalizing source taken with
  | zero => exact .inl (List.mem_reverse.1 h)
  | succ count ih =>
    rcases ih h with hmem | hnext
    · rcases List.mem_cons.1 hmem with rfl | hmem
      · exact .inr ⟨_, rfl⟩
      · exact .inl hmem
    · exact .inr hnext

theorem exists_eq_element_of_mem_run {source : EncoderSource γ} {steps neurons : ℕ}
    {vector : EncoderVector} (hvector : vector ∈ (source.run steps neurons).1) {number : Fixed}
    (h : number ∈ vector) : ∃ word, number = element word := by
  obtain ⟨earlier, rfl⟩ := (mem_takeVectors hvector).resolve_left List.not_mem_nil
  exact exists_eq_element_of_mem_next h

end EncoderSource

namespace Fixed

theorem isLE_compare_iff (a b : Fixed) : (compare a b).isLE ↔ a.raw.toInt ≤ b.raw.toInt := by
  change (compare a.raw b.raw).isLE ↔ _
  rw [Std.isLE_compare, Int32.le_iff_toInt_le]

theorem compare_eq_lt_iff (a b : Fixed) : compare a b = .lt ↔ a.raw.toInt < b.raw.toInt := by
  change compare a.raw b.raw = .lt ↔ _
  rw [Std.compare_eq_lt, Int32.lt_iff_toInt_lt]

/-- A step more or less is never undone by what single precision rounds. -/
theorem toBinary32_le_toBinary32 {a b : Fixed} (h : a.raw.toInt ≤ b.raw.toInt) :
    a.toBinary32.number ≤ b.toBinary32.number := by
  rw [Number.le_iff_of_value? a.value?_toBinary32 b.value?_toBinary32,
    div_le_div_iff_of_pos_right (by positivity), Int.cast_le]
  exact single.nearest_mono h

theorem toInt_ofBinary32_mono {x y : Binary32} (h : x.number ≤ y.number) :
    (ofBinary32 x).raw.toInt ≤ (ofBinary32 y).raw.toInt := by
  obtain ⟨hx, hy, hunits⟩ := Binary32.units_le_of_number_le h
  rw [toInt_ofBinary32 hx, toInt_ofBinary32 hy]
  exact max_le_max_left _ (min_le_min_right _ (roundHalfAway_mono unitsPerStep_pos hunits))

/-- Conversion in either direction keeps the order, the infinities and the two zeros included.  So
where numbers of one kind are in strict order, what they are converted from was so too. -/
theorem conversions_preserve_order :
    (∀ a b : Fixed, (compare a b).isLE → a.toBinary32.number ≤ b.toBinary32.number) ∧
      (∀ x y : Binary32, x.number ≤ y.number → (compare (ofBinary32 x) (ofBinary32 y)).isLE) ∧
      (∀ a b : Fixed, a.toBinary32.number < b.toBinary32.number → compare a b = .lt) ∧
      (∀ x y : Binary32, x.isNaN = false → y.isNaN = false →
        compare (ofBinary32 x) (ofBinary32 y) = .lt → x.number < y.number) := by
  refine ⟨fun a b h ↦ ?_, fun x y h ↦ ?_, fun a b h ↦ ?_, fun x y hx hy h ↦ ?_⟩
  · exact toBinary32_le_toBinary32 ((isLE_compare_iff a b).1 h)
  · exact (isLE_compare_iff _ _).2 (toInt_ofBinary32_mono h)
  · rw [compare_eq_lt_iff]
    by_contra hge
    have hback := toBinary32_le_toBinary32 (not_lt.1 hge)
    have ha := Number.extended?_of_value? a.value?_toBinary32
    have hb := Number.extended?_of_value? b.value?_toBinary32
    rw [Number.lt_iff_of_extended? ha hb] at h
    rw [Number.le_iff_of_extended? hb ha] at hback
    exact absurd hback h.not_ge
  · rw [compare_eq_lt_iff] at h
    obtain ⟨u, hu⟩ := Binary32.exists_extended?_eq_some hx
    obtain ⟨v, hv⟩ := Binary32.exists_extended?_eq_some hy
    rw [Number.lt_iff_of_extended? hu hv]
    by_contra hge
    have hback := toInt_ofBinary32_mono ((Number.le_iff_of_extended? hv hu).2 (not_lt.1 hge))
    omega

/-- The two zeros lie at one place, a step from the largest number is not seen in single precision,
and infinity is behind all numbers. -/
theorem conversions_preserve_order_of_zeros_and_bounds :
    (compare (ofBinary32 ⟨0x80000000⟩) (ofBinary32 ⟨0⟩)).isLE ∧
      (compare (ofBinary32 ⟨0⟩) (ofBinary32 ⟨0x80000000⟩)).isLE ∧
      (Fixed.mk 0x7ffffffe).toBinary32.number ≤ largest.toBinary32.number ∧
      (Binary32.mk 0xbf800000).number < (Binary32.mk 0x7f800000).number := by
  obtain ⟨hwritten, hread, -, hstrict⟩ := conversions_preserve_order
  exact ⟨hread _ _ (by decide +kernel), hread _ _ (by decide +kernel), hwritten _ _ (by decide),
    hstrict _ _ (by decide) (by decide) (by decide +kernel)⟩

end Fixed

end EnsembleRecording
