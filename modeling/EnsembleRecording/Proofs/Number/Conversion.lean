import EnsembleRecording.Proofs.Number.Single

/-!
# Conversion to Fixed Point

A single-precision number is counted in steps, rounded to a whole number of them, and kept within
the range of a word.  A machine does this in double precision, one operation after the other: no
number is rounded on the way, so the operations come to the same as the one rounded quotient that
`Fixed.ofBinary32` takes.  The way back through double precision comes to `Fixed.toBinary32`.
-/

namespace EnsembleRecording

open FloatFormat

namespace Fixed

theorem toInt_saturate (raw : ℤ) :
    (saturate raw).raw.toInt = max (-2 ^ 31) (min raw (2 ^ 31 - 1)) := by
  have hbounds : -2 ^ 31 ≤ max (-0x80000000) (min raw 0x7fffffff) ∧
      max (-0x80000000) (min raw 0x7fffffff) < 2 ^ 31 := by omega
  rw [saturate, Int32.toInt_ofInt_of_le hbounds.1 hbounds.2]
  norm_num

theorem toInt_raw_bounds (number : Fixed) :
    -2 ^ 31 ≤ number.raw.toInt ∧ number.raw.toInt < 2 ^ 31 :=
  ⟨number.raw.le_toInt, number.raw.toInt_lt⟩

theorem eq_of_toInt_raw_eq {a b : Fixed} (h : a.raw.toInt = b.raw.toInt) : a = b :=
  congrArg Fixed.mk (Int32.toInt_inj.1 h)

theorem saturate_of_ge {raw : ℤ} (h : 2 ^ 31 - 1 ≤ raw) : saturate raw = largest := by
  apply eq_of_toInt_raw_eq
  rw [toInt_saturate]
  change _ = (2 ^ 31 - 1 : ℤ)
  omega

theorem saturate_of_le {raw : ℤ} (h : raw ≤ -2 ^ 31) : saturate raw = smallest := by
  apply eq_of_toInt_raw_eq
  rw [toInt_saturate]
  change _ = (-2 ^ 31 : ℤ)
  omega

theorem unitsPerStep_eq : unitsPerStep = 2 ^ 134 := by
  rw [unitsPerStep, Nat.shiftLeft_eq, Nat.one_mul]
  rfl

theorem unitsPerStep_pos : 0 < unitsPerStep := unitsPerStep_eq ▸ Nat.two_pow_pos _

theorem unitsPerStep_cast_pos : (0 : ℚ) < unitsPerStep := Nat.cast_pos.2 unitsPerStep_pos

theorem unit_eq : single.unit = 1 / (2 ^ 15 * unitsPerStep) := by
  rw [unit_single, unitsPerStep_eq, one_div, Nat.cast_pow, Nat.cast_ofNat, ← pow_add,
    ← zpow_natCast, ← zpow_neg]
  rfl

theorem unitsPerStep_mul_unit : unitsPerStep * single.unit = 1 / 2 ^ 15 := by
  have hpos := unitsPerStep_cast_pos
  rw [unit_eq]
  field_simp

/-- The number of steps to where the exponents end. -/
theorem limit_eq_steps : (single.limit : ℤ) = 2 ^ 143 * unitsPerStep := by
  rw [limit_single, unitsPerStep_eq, Nat.cast_mul, Nat.cast_pow, Nat.cast_ofNat]

theorem nearest_smallest : single.nearest (-2 ^ 31) = -2 ^ 31 := by decide +kernel

/-- The largest number is rounded up, out of the range. -/
theorem nearest_largest : single.nearest (2 ^ 31 - 1) = 2 ^ 31 := by decide +kernel

theorem nearest_raw_bounds (number : Fixed) : -2 ^ 31 ≤ single.nearest number.raw.toInt ∧
    single.nearest number.raw.toInt ≤ 2 ^ 31 := by
  obtain ⟨hlow, hhigh⟩ := number.toInt_raw_bounds
  constructor
  · rw [← nearest_smallest]
    exact single.nearest_mono hlow
  · rw [← nearest_largest]
    exact single.nearest_mono (Int.le_sub_one_of_lt hhigh)

theorem nearest_mul_unitsPerStep (n : ℤ) :
    single.nearest (n * unitsPerStep) = single.nearest n * unitsPerStep := by
  rw [unitsPerStep_eq, Nat.cast_pow, Nat.cast_ofNat, nearest_mul_two_pow]

theorem natAbs_nearest_units_lt (number : Fixed) :
    (single.nearest (number.raw.toInt * unitsPerStep)).natAbs < single.limit := by
  have hbounds := number.nearest_raw_bounds
  rw [nearest_mul_unitsPerStep, Int.natAbs_mul, Int.natAbs_natCast, limit_single,
    unitsPerStep_eq]
  exact Nat.mul_lt_mul_of_pos_right (by omega) (Nat.two_pow_pos _)

theorem isNaN_toBinary32 (number : Fixed) : number.toBinary32.isNaN = false :=
  Binary32.isNaN_ofUnits _

/-- Written in single precision a number is as many steps as single precision can count. -/
theorem units_toBinary32 (number : Fixed) :
    number.toBinary32.units = single.nearest number.raw.toInt * unitsPerStep := by
  rw [toBinary32, Binary32.units_ofUnits number.natAbs_nearest_units_lt.le,
    nearest_mul_unitsPerStep]

theorem value?_toBinary32 (number : Fixed) :
    number.toBinary32.number.value? = some ((single.nearest number.raw.toInt : ℚ) / 2 ^ 15) := by
  rw [toBinary32, Binary32.value?_ofUnits number.natAbs_nearest_units_lt,
    nearest_mul_unitsPerStep, Int.cast_mul, Int.cast_natCast, mul_assoc, unitsPerStep_mul_unit,
    mul_one_div]

/-- The number in double precision. -/
def widened (number : single.Number) : double.Number := number.scale double 1

/-- How many steps the number is, in double precision. -/
def counted (number : single.Number) : double.Number := (widened number).scale double (2 ^ 15)

/-- The whole number of steps. -/
def whole (number : single.Number) : double.Number := (counted number).round

/-- The integer without what is behind the point, or the bound that it lies beyond. -/
def truncate {format : FloatFormat} : format.Number → Fixed
  | .notANumber => zero
  | .infinite isNegative => if isNegative then smallest else largest
  | .finite isNegative pattern _ => saturate (signed isNegative ⌊format.value pattern⌋)

/-- The fixed-point number found by way of double precision. -/
def ofNumber (number : single.Number) : Fixed :=
  if number = .notANumber then zero
  else if .ofInt double (2 ^ 31 - 1) ≤ whole number then largest
  else if whole number ≤ .ofInt double (-2 ^ 31) then smallest
  else truncate (whole number)

/-- The single-precision number nearest to the quotient that double precision gives. -/
def toNumber (number : Fixed) : single.Number :=
  ((Number.ofInt double number.raw.toInt).scale double (1 / 2 ^ 15)).scale single 1

theorem truncate_of_value? {format : FloatFormat} {number : format.Number} {n : ℤ}
    (h : number.value? = some ↑n) : truncate number = saturate n := by
  cases number with
  | notANumber => cases h
  | infinite isNegative => cases h
  | finite isNegative pattern isBelow =>
    have hvalue := Option.some.inj h
    have hsize : format.value pattern = (n.natAbs : ℤ) := by
      rw [← abs_signed isNegative (format.value_nonneg pattern), hvalue, ← Int.cast_abs,
        Int.natCast_natAbs]
    rw [truncate, hsize, Int.floor_intCast]
    rw [hsize, signed_intCast] at hvalue
    rw [Int.cast_inj.1 hvalue]

theorem isValue_double {significand : ℕ} (h : significand ≤ 2 ^ 53) {exponent : ℤ}
    (hlow : -1074 ≤ exponent) (hhigh : exponent ≤ 970) :
    double.IsValue (significand * 2 ^ exponent) := by
  refine double.isValue_mul_zpow h hlow ?_
  change exponent + 52 < 1023
  omega

theorem isValue_natCast {n : ℕ} (h : n ≤ 2 ^ 53) : double.IsValue n := by
  have hvalue : double.IsValue (n * 2 ^ (0 : ℤ)) := isValue_double h (by decide) (by decide)
  rwa [zpow_zero, mul_one] at hvalue

theorem value?_ofInt_double {n : ℤ} (h : n.natAbs ≤ 2 ^ 53) :
    (Number.ofInt double n).value? = some ↑n :=
  Number.value?_ofInt (isValue_natCast h)

/-- A single-precision number is few digits with an exponent far from the ends of double
precision. -/
theorem exists_abs_eq {number : single.Number} {x : ℚ} (hx : number.value? = some x) :
    ∃ (significand : ℕ) (exponent : ℤ), significand < 2 ^ 24 ∧ -149 ≤ exponent ∧ exponent ≤ 104 ∧
      |x| = significand * 2 ^ exponent := by
  cases number with
  | notANumber => cases hx
  | infinite isNegative => cases hx
  | finite isNegative pattern isBelow =>
    obtain rfl := Option.some.inj hx
    obtain ⟨significand, exponent, hsignificand, hlow, hhigh, hvalue⟩ :=
      single.exists_value_eq (by decide) isBelow
    refine ⟨significand, exponent, hsignificand, ?_, ?_, ?_⟩
    · exact hlow
    · exact Int.le_sub_right_of_add_le hhigh
    · rw [abs_signed _ (single.value_nonneg pattern), hvalue]

/-- The whole number of steps is one of double precision: a number that is not whole is small. -/
theorem isValue_whole {x : ℚ} {significand : ℕ} {exponent : ℤ} (hsignificand : significand < 2 ^ 24)
    (hhigh : exponent ≤ 119) (hx : |x| = significand * 2 ^ exponent) {n : ℤ}
    (hn : IsNearestAway x n) : double.IsValue n.natAbs := by
  rcases le_or_gt 0 exponent with hwhole | hbehind
  · obtain ⟨shift, rfl⟩ := Int.eq_ofNat_of_zero_le hwhole
    have hinteger : ∃ m : ℤ, x = m := by
      rcases abs_choice x with hsame | hopposite
      · exact ⟨significand * 2 ^ shift, by rw [← hsame, hx]; push_cast; rfl⟩
      · exact ⟨-(significand * 2 ^ shift), by rw [← neg_neg x, ← hopposite, hx]; push_cast; rfl⟩
    obtain ⟨m, rfl⟩ := hinteger
    rw [hn.eq_of_intCast, Nat.cast_natAbs, Int.cast_abs, hx]
    exact isValue_double (by omega) (by omega) (by omega)
  · have hsmall : |x| ≤ (2 ^ 24 : ℕ) := by
      calc |x| = significand * 2 ^ exponent := hx
        _ ≤ (2 ^ 24 : ℕ) * 1 :=
          mul_le_mul (Nat.cast_le.2 hsignificand.le) (zpow_le_one_of_nonpos₀ one_le_two hbehind.le)
            (zpow_nonneg zero_le_two _) (Nat.cast_nonneg _)
        _ = (2 ^ 24 : ℕ) := mul_one _
    exact isValue_natCast ((hn.natAbs_le hsmall).trans (by norm_num))

/-- In double precision nothing is rounded but the number of steps, to a whole one. -/
theorem steps_exact {number : single.Number} {x : ℚ} (hx : number.value? = some x) {n : ℤ}
    (hn : IsNearestAway (x * 2 ^ 15) n) :
    (widened number).value? = some x ∧ (counted number).value? = some (x * 2 ^ 15) ∧
      (whole number).value? = some ↑n := by
  obtain ⟨significand, exponent, hsignificand, hlow, hhigh, habs⟩ := exists_abs_eq hx
  have hwidened : (widened number).value? = some x := by
    have hvalue : double.IsValue (|x| * 1) := by
      rw [mul_one, habs]
      exact isValue_double (by omega) (by omega) (by omega)
    rw [widened, Number.value?_scale hx hvalue, mul_one]
  have hsteps : |x * 2 ^ 15| = (significand : ℚ) * 2 ^ (exponent + 15) := by
    rw [abs_mul, habs, zpow_add₀ two_ne_zero, abs_of_pos (by positivity), mul_assoc]
    norm_cast
  have hcounted : (counted number).value? = some (x * 2 ^ 15) := by
    have hvalue : double.IsValue (|x| * 2 ^ 15) := by
      rw [← abs_of_pos (show (0 : ℚ) < 2 ^ 15 by positivity), ← abs_mul, hsteps]
      exact isValue_double (by omega) (by omega) (by omega)
    exact Number.value?_scale hwidened hvalue
  exact ⟨hwidened, hcounted,
    Number.value?_round hcounted hn
      (isValue_whole hsignificand (by omega : exponent + 15 ≤ 119) hsteps hn)⟩

theorem ofBinary32_eq_saturate {pattern : Binary32} (h : pattern.isNaN = false) :
    ofBinary32 pattern = saturate (roundHalfAway pattern.units unitsPerStep) := by
  rw [ofBinary32, if_neg (by rw [h]; exact Bool.false_ne_true)]

theorem toInt_ofBinary32 {pattern : Binary32} (h : pattern.isNaN = false) :
    (ofBinary32 pattern).raw.toInt =
      max (-2 ^ 31) (min (roundHalfAway pattern.units unitsPerStep) (2 ^ 31 - 1)) := by
  rw [ofBinary32_eq_saturate h, toInt_saturate]

theorem roundHalfAway_limit : roundHalfAway single.limit unitsPerStep = 2 ^ 143 := by
  rw [limit_eq_steps, roundHalfAway_mul _ unitsPerStep_pos]

theorem isNearestAway_steps {pattern : Binary32} {x : ℚ} (h : pattern.number.value? = some x) :
    IsNearestAway (x * 2 ^ 15) (roundHalfAway pattern.units unitsPerStep) := by
  have hsteps : x * 2 ^ 15 = pattern.units / unitsPerStep := by
    have hpos := unitsPerStep_cast_pos
    rw [(Binary32.eq_of_value?_number h).2, unit_eq]
    field_simp
  rw [hsteps]
  exact isNearestAway_roundHalfAway _ unitsPerStep_pos

/-- The two comparisons and the cast come to one saturation. -/
theorem ofNumber_of_value? {number : single.Number} {n : ℤ} (h : (whole number).value? = some ↑n) :
    ofNumber number = saturate n := by
  have hnumber : number ≠ .notANumber := by
    rintro rfl
    cases h
  have hlargest : Number.ofInt double (2 ^ 31 - 1) ≤ whole number ↔ 2 ^ 31 - 1 ≤ n := by
    rw [Number.le_iff_of_value? (value?_ofInt_double (by decide)) h, Int.cast_le]
  have hsmallest : whole number ≤ Number.ofInt double (-2 ^ 31) ↔ n ≤ -2 ^ 31 := by
    rw [Number.le_iff_of_value? h (value?_ofInt_double (by decide)), Int.cast_le]
  rw [ofNumber, if_neg hnumber]
  simp only [hlargest, hsmallest]
  split_ifs with habove hbelow
  · exact (saturate_of_ge habove).symm
  · exact (saturate_of_le hbelow).symm
  · exact truncate_of_value? h

theorem ofNumber_infinite (isNegative : Bool) :
    ofNumber (.infinite isNegative) = if isNegative then smallest else largest := by
  have hwhole : whole (.infinite isNegative) = .infinite isNegative := rfl
  have hnumber : Number.infinite isNegative ≠ (.notANumber : single.Number) := by simp
  have hlargest := value?_ofInt_double (n := 2 ^ 31 - 1) (by decide)
  have hsmallest := value?_ofInt_double (n := -2 ^ 31) (by decide)
  rw [ofNumber, if_neg hnumber, hwhole]
  cases isNegative with
  | false => exact if_pos (Number.le_infinite hlargest)
  | true =>
    rw [if_neg (Number.not_le_infinite hlargest), if_pos (Number.infinite_le hsmallest)]
    rfl

theorem ofBinary32_of_infinite {pattern : Binary32} {isNegative : Bool}
    (h : pattern.number = .infinite isNegative) :
    ofBinary32 pattern = if isNegative then smallest else largest := by
  rcases pattern.number_cases with ⟨-, hnumber⟩ | ⟨hnan, hnumber, hunits⟩ | ⟨-, hvalue, -⟩
  · rw [hnumber] at h
    cases h
  · rw [hnumber] at h
    obtain rfl := Number.infinite.inj h
    rw [ofBinary32_eq_saturate hnan, hunits]
    cases pattern.isNegative with
    | false => exact saturate_of_ge (by rw [signed_false, roundHalfAway_limit]; norm_num)
    | true =>
      refine saturate_of_le ?_
      rw [signed_true, roundHalfAway_neg, roundHalfAway_limit]
      norm_num
  · rw [h] at hvalue
    cases hvalue

/-- Both ways come to the same, whatever the pattern is. -/
theorem ofNumber_eq_ofBinary32 (pattern : Binary32) :
    ofNumber pattern.number = ofBinary32 pattern := by
  rcases pattern.number_cases with ⟨hnan, hnumber⟩ | ⟨hnan, hnumber, -⟩ | ⟨hnan, hvalue, -⟩
  · rw [hnumber, ofNumber, if_pos rfl, ofBinary32, if_pos hnan]
  · rw [ofBinary32_of_infinite hnumber, hnumber, ofNumber_infinite]
  · have hwhole := (steps_exact hvalue (isNearestAway_steps hvalue)).2.2
    rw [ofNumber_of_value? hwhole, ofBinary32_eq_saturate hnan]

/-- Nor does the way back round in double precision, so its one rounding is that to single
precision. -/
theorem toNumber_eq_number_toBinary32 (number : Fixed) :
    toNumber number = number.toBinary32.number := by
  have hbounds := number.toInt_raw_bounds
  set raw := number.raw.toInt with hraw
  obtain ⟨whole, hwhole, hinteger, hvalue⟩ :=
    Number.exists_nearest_eq (isValue_natCast (n := raw.natAbs) (by omega)) (decide (raw < 0))
  have hquotient : double.IsValue (double.value whole * (1 / 2 ^ 15)) := by
    rw [hvalue]
    have h : double.IsValue (raw.natAbs * 2 ^ (-15 : ℤ)) :=
      isValue_double (by omega) (by decide) (by decide)
    rwa [zpow_neg, ← one_div] at h
  obtain ⟨quotient, hbelow, hdivided, hvalue'⟩ :=
    Number.exists_nearest_eq hquotient (decide (raw < 0))
  have hsign : decide (raw * unitsPerStep < 0) = decide (raw < 0) :=
    decide_eq_decide.2 (lt_iff_lt_of_le_iff_le
      (mul_nonneg_iff_of_pos_right (Int.natCast_pos.2 unitsPerStep_pos)))
  have hmagnitude : ((raw * unitsPerStep).natAbs * single.unit : ℚ) =
      raw.natAbs * (1 / 2 ^ 15) * 1 := by
    rw [Int.natAbs_mul, Int.natAbs_natCast, Nat.cast_mul, mul_assoc, unitsPerStep_mul_unit,
      mul_one]
  rw [toBinary32, Binary32.number_ofUnits, ← hraw, hsign, hmagnitude, toNumber, ← hraw,
    Number.ofInt, hinteger, Number.scale, hdivided, Number.scale, hvalue', hvalue]

/-- What is not a number goes to zero, the infinities to the bounds of the range, and any other
number to the whole number of steps nearest to it, a tie away from zero, or to the bound that this
lies beyond.  In double precision widening and counting are exact, the whole number of steps is
found as it is, and leaving out what is behind the point leaves out nothing. -/
theorem ofBinary32_rounds_and_saturates (pattern : Binary32) :
    (pattern.number = .notANumber → ofBinary32 pattern = zero) ∧
      (pattern.number = .infinite false → ofBinary32 pattern = largest) ∧
      (pattern.number = .infinite true → ofBinary32 pattern = smallest) ∧
      (∀ x, pattern.number.value? = some x → ∃ n : ℤ, IsNearestAway (x * 2 ^ 15) n ∧
        (ofBinary32 pattern).raw.toInt = max (-2 ^ 31) (min n (2 ^ 31 - 1)) ∧
        (widened pattern.number).value? = some x ∧
        (counted pattern.number).value? = some (x * 2 ^ 15) ∧
        (whole pattern.number).value? = some ↑n ∧
        truncate (whole pattern.number) = saturate n) ∧
      ofNumber pattern.number = ofBinary32 pattern := by
  refine ⟨fun h ↦ ?_, ofBinary32_of_infinite, ofBinary32_of_infinite, fun x hx ↦ ?_,
    ofNumber_eq_ofBinary32 pattern⟩
  · rw [← ofNumber_eq_ofBinary32, h, ofNumber, if_pos rfl]
  · have hnearest := isNearestAway_steps hx
    obtain ⟨hwidened, hcounted, hwhole⟩ := steps_exact hx hnearest
    exact ⟨_, hnearest, toInt_ofBinary32 (Binary32.eq_of_value?_number hx).1, hwidened, hcounted,
      hwhole, truncate_of_value? hwhole⟩

/-- One step and a half below zero is two steps below it. -/
theorem ofBinary32_rounds_and_saturates_of_negative_tie :
    (Binary32.mk 0xb8400000).number.value? = some (-3 / 2 ^ 16) ∧
      (ofBinary32 ⟨0xb8400000⟩).raw.toInt = -2 ∧
      (whole (Binary32.mk 0xb8400000).number).value? = some (-2) := by
  have hvalue : (Binary32.mk 0xb8400000).number.value? = some (-3 / 2 ^ 16) := by decide +kernel
  obtain ⟨n, hnearest, hraw, -, -, hwhole, -⟩ :=
    (ofBinary32_rounds_and_saturates ⟨0xb8400000⟩).2.2.2.1 _ hvalue
  have htwo : IsNearestAway (3 / 2) 2 :=
    .of_nonneg (by norm_num) (by norm_num) (by norm_num) (by norm_num)
  have hsteps : (-3 / 2 ^ 16 * 2 ^ 15 : ℚ) = -(3 / 2) := by norm_num
  rw [hsteps] at hnearest
  obtain rfl := hnearest.unique htwo.neg
  exact ⟨hvalue, hraw, by exact_mod_cast hwhole⟩

end Fixed

end EnsembleRecording
