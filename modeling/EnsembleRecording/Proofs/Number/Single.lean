import EnsembleRecording.Proofs.Number.Arithmetic

/-!
# Single Precision as a Format

The patterns of `Binary32` are those of the format with eight exponent bits and twenty-three
fraction bits.  The units of a pattern are those that the format gives it, the pattern of a number
of units is the one nearest to it in the format, and numbers compare as their units do.
-/

namespace EnsembleRecording

open FloatFormat

namespace FloatFormat

theorem infinity_single : single.infinity = 0x7f800000 := by norm_num [infinity, single]

theorem limit_single : single.limit = 2 ^ 143 * 2 ^ 134 := by
  have hexponent : single.fractionBits + (2 ^ single.exponentBits - 2) = 143 + 134 := by
    norm_num [single]
  rw [single.limit_eq (by decide), hexponent, Nat.pow_add]

theorem unit_single : single.unit = 2 ^ (-149 : ℤ) :=
  congrArg (2 ^ ·) (by norm_num [bias, single])

end FloatFormat

namespace Binary32

theorem unitsOfBits_eq (bits : ℕ) : unitsOfBits bits = single.units bits := by
  rw [unitsOfBits, FloatFormat.units, Nat.shiftLeft_eq]
  rfl

theorem bitsOfUnits_eq (units : ℕ) :
    bitsOfUnits units = min (single.nearestPattern units) single.infinity := by
  have hpower : 1 <<< (units.log2 - 23) = 2 ^ single.dropped units := by
    rw [Nat.shiftLeft_eq, Nat.one_mul]
    rfl
  rw [bitsOfUnits, nearestPattern, infinity_single, hpower]
  rfl

/-- What a pattern expresses. -/
def number (pattern : Binary32) : single.Number :=
  .ofPattern single pattern.isNegative pattern.magnitudeBits

variable {pattern other : Binary32} {units : ℤ}

theorem units_eq_signed (pattern : Binary32) :
    pattern.units = signed pattern.isNegative (single.units pattern.magnitudeBits : ℤ) := by
  rw [Binary32.units, unitsOfBits_eq]
  rfl

theorem natAbs_units (pattern : Binary32) :
    pattern.units.natAbs = single.units pattern.magnitudeBits := by
  rw [units_eq_signed, natAbs_signed]

/-- What a pattern is, by its units. -/
theorem number_cases (pattern : Binary32) :
    (pattern.isNaN = true ∧ pattern.number = .notANumber) ∨
      (pattern.isNaN = false ∧ pattern.number = .infinite pattern.isNegative ∧
        pattern.units = signed pattern.isNegative (single.limit : ℤ)) ∨
      (pattern.isNaN = false ∧ pattern.number.value? = some (pattern.units * single.unit) ∧
        pattern.units.natAbs < single.limit) := by
  rcases lt_trichotomy pattern.magnitudeBits single.infinity with hfinite | hinfinite | hnone
  · right; right
    refine ⟨?_, ?_, ?_⟩
    · exact decide_eq_false (by rw [infinity_single] at hfinite; exact hfinite.le.not_gt)
    · rw [number, Number.ofPattern, dif_pos hfinite, Number.value?, value_eq_units_mul_unit,
        signed_mul, units_eq_signed, ← signed_intCast, Int.cast_natCast]
    · rw [natAbs_units]
      exact single.units_strictMono hfinite
  · right; left
    refine ⟨?_, ?_, ?_⟩
    · exact decide_eq_false (by rw [hinfinite, infinity_single]; exact lt_irrefl _)
    · rw [number, Number.ofPattern, dif_neg hinfinite.not_lt, if_pos hinfinite]
    · rw [units_eq_signed, hinfinite, limit]
  · left
    refine ⟨?_, ?_⟩
    · exact decide_eq_true (by rw [infinity_single] at hnone; exact hnone)
    · rw [number, Number.ofPattern, dif_neg hnone.not_gt, if_neg hnone.ne']

theorem eq_of_value?_number {x : ℚ} (h : pattern.number.value? = some x) :
    pattern.isNaN = false ∧ x = pattern.units * single.unit := by
  rcases number_cases pattern with ⟨-, hnone⟩ | ⟨-, hinfinite, -⟩ | ⟨hnan, hvalue, -⟩
  · rw [hnone] at h
    cases h
  · rw [hinfinite] at h
    cases h
  · rw [hvalue] at h
    exact ⟨hnan, (Option.some.inj h).symm⟩

/-- The units of a pattern are a value of the format, so they are not rounded. -/
theorem nearest_units (pattern : Binary32) : single.nearest pattern.units = pattern.units := by
  rw [FloatFormat.nearest, natAbs_units, round_units, ← natAbs_units, Int.sign_mul_natAbs]

theorem bits_ofUnits (units : ℤ) :
    (ofUnits units).magnitudeBits = bitsOfUnits units.natAbs ∧
      (ofUnits units).isNegative = decide (units < 0) := by
  have hbound : bitsOfUnits units.natAbs ≤ 0x7f800000 := Nat.min_le_right _ _
  have hsize : UInt32.size = 0x100000000 := rfl
  rw [magnitudeBits, isNegative, ofUnits]
  by_cases hunits : units < 0
  · rw [if_pos hunits, UInt32.toNat_ofNat_of_lt' (by omega)]
    exact ⟨by omega, decide_eq_decide.2 ⟨fun _ ↦ hunits, fun _ ↦ by omega⟩⟩
  · rw [if_neg hunits, UInt32.toNat_ofNat_of_lt' (by omega)]
    exact ⟨by omega, decide_eq_decide.2 ⟨fun _ ↦ by omega, fun h ↦ absurd h hunits⟩⟩

theorem number_ofUnits (units : ℤ) : (ofUnits units).number =
    .nearest single (decide (units < 0)) (units.natAbs * single.unit) := by
  rw [number, (bits_ofUnits units).1, (bits_ofUnits units).2, bitsOfUnits_eq,
    Number.nearest_units_mul_unit]

theorem isNaN_ofUnits (units : ℤ) : (ofUnits units).isNaN = false := by
  rw [isNaN, (bits_ofUnits units).1]
  exact decide_eq_false (Nat.min_le_right _ _).not_gt

theorem ofUnits_nearest (units : ℤ) : ofUnits (single.nearest units) = ofUnits units := by
  have hmagnitude : bitsOfUnits (single.nearest units).natAbs = bitsOfUnits units.natAbs := by
    rw [bitsOfUnits_eq, bitsOfUnits_eq, natAbs_nearest, FloatFormat.round, nearestPattern_units]
  simp only [ofUnits, hmagnitude, single.nearest_neg_iff]

/-- Up to where the exponents end, the nearest value is found. -/
theorem units_ofUnits (h : (single.nearest units).natAbs ≤ single.limit) :
    (ofUnits units).units = single.nearest units := by
  rw [natAbs_nearest, FloatFormat.round, limit, single.units_strictMono.le_iff_le] at h
  rw [units_eq_signed, (bits_ofUnits units).1, (bits_ofUnits units).2, bitsOfUnits_eq,
    min_eq_left h]
  by_cases hunits : units < 0
  · rw [decide_eq_true hunits, FloatFormat.nearest, Int.sign_eq_neg_one_of_neg hunits, neg_one_mul,
      signed_true, FloatFormat.round]
  · obtain ⟨magnitude, rfl⟩ := Int.eq_ofNat_of_zero_le (not_lt.1 hunits)
    rw [decide_eq_false hunits, nearest_natCast, Int.natAbs_natCast, signed_false,
      FloatFormat.round]

theorem value?_ofUnits (h : (single.nearest units).natAbs < single.limit) :
    (ofUnits units).number.value? = some (single.nearest units * single.unit) := by
  have hunits := units_ofUnits h.le
  rcases number_cases (ofUnits units) with ⟨hnan, -⟩ | ⟨-, -, hinfinite⟩ | ⟨-, hvalue, -⟩
  · rw [isNaN_ofUnits] at hnan
    cases hnan
  · rw [hunits] at hinfinite
    rw [hinfinite, natAbs_signed] at h
    exact absurd h (lt_irrefl _)
  · rw [hvalue, hunits]

/-- Where a number lies, by its units. -/
theorem extended?_number_cases {x : Extended} (h : pattern.number.extended? = some x) :
    pattern.isNaN = false ∧
      ((x = ⊥ ∧ pattern.units = -single.limit) ∨ (x = ⊤ ∧ pattern.units = single.limit) ∨
        (x = ((pattern.units * single.unit : ℚ) : Extended) ∧
          pattern.units.natAbs < single.limit)) := by
  rcases number_cases pattern with ⟨-, hnone⟩ | ⟨hnan, hnumber, hunits⟩ | ⟨hnan, hvalue, hunits⟩
  · rw [hnone] at h
    cases h
  · rw [hnumber] at h
    obtain rfl := Option.some.inj h
    refine ⟨hnan, ?_⟩
    rw [hunits]
    cases pattern.isNegative
    · exact .inr (.inl ⟨rfl, rfl⟩)
    · exact .inl ⟨rfl, rfl⟩
  · rw [Number.extended?_of_value? hvalue] at h
    obtain rfl := Option.some.inj h
    exact ⟨hnan, .inr (.inr ⟨rfl, hunits⟩)⟩

theorem exists_extended?_eq_some (h : pattern.isNaN = false) :
    ∃ x, pattern.number.extended? = some x := by
  rcases number_cases pattern with ⟨hnan, -⟩ | ⟨-, hnumber, -⟩ | ⟨-, hvalue, -⟩
  · rw [h] at hnan
    cases hnan
  · exact ⟨_, by rw [hnumber]; rfl⟩
  · exact ⟨_, Number.extended?_of_value? hvalue⟩

/-- Numbers in order have their units in order, those of infinities included. -/
theorem units_le_of_number_le (h : pattern.number ≤ other.number) :
    pattern.isNaN = false ∧ other.isNaN = false ∧ pattern.units ≤ other.units := by
  obtain ⟨x, hx, y, hy, hle⟩ := h
  obtain ⟨hpattern, hleft⟩ := extended?_number_cases hx
  obtain ⟨hother, hright⟩ := extended?_number_cases hy
  refine ⟨hpattern, hother, ?_⟩
  rcases hleft with ⟨rfl, hunits⟩ | ⟨rfl, hunits⟩ | ⟨rfl, hunits⟩
  · omega
  · rcases hright with ⟨rfl, hunits'⟩ | ⟨rfl, hunits'⟩ | ⟨rfl, hunits'⟩
    · simp at hle
    · omega
    · exact absurd hle (WithBot.coe_lt_coe.2 (WithTop.coe_lt_top _)).not_ge
  · rcases hright with ⟨rfl, hunits'⟩ | ⟨rfl, hunits'⟩ | ⟨rfl, hunits'⟩
    · exact absurd hle (WithBot.bot_lt_coe _).not_ge
    · omega
    · rw [Extended.coe_le_coe, mul_le_mul_iff_left₀ single.unit_pos] at hle
      exact_mod_cast hle

end Binary32

end EnsembleRecording
