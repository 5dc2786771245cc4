import EnsembleRecording.Proofs.Number.Rounding

/-!
# Floating-Point Formats

A floating-point format has a sign bit, so many bits for an exponent and so many for a fraction.
Without its sign a pattern is a natural number, and the values of the patterns are multiples of the
least positive one.  As multiples they go up in step with the patterns, and rounding to a pattern
keeps order, leaves a value as it is, and stays within half of the last digit kept.  None of this
depends on where the exponents end.
-/

namespace EnsembleRecording

/-- The numbers of bits that a format has beside the sign bit. -/
structure FloatFormat where
  exponentBits : ℕ
  fractionBits : ℕ

namespace FloatFormat

def single : FloatFormat := ⟨8, 23⟩

def double : FloatFormat := ⟨11, 52⟩

section

variable (format : FloatFormat)

/-- The pattern of infinity without a sign.  Patterns of numbers lie below it. -/
def infinity : ℕ := (2 ^ format.exponentBits - 1) * 2 ^ format.fractionBits

/-- The exponent of one, as it is stored. -/
def bias : ℕ := 2 ^ (format.exponentBits - 1) - 1

/-- The value of a pattern without a sign.  With the least exponent there is no digit before the
fraction, and the exponent above it is used. -/
def value (pattern : ℕ) : ℚ :=
  let exponent := pattern / 2 ^ format.fractionBits
  let fraction : ℚ := (pattern % 2 ^ format.fractionBits : ℕ) / 2 ^ format.fractionBits
  if exponent = 0 then fraction * 2 ^ (1 - format.bias : ℤ)
  else (1 + fraction) * 2 ^ (exponent - format.bias : ℤ)

/-- The least positive value. -/
def unit : ℚ := 2 ^ (1 - format.bias - format.fractionBits : ℤ)

/-- The value of a pattern as a multiple of the least positive one. -/
def units (pattern : ℕ) : ℕ :=
  if pattern < 2 ^ format.fractionBits then pattern
  else (2 ^ format.fractionBits + pattern % 2 ^ format.fractionBits) *
    2 ^ (pattern / 2 ^ format.fractionBits - 1)

theorem unit_pos : 0 < format.unit := zpow_pos two_pos _

theorem value_eq_units_mul_unit (pattern : ℕ) :
    format.value pattern = format.units pattern * format.unit := by
  have hfraction : (2 : ℚ) ^ format.fractionBits ≠ 0 := pow_ne_zero _ two_ne_zero
  have hunit : (2 : ℚ) ^ (1 - format.bias : ℤ) = 2 ^ format.fractionBits * format.unit := by
    rw [unit, ← zpow_natCast, ← zpow_add₀ two_ne_zero]
    ring_nf
  have hbelow := Nat.div_eq_zero_iff_lt (x := pattern) (Nat.two_pow_pos format.fractionBits)
  by_cases hleast : pattern < 2 ^ format.fractionBits
  · rw [value, units, if_pos (hbelow.2 hleast), if_pos hleast, Nat.mod_eq_of_lt hleast, hunit]
    field_simp
  · have hexponent : pattern / 2 ^ format.fractionBits ≠ 0 := fun h ↦ hleast (hbelow.1 h)
    obtain ⟨exponent, hsucc⟩ := Nat.exists_eq_succ_of_ne_zero hexponent
    have hscale : (2 : ℚ) ^ ((pattern / 2 ^ format.fractionBits : ℕ) - format.bias : ℤ) =
        2 ^ exponent * 2 ^ (1 - format.bias : ℤ) := by
      rw [hsucc, ← zpow_natCast, ← zpow_add₀ two_ne_zero]
      push_cast
      ring_nf
    rw [value, units, if_neg hexponent, if_neg hleast, hscale, hunit, hsucc, Nat.succ_sub_one]
    push_cast
    field_simp

/-- A pattern is its significand, counted from the exponent that it has. -/
theorem units_mul_two_pow_add {exponent significand : ℕ}
    (hlow : exponent = 0 ∨ 2 ^ format.fractionBits ≤ significand)
    (hhigh : significand ≤ 2 * 2 ^ format.fractionBits) :
    format.units (exponent * 2 ^ format.fractionBits + significand) =
      significand * 2 ^ exponent := by
  have hpos := Nat.two_pow_pos format.fractionBits
  rw [units]
  generalize 2 ^ format.fractionBits = one at *
  rcases Nat.lt_or_ge significand one with hless | hnormal
  · obtain rfl := hlow.resolve_right (Nat.not_le_of_lt hless)
    rw [Nat.zero_mul, Nat.zero_add, if_pos hless, Nat.pow_zero, Nat.mul_one]
  · have hsum : exponent * one + significand = (significand - one) + one * (exponent + 1) := by
      rw [Nat.mul_succ, Nat.mul_comm one]
      omega
    rw [if_neg (by rw [hsum, Nat.mul_succ]; omega)]
    rcases Nat.lt_or_eq_of_le hhigh with hless | rfl
    · have hfraction : significand - one < one := by omega
      rw [hsum, Nat.add_mul_mod_self_left, Nat.mod_eq_of_lt hfraction,
        Nat.add_mul_div_left _ _ hpos, Nat.div_eq_of_lt hfraction, Nat.zero_add,
        Nat.add_sub_cancel, Nat.add_sub_cancel' hnormal]
    · have hcarried : exponent * one + 2 * one = one * (exponent + 2) := by ring
      rw [hcarried, Nat.mul_mod_right, Nat.mul_div_cancel_left _ hpos, Nat.add_zero]
      have hexponent : exponent + 2 - 1 = exponent + 1 := by omega
      rw [hexponent, Nat.pow_succ]
      ring

theorem exists_significand (pattern : ℕ) :
    ∃ exponent significand, pattern = exponent * 2 ^ format.fractionBits + significand ∧
      (exponent = 0 ∨ 2 ^ format.fractionBits ≤ significand) ∧
      significand < 2 * 2 ^ format.fractionBits := by
  have hsplit := Nat.div_add_mod' pattern (2 ^ format.fractionBits)
  have hfraction := Nat.mod_lt pattern (Nat.two_pow_pos format.fractionBits)
  generalize 2 ^ format.fractionBits = one at *
  rcases Nat.eq_zero_or_pos (pattern / one) with hzero | hpos
  · refine ⟨0, pattern, by rw [Nat.zero_mul, Nat.zero_add], .inl rfl, ?_⟩
    rw [hzero] at hsplit
    omega
  · obtain ⟨exponent, hexponent⟩ := Nat.exists_eq_succ_of_ne_zero (Nat.ne_of_gt hpos)
    refine ⟨exponent, one + pattern % one, ?_, .inr (Nat.le_add_right ..), by omega⟩
    rw [hexponent, Nat.succ_mul] at hsplit
    omega

theorem units_strictMono : StrictMono format.units := by
  apply strictMono_nat_of_lt_succ
  intro pattern
  obtain ⟨exponent, significand, rfl, hlow, hhigh⟩ := format.exists_significand pattern
  have hnext : exponent = 0 ∨ 2 ^ format.fractionBits ≤ significand + 1 := by omega
  rw [Nat.add_assoc, format.units_mul_two_pow_add hlow hhigh.le,
    format.units_mul_two_pow_add hnext hhigh]
  exact Nat.mul_lt_mul_of_pos_right (Nat.lt_succ_self _) (Nat.two_pow_pos _)

/-- Every multiple with few enough digits is a value. -/
theorem exists_units_eq {significand : ℕ} (h : significand ≤ 2 * 2 ^ format.fractionBits)
    (exponent : ℕ) : ∃ pattern, format.units pattern = significand * 2 ^ exponent := by
  induction exponent generalizing significand with
  | zero =>
    refine ⟨significand, ?_⟩
    have hunits : format.units (0 * 2 ^ format.fractionBits + significand) = significand * 2 ^ 0 :=
      format.units_mul_two_pow_add (.inl rfl) h
    rwa [Nat.zero_mul, Nat.zero_add] at hunits
  | succ exponent ih =>
    rcases Nat.lt_or_ge significand (2 ^ format.fractionBits) with hless | hnormal
    · obtain ⟨pattern, hpattern⟩ := ih (show 2 * significand ≤ _ by omega)
      refine ⟨pattern, ?_⟩
      rw [hpattern, Nat.pow_succ]
      ring
    · exact ⟨_, format.units_mul_two_pow_add (.inr hnormal) h⟩

/-- A value with all digits is a multiple of the last one. -/
theorem two_pow_dvd_units {pattern exponent : ℕ}
    (h : 2 ^ format.fractionBits * 2 ^ exponent ≤ format.units pattern) :
    2 ^ exponent ∣ format.units pattern := by
  obtain ⟨shift, significand, rfl, hlow, hhigh⟩ := format.exists_significand pattern
  rw [format.units_mul_two_pow_add hlow hhigh.le] at h ⊢
  have hless : 2 ^ exponent < 2 * 2 ^ shift := by
    refine Nat.lt_of_mul_lt_mul_left (a := 2 ^ format.fractionBits) (h.trans_lt ?_)
    calc significand * 2 ^ shift
        < 2 * 2 ^ format.fractionBits * 2 ^ shift :=
          Nat.mul_lt_mul_of_pos_right hhigh (Nat.two_pow_pos _)
      _ = 2 ^ format.fractionBits * (2 * 2 ^ shift) := by ring
  rw [← Nat.pow_succ', Nat.pow_lt_pow_iff_right one_lt_two, Nat.lt_succ_iff] at hless
  exact (Nat.pow_dvd_pow 2 hless).mul_left _

theorem log2_mul_two_pow {n : ℕ} (hn : n ≠ 0) (exponent : ℕ) :
    (n * 2 ^ exponent).log2 = n.log2 + exponent := by
  rw [Nat.log2_eq_iff (Nat.mul_ne_zero hn (Nat.two_pow_pos _).ne'), Nat.pow_add,
    Nat.add_right_comm, Nat.pow_add]
  exact ⟨Nat.mul_le_mul_right _ (Nat.log2_self_le hn),
    Nat.mul_lt_mul_of_pos_right n.lt_log2_self (Nat.two_pow_pos _)⟩

/-- The number of digits that a number of units has to lose. -/
def dropped (units : ℕ) : ℕ := units.log2 - format.fractionBits

/-- The pattern nearest to a number of units, a tie to the even one, if exponents never end. -/
def nearestPattern (units : ℕ) : ℕ :=
  format.dropped units * 2 ^ format.fractionBits +
    Binary32.roundHalfEven units (2 ^ format.dropped units)

/-- The value nearest to a number of units. -/
def round (units : ℕ) : ℕ := format.units (format.nearestPattern units)

/-- Without so many digits the number would have no more than are kept. -/
theorem dropped_le {units exponent : ℕ} (h : units < 2 * 2 ^ format.fractionBits * 2 ^ exponent) :
    format.dropped units ≤ exponent := by
  rcases Nat.eq_zero_or_pos units with rfl | hpos
  · simp [dropped]
  · rw [← Nat.pow_succ', ← Nat.pow_add, ← Nat.log2_lt hpos.ne'] at h
    rw [dropped]
    omega

theorem div_two_pow_dropped_lt (units : ℕ) :
    units / 2 ^ format.dropped units < 2 * 2 ^ format.fractionBits := by
  have hlog := units.lt_log2_self
  have hexponent : units.log2 + 1 ≤ format.fractionBits + 1 + format.dropped units := by
    rw [dropped]
    omega
  rw [Nat.div_lt_iff_lt_mul (Nat.two_pow_pos _), ← Nat.pow_succ', ← Nat.pow_add]
  exact hlog.trans_le (Nat.pow_le_pow_right two_pos hexponent)

/-- Where digits are dropped, all the others are kept. -/
theorem dropped_eq_zero_or (units : ℕ) :
    format.dropped units = 0 ∨
      2 ^ format.fractionBits ≤ units / 2 ^ format.dropped units := by
  rcases Nat.eq_zero_or_pos (format.dropped units) with hnone | hsome
  · exact .inl hnone
  · right
    have hlog : format.fractionBits + format.dropped units = units.log2 := by
      rw [dropped] at hsome ⊢
      omega
    have hunits : units ≠ 0 := by
      rintro rfl
      simp [dropped] at hsome
    rw [Nat.le_div_iff_mul_le (Nat.two_pow_pos _), ← Nat.pow_add, hlog]
    exact Nat.log2_self_le hunits

theorem round_eq (units : ℕ) :
    format.round units = Binary32.roundHalfEven units (2 ^ format.dropped units) *
      2 ^ format.dropped units := by
  have hlow := Binary32.div_le_roundHalfEven units (2 ^ format.dropped units)
  apply format.units_mul_two_pow_add
  · exact (format.dropped_eq_zero_or units).imp id fun hnormal ↦ hnormal.trans hlow
  · exact Binary32.roundHalfEven_le_of_div_lt (format.div_two_pow_dropped_lt units)

theorem nearestPattern_units (pattern : ℕ) :
    format.nearestPattern (format.units pattern) = pattern := by
  obtain ⟨exponent, significand, rfl, hlow, hhigh⟩ := format.exists_significand pattern
  rw [format.units_mul_two_pow_add hlow hhigh.le]
  have hdropped : format.dropped (significand * 2 ^ exponent) = exponent := by
    rcases Nat.eq_zero_or_pos significand with rfl | hpos
    · have hzero : exponent = 0 := hlow.resolve_right (by simp)
      rw [hzero]
      simp [dropped]
    · have hbelow : significand.log2 < format.fractionBits + 1 := by
        rw [Nat.log2_lt (Nat.ne_of_gt hpos), Nat.pow_succ']
        exact hhigh
      have habove : exponent = 0 ∨ format.fractionBits ≤ significand.log2 :=
        hlow.imp id fun hnormal ↦ (Nat.le_log2 (Nat.ne_of_gt hpos)).2 hnormal
      rw [dropped, log2_mul_two_pow (Nat.ne_of_gt hpos)]
      omega
  rw [nearestPattern, hdropped, Binary32.roundHalfEven_mul _ (Nat.two_pow_pos _)]

theorem dropped_mono : Monotone format.dropped := by
  intro units larger h
  rw [dropped, dropped, Nat.log2_eq_log_two, Nat.log2_eq_log_two]
  exact Nat.sub_le_sub_right (Nat.log_mono_right h) _

theorem nearestPattern_mono : Monotone format.nearestPattern := by
  intro units larger h
  rw [nearestPattern, nearestPattern]
  rcases Nat.lt_or_eq_of_le (format.dropped_mono h) with hmore | hsame
  · have hlow : Binary32.roundHalfEven units (2 ^ format.dropped units) ≤
        2 * 2 ^ format.fractionBits :=
      Binary32.roundHalfEven_le_of_div_lt (format.div_two_pow_dropped_lt units)
    have hhigh : 2 ^ format.fractionBits ≤
        Binary32.roundHalfEven larger (2 ^ format.dropped larger) :=
      ((format.dropped_eq_zero_or larger).resolve_left (by omega)).trans
        (Binary32.div_le_roundHalfEven ..)
    calc format.dropped units * 2 ^ format.fractionBits +
          Binary32.roundHalfEven units (2 ^ format.dropped units)
        ≤ format.dropped units * 2 ^ format.fractionBits + 2 * 2 ^ format.fractionBits :=
          Nat.add_le_add_left hlow _
      _ = (format.dropped units + 1) * 2 ^ format.fractionBits + 2 ^ format.fractionBits := by ring
      _ ≤ format.dropped larger * 2 ^ format.fractionBits +
          Binary32.roundHalfEven larger (2 ^ format.dropped larger) :=
          Nat.add_le_add (Nat.mul_le_mul_right _ hmore) hhigh
  · rw [hsame]
    exact Nat.add_le_add_left (Binary32.roundHalfEven_mono h) _

theorem round_mono : Monotone format.round :=
  format.units_strictMono.monotone.comp format.nearestPattern_mono

theorem round_units (pattern : ℕ) : format.round (format.units pattern) = format.units pattern := by
  rw [round, nearestPattern_units]

theorem round_round (units : ℕ) : format.round (format.round units) = format.round units :=
  format.round_units _

/-- A number with few enough digits is not rounded. -/
theorem round_mul_two_pow_of_le {significand : ℕ} (h : significand ≤ 2 * 2 ^ format.fractionBits)
    (exponent : ℕ) : format.round (significand * 2 ^ exponent) = significand * 2 ^ exponent := by
  obtain ⟨pattern, hpattern⟩ := format.exists_units_eq h exponent
  rw [← hpattern, round_units]

theorem round_of_le {units : ℕ} (h : units ≤ 2 * 2 ^ format.fractionBits) :
    format.round units = units := by
  simpa using format.round_mul_two_pow_of_le h 0

/-- The digits are the same ones at every scale. -/
theorem round_mul_two_pow (units exponent : ℕ) :
    format.round (units * 2 ^ exponent) = format.round units * 2 ^ exponent := by
  rcases Nat.le_or_ge units (2 * 2 ^ format.fractionBits) with hfew | hmany
  · rw [format.round_mul_two_pow_of_le hfew, format.round_of_le hfew]
  · have hpos : units ≠ 0 := by
      have := Nat.two_pow_pos format.fractionBits
      omega
    have hlog : format.fractionBits + 1 ≤ units.log2 := by
      rwa [Nat.le_log2 hpos, Nat.pow_succ']
    have hdropped : format.dropped (units * 2 ^ exponent) = format.dropped units + exponent := by
      rw [dropped, dropped, log2_mul_two_pow hpos]
      omega
    rw [round_eq, round_eq, hdropped, Nat.pow_add,
      Binary32.roundHalfEven_mul_mul (Nat.two_pow_pos _), Nat.mul_assoc]

theorem two_mul_abs_round_sub_le (units : ℕ) :
    2 * |(format.round units : ℤ) - units| ≤ 2 ^ format.dropped units := by
  have herror := Binary32.two_mul_abs_roundHalfEven_sub_le units
    (Nat.two_pow_pos (format.dropped units))
  rw [round_eq]
  exact_mod_cast herror

/-- The value nearest to a number of units of either sign. -/
def nearest (units : ℤ) : ℤ := units.sign * format.round units.natAbs

theorem round_eq_zero_iff (units : ℕ) : format.round units = 0 ↔ units = 0 := by
  refine ⟨fun hzero ↦ ?_, fun hzero ↦ by rw [hzero, format.round_of_le (Nat.zero_le _)]⟩
  by_contra hunits
  have hone : format.round 1 = 1 := format.round_of_le (by
    have := Nat.two_pow_pos format.fractionBits
    omega)
  have hmono := format.round_mono (Nat.pos_of_ne_zero hunits)
  simp only [Nat.succ_eq_add_one, Nat.zero_add] at hmono
  omega

theorem nearest_natCast (units : ℕ) : format.nearest units = format.round units := by
  rcases Nat.eq_zero_or_pos units with rfl | hpos
  · rw [(format.round_eq_zero_iff 0).2 rfl, nearest, Nat.cast_zero, Int.sign_zero, Int.zero_mul]
  · rw [nearest, Int.sign_eq_one_of_pos (by exact_mod_cast hpos), Int.one_mul, Int.natAbs_natCast]

theorem nearest_neg (units : ℤ) : format.nearest (-units) = -format.nearest units := by
  rw [nearest, nearest, Int.sign_neg, Int.natAbs_neg, neg_mul]

theorem natAbs_nearest (units : ℤ) : (format.nearest units).natAbs = format.round units.natAbs := by
  obtain ⟨magnitude, rfl | rfl⟩ := units.eq_nat_or_neg
  · rw [nearest_natCast, Int.natAbs_natCast, Int.natAbs_natCast]
  · rw [nearest_neg, nearest_natCast, Int.natAbs_neg, Int.natAbs_neg, Int.natAbs_natCast,
      Int.natAbs_natCast]

theorem nearest_nearest (units : ℤ) :
    format.nearest (format.nearest units) = format.nearest units := by
  obtain ⟨magnitude, rfl | rfl⟩ := units.eq_nat_or_neg
  · rw [nearest_natCast, nearest_natCast, round_round]
  · rw [nearest_neg, nearest_neg, nearest_natCast, nearest_natCast, round_round]

theorem nearest_neg_iff {units : ℤ} : format.nearest units < 0 ↔ units < 0 := by
  obtain ⟨magnitude, rfl | rfl⟩ := units.eq_nat_or_neg
  · rw [nearest_natCast]
    omega
  · have hzero := format.round_eq_zero_iff magnitude
    rw [nearest_neg, nearest_natCast]
    omega

theorem nearest_mono : Monotone format.nearest := by
  intro units larger h
  obtain ⟨left, rfl | rfl⟩ := units.eq_nat_or_neg <;>
    obtain ⟨right, rfl | rfl⟩ := larger.eq_nat_or_neg
  · rw [nearest_natCast, nearest_natCast]
    exact_mod_cast format.round_mono (by exact_mod_cast h)
  · have hzero : left = 0 ∧ right = 0 := by omega
    rw [hzero.1, hzero.2, Nat.cast_zero, neg_zero]
  · rw [nearest_neg, nearest_natCast, nearest_natCast]
    omega
  · rw [nearest_neg, nearest_neg, nearest_natCast, nearest_natCast, neg_le_neg_iff]
    exact_mod_cast format.round_mono (by omega)

theorem nearest_of_natAbs_le {units : ℤ} (h : units.natAbs ≤ 2 * 2 ^ format.fractionBits) :
    format.nearest units = units := by
  rw [nearest, format.round_of_le h, Int.sign_mul_natAbs]

theorem nearest_mul_two_pow (units : ℤ) (exponent : ℕ) :
    format.nearest (units * 2 ^ exponent) = format.nearest units * 2 ^ exponent := by
  have hpower : (2 ^ exponent : ℤ).sign = 1 := Int.sign_eq_one_of_pos (by positivity)
  have hsign : (units * 2 ^ exponent).sign = units.sign := by
    rw [Int.sign_mul, hpower, Int.mul_one]
  have hmagnitude : (units * 2 ^ exponent).natAbs = units.natAbs * 2 ^ exponent := by
    rw [Int.natAbs_mul, Int.natAbs_pow]
    rfl
  rw [nearest, nearest, hsign, hmagnitude, round_mul_two_pow]
  push_cast
  ring

theorem two_mul_abs_nearest_sub_le (units : ℤ) :
    2 * |format.nearest units - units| ≤ 2 ^ format.dropped units.natAbs := by
  obtain ⟨magnitude, rfl | rfl⟩ := units.eq_nat_or_neg
  · rw [nearest_natCast, Int.natAbs_natCast]
    exact format.two_mul_abs_round_sub_le magnitude
  · rw [nearest_neg, nearest_natCast, neg_sub_neg, abs_sub_comm, Int.natAbs_neg,
      Int.natAbs_natCast]
    exact format.two_mul_abs_round_sub_le magnitude

end

end FloatFormat

end EnsembleRecording
