import EnsembleRecording.Proofs.Number.Format

/-!
# Floating-Point Arithmetic

A format expresses finite numbers, two infinities, and what is not a number.  An operation gives the
number nearest to its exact result, a tie to the even pattern, and an infinity from halfway past the
largest number on.  Where the format has the exact result, that is what the operation gives.
-/

namespace EnsembleRecording

/-- The rational numbers between two infinities. -/
abbrev Extended := WithBot (WithTop ℚ)

theorem Extended.coe_le_coe {x y : ℚ} : (x : Extended) ≤ y ↔ x ≤ y :=
  WithBot.coe_le_coe.trans WithTop.coe_le_coe

theorem Extended.coe_injective : Function.Injective fun x : ℚ ↦ (x : Extended) :=
  WithBot.coe_injective.comp WithTop.coe_injective

theorem Extended.coe_mono : Monotone fun x : ℚ ↦ (x : Extended) :=
  fun _ _ ↦ Extended.coe_le_coe.2

namespace FloatFormat

/-- The magnitude with its sign. -/
def signed {α : Type} [Neg α] (isNegative : Bool) (magnitude : α) : α :=
  if isNegative then -magnitude else magnitude

@[simp]
theorem signed_false {α : Type} [Neg α] (magnitude : α) : signed false magnitude = magnitude := rfl

@[simp]
theorem signed_true {α : Type} [Neg α] (magnitude : α) : signed true magnitude = -magnitude := rfl

theorem natAbs_signed (isNegative : Bool) (magnitude : ℕ) :
    (signed isNegative (magnitude : ℤ)).natAbs = magnitude := by
  cases isNegative <;> simp

theorem abs_signed (isNegative : Bool) {magnitude : ℚ} (h : 0 ≤ magnitude) :
    |signed isNegative magnitude| = magnitude := by
  cases isNegative <;> simp [abs_of_nonneg h]

theorem signed_mul (isNegative : Bool) (magnitude factor : ℚ) :
    signed isNegative (magnitude * factor) = signed isNegative magnitude * factor := by
  cases isNegative <;> simp

theorem signed_intCast (isNegative : Bool) (magnitude : ℤ) :
    signed isNegative (magnitude : ℚ) = (signed isNegative magnitude : ℤ) := by
  cases isNegative <;> simp

section

variable (format : FloatFormat)

theorem value_nonneg (pattern : ℕ) : 0 ≤ format.value pattern := by
  rw [value_eq_units_mul_unit]
  exact mul_nonneg (Nat.cast_nonneg _) format.unit_pos.le

/-- The format has a number of this magnitude. -/
def IsValue (magnitude : ℚ) : Prop :=
  ∃ pattern < format.infinity, format.value pattern = magnitude

/-- The units of infinity, if the exponents went on: no number has so many. -/
def limit : ℕ := format.units format.infinity

theorem limit_eq (h : 0 < format.exponentBits) :
    format.limit = 2 ^ (format.fractionBits + (2 ^ format.exponentBits - 2)) := by
  have hexponents : 2 ^ format.exponentBits - 1 = 2 ^ format.exponentBits - 2 + 1 := by
    have := Nat.pow_le_pow_right two_pos (show 1 ≤ format.exponentBits from h)
    omega
  rw [limit, infinity, hexponents, Nat.add_one_mul,
    format.units_mul_two_pow_add (.inr le_rfl) (by omega), Nat.pow_add]

/-- The format has every magnitude of few enough digits, between the last digit of the smallest
numbers and the first of the largest. -/
theorem isValue_mul_zpow {significand : ℕ} (h : significand ≤ 2 * 2 ^ format.fractionBits)
    {exponent : ℤ} (hlow : 1 - format.bias - format.fractionBits ≤ exponent)
    (hhigh : exponent + format.fractionBits < format.bias) :
    format.IsValue (significand * 2 ^ exponent) := by
  obtain ⟨shift, hshift⟩ := Int.le.dest hlow
  have hbias : format.bias = 2 ^ (format.exponentBits - 1) - 1 := rfl
  have hbits : 0 < format.exponentBits := by
    by_contra hnone
    have hzero : format.exponentBits = 0 := by omega
    rw [hzero] at hbias
    norm_num at hbias
    omega
  have hdouble : 2 ^ format.exponentBits = 2 * 2 ^ (format.exponentBits - 1) := by
    rw [← Nat.pow_succ', Nat.succ_eq_add_one, Nat.sub_add_cancel hbits]
  obtain ⟨pattern, hpattern⟩ := format.exists_units_eq h shift
  refine ⟨pattern, ?_, ?_⟩
  · rw [← format.units_strictMono.lt_iff_lt, hpattern, ← limit, format.limit_eq hbits]
    calc significand * 2 ^ shift
        ≤ 2 * 2 ^ format.fractionBits * 2 ^ shift := Nat.mul_le_mul_right _ h
      _ = 2 ^ (format.fractionBits + (shift + 1)) := by ring
      _ < 2 ^ (format.fractionBits + (2 ^ format.exponentBits - 2)) :=
        Nat.pow_lt_pow_right one_lt_two (by omega)
  · rw [value_eq_units_mul_unit, hpattern, unit, ← hshift, zpow_add₀ two_ne_zero, zpow_natCast]
    push_cast
    ring

/-- Below infinity a pattern is few digits with an exponent that the format has. -/
theorem exists_value_eq (hbits : 1 < format.exponentBits) {pattern : ℕ}
    (h : pattern < format.infinity) :
    ∃ (significand : ℕ) (exponent : ℤ), significand < 2 * 2 ^ format.fractionBits ∧
      1 - format.bias - format.fractionBits ≤ exponent ∧
      exponent + format.fractionBits ≤ format.bias ∧
      format.value pattern = significand * 2 ^ exponent := by
  obtain ⟨exponent, significand, rfl, hlow, hhigh⟩ := format.exists_significand pattern
  have hbias : format.bias = 2 ^ (format.exponentBits - 1) - 1 := rfl
  have hdouble : 2 ^ format.exponentBits = 2 * 2 ^ (format.exponentBits - 1) := by
    rw [← Nat.pow_succ', Nat.succ_eq_add_one, Nat.sub_add_cancel hbits.le]
  have htwo : 2 ^ 1 ≤ 2 ^ (format.exponentBits - 1) :=
    Nat.pow_le_pow_right two_pos (by omega)
  have hexponent : exponent = 0 ∨ exponent + 1 < 2 ^ format.exponentBits - 1 := by
    rcases hlow with hzero | hnormal
    · exact .inl hzero
    · right
      refine Nat.lt_of_mul_lt_mul_right (a := 2 ^ format.fractionBits) ?_
      rw [infinity] at h
      rw [Nat.add_one_mul]
      omega
  refine ⟨significand, 1 - format.bias - format.fractionBits + exponent, hhigh, by omega, ?_, ?_⟩
  · omega
  · rw [value_eq_units_mul_unit, format.units_mul_two_pow_add hlow hhigh.le, unit,
      zpow_add₀ two_ne_zero, zpow_natCast]
    push_cast
    ring

end

/-- What a format expresses.  There is a zero of either sign. -/
inductive Number (format : FloatFormat)
  | notANumber
  | infinite (isNegative : Bool)
  | finite (isNegative : Bool) (pattern : ℕ) (isBelow : pattern < format.infinity)
deriving DecidableEq

namespace Number

variable {format target : FloatFormat}

/-- The number that a pattern with a sign stands for. -/
def ofPattern (format : FloatFormat) (isNegative : Bool) (pattern : ℕ) : format.Number :=
  if h : pattern < format.infinity then finite isNegative pattern h
  else if pattern = format.infinity then infinite isNegative
  else notANumber

/-- The rational number that is expressed, if there is one. -/
def value? : format.Number → Option ℚ
  | finite isNegative pattern _ => some (signed isNegative (format.value pattern))
  | _ => none

/-- The place among the rational numbers and infinities.  The two zeros have the same one. -/
def extended? : format.Number → Option Extended
  | notANumber => none
  | infinite isNegative => some (if isNegative then ⊥ else ⊤)
  | finite isNegative pattern _ =>
    some ((signed isNegative (format.value pattern) : ℚ) : Extended)

theorem extended?_of_value? {number : format.Number} {x : ℚ} (h : number.value? = some x) :
    number.extended? = some (x : Extended) := by
  cases number with
  | notANumber => cases h
  | infinite isNegative => cases h
  | finite isNegative pattern isBelow =>
    obtain rfl := Option.some.inj h
    rfl

/-- The order of the numbers.  What is not a number does not compare. -/
instance : LE format.Number :=
  ⟨fun a b ↦ ∃ x ∈ a.extended?, ∃ y ∈ b.extended?, x ≤ y⟩

instance : LT format.Number :=
  ⟨fun a b ↦ ∃ x ∈ a.extended?, ∃ y ∈ b.extended?, x < y⟩

theorem le_iff_of_extended? {a b : format.Number} {x y : Extended} (ha : a.extended? = some x)
    (hb : b.extended? = some y) : a ≤ b ↔ x ≤ y := by
  have hle : a ≤ b ↔ ∃ u ∈ a.extended?, ∃ v ∈ b.extended?, u ≤ v := Iff.rfl
  simp only [hle, ha, hb, Option.mem_some_iff, exists_eq_left']

theorem lt_iff_of_extended? {a b : format.Number} {x y : Extended} (ha : a.extended? = some x)
    (hb : b.extended? = some y) : a < b ↔ x < y := by
  have hlt : a < b ↔ ∃ u ∈ a.extended?, ∃ v ∈ b.extended?, u < v := Iff.rfl
  simp only [hlt, ha, hb, Option.mem_some_iff, exists_eq_left']

instance : DecidableLE format.Number := fun a b ↦
  decidable_of_iff (a.extended?.any fun x ↦ b.extended?.any fun y ↦ decide (x ≤ y)) (by
    simp only [Option.any_eq_true, decide_eq_true_eq, LE.le, Option.mem_def])

theorem le_iff_of_value? {a b : format.Number} {x y : ℚ} (ha : a.value? = some x)
    (hb : b.value? = some y) : a ≤ b ↔ x ≤ y := by
  rw [le_iff_of_extended? (extended?_of_value? ha) (extended?_of_value? hb), Extended.coe_le_coe]

theorem infinite_le {number : format.Number} {x : ℚ} (h : number.value? = some x) :
    infinite true ≤ number :=
  ⟨_, rfl, _, extended?_of_value? h, bot_le⟩

theorem le_infinite {number : format.Number} {x : ℚ} (h : number.value? = some x) :
    number ≤ infinite false :=
  ⟨_, extended?_of_value? h, _, rfl, le_top⟩

theorem not_le_infinite {number : format.Number} {x : ℚ} (h : number.value? = some x) :
    ¬number ≤ infinite true := by
  rintro ⟨u, hu, v, hv, hle⟩
  rw [extended?_of_value? h] at hu
  obtain rfl := Option.some.inj hu
  obtain rfl := Option.some.inj hv
  exact absurd hle (WithBot.bot_lt_coe _).not_ge

/-- The number nearest to a magnitude with a sign, a tie to the even pattern.  Digits are dropped as
the whole part has too many of them. -/
def nearest (format : FloatFormat) (isNegative : Bool) (magnitude : ℚ) : format.Number :=
  let units := magnitude / format.unit
  let dropped := format.dropped ⌊units⌋₊
  let significand := Binary32.roundHalfEven units.num.natAbs (units.den * 2 ^ dropped)
  ofPattern format isNegative
    (min (dropped * 2 ^ format.fractionBits + significand) format.infinity)

/-- A whole number of units is rounded as such. -/
theorem nearest_units_mul_unit (isNegative : Bool) (units : ℕ) :
    nearest format isNegative (units * format.unit) =
      ofPattern format isNegative (min (format.nearestPattern units) format.infinity) := by
  simp only [nearest, mul_div_cancel_right₀ _ format.unit_pos.ne', Nat.floor_natCast,
    Rat.num_natCast, Rat.den_natCast, Int.natAbs_natCast, one_mul, nearestPattern]

/-- What the format has is not rounded. -/
theorem exists_nearest_eq {magnitude : ℚ} (h : format.IsValue magnitude) (isNegative : Bool) :
    ∃ pattern isBelow, nearest format isNegative magnitude = finite isNegative pattern isBelow ∧
      format.value pattern = magnitude := by
  obtain ⟨pattern, hpattern, rfl⟩ := h
  refine ⟨pattern, hpattern, ?_, rfl⟩
  rw [value_eq_units_mul_unit, nearest_units_mul_unit, nearestPattern_units,
    min_eq_left hpattern.le, ofPattern, dif_pos hpattern]

theorem value?_nearest {magnitude : ℚ} (h : format.IsValue magnitude) (isNegative : Bool) :
    (nearest format isNegative magnitude).value? = some (signed isNegative magnitude) := by
  obtain ⟨pattern, isBelow, hnearest, hvalue⟩ := exists_nearest_eq h isNegative
  rw [hnearest, value?, hvalue]

/-- The integer in the format. -/
def ofInt (format : FloatFormat) (n : ℤ) : format.Number :=
  nearest format (decide (n < 0)) n.natAbs

theorem value?_ofInt {n : ℤ} (h : format.IsValue n.natAbs) : (ofInt format n).value? = some ↑n := by
  have hsigned : signed (decide (n < 0)) (n.natAbs : ℚ) = n := by
    rw [signed, Nat.cast_natAbs]
    by_cases hn : n < 0
    · rw [if_pos (decide_eq_true hn), abs_of_neg hn, Int.cast_neg, neg_neg]
    · rw [if_neg (by simpa using hn), abs_of_nonneg (not_lt.1 hn)]
  rw [ofInt, value?_nearest h, hsigned]

/-- The product with a positive number, in a format that may be another one.  With the factor one
this is conversion. -/
def scale (target : FloatFormat) (factor : ℚ) : format.Number → target.Number
  | notANumber => notANumber
  | infinite isNegative => infinite isNegative
  | finite isNegative pattern _ => nearest target isNegative (format.value pattern * factor)

theorem value?_scale {number : format.Number} {x factor : ℚ} (hx : number.value? = some x)
    (h : target.IsValue (|x| * factor)) :
    (number.scale target factor).value? = some (x * factor) := by
  cases number with
  | notANumber => cases hx
  | infinite isNegative => cases hx
  | finite isNegative pattern isBelow =>
    obtain rfl := Option.some.inj hx
    rw [abs_signed _ (format.value_nonneg pattern)] at h
    rw [scale, value?_nearest h, signed_mul]

/-- The integer nearest to a number, a tie away from zero. -/
def round : format.Number → format.Number
  | finite isNegative pattern _ =>
    let magnitude := format.value pattern
    nearest format isNegative (Fixed.roundHalfAway magnitude.num magnitude.den)
  | number => number

theorem value?_round {number : format.Number} {x : ℚ} (hx : number.value? = some x) {n : ℤ}
    (hn : IsNearestAway x n) (h : format.IsValue n.natAbs) : number.round.value? = some ↑n := by
  cases number with
  | notANumber => cases hx
  | infinite isNegative => cases hx
  | finite isNegative pattern isBelow =>
    obtain rfl := Option.some.inj hx
    set magnitude := format.value pattern
    set rounded := Fixed.roundHalfAway magnitude.num magnitude.den
    have hnearest : IsNearestAway magnitude rounded := by
      have hquotient := Fixed.isNearestAway_roundHalfAway magnitude.num magnitude.den_pos
      rwa [Rat.num_div_den] at hquotient
    have hsigned : signed isNegative rounded = n := by
      cases isNegative
      · exact hnearest.unique hn
      · exact hnearest.neg.unique hn
    have hsign : 0 ≤ rounded := by
      have hnum : 0 ≤ magnitude.num := Rat.num_nonneg.2 (format.value_nonneg pattern)
      have hbounds := Fixed.roundHalfAway_natCast_bounds magnitude.num.natAbs magnitude.den_pos
      rw [Int.natAbs_of_nonneg hnum] at hbounds
      exact hbounds.1
    have hmagnitude : (n.natAbs : ℚ) = rounded := by
      rw [Nat.cast_natAbs, ← hsigned, Int.cast_abs, ← signed_intCast,
        abs_signed _ (Int.cast_nonneg hsign)]
    rw [hmagnitude] at h
    rw [round, value?_nearest h, signed_intCast, hsigned]

end Number

end FloatFormat

end EnsembleRecording
