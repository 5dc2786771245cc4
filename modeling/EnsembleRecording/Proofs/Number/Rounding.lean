import EnsembleRecording.Number
import Mathlib

/-!
# Rounded Quotients

Two ways to an integer next to a quotient.  One lets a tie go to the even neighbour, the other to
the neighbour that lies further from zero.  Both stay within half of the denominator, keep order,
and give a whole quotient as it is.
-/

namespace EnsembleRecording

namespace Binary32

variable {numerator denominator : ℕ}

/-- The inversion lemma: the quotient stays as it is with at most half of the denominator left over,
and goes up with at least half. -/
theorem roundHalfEven_cases (numerator denominator : ℕ) :
    (roundHalfEven numerator denominator = numerator / denominator ∧
        2 * (numerator % denominator) ≤ denominator) ∨
      (roundHalfEven numerator denominator = numerator / denominator + 1 ∧
        denominator ≤ 2 * (numerator % denominator)) := by
  simp only [roundHalfEven]
  split
  · exact .inl ⟨rfl, by omega⟩
  · exact .inr ⟨rfl, by omega⟩

theorem div_le_roundHalfEven (numerator denominator : ℕ) :
    numerator / denominator ≤ roundHalfEven numerator denominator := by
  rcases roundHalfEven_cases numerator denominator with ⟨hrounded, -⟩ | ⟨hrounded, -⟩ <;> omega

theorem roundHalfEven_le_of_div_lt {bound : ℕ} (h : numerator / denominator < bound) :
    roundHalfEven numerator denominator ≤ bound := by
  rcases roundHalfEven_cases numerator denominator with ⟨hrounded, -⟩ | ⟨hrounded, -⟩ <;> omega

theorem roundHalfEven_mul (quotient : ℕ) (hpos : 0 < denominator) :
    roundHalfEven (quotient * denominator) denominator = quotient := by
  have hnone : 2 * (quotient * denominator % denominator) < denominator := by
    rw [Nat.mul_mod_left]
    omega
  rw [roundHalfEven, if_pos (.inl hnone), Nat.mul_div_cancel _ hpos]

theorem roundHalfEven_mul_mul {factor : ℕ} (hpos : 0 < factor) :
    roundHalfEven (numerator * factor) (denominator * factor) =
      roundHalfEven numerator denominator := by
  have hscaled : 2 * (numerator % denominator * factor) = 2 * (numerator % denominator) * factor :=
    (Nat.mul_assoc ..).symm
  simp only [roundHalfEven, Nat.mul_div_mul_right _ _ hpos, Nat.mul_mod_mul_right, hscaled,
    Nat.mul_lt_mul_right hpos, Nat.mul_left_inj (Nat.ne_of_gt hpos)]

theorem roundHalfEven_mono {larger : ℕ} (h : numerator ≤ larger) :
    roundHalfEven numerator denominator ≤ roundHalfEven larger denominator := by
  rcases Nat.lt_or_eq_of_le (Nat.div_le_div_right (c := denominator) h) with hless | hsame
  · exact (roundHalfEven_le_of_div_lt hless).trans (div_le_roundHalfEven ..)
  · have hleft : numerator % denominator ≤ larger % denominator := by
      have hsmall := Nat.div_add_mod numerator denominator
      have hlarge := Nat.div_add_mod larger denominator
      rw [hsame] at hsmall
      omega
    simp only [roundHalfEven, hsame]
    split_ifs <;> omega

theorem two_mul_abs_roundHalfEven_sub_le (numerator : ℕ) (hpos : 0 < denominator) :
    2 * |(roundHalfEven numerator denominator * denominator : ℤ) - numerator| ≤ denominator := by
  have hsplit : (numerator : ℤ) = numerator / denominator * denominator + numerator % denominator :=
    (Int.ediv_mul_add_emod ..).symm
  have hleft : ((numerator % denominator : ℕ) : ℤ) < denominator := by
    exact_mod_cast Nat.mod_lt numerator hpos
  rcases roundHalfEven_cases numerator denominator with ⟨hrounded, hhalf⟩ | ⟨hrounded, hhalf⟩
  · have herror : (roundHalfEven numerator denominator * denominator : ℤ) - numerator =
        -((numerator % denominator : ℕ) : ℤ) := by
      rw [hrounded]
      push_cast
      linarith
    rw [herror, abs_neg, Nat.abs_cast]
    exact_mod_cast hhalf
  · have herror : (roundHalfEven numerator denominator * denominator : ℤ) - numerator =
        denominator - ((numerator % denominator : ℕ) : ℤ) := by
      rw [hrounded]
      push_cast
      linarith
    rw [herror, abs_of_nonneg (by omega)]
    omega

end Binary32

/-- The integer nearest to a number; of two that are equally near, the one further from zero. -/
structure IsNearestAway (x : ℚ) (n : ℤ) : Prop where
  nearest : ∀ m : ℤ, |x - n| ≤ |x - m|
  away : ∀ m : ℤ, |x - m| = |x - n| → |m| ≤ |n|

namespace IsNearestAway

variable {x : ℚ} {n : ℤ}

/-- There is no more than one such integer. -/
theorem unique {other : ℤ} (h : IsNearestAway x n) (hother : IsNearestAway x other) :
    n = other := by
  have hnear : |x - n| = |x - other| := le_antisymm (h.nearest other) (hother.nearest n)
  have hsize : |n| = |other| := le_antisymm (hother.away n hnear) (h.away other hnear.symm)
  rcases abs_eq_abs.1 hsize with hsame | hopposite
  · exact hsame
  · have hzero := hother.nearest 0
    rw [hopposite] at hnear
    push_cast at hnear hzero
    rcases abs_eq_abs.1 hnear with hsum | hsum
    · have : (other : ℚ) = 0 := by linarith
      have : other = 0 := by exact_mod_cast this
      omega
    · have hx : x = 0 := by linarith
      rw [hx, sub_zero, abs_zero, zero_sub, abs_neg] at hzero
      have : (other : ℚ) = 0 := abs_eq_zero.1 (le_antisymm hzero (abs_nonneg _))
      have : other = 0 := by exact_mod_cast this
      omega

/-- An integer is nearest to itself. -/
theorem eq_of_intCast {m : ℤ} (h : IsNearestAway m n) : n = m := by
  have hitself := h.nearest m
  rw [sub_self, abs_zero] at hitself
  have hzero : (m : ℚ) - n = 0 := abs_eq_zero.1 (le_antisymm hitself (abs_nonneg _))
  exact_mod_cast (sub_eq_zero.1 hzero).symm

/-- A bound of a number that is an integer is one of the integer nearest to it. -/
theorem natAbs_le (h : IsNearestAway x n) {bound : ℕ} (hx : |x| ≤ bound) : n.natAbs ≤ bound := by
  obtain ⟨hlow, hhigh⟩ := abs_le.1 hx
  by_contra hbeyond
  rcases lt_or_gt_of_ne (show n ≠ 0 by omega) with hneg | hpos
  · have hn : (n : ℚ) < -bound := by exact_mod_cast (show n < -(bound : ℤ) by omega)
    have hnear := h.nearest (-bound)
    rw [abs_of_nonneg (by linarith), abs_of_nonneg (by push_cast; linarith)] at hnear
    push_cast at hnear
    linarith
  · have hn : (bound : ℚ) < n := by exact_mod_cast (show (bound : ℤ) < n by omega)
    have hnear := h.nearest bound
    rw [abs_of_nonpos (by linarith), abs_of_nonpos (by push_cast; linarith)] at hnear
    push_cast at hnear
    linarith

theorem neg (h : IsNearestAway x n) : IsNearestAway (-x) (-n) := by
  have hreflect (m : ℤ) : |-x - m| = |x - (-m : ℤ)| := by
    rw [← abs_neg (x - (-m : ℤ))]
    push_cast
    ring_nf
  refine ⟨fun m ↦ ?_, fun m hm ↦ ?_⟩
  · rw [hreflect, hreflect, neg_neg]
    exact h.nearest _
  · rw [hreflect, hreflect, neg_neg] at hm
    rw [abs_neg, ← abs_neg m]
    exact h.away _ hm

/-- It suffices to be no further above a number from zero on than half, and less below it. -/
theorem of_nonneg (hx : 0 ≤ x) (hn : 0 ≤ n) (habove : n - x ≤ 1 / 2) (hbelow : x - n < 1 / 2) :
    IsNearestAway x n := by
  have hhalf : |x - n| ≤ 1 / 2 := abs_le.2 ⟨by linarith, hbelow.le⟩
  have hfar (m : ℤ) (hm : m ≠ n) : 1 - |x - n| ≤ |x - m| := by
    have hapart : (1 : ℚ) ≤ |(n : ℚ) - m| := by
      exact_mod_cast Int.one_le_abs (sub_ne_zero.2 hm.symm)
    have htriangle := abs_sub_le (n : ℚ) x m
    rw [abs_sub_comm (n : ℚ) x] at htriangle
    linarith
  refine ⟨fun m ↦ ?_, fun m htie ↦ ?_⟩
  · rcases eq_or_ne m n with rfl | hm
    · exact le_rfl
    · linarith [hfar m hm]
  · rcases eq_or_ne m n with rfl | hm
    · exact le_rfl
    · have hequal : |x - n| = 1 / 2 := by linarith [hfar m hm]
      have hup : (n : ℚ) = x + 1 / 2 := by
        rcases abs_eq_abs.1 (hequal.trans (abs_of_pos one_half_pos).symm) with hdown | hup
        · linarith
        · linarith
      have hsize : |(m : ℚ)| ≤ |(n : ℚ)| := by
        calc |(m : ℚ)| = |x - (x - m)| := by rw [sub_sub_cancel]
          _ ≤ |x| + |x - m| := abs_sub _ _
          _ = n := by rw [htie, hequal, abs_of_nonneg hx, hup]
          _ ≤ |(n : ℚ)| := le_abs_self _
      exact_mod_cast hsize

end IsNearestAway

namespace Fixed

variable {numerator : ℤ} {denominator : ℕ}

theorem roundHalfAway_neg (numerator : ℤ) (denominator : ℕ) :
    roundHalfAway (-numerator) denominator = -roundHalfAway numerator denominator := by
  rw [roundHalfAway, roundHalfAway, Int.sign_neg, Int.natAbs_neg, neg_mul]

theorem roundHalfAway_natCast (numerator : ℕ) (hpos : 0 < denominator) :
    roundHalfAway numerator denominator =
      ((2 * numerator + denominator) / (2 * denominator) : ℕ) := by
  rcases Nat.eq_zero_or_pos numerator with rfl | hnumerator
  · have hnone : (2 * 0 + denominator) / (2 * denominator) = 0 := Nat.div_eq_of_lt (by omega)
    rw [hnone, Nat.cast_zero, roundHalfAway, Int.sign_zero, zero_mul]
  · rw [roundHalfAway, Int.sign_eq_one_of_pos (by exact_mod_cast hnumerator), one_mul,
      Int.natAbs_natCast]

/-- What is rounded away from zero lies at most half of the denominator above, and less below. -/
theorem roundHalfAway_natCast_bounds (numerator : ℕ) (hpos : 0 < denominator) :
    0 ≤ roundHalfAway numerator denominator ∧
    2 * (roundHalfAway numerator denominator * denominator) ≤ 2 * numerator + denominator ∧
    2 * numerator < 2 * (roundHalfAway numerator denominator * denominator) + denominator := by
  have hlow := Nat.div_mul_le_self (2 * numerator + denominator) (2 * denominator)
  have hhigh := Nat.lt_div_mul_add (a := 2 * numerator + denominator)
    (show 0 < 2 * denominator by omega)
  rw [roundHalfAway_natCast numerator hpos]
  set quotient := (2 * numerator + denominator) / (2 * denominator)
  have hproduct : quotient * (2 * denominator) = 2 * (quotient * denominator) := by ring
  rw [hproduct] at hlow hhigh
  refine ⟨Int.natCast_nonneg _, by exact_mod_cast hlow, ?_⟩
  have hless : 2 * numerator < 2 * (quotient * denominator) + denominator := by omega
  exact_mod_cast hless

theorem isNearestAway_roundHalfAway (numerator : ℤ) (hpos : 0 < denominator) :
    IsNearestAway (numerator / denominator) (roundHalfAway numerator denominator) := by
  have hnonneg (magnitude : ℕ) :
      IsNearestAway (magnitude / denominator) (roundHalfAway magnitude denominator) := by
    obtain ⟨hsign, hlow, hhigh⟩ := roundHalfAway_natCast_bounds magnitude hpos
    have hdenominator : (0 : ℚ) < denominator := by exact_mod_cast hpos
    have hlow' : 2 * ((roundHalfAway magnitude denominator : ℚ) * denominator) ≤
        2 * magnitude + denominator := by exact_mod_cast hlow
    have hhigh' : (2 * magnitude : ℚ) <
        2 * ((roundHalfAway magnitude denominator : ℚ) * denominator) + denominator := by
      exact_mod_cast hhigh
    apply IsNearestAway.of_nonneg (by positivity) hsign
    · rw [sub_le_iff_le_add, ← sub_le_iff_le_add', le_div_iff₀ hdenominator]
      linarith
    · rw [sub_lt_iff_lt_add, div_lt_iff₀ hdenominator]
      linarith
  obtain ⟨magnitude, rfl | rfl⟩ := numerator.eq_nat_or_neg
  · exact hnonneg magnitude
  · rw [roundHalfAway_neg]
    push_cast
    rw [neg_div]
    exact (hnonneg magnitude).neg

theorem roundHalfAway_mul (quotient : ℤ) (hpos : 0 < denominator) :
    roundHalfAway (quotient * denominator) denominator = quotient := by
  have hrounded := isNearestAway_roundHalfAway (quotient * denominator) hpos
  have hwhole : ((quotient * denominator : ℤ) / denominator : ℚ) = quotient := by
    push_cast
    exact mul_div_cancel_right₀ _ (by exact_mod_cast Nat.ne_of_gt hpos)
  rw [hwhole] at hrounded
  exact hrounded.eq_of_intCast

theorem two_mul_abs_roundHalfAway_sub_le (numerator : ℤ) (hpos : 0 < denominator) :
    2 * |roundHalfAway numerator denominator * denominator - numerator| ≤ denominator := by
  have hnonneg (magnitude : ℕ) :
      2 * |roundHalfAway magnitude denominator * denominator - magnitude| ≤ denominator := by
    obtain ⟨-, hlow, hhigh⟩ := roundHalfAway_natCast_bounds magnitude hpos
    rcases abs_cases (roundHalfAway magnitude denominator * denominator - (magnitude : ℤ)) with
      ⟨hcase, -⟩ | ⟨hcase, -⟩ <;> rw [hcase] <;> linarith
  obtain ⟨magnitude, rfl | rfl⟩ := numerator.eq_nat_or_neg
  · exact hnonneg magnitude
  · rw [roundHalfAway_neg, neg_mul, neg_sub_neg, abs_sub_comm]
    exact hnonneg magnitude

theorem roundHalfAway_mono (hpos : 0 < denominator) {larger : ℤ} (h : numerator ≤ larger) :
    roundHalfAway numerator denominator ≤ roundHalfAway larger denominator := by
  have hnatCast {small large : ℕ} (hle : small ≤ large) :
      roundHalfAway small denominator ≤ roundHalfAway large denominator := by
    rw [roundHalfAway_natCast _ hpos, roundHalfAway_natCast _ hpos]
    exact_mod_cast Nat.div_le_div_right (by omega)
  obtain ⟨left, rfl | rfl⟩ := numerator.eq_nat_or_neg <;>
    obtain ⟨right, rfl | rfl⟩ := larger.eq_nat_or_neg
  · exact hnatCast (by exact_mod_cast h)
  · have hzero : left = 0 ∧ right = 0 := by omega
    rw [hzero.1, hzero.2, Nat.cast_zero, neg_zero]
  · rw [roundHalfAway_neg]
    have hleft := (roundHalfAway_natCast_bounds left hpos).1
    have hright := (roundHalfAway_natCast_bounds right hpos).1
    omega
  · rw [roundHalfAway_neg, roundHalfAway_neg, neg_le_neg_iff]
    exact hnatCast (by omega)

end Fixed

end EnsembleRecording
