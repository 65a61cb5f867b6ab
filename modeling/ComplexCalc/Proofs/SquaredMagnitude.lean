import ComplexCalc.Proofs.DoubleArithmetic
import ComplexCalc.Proofs.NaNFree

/-!
# SquaredMagnitude — the denominator of a division

A division by a number has the number's squared magnitude for its denominator, which is what the number times its
conjugate comes to (section 2).  The numerator of a number divided by itself is the same double, so the quotient is one
where the squared magnitude is finite, and zero where it overflows (section 3).
-/

namespace ComplexCalc.Number

open Binary64

/-! ## 1. Parts that are cleared -/

section
variable {x y : Float}

theorem orZero_of_isNaN (h : x.isNaN) : orZero x = 0.0 :=
  if_pos h

theorem orZero_of_number (h : x.isNaN = false) : orZero x = x :=
  if_neg (Bool.eq_false_iff.mp h)

/-- A difference of equal doubles is zero, or is no number and cleared to zero. -/
theorem orZero_sub_self (x : Float) : orZero (x - x) = 0.0 := by
  by_cases hfinite : x.isFinite
  · rw [sub_self_of_isFinite hfinite]
    exact orZero_of_number plain_zero.isNumber
  · exact orZero_of_isNaN (isNaN_sub_self hfinite)

theorem orZero_sub_self_div (hsign : signBit y = false) (hnumber : y.isNaN = false) (hzero : (y == 0.0) = false) :
    orZero ((x - x) / y) = 0.0 := by
  by_cases hfinite : x.isFinite
  · rw [sub_self_of_isFinite hfinite, Binary64.zero_div hsign hnumber hzero]
    exact orZero_of_number plain_zero.isNumber
  · exact orZero_of_isNaN (isNaN_div_left (isNaN_sub_self hfinite))

end

/-! ## 2. A number times its conjugate -/

variable {z q : Number}

theorem signBit_normSq (z : Number) : signBit z.normSq = false :=
  signBit_add (signBit_mul_self z.re) (signBit_mul_self z.im)

theorem NaNFree.normSq (h : z.NaNFree) : z.normSq.isNaN = false :=
  isNaN_add (signBit_mul_self z.re) (signBit_mul_self z.im) (isNaN_mul_self h.re) (isNaN_mul_self h.im)

theorem im_mul_conj (z : Number) : (z * z.conj).im = 0.0 := by
  -- the products are equal but for the sign, so their sum is the difference of a double and itself
  show orZero (z.re * -z.im + z.im * z.re) = 0.0
  rw [Binary64.mul_neg, Binary64.mul_comm z.im, Binary64.neg_add_self, orZero_sub_self]

theorem NaNFree.re_mul_conj (h : z.NaNFree) : (z * z.conj).re = z.normSq := by
  show orZero (z.re * z.re - z.im * -z.im) = z.normSq
  rw [Binary64.mul_neg, Binary64.sub_neg]
  exact orZero_of_number h.normSq

theorem sameFloat_zero (x : Float) : sameFloat x 0.0 = (x == 0.0) := by
  have hzero : (0.0 : Float).isNaN = false := plain_zero.isNumber
  rw [sameFloat, hzero, Bool.and_false, Bool.or_false]

theorem div?_eq_none_iff (a b : Number) : a.div? b = none ↔ (b.normSq == 0.0) = true := by
  unfold div?
  dsimp only
  split
  · exact iff_of_true rfl ‹_›
  · exact iff_of_false nofun ‹_›

/-- The imaginary part of a number times its conjugate is positive zero.  If the number has no NaN, then the real part
is its squared magnitude, so division by the number fails exactly if the product is zero. -/
theorem mul_conj_eq_normSq (z : Number) :
    (z * z.conj).im = 0.0 ∧
      (z.NaNFree → (z * z.conj).re = z.normSq ∧ ∀ a : Number, a.div? z = none ↔ (z * z.conj).same .zero) := by
  refine ⟨im_mul_conj z, fun h => ⟨h.re_mul_conj, fun a => ?_⟩⟩
  have him : sameFloat (z * z.conj).im 0.0 = true := by
    rw [im_mul_conj]
    decide
  rw [div?_eq_none_iff, ← h.re_mul_conj, ← sameFloat_zero]
  show _ ↔ (sameFloat (z * z.conj).re 0.0 && sameFloat (z * z.conj).im 0.0) = true
  rw [him, Bool.and_true]

/-- The real number `2 ^ (biased - 1023)`, for an exponent between those of subnormal numbers and of infinity. -/
def powerOfTwo (biased : UInt64) : Number :=
  ⟨Float.ofBits (biased <<< 52), 0.0⟩

/-- The square of `2 ^ -767` vanishes, so nothing can be divided by that number. -/
theorem mul_conj_eq_normSq_vanishes :
    (powerOfTwo 256).NaNFree ∧ (powerOfTwo 256 * (powerOfTwo 256).conj).re = (powerOfTwo 256).normSq ∧
      sentinel.div? (powerOfTwo 256) = none := by
  have hfree : (powerOfTwo 256).NaNFree := ⟨by decide +kernel, by decide +kernel⟩
  obtain ⟨hre, hdiv⟩ := (mul_conj_eq_normSq (powerOfTwo 256)).2 hfree
  exact ⟨hfree, hre, (hdiv sentinel).mpr (by decide +kernel)⟩

/-! ## 3. A number divided by itself -/

/-- The numerator of the real part is the denominator, that of the imaginary part a difference of equal doubles. -/
theorem NaNFree.div?_self_eq (hfree : z.NaNFree) (h : z.div? z = some q) :
    q = ⟨orZero (z.normSq / z.normSq), 0.0⟩ ∧ (z.normSq == 0.0) = false := by
  have hzero : (z.normSq == 0.0) = false := by
    rw [← Bool.not_eq_true, ← div?_eq_none_iff z z, h]
    exact nofun
  have him : orZero ((z.im * z.re - z.re * z.im) / z.normSq) = 0.0 := by
    rw [Binary64.mul_comm]
    exact orZero_sub_self_div (signBit_normSq z) hfree.normSq hzero
  -- what is left of the definition is the quotient of the numerators
  unfold div? at h
  dsimp only at h
  rw [hzero, if_neg Bool.false_ne_true] at h
  cases h
  rw [cleared, him]
  exact ⟨rfl, hzero⟩

/-- A number with finite parts that can be divided by itself gives one exactly if its squared magnitude is finite, and
otherwise it gives zero. -/
theorem div?_self (hre : z.re.isFinite) (him : z.im.isFinite) (h : z.div? z = some q) :
    (q = ⟨1.0, 0.0⟩ ↔ z.normSq.isFinite) ∧ (¬z.normSq.isFinite → q = .zero) := by
  have hfree : z.NaNFree := ⟨isNaN_of_isFinite hre, isNaN_of_isFinite him⟩
  obtain ⟨rfl, hzero⟩ := hfree.div?_self_eq h
  by_cases hfinite : z.normSq.isFinite
  · have hone : orZero (z.normSq / z.normSq) = 1.0 := by
      rw [Binary64.div_self hfinite hzero]
      exact orZero_of_number plain_one.isNumber
    rw [hone]
    exact ⟨iff_of_true rfl hfinite, absurd hfinite⟩
  · -- infinity divided by infinity is no number
    have hnone : orZero (z.normSq / z.normSq) = 0.0 :=
      orZero_of_isNaN (isNaN_div_self (isInf_of_not_isFinite hfinite hfree.normSq))
    rw [hnone]
    exact ⟨iff_of_false (by decide) hfinite, fun _ => rfl⟩

/-- The squared magnitude of `2 ^ -537` is the smallest positive double. -/
theorem div?_self_smallest : (powerOfTwo 486).div? (powerOfTwo 486) = some ⟨1.0, 0.0⟩ := by
  have hsome : ((powerOfTwo 486).div? (powerOfTwo 486)).isSome := by decide +kernel
  obtain ⟨q, hq⟩ := Option.isSome_iff_exists.mp hsome
  have hone := (div?_self (by decide +kernel) (by decide +kernel) hq).1.mpr (by decide +kernel)
  rw [hq, hone]

/-- The square of `2 ^ 512` is too large for a double, so that number divided by itself is zero. -/
theorem div?_self_overflows :
    ¬ ∀ z q : Number, z.re.isFinite → z.im.isFinite → z.div? z = some q → q = ⟨1.0, 0.0⟩ := by
  intro hall
  have hquotient : (powerOfTwo 1535).div? (powerOfTwo 1535) = some .zero := by decide +kernel
  have hone := hall (powerOfTwo 1535) .zero (by decide +kernel) (by decide +kernel) hquotient
  exact absurd hone (by decide)

end ComplexCalc.Number
