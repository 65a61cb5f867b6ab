import ComplexCalc.Proofs.DoubleArithmetic
import ComplexCalc.Proofs.Numerals

/-!
# Overflow — which results are too large for a double

An exact result is rounded to a significand of at most 53 bits, and rounding carries into one bit more from the last
half on (section 1).  So a product is infinite exactly if its value is at least half of a unit behind the largest
double, and a sum only then (section 3); a quotient by two or more, and the floor of a finite double, are never infinite
(sections 4 and 5).  What is infinite keeps its sign under these operations (section 6).
-/

namespace ComplexCalc.Binary64

open Float.Model Float.Model.UnpackedFloat

/-! ## 1. Rounded significands -/

section
variable (em : ExtendedMantissa) (m k : Nat) (e : Int) (a : Accuracy)

theorem mantissa_shiftRight : (em >>> k).mantissa = em.mantissa / 2 ^ k := by
  induction k with
  | zero => exact (Nat.div_one _).symm
  | succ k ih =>
    show (em >>> k).mantissa / 2 = _
    rw [ih, Nat.div_div_eq_div_mul, Nat.pow_succ]

theorem roundBit_shiftRight : (em >>> (k + 1)).roundBit = (em.mantissa / 2 ^ k % 2 != 0) := by
  show ((em >>> k).mantissa % 2 != 0) = _
  rw [mantissa_shiftRight]

theorem mantissa_ofMantissaAndAccuracy : (ExtendedMantissa.ofMantissaAndAccuracy m a).mantissa = m := by
  cases a with
  | exact => rfl
  | inexact o => cases o <;> rfl

theorem roundedMantissa_of_roundBit_false {em : ExtendedMantissa} (h : em.roundBit = false) :
    em.roundedMantissa = em.mantissa := by
  obtain ⟨m, roundBit, sticky⟩ := em
  obtain rfl : roundBit = false := h
  cases sticky <;> rfl

/-- A half goes up where the significand is odd, so everything from a half on does. -/
theorem roundedMantissa_of_odd {em : ExtendedMantissa} (h : em.roundBit = true) (hodd : em.mantissa % 2 = 1) :
    em.roundedMantissa = em.mantissa + 1 := by
  obtain ⟨m, roundBit, sticky⟩ := em
  obtain rfl : roundBit = true := h
  cases sticky with
  | false => exact congrArg (m + ·) hodd
  | true => rfl

theorem roundedMantissa_mem : em.mantissa ≤ em.roundedMantissa ∧ em.roundedMantissa ≤ em.mantissa + 1 := by
  obtain ⟨m, roundBit, sticky⟩ := em
  cases roundBit with
  | false =>
    rw [roundedMantissa_of_roundBit_false rfl]
    exact ⟨Nat.le_refl m, Nat.le_succ m⟩
  | true =>
    have hparity : m % 2 < 2 := Nat.mod_lt _ (by decide)
    cases sticky with
    | false => exact ⟨Nat.le_add_right m _, Nat.add_le_add_left (Nat.le_of_lt_succ hparity) m⟩
    | true => exact ⟨Nat.le_succ m, Nat.le_refl _⟩

theorem le_roundedMantissa : em.mantissa ≤ em.roundedMantissa :=
  (roundedMantissa_mem em).1

theorem roundedMantissa_le : em.roundedMantissa ≤ em.mantissa + 1 :=
  (roundedMantissa_mem em).2

theorem targetExponent_eq :
    Format.targetExponent .binary64 (totalExponent m e) = max (m.log2 + e - 52) (-1074) := by
  show max (m.log2 + 1 + e - (1 + 52 : Nat)) (3 - 2 ^ 10 - (1 + 52 : Nat)) = _
  omega

/-- How many bits are rounded away. -/
def droppedBits : Nat :=
  (Format.targetExponent .binary64 (totalExponent m e) - e).toNat

theorem droppedBits_eq : droppedBits m e = (max (m.log2 + e - 52) (-1074) - e).toNat := by
  rw [droppedBits, targetExponent_eq]

/-- The significand after rounding, with a bit too many if the rounding carries. -/
def rounded : Nat :=
  (ExtendedMantissa.ofMantissaAndAccuracy m a >>> droppedBits m e).roundedMantissa

theorem lt_two_pow_droppedBits : m < 2 ^ (53 + droppedBits m e) := by
  have hdropped := droppedBits_eq m e
  exact Nat.lt_of_lt_of_le Nat.lt_log2_self (Nat.pow_le_pow_right (by decide) (by omega))

theorem rounded_le : rounded m e a ≤ 2 ^ 53 := by
  have hle := roundedMantissa_le (ExtendedMantissa.ofMantissaAndAccuracy m a >>> droppedBits m e)
  rw [mantissa_shiftRight, mantissa_ofMantissaAndAccuracy] at hle
  have hdiv : m / 2 ^ droppedBits m e < 2 ^ 53 := by
    apply Nat.div_lt_of_lt_mul
    rw [← Nat.pow_add, Nat.add_comm]
    exact lt_two_pow_droppedBits m e
  exact Nat.le_trans hle hdiv

/-- The exponent that the bits rounded away lead to. -/
theorem le_add_droppedBits : -1074 ≤ e + droppedBits m e ∧ m.log2 + e - 52 ≤ e + droppedBits m e := by
  rw [droppedBits_eq]
  omega

/-- Only a carry leaves a bit to be dropped, which is a zero. -/
theorem droppedBits_of_lt {r : Nat} {e : Int} (hr : r < 2 ^ 53) (he : -1074 ≤ e) : droppedBits r e = 0 := by
  have hlog : r.log2 ≤ 52 := by
    by_cases hzero : r = 0
    · rw [hzero]
      decide
    · exact Nat.le_of_lt_succ ((Nat.log2_lt hzero).mpr hr)
  rw [droppedBits_eq]
  omega

theorem droppedBits_of_carry {e : Int} (he : -1074 ≤ e) : droppedBits (2 ^ 53) e = 1 := by
  rw [droppedBits_eq, Nat.log2_two_pow]
  omega

theorem roundWithAccuracy_eq (s : Sign) :
    roundWithAccuracy .binary64 s m e a =
      if h : rounded m e a = 0 then .zero s
      else if rounded m e a < 2 ^ 53 then .finite s (rounded m e a) (e + droppedBits m e) (Nat.pos_of_ne_zero h)
      else .finite s (2 ^ 52) (e + droppedBits m e + 1) (by decide) := by
  -- the result is normalized once more, for the bit that a carry leaves too many
  have hsecond : ∀ r f, (ExtendedMantissa.ofMantissaAndAccuracy r .exact >>> droppedBits r f).mantissa =
      r / 2 ^ droppedBits r f := by
    intro r f
    rw [mantissa_shiftRight, mantissa_ofMantissaAndAccuracy]
  have hexponent := (le_add_droppedBits m e).1
  have hle := rounded_le m e a
  have hunfold : roundWithAccuracy .binary64 s m e a =
      if h : (ExtendedMantissa.ofMantissaAndAccuracy (rounded m e a) .exact >>>
          droppedBits (rounded m e a) (e + droppedBits m e)).mantissa = 0 then .zero s
      else .finite s _ (e + droppedBits m e + droppedBits (rounded m e a) (e + droppedBits m e))
        (Nat.pos_of_ne_zero h) := rfl
  rw [hunfold]
  generalize rounded m e a = r at hle
  generalize e + droppedBits m e = f at hexponent
  simp only [hsecond]
  by_cases hsmall : r < 2 ^ 53
  · simp only [droppedBits_of_lt hsmall hexponent, if_pos hsmall, Nat.pow_zero, Nat.div_one]
    simp
  · obtain rfl : r = 2 ^ 53 := Nat.le_antisymm hle (Nat.le_of_not_lt hsmall)
    simp only [droppedBits_of_carry hexponent, if_neg hsmall]
    rfl

theorem isFinite_pack_finite (s : Sign) {m : Nat} (h : 0 < m) :
    (Float.ofModel (.pack (.finite s m e h))).isFinite ↔ e ≤ 971 := by
  rw [isFinite_iff, infinityBits]
  show (UnpackedFloat.pack .binary64 (.finite s m e h)).toNat % 2 ^ 63 < _ ↔ _
  have hbiased : 2 ^ 11 ≤ (e + Format.exponentBias .binary64 + (52 : Nat)).toNat + 1 ↔ ¬e ≤ 971 := by
    simp only [Format.exponentBias]
    omega
  rw [UnpackedFloat.pack]
  dsimp only
  split
  · rename_i hlarge
    refine iff_of_false ?_ (hbiased.mp hlarge)
    cases s <;> decide
  · -- the exponent field is not full, so no fraction reaches infinity
    rename_i hsmall
    refine iff_of_true ?_ (Decidable.not_not.mp (mt hbiased.mpr hsmall))
    split
    · have hfraction := (BitVec.ofNat 52 m).isLt
      change ¬2048 ≤ _ + 1 at hsmall
      rw [toNat_packComponents_mod, BitVec.toNat_ofNat]
      omega
    · have hfraction := (BitVec.ofNat 52 m).isLt
      rw [toNat_packComponents_mod, BitVec.toNat_ofNat]
      omega

/-- A result is finite if it has room left for a carry. -/
theorem isFinite_roundWithAccuracy (s : Sign) {m : Nat} {e : Int} (h : e + droppedBits m e ≤ 970) :
    (Float.ofModel (.pack (roundWithAccuracy .binary64 s m e a))).isFinite := by
  rw [roundWithAccuracy_eq]
  split
  · cases s <;> decide +kernel
  · split
    · rw [isFinite_pack_finite]
      omega
    · rw [isFinite_pack_finite]
      omega

/-- Rounding carries into a bit too many from the last half on. -/
theorem roundedMantissa_lt_iff {m k : Nat} (h : m < 2 ^ (53 + k)) :
    (ExtendedMantissa.ofMantissaAndAccuracy m .exact >>> k).roundedMantissa < 2 ^ 53 ↔
      2 * m < (2 ^ 54 - 1) * 2 ^ k := by
  cases k with
  | zero =>
    show m < 2 ^ 53 ↔ _
    omega
  | succ k =>
    have hmantissa := mantissa_shiftRight (.ofMantissaAndAccuracy m .exact) (k + 1)
    have hbit := roundBit_shiftRight (.ofMantissaAndAccuracy m .exact) k
    rw [mantissa_ofMantissaAndAccuracy] at hmantissa hbit
    have hbound : 2 * m < (2 ^ 54 - 1) * 2 ^ (k + 1) ↔ m / 2 ^ k < 2 ^ 54 - 1 := by
      rw [Nat.div_lt_iff_lt_mul (Nat.two_pow_pos k)]
      omega
    have hhalf : m / 2 ^ (k + 1) = m / 2 ^ k / 2 := by
      rw [Nat.pow_succ, Nat.div_div_eq_div_mul]
    have hlt : m / 2 ^ k < 2 ^ 54 := by
      apply Nat.div_lt_of_lt_mul
      rwa [← Nat.pow_add, Nat.add_comm k 54, show 54 + k = 53 + (k + 1) by omega]
    rw [hbound]
    rw [hhalf] at hmantissa
    generalize m / 2 ^ k = halves at hmantissa hbit hlt ⊢
    generalize ExtendedMantissa.ofMantissaAndAccuracy m .exact >>> (k + 1) = em at hmantissa hbit ⊢
    by_cases heven : halves % 2 = 0
    · -- nothing is rounded up
      have hnone : em.roundBit = false := by rw [hbit, heven]; rfl
      rw [roundedMantissa_of_roundBit_false hnone, hmantissa]
      omega
    · have hsome : em.roundBit = true := by rw [hbit, bne_iff_ne]; exact heven
      have hle := roundedMantissa_le em
      by_cases hodd : em.mantissa % 2 = 1
      · rw [roundedMantissa_of_odd hsome hodd]
        omega
      · omega

theorem rounded_pos {m : Nat} {e : Int} (hm : 0 < m) (h : droppedBits m e ≤ m.log2) : 0 < rounded m e .exact := by
  have hle := le_roundedMantissa (ExtendedMantissa.ofMantissaAndAccuracy m .exact >>> droppedBits m e)
  rw [mantissa_shiftRight, mantissa_ofMantissaAndAccuracy] at hle
  have hone : 1 ≤ m / 2 ^ droppedBits m e := by
    rw [Nat.le_div_iff_mul_le (Nat.two_pow_pos _), Nat.one_mul]
    exact Nat.le_trans (Nat.pow_le_pow_right (by decide) h) (Nat.log2_self_le hm.ne')
  exact Nat.lt_of_lt_of_le hone hle

/-- The largest exponent is used unless rounding carries. -/
theorem isFinite_iff_rounded (s : Sign) {m : Nat} {e : Int} (h : e + droppedBits m e = 971) :
    (Float.ofModel (.pack (roundWithAccuracy .binary64 s m e .exact))).isFinite ↔ rounded m e .exact < 2 ^ 53 := by
  rw [roundWithAccuracy_eq]
  split
  · rename_i hzero
    rw [hzero]
    cases s <;> decide +kernel
  · split
    · rename_i hsmall
      rw [isFinite_pack_finite]
      exact iff_of_true (by omega) hsmall
    · rename_i hcarry
      rw [isFinite_pack_finite]
      exact iff_of_false (by omega) hcarry

/-- An exact result overflows from half way behind the largest double on. -/
theorem isFinite_roundWithAccuracy_iff (s : Sign) {m : Nat} {e : Int} {a b : Nat} (hm : 0 < m) (he : e = a - b)
    (hlow : e ≤ 971 ∨ 52 ≤ m.log2) :
    (Float.ofModel (.pack (roundWithAccuracy .binary64 s m e .exact))).isFinite ↔
      2 * (m * 2 ^ a) < (2 ^ 54 - 1) * 2 ^ (971 + b) := by
  have hlower : 2 ^ m.log2 * 2 ^ a ≤ m * 2 ^ a := Nat.mul_le_mul_right _ (Nat.log2_self_le hm.ne')
  have hupper : m * 2 ^ a < 2 ^ (m.log2 + 1) * 2 ^ a :=
    Nat.mul_lt_mul_of_pos_right Nat.lt_log2_self (Nat.two_pow_pos a)
  have hlargest : 2 ^ (1024 + b) = 2 ^ 53 * 2 ^ (971 + b) := by
    rw [← Nat.pow_add]
    congr 1
    omega
  have hdropped := droppedBits_eq m e
  rw [← Nat.pow_add] at hlower hupper
  by_cases hlarge : 1024 ≤ m.log2 + e
  · -- the exponent is too large even without a carry
    have hpower : 2 ^ (1024 + b) ≤ 2 ^ (m.log2 + a) := Nat.pow_le_pow_right (by decide) (by omega)
    have hpos := rounded_pos hm (e := e) (by omega)
    refine iff_of_false ?_ (by omega)
    rw [roundWithAccuracy_eq, dif_neg hpos.ne']
    split <;> rw [isFinite_pack_finite] <;> omega
  · by_cases hexponent : e + droppedBits m e = 971
    · have hpower : 2 ^ (971 + b) = 2 ^ droppedBits m e * 2 ^ a := by
        rw [← Nat.pow_add]
        congr 1
        omega
      rw [isFinite_iff_rounded s hexponent, rounded, roundedMantissa_lt_iff (lt_two_pow_droppedBits m e),
        hpower, ← Nat.mul_assoc, ← Nat.mul_assoc, Nat.mul_lt_mul_right (Nat.two_pow_pos a)]
    · -- there is room for a carry
      have hpower : 2 ^ (m.log2 + 1 + a) ≤ 2 ^ (1023 + b) := Nat.pow_le_pow_right (by decide) (by omega)
      have hhalf : 2 ^ (1023 + b) * 2 = 2 ^ (1024 + b) := by
        rw [← Nat.pow_succ]
        congr 1
        omega
      refine iff_of_true (isFinite_roundWithAccuracy .exact s (by omega)) ?_
      omega
end

/-! ## 2. Finite doubles -/

/-- What a finite double stands for: its significand at an exponent that is counted from the smallest one. -/
structure Fields (x : Float) (s : Sign) (m p : Nat) : Prop where
  unpack : ∃ h, x.toModel.unpack = .finite s m (p - 1074) h
  significand : m < 2 ^ 53
  exponent : p ≤ 2045
  normal : 52 ≤ m.log2 ∨ p = 0
  units : units x = m * 2 ^ p

theorem fields_of_isFinite {x : Float} (h : x.isFinite) :
    (x.toModel.unpack = .zero (sign x) ∧ units x = 0) ∨ ∃ m p, Fields x (sign x) m p := by
  rw [isFinite_iff] at h
  have hsmall : fractions ≤ infinityBits := by decide
  rcases unpack_cases x with ⟨hx, -⟩ | ⟨hx, -⟩ | ⟨hx, hunpack⟩ | ⟨hpos, hx, hunpack⟩ | ⟨hpos, hlow, -, hunpack⟩
  · omega
  · omega
  · refine .inl ⟨hunpack, ?_⟩
    rw [units, hx]
    rfl
  · refine .inr ⟨magnitude x, 0, ⟨hpos, hunpack⟩, ?_, Nat.zero_le _, .inr rfl, ?_⟩
    · rw [fractions] at hx
      omega
    · rw [units, Nat.div_eq_of_lt hx, Nat.mod_eq_of_lt hx]
      exact (Nat.mul_one _).symm
  · have hfraction : magnitude x % fractions < fractions := Nat.mod_lt _ (by decide)
    have hexponent : magnitude x / fractions < 2047 := Nat.div_lt_of_lt_mul h
    have hnormal : 1 ≤ magnitude x / fractions := (Nat.one_le_div_iff (by decide)).mpr hlow
    refine .inr ⟨fractions + magnitude x % fractions, magnitude x / fractions - 1, ⟨hpos, ?_⟩, ?_, by omega,
      .inl ?_, ?_⟩
    · rw [hunpack]
      congr 1
      omega
    · rw [fractions] at hfraction ⊢
      omega
    · rw [Nat.le_log2 (by omega), fractions]
      omega
    · rw [units, if_neg (by omega)]
      rfl

attribute [local irreducible] places

/-- Half of the last unit of the largest double, in units of `2 ^ -1074`. -/
@[irreducible]
def halfUnit : Nat := 2 ^ (970 + places)

/-- Where rounding leads to infinity: half of a unit behind the largest double. -/
def overflow : Nat := (2 ^ 54 - 1) * halfUnit

theorem halfUnit_eq : halfUnit = 2 ^ (970 + places) := by
  unfold halfUnit
  rfl

theorem halfUnit_pos : 0 < halfUnit := by
  rw [halfUnit_eq]
  exact Nat.two_pow_pos _

theorem overflow_pos : 0 < overflow :=
  Nat.mul_pos (by decide) halfUnit_pos

theorem halfUnit_mul_two : halfUnit * 2 = 2 ^ (971 + places) := by
  have hsucc : 971 + places = 970 + places + 1 := by omega
  rw [halfUnit_eq, hsucc, Nat.pow_succ]

theorem two_mul_overflow : 2 * overflow = (2 ^ 54 - 1) * 2 ^ (971 + places) := by
  rw [overflow, ← halfUnit_mul_two, Nat.mul_comm 2, Nat.mul_assoc]

theorem two_pow_le {p : Nat} (h : p ≤ 2045) : 2 ^ p ≤ halfUnit * 2 := by
  have hplaces : p ≤ 971 + places := by rwa [places]
  rw [halfUnit_mul_two]
  exact Nat.pow_le_pow_right (by decide) hplaces

theorem units_le {x : Float} (h : x.isFinite) : units x + halfUnit ≤ overflow := by
  rcases fields_of_isFinite h with ⟨-, hunits⟩ | ⟨m, p, hx⟩
  · rw [hunits, Nat.zero_add]
    exact Nat.le_mul_of_pos_left _ (by decide)
  · have hm : m ≤ 2 ^ 53 - 1 := Nat.le_pred_of_lt hx.significand
    have hlargest : units x ≤ (2 ^ 53 - 1) * (halfUnit * 2) := by
      rw [hx.units]
      exact Nat.mul_le_mul hm (two_pow_le hx.exponent)
    rw [overflow]
    omega

/-! ## 3. Products and sums -/

theorem isFinite_pack_zero (s : Sign) : (Float.ofModel (.pack (.zero s))).isFinite := by
  cases s <;> decide +kernel

section
variable {x y : Float}

/-- A product overflows exactly if it does so before it is rounded. -/
theorem isFinite_mul_iff (hx : x.isFinite) (hy : y.isFinite) :
    (x * y).isFinite ↔ units x * units y < overflow * unitsOfOne := by
  have hpos : 0 < overflow * unitsOfOne := Nat.mul_pos overflow_pos unitsOfOne_pos
  rw [mul_eq_pack]
  rcases fields_of_isFinite hx with ⟨hunpack, hunits⟩ | ⟨m, p, ⟨hm, hunpack⟩, hlt, hp, hnormal, hunits⟩
  · rw [hunpack, hunits, Nat.zero_mul]
    refine iff_of_true ?_ hpos
    rcases fields_of_isFinite hy with ⟨hunpack', -⟩ | ⟨n, q, ⟨hn, hunpack'⟩, -⟩ <;> rw [hunpack'] <;>
      exact isFinite_pack_zero _
  · rcases fields_of_isFinite hy with ⟨hunpack', hunits'⟩ | ⟨n, q, ⟨hn, hunpack'⟩, hlt', hq, hnormal', hunits'⟩
    · rw [hunpack, hunpack', hunits', Nat.mul_zero]
      exact iff_of_true (isFinite_pack_zero _) hpos
    · have hexponent : (p - 1074 : Int) + (q - 1074) = (p + q : Nat) - (places + places : Nat) := by
        rw [places]
        omega
      -- the product has a full significand if the first factor has one, and else that factor has the least exponent
      have hlow : (p - 1074 : Int) + (q - 1074) ≤ 971 ∨ 52 ≤ (m * n).log2 := by
        rcases hnormal with hlog | rfl
        · refine .inr (Nat.le_trans hlog ?_)
          rw [Nat.le_log2 (Nat.mul_pos hm hn).ne']
          exact Nat.le_trans (Nat.log2_self_le hm.ne') (Nat.le_mul_of_pos_right m hn)
        · exact .inl (by omega)
      have hproduct : units x * units y = m * n * 2 ^ (p + q) := by
        rw [hunits, hunits', Nat.pow_add]
        exact Nat.mul_mul_mul_comm ..
      have hlimit : (2 ^ 54 - 1) * 2 ^ (971 + (places + places)) = 2 * (overflow * unitsOfOne) := by
        have hpower : 2 ^ (971 + (places + places)) = 2 * (2 ^ (970 + places) * 2 ^ places) := by
          rw [← Nat.pow_add, ← Nat.pow_succ']
          exact congrArg (2 ^ ·) (by omega)
        rw [hpower, overflow, halfUnit_eq, unitsOfOne_eq, Nat.mul_left_comm, Nat.mul_assoc]
      rw [hunpack, hunpack', UnpackedFloat.mul, isFinite_roundWithAccuracy_iff _ (Nat.mul_pos hm hn) hexponent hlow,
        hproduct, hlimit, Nat.mul_lt_mul_left (by decide)]

/-- A sum of signed significands overflows only if it does so before it is rounded. -/
theorem isFinite_normalize {m e : Int} {a b : Nat} (s : Sign) (he : e = a - b) (hle : e ≤ 971)
    (h : 2 * (m.natAbs * 2 ^ a) < (2 ^ 54 - 1) * 2 ^ (971 + b)) :
    (Float.ofModel (.pack (UnpackedFloat.normalize .binary64 m e s))).isFinite := by
  -- the exponent is decreased first, where that is possible
  have hround : ∀ (t : Sign) {n : Nat}, 0 < n → 2 * (n * 2 ^ a) < (2 ^ 54 - 1) * 2 ^ (971 + b) →
      (Float.ofModel (.pack (UnpackedFloat.round .binary64 t n e))).isFinite := by
    intro t n hn hlimit
    rw [UnpackedFloat.round, decreaseExponent]
    dsimp only
    generalize (e - Format.targetExponent .binary64 (totalExponent n e)).toNat = d
    have hdecreased : e - d = a - (b + d : Nat) := by omega
    rw [Nat.shiftLeft_eq,
      isFinite_roundWithAccuracy_iff t (Nat.mul_pos hn (Nat.two_pow_pos d)) hdecreased (.inl (by omega)),
      ← Nat.add_assoc, Nat.pow_add, ← Nat.mul_assoc (2 ^ 54 - 1), Nat.mul_right_comm n, ← Nat.mul_assoc 2]
    exact Nat.mul_lt_mul_of_pos_right hlimit (Nat.two_pow_pos d)
  unfold UnpackedFloat.normalize
  split
  · rename_i hm
    rw [Int.compare_eq_lt] at hm
    rw [show m.natAbs = (-m).toNat by omega] at h
    exact hround .negative (by omega) h
  · exact isFinite_pack_zero s
  · rename_i hm
    rw [Int.compare_eq_gt] at hm
    rw [show m.natAbs = m.toNat by omega] at h
    exact hround .positive (by omega) h

/-- A sum of finite doubles overflows only if the magnitudes do so without being rounded. -/
theorem isFinite_add (hx : x.isFinite) (hy : y.isFinite) (h : units x + units y < overflow) : (x + y).isFinite := by
  rw [add_eq_pack]
  rcases fields_of_isFinite hx with ⟨hunpack, -⟩ | ⟨m, p, ⟨hm, hunpack⟩, -, hp, -, hunits⟩
  · rcases fields_of_isFinite hy with ⟨hunpack', -⟩ | ⟨n, q, ⟨hn, hunpack'⟩, -⟩
    · rw [hunpack, hunpack', UnpackedFloat.add]
      split <;> exact isFinite_pack_zero _
    · have hsum : UnpackedFloat.add .binary64 x.toModel.unpack y.toModel.unpack = y.toModel.unpack := by
        rw [hunpack, hunpack']
        rfl
      rwa [hsum, ofModel_pack_unpack]
  · rcases fields_of_isFinite hy with ⟨hunpack', -⟩ | ⟨n, q, ⟨hn, hunpack'⟩, -, hq, -, hunits'⟩
    · have hsum : UnpackedFloat.add .binary64 x.toModel.unpack y.toModel.unpack = x.toModel.unpack := by
        rw [hunpack, hunpack']
        rfl
      rwa [hsum, ofModel_pack_unpack]
    · -- both significands are brought to the smaller exponent
      have hexponent : min (p - 1074 : Int) (q - 1074) = (min p q : Nat) - (places : Nat) := by
        rw [places]
        omega
      have hlow : min (p - 1074 : Int) (q - 1074) ≤ 971 := by omega
      have hshift : ∀ {k l r : Nat} {f : Int}, l ≤ r → f = l - (places : Nat) →
          k <<< ((r - 1074 : Int) - f).toNat * 2 ^ l = k * 2 ^ r := by
        rintro k l r f hle rfl
        rw [Nat.shiftLeft_eq, Nat.mul_assoc, ← Nat.pow_add]
        congr 2
        rw [places]
        omega
      have hsum : ∀ (s t : Sign) (k l : Nat), (s.apply k + t.apply l).natAbs ≤ k + l := by
        intro s t k l
        cases s <;> cases t <;> simp only [Sign.apply] <;> omega
      rw [hunpack, hunpack', UnpackedFloat.add]
      simp only [decreaseExponent]
      generalize min (p - 1074 : Int) (q - 1074) = f at hexponent hlow ⊢
      refine isFinite_normalize .positive hexponent hlow ?_
      have hle := Nat.mul_le_mul_right (2 ^ min p q) (hsum (sign x) (sign y) (m <<< ((p - 1074 : Int) - f).toNat)
        (n <<< ((q - 1074 : Int) - f).toNat))
      rw [Nat.add_mul, hshift (Nat.min_le_left p q) hexponent, hshift (Nat.min_le_right p q) hexponent, ← hunits,
        ← hunits'] at hle
      rw [← two_mul_overflow]
      exact Nat.mul_lt_mul_of_pos_left (Nat.lt_of_le_of_lt hle h) (by decide)

/-! ## 4. Quotients -/

theorem log2_div (m : Nat) {n : Nat} (k : Nat) (hn : 0 < n) :
    (m <<< k / n).log2 = 0 ∨ (m <<< k / n).log2 + n.log2 ≤ m.log2 + k := by
  by_cases hzero : m <<< k / n = 0
  · rw [hzero]
    exact .inl rfl
  · right
    have hlower : 2 ^ ((m <<< k / n).log2 + n.log2) ≤ m <<< k := by
      rw [Nat.pow_add]
      exact Nat.le_trans (Nat.mul_le_mul (Nat.log2_self_le hzero) (Nat.log2_self_le hn.ne')) (Nat.div_mul_le_self ..)
    have hupper : m <<< k < 2 ^ (m.log2 + k + 1) := by
      rw [Nat.shiftLeft_eq, Nat.add_right_comm, Nat.pow_add]
      exact Nat.mul_lt_mul_of_pos_right Nat.lt_log2_self (Nat.two_pow_pos k)
    exact Nat.le_of_lt_succ ((Nat.pow_lt_pow_iff_right (by decide)).mp (Nat.lt_of_le_of_lt hlower hupper))

theorem log2_add_le {m p : Nat} (hm : m < 2 ^ 53) (hp : p ≤ 2045) : m.log2 + p ≤ 2097 := by
  by_cases hzero : m = 0
  · rw [hzero]
    show 0 + p ≤ _
    omega
  · have hlog := (Nat.log2_lt hzero).mpr hm
    omega

/-- What is divided by two or more stays finite. -/
theorem isFinite_div (hx : x.isFinite) (hy : y.isFinite) (h : 2 * unitsOfOne ≤ units y) : (x / y).isFinite := by
  rw [div_eq_pack]
  rcases fields_of_isFinite hy with ⟨-, hunits'⟩ | ⟨n, q, ⟨hn, hunpack'⟩, hlt', hq, -, hunits'⟩
  · have hpos := unitsOfOne_pos
    omega
  · rcases fields_of_isFinite hx with ⟨hunpack, -⟩ | ⟨m, p, ⟨hm, hunpack⟩, hlt, hp, -⟩
    · rw [hunpack, hunpack']
      exact isFinite_pack_zero _
    · -- the divisor is two or more, so the quotient loses a bit at least
      have htwo : 1075 ≤ n.log2 + q := by
        have hupper : n * 2 ^ q < 2 ^ (n.log2 + q + 1) := by
          rw [Nat.add_right_comm, Nat.pow_add]
          exact Nat.mul_lt_mul_of_pos_right Nat.lt_log2_self (Nat.two_pow_pos q)
        have hlower : 2 ^ (places + 1) ≤ n * 2 ^ q := by
          rwa [Nat.pow_succ', ← unitsOfOne_eq, ← hunits']
        have hlog := (Nat.pow_lt_pow_iff_right (by decide)).mp (Nat.lt_of_le_of_lt hlower hupper)
        rw [places] at hlog
        exact Nat.le_of_lt_succ hlog
      have hlog := log2_add_le hlt hp
      rw [hunpack, hunpack', UnpackedFloat.div, divCore]
      dsimp only
      apply isFinite_roundWithAccuracy
      have htarget : Format.targetExponent .binary64 (totalExponent m (p - 1074) - totalExponent n (q - 1074)) =
          max ((m.log2 + p : Nat) - (n.log2 + q : Nat) - 53 : Int) (-1074) := by
        show max (totalExponent m (p - 1074) - totalExponent n (q - 1074) - (1 + 52 : Nat))
          (3 - 2 ^ 10 - (1 + 52 : Nat)) = _
        rw [totalExponent, totalExponent]
        omega
      rw [htarget, droppedBits_eq]
      generalize hk : ((p - 1074 : Int) - (q - 1074) - min ((p - 1074 : Int) - (q - 1074)) _).toNat = k
      have hquotient := log2_div m k hn
      omega

/-! ## 5. Whole numbers -/

theorem roundHalfEven_le (num den : Nat) : roundHalfEven num den ≤ num / den + 1 := by
  have hparity : num / den % 2 < 2 := Nat.mod_lt _ (by decide)
  rw [roundHalfEven]
  split
  · exact Nat.le_succ _
  · split
    · exact Nat.le_refl _
    · omega

/-- The double nearest to a quotient below `2 ^ 1022` is no infinity. -/
theorem isFinite_nearest {num den k : Nat} (hk : k ≤ 1022) (h : num * unitsOfOne / den < 2 ^ (k + places)) :
    (nearest num den).isFinite := by
  have hlog : (num * unitsOfOne / den).log2 ≤ k + places := by
    by_cases hzero : num * unitsOfOne / den = 0
    · rw [hzero]
      exact Nat.zero_le _
    · exact ((Nat.log2_lt hzero).mpr h).le
  have hself : num * unitsOfOne / den < 2 ^ (((num * unitsOfOne / den).log2 - 52) + 53) :=
    Nat.lt_of_lt_of_le Nat.lt_log2_self (Nat.pow_le_pow_right (by decide) (by omega))
  rw [nearest]
  generalize (num * unitsOfOne / den).log2 = l at hlog hself ⊢
  have hsignificand : roundHalfEven (num * unitsOfOne) (den * Nat.pow 2 (l - 52)) ≤ 2 ^ 53 := by
    refine Nat.le_trans (roundHalfEven_le ..) ?_
    rw [← Nat.div_div_eq_div_mul, Nat.pow_eq]
    apply Nat.div_lt_of_lt_mul
    rwa [← Nat.pow_add]
  generalize roundHalfEven (num * unitsOfOne) _ = significand at hsignificand ⊢
  have hbits : (l - 52) * fractions + significand < infinityBits := by
    rw [places] at hlog
    have hshift : (l - 52) * fractions ≤ 2044 * fractions := Nat.mul_le_mul_right _ (by omega)
    rw [fractions] at hshift ⊢
    rw [infinityBits]
    omega
  rw [Nat.min_eq_left hbits.le, isFinite_iff, magnitude]
  have hpattern : (UInt64.ofNat ((l - 52) * fractions + significand)).toNat = (l - 52) * fractions + significand := by
    apply UInt64.toNat_ofNat_of_lt'
    rw [infinityBits] at hbits
    rw [UInt64.size]
    omega
  rw [toBits_ofBits (by omega), hpattern]
  exact Nat.lt_of_le_of_lt (Nat.mod_le ..) hbits

theorem isFinite_neg (h : x.isFinite) : (-x).isFinite := by
  rwa [isFinite_iff, magnitude_neg, ← isFinite_iff]

/-- A double that is not whole has room for all of its places. -/
theorem units_lt_of_fraction (hx : x.isFinite) (h : units x % unitsOfOne ≠ 0) : units x < 2 ^ (53 + places) := by
  rcases fields_of_isFinite hx with ⟨-, hunits⟩ | ⟨m, p, -, hlt, -, -, hunits⟩
  · rw [hunits, Nat.zero_mod] at h
    exact absurd rfl h
  · have hp : p < places := by
      rw [← Nat.not_le]
      intro hle
      rw [hunits, unitsOfOne_eq, ← Nat.sub_add_cancel hle, Nat.pow_add, ← Nat.mul_assoc, Nat.mul_mod_left] at h
      exact h rfl
    rw [hunits, Nat.pow_add]
    exact Nat.mul_lt_mul_of_lt_of_le hlt (Nat.pow_le_pow_right (by decide) hp.le) (Nat.two_pow_pos places)

theorem isFinite_floor (h : x.isFinite) : (floor x).isFinite := by
  rw [floor, if_pos h]
  dsimp only
  split
  · exact h
  · -- with a fraction the whole part has at most 53 bits
    rename_i hfraction
    have hwhole : units x / unitsOfOne < 2 ^ 53 := by
      rw [Nat.div_lt_iff_lt_mul unitsOfOne_pos, unitsOfOne_eq, ← Nat.pow_add]
      exact units_lt_of_fraction h hfraction
    have hnearest : ∀ {n : Nat}, n < 2 ^ 54 → (nearest n 1).isFinite := by
      intro n hn
      apply isFinite_nearest (k := 54) (by decide)
      rw [Nat.div_one, unitsOfOne_eq, Nat.pow_add]
      exact Nat.mul_lt_mul_of_pos_right hn (Nat.two_pow_pos places)
    split
    · exact isFinite_neg (hnearest (by omega))
    · exact hnearest (by omega)

/-! ## 6. Infinities -/

theorem sign_pack_roundWithAccuracy (s : Sign) (m : Nat) (e : Int) (a : Accuracy) :
    sign (.ofModel (.pack (roundWithAccuracy .binary64 s m e a))) = s := by
  rw [sign_pack]
  unfold roundWithAccuracy
  dsimp only
  split <;> rfl

/-- A product that is not finite is an infinity of the sign that the factors make. -/
theorem isInf_mul (hx : x.isFinite) (hy : y.isFinite) (h : ¬(x * y).isFinite) :
    (x * y).isInf ∧ sign (x * y) = sign x * sign y := by
  rw [mul_eq_pack] at h ⊢
  rcases fields_of_isFinite hx with ⟨hunpack, -⟩ | ⟨m, p, ⟨hm, hunpack⟩, -⟩ <;>
    rcases fields_of_isFinite hy with ⟨hunpack', -⟩ | ⟨n, q, ⟨hn, hunpack'⟩, -⟩ <;>
    rw [hunpack, hunpack'] at h ⊢
  · exact absurd (isFinite_pack_zero _) h
  · exact absurd (isFinite_pack_zero _) h
  · exact absurd (isFinite_pack_zero _) h
  · have hnumber := isNaN_roundWithAccuracy (sign x * sign y) (m * n) ((p - 1074) + (q - 1074)) .exact
    rw [← isNaN_pack] at hnumber
    exact ⟨isInf_of_not_isFinite h hnumber, sign_pack_roundWithAccuracy _ _ _ _⟩

theorem unpack_of_isInf (h : x.isInf) : x.toModel.unpack = .infinity (sign x) := by
  rw [isInf_iff] at h
  have hspecial : fractions < infinityBits := by decide
  have hsome : 0 < infinityBits := by decide
  rcases unpack_cases x with ⟨-, hunpack⟩ | ⟨hx, -⟩ | ⟨hx, -⟩ | ⟨-, hx, -⟩ | ⟨-, -, hx, -⟩
  · exact hunpack
  all_goals omega

theorem add_of_isInf (hx : x.isInf) (hy : y.isFinite) : x + y = x := by
  have hsum : UnpackedFloat.add .binary64 x.toModel.unpack y.toModel.unpack = x.toModel.unpack := by
    rw [unpack_of_isInf hx]
    rcases fields_of_isFinite hy with ⟨hunpack, -⟩ | ⟨n, q, ⟨hn, hunpack⟩, -⟩ <;> rw [hunpack] <;> rfl
  rw [add_eq_pack, hsum, ofModel_pack_unpack]

theorem div_of_isInf (hx : x.isInf) (hy : y.isFinite) (hsign : signBit y = false) : x / y = x := by
  have hself : ∀ s : Sign, s / .positive = s := by
    intro s
    cases s <;> rfl
  have hpositive : sign y = .positive := by rw [sign, hsign, if_neg Bool.false_ne_true]
  have hquotient : UnpackedFloat.div .binary64 x.toModel.unpack y.toModel.unpack = x.toModel.unpack := by
    rw [unpack_of_isInf hx]
    rcases fields_of_isFinite hy with ⟨hunpack, -⟩ | ⟨n, q, ⟨hn, hunpack⟩, -⟩ <;> rw [hunpack, hpositive] <;>
      exact congrArg UnpackedFloat.infinity (hself _)
  rw [div_eq_pack, hquotient, ofModel_pack_unpack]

theorem floor_of_isInf (h : x.isInf) : floor x = x := by
  have hfinite : ¬x.isFinite := by
    rw [isInf_iff] at h
    rw [isFinite_iff, h]
    exact Nat.lt_irrefl _
  exact if_neg hfinite

end

end ComplexCalc.Binary64
