import ComplexCalc.Proofs.Doubles

/-!
# DoubleArithmetic — laws of sums, products and quotients of doubles

The operands of a sum or a product can be swapped (section 1).  A minus sign moves out of a product and turns a
difference into a sum, so a double and its negative add up as the double minus itself, and differences taken both ways
have the same absolute value (section 2).  A square has no sign and is a number if its root is (section 3), and a number
other than zero divides by itself to one unless it is infinite (section 4).
-/

namespace ComplexCalc.Binary64

open Float.Model Float.Model.UnpackedFloat

/-! ## 1. Order of operands -/

theorem sign_mul_comm (s t : Sign) : s * t = t * s := by
  cases s <;> cases t <;> rfl

theorem unpacked_add_comm (u v : UnpackedFloat) :
    UnpackedFloat.add .binary64 u v = UnpackedFloat.add .binary64 v u := by
  cases u with
  | infinity s =>
    cases v with
    | infinity t => cases s <;> cases t <;> rfl
    | _ => rfl
  | notANumber => cases v <;> rfl
  | zero s =>
    cases v with
    | zero t => cases s <;> cases t <;> rfl
    | _ => rfl
  | finite s m e =>
    cases v with
    | finite t n f =>
      -- both significands are brought to the smaller exponent before they are added
      simp only [UnpackedFloat.add]
      rw [min_comm, Int.add_comm]
    | _ => rfl

theorem unpacked_mul_comm (u v : UnpackedFloat) :
    UnpackedFloat.mul .binary64 u v = UnpackedFloat.mul .binary64 v u := by
  cases u <;> cases v <;> simp only [UnpackedFloat.mul, sign_mul_comm, Nat.mul_comm, Int.add_comm]

protected theorem add_comm (x y : Float) : x + y = y + x := by
  rw [add_eq_pack, unpacked_add_comm, ← add_eq_pack]

protected theorem mul_comm (x y : Float) : x * y = y * x := by
  rw [mul_eq_pack, unpacked_mul_comm, ← mul_eq_pack]

/-! ## 2. Negation -/

/-- The sign of what a pattern stands for; the pattern of a NaN has no sign bit. -/
def signOf : UnpackedFloat → Sign
  | .infinity s => s
  | .notANumber => .positive
  | .zero s => s
  | .finite s _ _ _ => s

theorem toNat_packComponents_div (s : Sign) (e : BitVec 11) (m : BitVec 52) :
    (packComponents .binary64 s e m).toNat / 2 ^ 63 = s.toBitVec.toNat := by
  have he := e.isLt
  have hm := m.isLt
  rw [toNat_packComponents]
  omega

theorem toBitVec_inj {s t : Sign} (h : s.toBitVec.toNat = t.toBitVec.toNat) : s = t := by
  cases s <;> cases t <;> first | rfl | cases h

theorem sign_pack (u : UnpackedFloat) : sign (.ofModel (.pack u)) = signOf u := by
  apply toBitVec_inj
  rw [toNat_sign]
  show (UnpackedFloat.pack .binary64 u).toNat / 2 ^ 63 = _
  cases u with
  | infinity s => apply toNat_packComponents_div
  | notANumber => apply toNat_packComponents_div
  | zero s => apply toNat_packComponents_div
  | finite s m e =>
    -- packed as an infinity, a normal or a subnormal double, each with the same sign bit
    rw [UnpackedFloat.pack]
    dsimp only
    split
    · apply toNat_packComponents_div
    · split <;> apply toNat_packComponents_div

theorem magnitude_pack_le {u : UnpackedFloat} (h : u ≠ .notANumber) :
    magnitude (.ofModel (.pack u)) ≤ infinityBits := by
  show (UnpackedFloat.pack .binary64 u).toNat % 2 ^ 63 ≤ infinityBits
  cases u with
  | infinity s => cases s <;> decide
  | notANumber => exact absurd rfl h
  | zero s => cases s <;> decide
  | finite s m e =>
    rw [UnpackedFloat.pack]
    dsimp only
    split
    · cases s <;> decide
    · -- the exponent field is not full, so the fraction cannot reach an infinity
      rename_i hexponent
      split
      · have hfraction := (BitVec.ofNat 52 m).isLt
        change ¬2048 ≤ _ + 1 at hexponent
        rw [toNat_packComponents_mod, BitVec.toNat_ofNat, infinityBits]
        omega
      · have hfraction := (BitVec.ofNat 52 m).isLt
        rw [toNat_packComponents_mod, BitVec.toNat_ofNat, infinityBits]
        omega

/-- Only what is no number is packed as a NaN. -/
theorem isNaN_pack (u : UnpackedFloat) : (Float.ofModel (.pack u)).isNaN = u.isNaN := by
  by_cases hu : u = .notANumber
  · rw [hu]
    exact isNaN_ofModel_notANumber
  · have hnumber : u.isNaN = false := Bool.eq_false_iff.mpr (mt (unpacked_isNaN_iff u).mp hu)
    rw [hnumber, ← Bool.not_eq_true, isNaN_iff]
    exact Nat.not_lt.mpr (magnitude_pack_le hu)

theorem eq_of_sign_of_magnitude {x y : Float} (hsign : sign x = sign y) (hmagnitude : magnitude x = magnitude y) :
    x = y := by
  have hbits : x.toBits = y.toBits := by
    apply UInt64.toNat_inj.mp
    show (pattern x).toNat = (pattern y).toNat
    rw [toNat_pattern, toNat_pattern, hsign, hmagnitude]
  rw [← ofBits_toBits x, hbits, ofBits_toBits]

theorem signOf_neg {u : UnpackedFloat} (h : u ≠ .notANumber) : signOf u.neg = -signOf u := by
  cases u with
  | notANumber => exact absurd rfl h
  | _ => rfl

theorem sign_neg {x : Float} (h : x.isNaN = false) : sign (-x) = -sign x := by
  have hunpack : x.toModel.unpack ≠ .notANumber := mt (unpacked_isNaN_iff _).mpr (Bool.eq_false_iff.mp h)
  have hself := sign_pack x.toModel.unpack
  rw [ofModel_pack_unpack] at hself
  rw [hself, ← signOf_neg hunpack, neg_eq_pack, sign_pack]

/-- A minus sign in front of a result goes through its packing. -/
theorem neg_pack (u : UnpackedFloat) : -Float.ofModel (.pack u) = .ofModel (.pack u.neg) := by
  by_cases hu : u = .notANumber
  · rw [hu]
    rfl
  · have hnumber : (Float.ofModel (.pack u)).isNaN = false := by
      rw [isNaN_pack]
      exact Bool.eq_false_iff.mpr (mt (unpacked_isNaN_iff u).mp hu)
    apply eq_of_sign_of_magnitude
    · rw [sign_neg hnumber, sign_pack, sign_pack, signOf_neg hu]
    · rw [magnitude_neg]
      exact (toNat_pack_neg u).symm

/-- What the bit pattern of the sign and the magnitude stands for. -/
def ofFields (s : Sign) (m : Nat) : UnpackedFloat :=
  if m = infinityBits then .infinity s
  else if infinityBits < m then .notANumber
  else if h : m = 0 then .zero s
  else if m < fractions then .finite s m (-1074) (Nat.pos_of_ne_zero h)
  else .finite s (fractions + m % fractions) ((m / fractions : Nat) - 1075) (Nat.lt_add_right _ (by decide))

theorem unpack_eq_ofFields (x : Float) : x.toModel.unpack = ofFields (sign x) (magnitude x) := by
  have hsome : 0 < fractions := by decide
  have hspecial : fractions < infinityBits := by decide
  unfold ofFields
  -- infinite, no number, zero, subnormal and normal
  rcases unpack_cases x with ⟨hx, h⟩ | ⟨hx, h⟩ | ⟨hx, h⟩ | ⟨hpos, hx, h⟩ | ⟨hpos, hlow, hhigh, h⟩ <;> rw [h]
  · rw [if_pos hx]
  · rw [if_neg (by omega), if_pos hx]
  · rw [hx]
    rfl
  · rw [if_neg (by omega), if_neg (by omega), dif_neg (by omega), if_pos hx]
  · rw [if_neg (by omega), if_neg (by omega), dif_neg (by omega), if_neg (by omega)]

theorem ofFields_neg (s : Sign) (m : Nat) : ofFields (-s) m = (ofFields s m).neg := by
  unfold ofFields
  split
  · rfl
  · split
    · rfl
    · split
      · rfl
      · split <;> rfl

theorem unpack_neg (x : Float) : (-x).toModel.unpack = x.toModel.unpack.neg := by
  cases hx : x.isNaN with
  | true => rw [unpack_of_isNaN hx, unpack_of_isNaN ((isNaN_neg x).trans hx)]; rfl
  | false => rw [unpack_eq_ofFields, unpack_eq_ofFields x, magnitude_neg, sign_neg hx, ofFields_neg]

theorem sign_mul_neg (s t : Sign) : s * -t = -(s * t) := by
  cases s <;> cases t <;> rfl

theorem roundWithAccuracy_neg (s : Sign) (m : Nat) (e : Int) (a : Accuracy) :
    roundWithAccuracy .binary64 (-s) m e a = (roundWithAccuracy .binary64 s m e a).neg := by
  unfold roundWithAccuracy
  dsimp only
  split <;> rfl

theorem unpacked_mul_neg (u v : UnpackedFloat) :
    UnpackedFloat.mul .binary64 u v.neg = (UnpackedFloat.mul .binary64 u v).neg := by
  cases u <;> cases v <;> simp only [UnpackedFloat.mul, UnpackedFloat.neg, sign_mul_neg, roundWithAccuracy_neg]

theorem neg_neg_sign (s : Sign) : - -s = s := by
  cases s <;> rfl

theorem unpacked_sub_neg (u v : UnpackedFloat) :
    UnpackedFloat.sub .binary64 u v.neg = UnpackedFloat.add .binary64 u v := by
  -- two finite values are brought to one exponent, and a difference of signed significands is normalized
  have hopposite : ∀ (t : Sign) (n i : Int), i - (-t).apply n = i + t.apply n := by
    intro t n i
    cases t
    · exact Int.sub_eq_add_neg
    · exact Int.sub_neg i n
  cases u <;> cases v <;>
    simp only [UnpackedFloat.sub, UnpackedFloat.add, UnpackedFloat.neg, neg_neg_sign, hopposite]

theorem unpacked_neg_neg (u : UnpackedFloat) : u.neg.neg = u := by
  cases u <;> simp only [UnpackedFloat.neg, neg_neg_sign]

section
variable (x y : Float)

protected theorem mul_neg : x * -y = -(x * y) := by
  rw [mul_eq_pack, unpack_neg, unpacked_mul_neg, ← neg_pack, ← mul_eq_pack]

protected theorem sub_neg : x - -y = x + y := by
  rw [sub_eq_pack, unpack_neg, unpacked_sub_neg, ← add_eq_pack]

protected theorem neg_neg : - -x = x := by
  rw [neg_eq_pack, unpack_neg, unpacked_neg_neg, ofModel_pack_unpack]

protected theorem neg_add_self : -x + x = x - x := by
  rw [Binary64.add_comm, ← Binary64.sub_neg, Binary64.neg_neg]

end

theorem ofFields_abs (s : Sign) (m : Nat) : (ofFields s m).abs = ofFields .positive m := by
  unfold ofFields
  split
  · rfl
  · split
    · rfl
    · split
      · rfl
      · split <;> rfl

/-- The absolute value is what is left without the sign. -/
theorem abs_eq_of_magnitude {x y : Float} (h : magnitude x = magnitude y) : x.abs = y.abs := by
  rw [abs_eq_pack, abs_eq_pack, unpack_eq_ofFields, unpack_eq_ofFields, ofFields_abs, ofFields_abs, h]

theorem abs_cases (u : UnpackedFloat) : u.abs = u ∨ u.abs = u.neg := by
  cases u with
  | infinity s =>
    cases s with
    | positive => exact .inl rfl
    | negative => exact .inr rfl
  | notANumber => exact .inl rfl
  | zero s =>
    cases s with
    | positive => exact .inl rfl
    | negative => exact .inr rfl
  | finite s m e =>
    cases s with
    | positive => exact .inl rfl
    | negative => exact .inr rfl

theorem magnitude_pack_abs (u : UnpackedFloat) :
    magnitude (.ofModel (.pack u.abs)) = magnitude (.ofModel (.pack u)) := by
  rcases abs_cases u with h | h
  · rw [h]
  · rw [h]
    exact toNat_pack_neg u

theorem roundWithAccuracy_abs (s t : Sign) (m : Nat) (e : Int) (a : Accuracy) :
    (roundWithAccuracy .binary64 s m e a).abs = (roundWithAccuracy .binary64 t m e a).abs := by
  unfold roundWithAccuracy
  dsimp only
  split <;> rfl

theorem normalize_abs (m e : Int) (s : Sign) :
    (UnpackedFloat.normalize .binary64 (-m) e s).abs = (UnpackedFloat.normalize .binary64 m e s).abs := by
  unfold UnpackedFloat.normalize
  rcases Int.lt_trichotomy m 0 with h | rfl | h
  · rw [Int.compare_eq_gt.mpr (Int.neg_pos_of_neg h), Int.compare_eq_lt.mpr h]
    exact roundWithAccuracy_abs ..
  · rfl
  · rw [Int.compare_eq_lt.mpr (Int.neg_neg_of_pos h), Int.compare_eq_gt.mpr h]
    dsimp only
    rw [Int.neg_neg]
    exact roundWithAccuracy_abs ..

theorem unpacked_abs_sub_comm (u v : UnpackedFloat) :
    (UnpackedFloat.sub .binary64 u v).abs = (UnpackedFloat.sub .binary64 v u).abs := by
  cases u with
  | infinity s =>
    cases v with
    | infinity t => cases s <;> cases t <;> rfl
    | _ => rfl
  | notANumber => cases v <;> rfl
  | zero s =>
    cases v with
    | zero t => cases s <;> cases t <;> rfl
    | _ => rfl
  | finite s m e =>
    cases v with
    | finite t n f =>
      -- both differences are taken at the smaller exponent, and one is the negative of the other
      simp only [UnpackedFloat.sub]
      rw [min_comm, ← normalize_abs, Int.neg_sub]
    | _ => rfl

/-- A difference of equal doubles is positive zero both ways, so the differences themselves are no negatives. -/
protected theorem abs_sub_comm (x y : Float) : (x - y).abs = (y - x).abs := by
  apply abs_eq_of_magnitude
  rw [sub_eq_pack, sub_eq_pack, ← magnitude_pack_abs, unpacked_abs_sub_comm, magnitude_pack_abs]

/-! ## 3. Squares -/

theorem Unsigned.mul_self (u : UnpackedFloat) : Unsigned (UnpackedFloat.mul .binary64 u u) := by
  cases u with
  | infinity s => cases s <;> exact .infinity
  | notANumber => exact .notANumber
  | zero s => cases s <;> exact .zero
  | finite s m e => cases s <;> exact Unsigned.roundWithAccuracy _ _ _

section
variable {x y : Float}

theorem signBit_mul_self (x : Float) : signBit (x * x) = false :=
  (Unsigned.mul_self x.toModel.unpack).signBit_pack

theorem isNaN_roundWithAccuracy (s : Sign) (m : Nat) (e : Int) (a : Accuracy) :
    (UnpackedFloat.roundWithAccuracy .binary64 s m e a).isNaN = false := by
  unfold UnpackedFloat.roundWithAccuracy
  dsimp only
  split <;> rfl

theorem isNaN_mul_self (hx : x.isNaN = false) : (x * x).isNaN = false := by
  change x.toModel.unpack.isNaN = false at hx
  rw [mul_eq_pack, isNaN_pack]
  generalize x.toModel.unpack = u at hx ⊢
  cases u with
  | infinity s => rfl
  | notANumber => cases hx
  | zero s => rfl
  | finite s m e => exact isNaN_roundWithAccuracy _ _ _ _

theorem isNaN_normalize (m e : Int) (s : Sign) : (UnpackedFloat.normalize .binary64 m e s).isNaN = false := by
  unfold UnpackedFloat.normalize
  split
  · exact isNaN_roundWithAccuracy _ _ _ _
  · rfl
  · exact isNaN_roundWithAccuracy _ _ _ _

/-- Numbers without a sign have a sum, as only infinities of both signs have none. -/
theorem Unsigned.isNaN_add {u v : UnpackedFloat} (hu : Unsigned u) (hv : Unsigned v) (hx : u.isNaN = false)
    (hy : v.isNaN = false) : (UnpackedFloat.add .binary64 u v).isNaN = false := by
  cases hu with
  | infinity => cases hv <;> first | rfl | cases hy
  | notANumber => cases hx
  | zero => cases hv <;> first | rfl | cases hy
  | finite =>
    cases hv with
    | infinity => rfl
    | notANumber => cases hy
    | zero => rfl
    | finite => exact isNaN_normalize _ _ _

theorem isNaN_add (hsign : signBit x = false) (hsign' : signBit y = false) (hx : x.isNaN = false)
    (hy : y.isNaN = false) : (x + y).isNaN = false := by
  rw [add_eq_pack, isNaN_pack]
  exact (Unsigned.unpack hsign).isNaN_add (.unpack hsign') hx hy

end

/-! ## 4. Quotients -/

theorem ofModel_pack_one :
    Float.ofModel (.pack (UnpackedFloat.roundWithAccuracy .binary64 .positive (2 ^ 53) (-53) .exact)) = 1.0 := by
  decide +kernel

/-- A significand divides by itself without a remainder, whatever it is. -/
theorem divCore_self {m : Nat} (e : Int) (h : 0 < m) : divCore .binary64 m e m e = (2 ^ 53, -53, .exact) := by
  have htarget : min 0 (Format.targetExponent .binary64 0) = -53 := by decide
  have hquotient : m <<< 53 / m = 2 ^ 53 := by
    rw [Nat.shiftLeft_eq, Nat.mul_div_cancel_left _ h]
  have hremainder : m <<< 53 % m = 0 := by
    rw [Nat.shiftLeft_eq, Nat.mul_mod_right]
  unfold divCore
  -- the exponents cancel, so the significand is shifted by the 53 bits that one has
  simp only [Int.sub_self, htarget]
  show (m <<< 53 / m, _, accuracyOfFraction (m <<< 53 % m) m) = _
  rw [hquotient, hremainder]
  rfl

section
variable {x y : Float}

theorem beq_zero_of_unpack {s : Sign} (h : x.toModel.unpack = .zero s) : (x == 0.0) = true := by
  show UnpackedFloat.beq x.toModel.unpack (0.0 : Float).toModel.unpack = true
  rw [h, unpack_zero]
  rfl

protected theorem div_self (hfinite : x.isFinite) (hzero : (x == 0.0) = false) : x / x = 1.0 := by
  rw [div_eq_pack, ← ofModel_pack_one]
  change x.toModel.unpack.isFinite at hfinite
  cases hunpack : x.toModel.unpack with
  | infinity s =>
    rw [hunpack] at hfinite
    cases hfinite
  | notANumber =>
    rw [hunpack] at hfinite
    cases hfinite
  | zero s =>
    rw [beq_zero_of_unpack hunpack] at hzero
    cases hzero
  | finite s m e positive =>
    have hsign : s / s = .positive := by cases s <;> rfl
    simp only [UnpackedFloat.div, divCore_self e positive, hsign]

theorem isNaN_div_self (h : x.isInf) : (x / x).isNaN := by
  change x.toModel.unpack.isInf at h
  rw [div_eq_pack, isNaN_pack]
  generalize x.toModel.unpack = u at h ⊢
  cases u <;> first | rfl | cases h

theorem isNaN_div_left (h : x.isNaN) : (x / y).isNaN := by
  rw [div_eq_pack, isNaN_pack, unpack_of_isNaN h]
  rfl

/-- Zero divided by a number other than zero that has no sign. -/
protected theorem zero_div (hsign : signBit x = false) (hnumber : x.isNaN = false) (hzero : (x == 0.0) = false) :
    0.0 / x = 0.0 := by
  have hunsigned := Unsigned.unpack hsign
  change x.toModel.unpack.isNaN = false at hnumber
  rw [div_eq_pack, unpack_zero, zero_eq_pack]
  -- a divisor with a sign would give negative zero
  cases hunpack : x.toModel.unpack with
  | infinity s =>
    rw [hunpack] at hunsigned
    cases hunsigned
    rfl
  | notANumber =>
    rw [hunpack] at hnumber
    cases hnumber
  | zero s =>
    rw [beq_zero_of_unpack hunpack] at hzero
    cases hzero
  | finite s m e positive =>
    rw [hunpack] at hunsigned
    cases hunsigned
    rfl

end

end ComplexCalc.Binary64
