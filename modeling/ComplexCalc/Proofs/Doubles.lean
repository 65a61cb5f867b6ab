import Mathlib
import ComplexCalc.Number

/-!
# Doubles — the sign and the kind of a double, and a double minus itself

An operation on doubles unpacks their bit patterns, computes with what they stand for, and packs the result.  Packing
undoes unpacking (section 2), and the pattern as a number tells the kind of a double (section 3).  Results of operations
on doubles without a sign have none (section 4), and a double minus itself is zero only if it is finite (section 5).
Negation changes nothing but the sign (section 6).
-/

namespace ComplexCalc.Binary64

open Float.Model Float.Model.UnpackedFloat

/-! ## 1. Fields of a bit pattern -/

section
variable (b : BitVec Format.binary64.numBits)

theorem toNat_unpackExponent : (unpackExponent b).toNat = b.toNat / 2 ^ 52 % 2 ^ 11 := by
  simp [unpackExponent, BitVec.extractLsb_toNat, Nat.shiftRight_eq_div_pow]

theorem toNat_unpackMantissa : (unpackMantissa b).toNat = b.toNat % 2 ^ 52 := by
  simp [unpackMantissa, BitVec.extractLsb_toNat, Nat.shiftRight_eq_div_pow]

theorem toNat_unpackSign : (unpackSign b).toNat = b.toNat / 2 ^ 63 := by
  have hb : b.toNat < 2 ^ 64 := b.isLt
  simp [unpackSign, BitVec.extractLsb_toNat, Nat.shiftRight_eq_div_pow]
  omega

end

theorem toNat_packComponents (s : Sign) (e : BitVec 11) (m : BitVec 52) :
    (packComponents .binary64 s e m).toNat = s.toBitVec.toNat * 2 ^ 63 + e.toNat * 2 ^ 52 + m.toNat := by
  rw [packComponents, BitVec.toNat_append, BitVec.toNat_append, ← Nat.shiftLeft_add_eq_or_of_lt m.isLt,
    ← Nat.shiftLeft_add_eq_or_of_lt e.isLt, Nat.shiftLeft_eq, Nat.shiftLeft_eq]
  omega

def pattern (x : Float) : BitVec Format.binary64.numBits :=
  x.toModel.toBits.toBitVec

/-- The sign of a double, also of a zero. -/
def sign (x : Float) : Sign :=
  if signBit x then .negative else .positive

theorem toNat_sign (x : Float) : (sign x).toBitVec.toNat = x.toBits.toNat / 2 ^ 63 := by
  have hbits := x.toBits.toNat_lt
  rw [sign, signBit]
  split <;> rename_i h <;> simp at h
  · show 1 = _
    omega
  · show 0 = _
    omega

theorem toNat_pattern (x : Float) : (pattern x).toNat = (sign x).toBitVec.toNat * 2 ^ 63 + magnitude x := by
  rw [toNat_sign, magnitude]
  show x.toBits.toNat = _
  omega

theorem ofBitVec_unpackSign (x : Float) : Sign.ofBitVec (unpackSign (pattern x)) = sign x := by
  have hsign : unpackSign (pattern x) = (sign x).toBitVec := by
    apply BitVec.eq_of_toNat_eq
    rw [toNat_unpackSign, toNat_sign]
    rfl
  rw [hsign]
  cases sign x <;> rfl

theorem magnitude_lt (x : Float) : magnitude x < 2 ^ 63 :=
  Nat.mod_lt _ (by decide)

theorem toNat_exponent (x : Float) : (unpackExponent (pattern x)).toNat = magnitude x / fractions := by
  have hmagnitude := magnitude_lt x
  rw [toNat_unpackExponent, toNat_pattern, fractions]
  omega

theorem toNat_fraction (x : Float) : (unpackMantissa (pattern x)).toNat = magnitude x % fractions := by
  rw [toNat_unpackMantissa, toNat_pattern, fractions]
  omega

/-- What a double stands for, by its bit pattern. -/
theorem unpack_cases (x : Float) :
    (magnitude x = infinityBits ∧ x.toModel.unpack = .infinity (sign x)) ∨
    (infinityBits < magnitude x ∧ x.toModel.unpack = .notANumber) ∨
    (magnitude x = 0 ∧ x.toModel.unpack = .zero (sign x)) ∨
    (∃ h, magnitude x < fractions ∧ x.toModel.unpack = .finite (sign x) (magnitude x) (-1074) h) ∨
    ∃ h, fractions ≤ magnitude x ∧ magnitude x < infinityBits ∧
      x.toModel.unpack =
        .finite (sign x) (fractions + magnitude x % fractions) ((magnitude x / fractions : Nat) - 1075) h := by
  have hmagnitude := magnitude_lt x
  have hlargest : unpackExponent (pattern x) = -1#_ ↔ magnitude x / fractions = 2047 := by
    rw [← BitVec.toNat_inj, toNat_exponent]
    rfl
  have hsmallest : unpackExponent (pattern x) = 0#_ ↔ magnitude x / fractions = 0 := by
    rw [← BitVec.toNat_inj, toNat_exponent]
    rfl
  have hfraction : unpackMantissa (pattern x) = 0#_ ↔ magnitude x % fractions = 0 := by
    rw [← BitVec.toNat_inj, toNat_fraction]
    rfl
  have hunpack : x.toModel.unpack = UnpackedFloat.unpack .binary64 (pattern x) := rfl
  simp only [hunpack, UnpackedFloat.unpack, ofBitVec_unpackSign]
  rw [fractions] at hlargest hsmallest hfraction
  by_cases hspecial : unpackExponent (pattern x) = -1#_
  · -- an exponent of ones only: infinite or not a number
    have hexponent := hlargest.mp hspecial
    rw [if_pos hspecial]
    by_cases hzero : unpackMantissa (pattern x) = 0#_
    · have hnone := hfraction.mp hzero
      exact .inl ⟨by rw [infinityBits]; omega, if_pos hzero⟩
    · have hsome := mt hfraction.mpr hzero
      exact .inr (.inl ⟨by rw [infinityBits]; omega, if_neg hzero⟩)
  · have hexponent := mt hlargest.mpr hspecial
    rw [if_neg hspecial]
    by_cases hsub : unpackExponent (pattern x) = 0#_
    · -- an exponent of zeros only: the fraction is the whole significand
      have hlow := hsmallest.mp hsub
      rw [if_pos hsub]
      by_cases hzero : unpackMantissa (pattern x) = 0#_
      · have hnone := hfraction.mp hzero
        exact .inr (.inr (.inl ⟨by omega, dif_pos hzero⟩))
      · have hsome := mt hfraction.mpr hzero
        have hvalue : (unpackMantissa (pattern x)).toNat = magnitude x := by
          rw [toNat_fraction, fractions]
          omega
        refine .inr (.inr (.inr (.inl ⟨by omega, by rw [fractions]; omega, ?_⟩)))
        rw [dif_neg hzero]
        simp only [hvalue, hsub]
        rfl
    · have hhigh := mt hsmallest.mpr hsub
      have hvalue : (1#1 ++ unpackMantissa (pattern x)).toNat = fractions + magnitude x % fractions := by
        rw [BitVec.toNat_append, ← Nat.shiftLeft_add_eq_or_of_lt (BitVec.isLt _), toNat_fraction]
        rfl
      refine .inr (.inr (.inr (.inr ⟨by rw [fractions]; omega, ?_, ?_, ?_⟩)))
      · rw [fractions]
        omega
      · rw [infinityBits]
        omega
      · rw [if_neg hsub]
        simp only [hvalue, toNat_exponent]
        rfl

/-! ## 2. Packing -/

theorem packComponents_eq {x : Float} {e : BitVec 11} {m : BitVec 52} (he : e.toNat = magnitude x / fractions)
    (hm : m.toNat = magnitude x % fractions) : packComponents .binary64 (sign x) e m = pattern x := by
  apply BitVec.eq_of_toNat_eq
  rw [toNat_packComponents, toNat_pattern, he, hm, fractions]
  omega

theorem pattern_of_notANumber {x : Float} (h : infinityBits < magnitude x) : pattern x = packedNaN .binary64 := by
  have hmagnitude := magnitude_lt x
  rw [infinityBits] at h
  refine x.toModel.valid.eq_packedNaN ?_ ?_
  · show unpackExponent (pattern x) = _
    rw [← BitVec.toNat_inj, toNat_exponent, fractions]
    show _ = 2047
    omega
  · show unpackMantissa (pattern x) ≠ _
    rw [← BitVec.toNat_ne_iff_ne, toNat_fraction, fractions]
    show _ ≠ 0
    omega

theorem pack_of_unpack (x : Float) : UnpackedFloat.pack .binary64 x.toModel.unpack = pattern x := by
  rcases unpack_cases x with ⟨hx, h⟩ | ⟨hx, h⟩ | ⟨hx, h⟩ | ⟨hpos, hx, h⟩ | ⟨hpos, hlow, hhigh, h⟩ <;> rw [h]
  · exact packComponents_eq (by rw [hx]; rfl) (by rw [hx]; rfl)
  · exact (pattern_of_notANumber hx).symm
  · exact packComponents_eq (by rw [hx]; rfl) (by rw [hx]; rfl)
  · have hlog : (magnitude x).log2 < 52 := Nat.log2_lt (by omega) |>.mpr hx
    have hbits : ¬(magnitude x).log2 + 1 = Format.mantissaBits .binary64 := by
      simp [Format.mantissaBits]
      omega
    rw [UnpackedFloat.pack, if_neg (by decide), if_neg hbits]
    exact packComponents_eq (Nat.div_eq_of_lt hx).symm (by rw [BitVec.toNat_ofNat]; rfl)
  · have hfraction : magnitude x % fractions < fractions := Nat.mod_lt _ (by decide)
    have hexponent : magnitude x / fractions < 2047 := Nat.div_lt_of_lt_mul hhigh
    have hbiased (k : Nat) : ((k : Int) - 1075 + Format.exponentBias .binary64 + (52 : Nat)).toNat = k := by
      simp only [Format.exponentBias]
      omega
    have hlog : (fractions + magnitude x % fractions).log2 + 1 = Format.mantissaBits .binary64 := by
      simp only [Format.mantissaBits, Nat.add_comm 1, Nat.add_right_cancel_iff]
      rw [Nat.log2_eq_iff (by omega)]
      rw [fractions] at hfraction ⊢
      omega
    have hinfinite : ¬2 ^ 11 ≤ magnitude x / fractions + 1 := by omega
    rw [UnpackedFloat.pack]
    simp only [hbiased]
    rw [if_neg hinfinite, if_pos hlog]
    refine packComponents_eq ?_ ?_
    · rw [BitVec.toNat_ofNat]
      exact Nat.mod_eq_of_lt (by omega)
    · rw [BitVec.toNat_ofNat, fractions]
      show _ % 0x10000000000000 = _
      omega

theorem ofModel_pack_unpack (x : Float) : Float.ofModel (.pack x.toModel.unpack) = x := by
  obtain ⟨⟨bits, valid⟩⟩ := x
  have hpack := pack_of_unpack ⟨⟨bits, valid⟩⟩
  have hbits : UInt64.ofBitVec (UnpackedFloat.pack .binary64 (Float.Model.unpack ⟨bits, valid⟩)) = bits :=
    congrArg UInt64.ofBitVec hpack
  simp only [Float.Model.pack, hbits]

section
variable (x y : Float)

theorem add_eq_pack : x + y = .ofModel (.pack (UnpackedFloat.add .binary64 x.toModel.unpack y.toModel.unpack)) := rfl

theorem sub_eq_pack : x - y = .ofModel (.pack (UnpackedFloat.sub .binary64 x.toModel.unpack y.toModel.unpack)) := rfl

theorem mul_eq_pack : x * y = .ofModel (.pack (UnpackedFloat.mul .binary64 x.toModel.unpack y.toModel.unpack)) := rfl

theorem div_eq_pack : x / y = .ofModel (.pack (UnpackedFloat.div .binary64 x.toModel.unpack y.toModel.unpack)) := rfl

theorem neg_eq_pack : -x = .ofModel (.pack x.toModel.unpack.neg) := rfl

theorem abs_eq_pack : x.abs = .ofModel (.pack x.toModel.unpack.abs) := rfl

end

theorem ofBits_toBits (x : Float) : Float.ofBits x.toBits = x :=
  ofModel_pack_unpack x

/-- A pattern that is no NaN stays what it is. -/
theorem toBits_ofBits {b : UInt64} (h : b.toNat ≤ infinityBits) : (Float.ofBits b).toBits = b := by
  have hvalid : Format.Valid .binary64 b.toBitVec := by
    refine ⟨fun hexponent hmantissa => absurd ?_ hmantissa⟩
    rw [← BitVec.toNat_inj, toNat_unpackExponent] at hexponent
    rw [← BitVec.toNat_inj, toNat_unpackMantissa]
    change b.toNat / 2 ^ 52 % 2 ^ 11 = 2047 at hexponent
    change b.toNat % 2 ^ 52 = 0
    rw [infinityBits] at h
    omega
  exact congrArg Float.toBits (ofBits_toBits ⟨⟨b, hvalid⟩⟩)

/-! ## 3. The kind of a double -/

theorem kinds (x : Float) :
    (x.isFinite ↔ magnitude x < infinityBits) ∧ (x.isInf ↔ magnitude x = infinityBits) ∧
      (x.isNaN ↔ infinityBits < magnitude x) := by
  have hsmall : fractions ≤ infinityBits := by decide
  have hsome : 0 < infinityBits := by decide
  have hfinite : x.isFinite = x.toModel.unpack.isFinite := rfl
  have hinfinite : x.isInf = x.toModel.unpack.isInf := rfl
  have hnan : x.isNaN = x.toModel.unpack.isNaN := rfl
  rw [hfinite, hinfinite, hnan]
  rcases unpack_cases x with ⟨hx, h⟩ | ⟨hx, h⟩ | ⟨hx, h⟩ | ⟨hpos, hx, h⟩ | ⟨hpos, hlow, hx, h⟩ <;>
    simp [h, UnpackedFloat.isFinite, UnpackedFloat.isInf, UnpackedFloat.isNaN] <;> omega

theorem isFinite_iff (x : Float) : x.isFinite ↔ magnitude x < infinityBits :=
  (kinds x).1

theorem isInf_iff (x : Float) : x.isInf ↔ magnitude x = infinityBits :=
  (kinds x).2.1

theorem isNaN_iff (x : Float) : x.isNaN ↔ infinityBits < magnitude x :=
  (kinds x).2.2

theorem isNaN_of_isFinite {x : Float} (h : x.isFinite) : x.isNaN = false := by
  rw [isFinite_iff] at h
  rw [← Bool.not_eq_true, isNaN_iff]
  omega

theorem isInf_of_not_isFinite {x : Float} (h : ¬x.isFinite) (hnumber : x.isNaN = false) : x.isInf := by
  rw [isFinite_iff] at h
  rw [← Bool.not_eq_true, isNaN_iff] at hnumber
  rw [isInf_iff]
  omega

theorem unpack_of_magnitude_eq_zero {x : Float} (h : magnitude x = 0) : x.toModel.unpack = .zero (sign x) := by
  have hspecial : 0 < infinityBits := by decide
  have hsmall : 0 < fractions := by decide
  rcases unpack_cases x with ⟨hx, -⟩ | ⟨hx, -⟩ | ⟨-, hx⟩ | ⟨hx, -⟩ | ⟨-, hx, -⟩
  · omega
  · omega
  · exact hx
  · omega
  · omega

theorem unpacked_isNaN_iff (u : UnpackedFloat) : u.isNaN ↔ u = .notANumber := by
  cases u with
  | notANumber => exact iff_of_true rfl rfl
  | _ => exact iff_of_false nofun nofun

theorem unpack_of_isNaN {x : Float} (h : x.isNaN) : x.toModel.unpack = .notANumber :=
  (unpacked_isNaN_iff _).mp h

/-! ## 4. Doubles without a sign -/

/-- What a pattern without a sign bit stands for. -/
inductive Unsigned : UnpackedFloat → Prop where
  | infinity : Unsigned (.infinity .positive)
  | notANumber : Unsigned .notANumber
  | zero : Unsigned (.zero .positive)
  | finite (mantissa : Nat) (exponent : Int) (positive : 0 < mantissa) :
    Unsigned (.finite .positive mantissa exponent positive)

theorem signBit_eq_false_iff (x : Float) : signBit x = false ↔ (pattern x).toNat < 2 ^ 63 := by
  rw [signBit, decide_eq_false_iff_not, Nat.not_le]
  exact Iff.rfl

theorem packComponents_lt (e : BitVec 11) (m : BitVec 52) :
    (packComponents .binary64 .positive e m).toNat < 2 ^ 63 := by
  have he := e.isLt
  have hm := m.isLt
  rw [toNat_packComponents]
  show 0 * 2 ^ 63 + e.toNat * 2 ^ 52 + m.toNat < _
  omega

namespace Unsigned

theorem unpack {x : Float} (h : signBit x = false) : Unsigned x.toModel.unpack := by
  have hsign : sign x = .positive := by simp [sign, h]
  rcases unpack_cases x with ⟨-, h⟩ | ⟨-, h⟩ | ⟨-, h⟩ | ⟨_, -, h⟩ | ⟨_, -, -, h⟩ <;> simp only [h, hsign] <;>
    constructor

theorem signBit_pack {u : UnpackedFloat} (h : Unsigned u) : signBit (.ofModel (.pack u)) = false := by
  rw [signBit_eq_false_iff]
  show (UnpackedFloat.pack .binary64 u).toNat < 2 ^ 63
  cases h with
  | infinity => exact packComponents_lt _ _
  | notANumber => exact packComponents_lt _ _
  | zero => exact packComponents_lt _ _
  | finite m e positive =>
    rw [UnpackedFloat.pack]
    dsimp only
    split
    · exact packComponents_lt _ _
    · split <;> exact packComponents_lt _ _

theorem roundWithAccuracy (m : Nat) (e : Int) (a : Accuracy) :
    Unsigned (UnpackedFloat.roundWithAccuracy .binary64 .positive m e a) := by
  unfold UnpackedFloat.roundWithAccuracy
  dsimp only
  split
  · exact .zero
  · exact .finite ..

theorem normalize {m : Int} (e : Int) (h : 0 ≤ m) :
    Unsigned (UnpackedFloat.normalize .binary64 m e .positive) := by
  unfold UnpackedFloat.normalize
  split
  · rename_i hm
    rw [Int.compare_eq_lt] at hm
    omega
  · exact .zero
  · exact roundWithAccuracy _ _ _

theorem add {u v : UnpackedFloat} (hu : Unsigned u) (hv : Unsigned v) : Unsigned (UnpackedFloat.add .binary64 u v) := by
  cases hu <;> cases hv <;> first
    | constructor
    | exact normalize _ (Int.add_nonneg (Int.natCast_nonneg _) (Int.natCast_nonneg _))

theorem mul {u v : UnpackedFloat} (hu : Unsigned u) (hv : Unsigned v) : Unsigned (UnpackedFloat.mul .binary64 u v) := by
  cases hu <;> cases hv <;> first | constructor | exact roundWithAccuracy _ _ _

theorem div {u v : UnpackedFloat} (hu : Unsigned u) (hv : Unsigned v) : Unsigned (UnpackedFloat.div .binary64 u v) := by
  cases hu <;> cases hv <;> first | constructor | exact roundWithAccuracy _ _ _

theorem abs_eq {u : UnpackedFloat} (hu : Unsigned u) : u.abs = u := by
  cases hu <;> rfl

end Unsigned

theorem unpack_zero : (0.0 : Float).toModel.unpack = .zero .positive := by
  have hmagnitude : magnitude 0.0 = 0 := by decide +kernel
  have hsign : sign 0.0 = .positive := if_neg (by decide +kernel)
  rw [unpack_of_magnitude_eq_zero hmagnitude, hsign]

theorem zero_eq_pack : (0.0 : Float) = .ofModel (.pack (.zero .positive)) := by
  rw [← unpack_zero, ofModel_pack_unpack]

section
variable {x y : Float}

theorem signBit_add (hx : signBit x = false) (hy : signBit y = false) : signBit (x + y) = false :=
  (Unsigned.add (.unpack hx) (.unpack hy)).signBit_pack

theorem signBit_mul (hx : signBit x = false) (hy : signBit y = false) : signBit (x * y) = false :=
  (Unsigned.mul (.unpack hx) (.unpack hy)).signBit_pack

theorem signBit_div (hx : signBit x = false) (hy : signBit y = false) : signBit (x / y) = false :=
  (Unsigned.div (.unpack hx) (.unpack hy)).signBit_pack

theorem abs_eq_self (hx : signBit x = false) : x.abs = x := by
  rw [abs_eq_pack, (Unsigned.unpack hx).abs_eq, ofModel_pack_unpack]

theorem zero_le (hx : signBit x = false) (hnan : x.isNaN = false) : 0.0 ≤ x := by
  have hle : UnpackedFloat.le (0.0 : Float).toModel.unpack x.toModel.unpack := by
    have hunpack := Unsigned.unpack hx
    change x.toModel.unpack.isNaN = false at hnan
    rw [unpack_zero]
    generalize x.toModel.unpack = u at hunpack hnan
    cases hunpack with
    | infinity => rfl
    | notANumber => cases hnan
    | zero => rfl
    | finite => rfl
  exact decide_eq_true hle

end

/-! ## 5. Differences -/

theorem sub_self_of_isFinite {x : Float} (h : x.isFinite) : x - x = 0.0 := by
  change x.toModel.unpack.isFinite at h
  rw [zero_eq_pack, sub_eq_pack]
  generalize x.toModel.unpack = u at h ⊢
  congr
  cases u with
  | infinity s => cases h
  | notANumber => cases h
  | zero s => cases s <;> rfl
  | finite s m e positive =>
    simp only [UnpackedFloat.sub, Int.sub_self]
    rfl

section
variable {x y : Float}

theorem isNaN_ofModel_notANumber : (Float.ofModel (.pack .notANumber)).isNaN := by
  decide +kernel

theorem isNaN_sub_self (h : ¬x.isFinite) : (x - x).isNaN := by
  change ¬x.toModel.unpack.isFinite at h
  rw [sub_eq_pack]
  generalize x.toModel.unpack = u at h ⊢
  cases u with
  | infinity s => cases s <;> exact isNaN_ofModel_notANumber
  | notANumber => exact isNaN_ofModel_notANumber
  | zero s => exact absurd rfl h
  | finite => exact absurd rfl h

theorem isNaN_abs (h : x.isNaN) : x.abs.isNaN := by
  rw [abs_eq_pack, unpack_of_isNaN h]
  exact isNaN_ofModel_notANumber

theorem isNaN_add_left (h : x.isNaN) : (x + y).isNaN := by
  rw [add_eq_pack, unpack_of_isNaN h]
  exact isNaN_ofModel_notANumber

theorem isNaN_add_right (h : y.isNaN) : (x + y).isNaN := by
  rw [add_eq_pack, unpack_of_isNaN h]
  generalize x.toModel.unpack = u
  cases u <;> exact isNaN_ofModel_notANumber

theorem not_lt_of_isNaN (h : x.isNaN) : ¬x < y := by
  have hlt : ¬UnpackedFloat.lt x.toModel.unpack y.toModel.unpack := by
    rw [unpack_of_isNaN h]
    exact Bool.false_ne_true
  exact fun hxy => hlt (of_decide_eq_true hxy)

end

/-! ## 6. Negation -/

theorem toNat_packComponents_mod (s : Sign) (e : BitVec 11) (m : BitVec 52) :
    (packComponents .binary64 s e m).toNat % 2 ^ 63 = e.toNat * 2 ^ 52 + m.toNat := by
  have he := e.isLt
  have hm := m.isLt
  rw [toNat_packComponents]
  omega

/-- Below its sign bit, the pattern does not depend on the sign. -/
theorem toNat_pack_neg (u : UnpackedFloat) :
    (UnpackedFloat.pack .binary64 u.neg).toNat % 2 ^ 63 = (UnpackedFloat.pack .binary64 u).toNat % 2 ^ 63 := by
  have hsame : ∀ (s t : Sign) (e : BitVec 11) (m : BitVec 52),
      (packComponents .binary64 s e m).toNat % 2 ^ 63 = (packComponents .binary64 t e m).toNat % 2 ^ 63 := by
    intro s t e m
    rw [toNat_packComponents_mod, toNat_packComponents_mod]
  cases u with
  | infinity s => apply hsame
  | notANumber => rfl
  | zero s => apply hsame
  | finite s m e positive =>
    rw [UnpackedFloat.neg, UnpackedFloat.pack, UnpackedFloat.pack]
    dsimp only
    -- which pattern it is, too large, normal or subnormal, is told from the significand and the exponent alone
    split
    · apply hsame
    · split <;> apply hsame

theorem magnitude_neg (x : Float) : magnitude (-x) = magnitude x := by
  have hself := congrArg BitVec.toNat (pack_of_unpack x)
  show (UnpackedFloat.pack .binary64 x.toModel.unpack.neg).toNat % 2 ^ 63 = (pattern x).toNat % 2 ^ 63
  rw [toNat_pack_neg, hself]

theorem isNaN_neg (x : Float) : (-x).isNaN = x.isNaN := by
  rw [Bool.eq_iff_iff, isNaN_iff, isNaN_iff, magnitude_neg]

end ComplexCalc.Binary64
