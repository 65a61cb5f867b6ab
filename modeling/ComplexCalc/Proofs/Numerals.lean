import ComplexCalc.Proofs.Doubles
import ComplexCalc.Proofs.Segmentation

/-!
# Numerals — the text of a double reads back as the double

The double nearest to a quotient is the double itself if the quotient is its value (section 1).  So the search for its
shortest numeral ends with one that reads back, at the latest on the grid on which the double lies (section 2).  The
text of a numeral has a point only behind its first digit and is read as the same numeral (section 3).
-/

namespace ComplexCalc

namespace Binary64

/-! ## 1. The nearest double -/

theorem toBits_nearest (num den : Nat) : (nearest num den).toBits.toNat ≤ infinityBits := by
  have hsize : infinityBits < 2 ^ 64 := by decide
  have hle : ∀ n, (UInt64.ofNat (min n infinityBits)).toNat ≤ infinityBits := by
    intro n
    rw [UInt64.toNat_ofNat_of_lt' (by rw [UInt64.size]; omega)]
    exact Nat.min_le_right ..
  rw [nearest, toBits_ofBits (hle _)]
  exact hle _

theorem signBit_nearest (num den : Nat) : signBit (nearest num den) = false := by
  have hbits := toBits_nearest num den
  have hpositive : infinityBits < 0x8000000000000000 := by decide
  rw [signBit, decide_eq_false_iff_not]
  omega

theorem isNaN_nearest (num den : Nat) : (nearest num den).isNaN = false := by
  have hbits := toBits_nearest num den
  rw [← Bool.not_eq_true, isNaN_iff, magnitude]
  have hmod := Nat.mod_le (nearest num den).toBits.toNat 0x8000000000000000
  omega

/-- Nothing is lost where nothing has to be rounded. -/
theorem roundHalfEven_mul (quotient : Nat) {den : Nat} (h : 0 < den) :
    roundHalfEven (quotient * den) den = quotient := by
  rw [roundHalfEven]
  simp [Nat.mul_div_cancel _ h, h]

theorem nearest_zero (den : Nat) : nearest 0 den = Float.ofBits 0 := by
  have hround : ∀ d, roundHalfEven 0 d = 0 := by
    intro d
    simp [roundHalfEven]
  simp [nearest, hround]

/-- The units of a double, and its pattern as `nearest` composes it from the shift that rounds them to a significand. -/
theorem units_eq (x : Float) :
    ∃ significand, units x = significand * 2 ^ ((units x).log2 - 52) ∧
      ((units x).log2 - 52) * fractions + significand = magnitude x := by
  have hfraction : magnitude x % fractions < fractions := Nat.mod_lt _ (by decide)
  have hsplit := Nat.div_add_mod (magnitude x) fractions
  by_cases hexponent : magnitude x / fractions = 0
  · -- too small for a shift
    have hunits : units x = magnitude x % fractions := if_pos hexponent
    rw [hexponent, Nat.mul_zero, Nat.zero_add] at hsplit
    have hlog : (units x).log2 - 52 = 0 := by
      by_cases hzero : units x = 0
      · rw [hzero]
        rfl
      · have hsmall : (units x).log2 < 52 := (Nat.log2_lt hzero).mpr (by rw [hunits]; exact hfraction)
        omega
    rw [hlog]
    exact ⟨units x, by omega, by omega⟩
  · have hunits : units x = (fractions + magnitude x % fractions) * 2 ^ (magnitude x / fractions - 1) :=
      if_neg hexponent
    have hpower := Nat.two_pow_pos (magnitude x / fractions - 1)
    have hlog : (units x).log2 = 52 + (magnitude x / fractions - 1) := by
      have hpositive : units x ≠ 0 := by
        rw [hunits]
        exact (Nat.mul_pos (Nat.add_pos_left (by decide) _) hpower).ne'
      rw [Nat.log2_eq_iff hpositive, hunits, Nat.add_right_comm, Nat.pow_add, Nat.pow_add]
      constructor
      · exact Nat.mul_le_mul_right _ (Nat.le_add_right ..)
      · exact Nat.mul_lt_mul_of_pos_right (by rw [fractions] at hfraction ⊢; omega) hpower
    rw [hlog, Nat.add_sub_cancel_left]
    refine ⟨fractions + magnitude x % fractions, hunits, ?_⟩
    obtain ⟨below, hbelow⟩ := Nat.exists_eq_succ_of_ne_zero hexponent
    rw [hbelow] at hsplit ⊢
    rw [Nat.mul_succ] at hsplit
    rw [Nat.succ_sub_one, Nat.mul_comm below]
    omega

theorem unitsOfOne_eq : unitsOfOne = 2 ^ places := by
  unfold unitsOfOne
  exact Nat.pow_eq

theorem unitsOfOne_pos : 0 < unitsOfOne := by
  rw [unitsOfOne_eq]
  apply Nat.two_pow_pos

theorem ofBits_magnitude {x : Float} (h : signBit x = false) : Float.ofBits (UInt64.ofNat (magnitude x)) = x := by
  have hbits : magnitude x = x.toBits.toNat := by
    rw [signBit, decide_eq_false_iff_not, Nat.not_le] at h
    exact Nat.mod_eq_of_lt h
  rw [hbits, UInt64.ofNat_toNat, ofBits_toBits]

/-- The quotient of the units of a finite double by those of one is the double. -/
theorem nearest_units {x : Float} (hfinite : x.isFinite) (hsign : signBit x = false) {scale : Nat} (h : 0 < scale) :
    nearest (units x * scale) (unitsOfOne * scale) = x := by
  obtain ⟨significand, hunits, hmagnitude⟩ := units_eq x
  have hden : 0 < unitsOfOne * scale := Nat.mul_pos unitsOfOne_pos h
  have hscaled : units x * scale * unitsOfOne = units x * (unitsOfOne * scale) := by
    rw [Nat.mul_assoc, Nat.mul_comm scale]
  have hshift : units x * (unitsOfOne * scale) / (unitsOfOne * scale) = units x := Nat.mul_div_cancel _ hden
  have hround : roundHalfEven (units x * (unitsOfOne * scale)) (unitsOfOne * scale * Nat.pow 2 ((units x).log2 - 52)) =
      significand := by
    rw [Nat.pow_eq]
    nth_rewrite 1 [hunits]
    rw [Nat.mul_assoc, Nat.mul_comm (2 ^ _)]
    exact roundHalfEven_mul _ (Nat.mul_pos hden (Nat.two_pow_pos _))
  rw [nearest]
  simp only [hscaled, hshift, hround, hmagnitude]
  rw [Nat.min_eq_left ((isFinite_iff x).mp hfinite).le]
  exact ofBits_magnitude hsign

end Binary64

open Binary64

namespace Decimal

/-! ## 2. The shortest numeral -/

theorem toFloat_onGrid? {x : Float} {exact step : Nat} {d : Decimal} (h : onGrid? x exact step = some d) :
    d.toFloat = x := by
  rw [onGrid?] at h
  split at h
  · rename_i habove
    cases h
    exact habove.1
  · split at h
    · rename_i hbelow
      cases h
      exact hbelow
    · cases h

/-- Every step of the search offers a numeral that reads back, and the last one is exact. -/
theorem toFloat_search {x : Float} {exact : Nat} (h : (ofSteps exact 0).toFloat = x) (step : Nat) :
    (search x exact step).toFloat = x := by
  induction step with
  | zero => exact h
  | succ step ih =>
    rw [search]
    cases hgrid : onGrid? x exact (step + 1) with
    | none => exact ih
    | some d => exact toFloat_onGrid? hgrid

/-- On the finest grid, a double is exactly its value. -/
theorem toFloat_ofSteps_units {x : Float} (hfinite : x.isFinite) (hsign : signBit x = false) :
    (ofSteps (units x * Nat.pow 5 Binary64.places) 0).toFloat = x := by
  have hten : Nat.pow 10 Binary64.places = unitsOfOne * Nat.pow 5 Binary64.places := by
    rw [unitsOfOne_eq, Nat.pow_eq, Nat.pow_eq, ← Nat.mul_pow]
  have hfive : ∀ n, 0 < Nat.pow 5 n := fun _ => Nat.pow_pos (by decide)
  rw [ofSteps, if_neg (by decide), Nat.sub_zero, toFloat, hten]
  apply nearest_units hfinite hsign
  apply hfive

theorem toFloat_shortest {x : Float} (hfinite : x.isFinite) (hsign : signBit x = false) :
    (shortest x).toFloat = x := by
  have hexact := toFloat_ofSteps_units hfinite hsign
  rw [shortest]
  generalize units x * Nat.pow 5 Binary64.places = exact at hexact ⊢
  by_cases hzero : exact = 0
  · rw [hzero, ofSteps, if_neg (by decide), toFloat, nearest_zero] at hexact
    rw [if_pos hzero, toFloat, nearest_zero, hexact]
  · rw [if_neg hzero]
    exact toFloat_search hexact _

/-! ## 3. Text -/

theorem isDigit_of_mem_padded (width n : Nat) : ∀ c ∈ padded width n, c.isDigit = true := by
  intro c hc
  rcases List.mem_append.mp hc with hc | hc
  · rw [List.eq_of_mem_replicate hc]
    decide
  · exact Nat.isDigit_of_mem_toDigits (by decide) (by decide) hc

theorem length_padded {width n : Nat} (hwidth : 0 < width) (h : n < 10 ^ width) : (padded width n).length = width := by
  have hlength := (Nat.length_toDigits_le_iff (by decide) hwidth).mpr h
  rw [padded, List.length_append, List.length_replicate]
  omega

theorem ofDigitChars_padded (width n start : Nat) :
    Nat.ofDigitChars 10 (padded width n) start = 10 ^ (padded width n).length * start + n := by
  have hzero : Nat.ofDigitChars 10 (padded width n) 0 = n := by
    rw [padded, Nat.ofDigitChars_append, Nat.ofDigitChars_replicate_zero, Nat.mul_zero, Nat.ofDigitChars_ten_toDigits]
  rw [Nat.ofDigitChars_eq_ofDigitChars_zero, hzero]

/-- The text of a numeral is a numeral of the same worth. -/
theorem numeral_chars (d : Decimal) : Numeral d.chars d := by
  have hdigits : ∀ n, ∀ c ∈ Nat.toDigits 10 n, c.isDigit = true :=
    fun n c hc => Nat.isDigit_of_mem_toDigits (by decide) (by decide) hc
  obtain ⟨digits, places⟩ := d
  rw [chars]
  by_cases hplaces : places = 0
  · rw [if_pos hplaces, hplaces]
    have hwhole := Numeral.whole Nat.toDigits_ne_nil (hdigits digits)
    rwa [Nat.ofDigitChars_ten_toDigits] at hwhole
  · rw [if_neg hplaces]
    have hone : 0 < 10 ^ places := Nat.pow_pos (by decide)
    have hpadded := length_padded (Nat.pos_of_ne_zero hplaces) (Nat.mod_lt digits hone)
    have hpointed := Numeral.pointed Nat.toDigits_ne_nil (hdigits (digits / 10 ^ places))
      (isDigit_of_mem_padded places (digits % 10 ^ places))
    rw [Nat.ofDigitChars_append, Nat.ofDigitChars_ten_toDigits, ofDigitChars_padded, hpadded,
      Nat.div_add_mod] at hpointed
    exact hpointed

end Decimal

/-- A finite double is shown as the shortest numeral of its absolute value, behind its sign. -/
theorem text_of_abs {x : Float} (hfinite : x.isFinite) :
    Binary64.text x = (if signBit x then "-" else "") ++ (Decimal.shortest x.abs).text := by
  have hmagnitude := (isFinite_iff x).mp hfinite
  have hnan : ¬x.isNaN := by
    rw [isNaN_iff]
    omega
  have hinfinite : ¬x.isInf := by
    rw [isInf_iff]
    omega
  rw [Binary64.text, if_neg hnan, if_neg hinfinite]

theorem text_of_isFinite {x : Float} (hfinite : x.isFinite) (hsign : signBit x = false) :
    Binary64.text x = (Decimal.shortest x).text := by
  rw [text_of_abs hfinite, hsign, abs_eq_self hsign]
  exact String.empty_append

/-- The text of a finite double without a sign is a number for the lexer, worth the double. -/
theorem spelledBy_text {x : Float} (hfinite : x.isFinite) (hsign : signBit x = false) :
    (Token.real x).SpelledBy (Binary64.text x).toList ∧
      (Token.imaginary x).SpelledBy ((Binary64.text x).toList ++ ['i']) := by
  have hnumeral := (Decimal.shortest x).numeral_chars
  have hreal := Token.SpelledBy.real hnumeral.numberRun hnumeral.longest
  have himaginary := Token.SpelledBy.imaginary hnumeral.numberRun hnumeral.longest
  rw [Decimal.toFloat_shortest hfinite hsign] at hreal himaginary
  rw [text_of_isFinite hfinite hsign, Decimal.text, String.toList_ofList]
  exact ⟨hreal, himaginary⟩

end ComplexCalc
