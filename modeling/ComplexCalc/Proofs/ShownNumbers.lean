import ComplexCalc.Proofs.Overflow
import ComplexCalc.Proofs.ReadBack
import ComplexCalc.Proofs.SquaredMagnitude

/-!
# ShownNumbers — when the text of a number shows two finite parts

A part is multiplied by ten thousand before it is rounded to four places, and nothing after that is too large if the
product is not (section 1).  So the text of a number consists of two finite numerals exactly if neither of its parts
overflows there, and shows an infinity in place of one that does (section 2).
-/

namespace ComplexCalc

open Binary64

/-! ## 1. Four places -/

namespace Number

/-- Ten thousand times the absolute value is not rounded to infinity. -/
def FitsFourPlaces (x : Float) : Prop :=
  units x * 10000 < overflow

instance (x : Float) : Decidable (FitsFourPlaces x) :=
  inferInstanceAs (Decidable (units x * 10000 < overflow))

section
variable {x : Float}

theorem isFinite_scale : (10000.0 : Float).isFinite := by
  decide +kernel

theorem isFinite_mul_scale_iff (h : x.isFinite) : (x * 10000.0).isFinite ↔ FitsFourPlaces x := by
  have hunits : units 10000.0 = 10000 * unitsOfOne := by decide +kernel
  rw [isFinite_mul_iff h isFinite_scale, hunits, ← Nat.mul_assoc, Nat.mul_lt_mul_right unitsOfOne_pos, FitsFourPlaces]

theorem isFinite_fourPlaces (h : x.isFinite) (hfits : FitsFourPlaces x) : (fourPlaces x).isFinite := by
  have hhalf : units 0.5 < halfUnit := by decide +kernel
  have hzero : units 0.0 < halfUnit := by decide +kernel
  have htwo : 2 * unitsOfOne ≤ units 10000.0 := by decide +kernel
  -- half of a unit is left above every finite double
  have hadd : ∀ {y z : Float}, y.isFinite → z.isFinite → units z < halfUnit → (y + z).isFinite := by
    intro y z hy hz hunits
    exact isFinite_add hy hz (Nat.lt_of_lt_of_le (Nat.add_lt_add_left hunits _) (units_le hy))
  have hscaled := (isFinite_mul_scale_iff h).mpr hfits
  have hwhole := isFinite_floor (hadd hscaled (by decide +kernel) hhalf)
  exact hadd (isFinite_div hwhole isFinite_scale htwo) (by decide +kernel) hzero

/-- What is infinite once it is multiplied stays so, and the sign is kept. -/
theorem isInf_fourPlaces (h : x.isFinite) (hlarge : ¬FitsFourPlaces x) :
    (fourPlaces x).isInf ∧ sign (fourPlaces x) = sign x := by
  have hscale : sign 10000.0 = .positive := if_neg (by decide +kernel)
  obtain ⟨hinfinite, hsign⟩ := isInf_mul h isFinite_scale (mt (isFinite_mul_scale_iff h).mp hlarge)
  -- none of the later steps changes an infinity
  have hsame : fourPlaces x = x * 10000.0 := by
    rw [fourPlaces, add_of_isInf hinfinite (by decide +kernel), floor_of_isInf hinfinite,
      div_of_isInf hinfinite isFinite_scale (by decide +kernel), add_of_isInf hinfinite (by decide +kernel)]
  rw [hsame, hsign, hscale]
  refine ⟨hinfinite, ?_⟩
  cases sign x <;> rfl

end

end Number

/-! ## 2. The text of a double -/

namespace Binary64
variable {x : Float}

theorem magnitude_abs (x : Float) : magnitude x.abs = magnitude x := by
  rw [abs_eq_pack, magnitude_pack_abs, ofModel_pack_unpack]

theorem units_abs (x : Float) : units x.abs = units x := by
  rw [units, units, magnitude_abs]

theorem sign_abs (x : Float) : sign x.abs = .positive := by
  rw [abs_eq_pack, sign_pack]
  cases x.toModel.unpack <;> rfl

theorem signBit_eq_of_sign_eq {x y : Float} (h : sign x = sign y) : signBit x = signBit y := by
  unfold sign at h
  cases hx : signBit x <;> cases hy : signBit y <;> rw [hx, hy] at h <;> first | rfl | cases h

theorem signBit_abs (x : Float) : signBit x.abs = false := by
  have hsign := sign_abs x
  unfold sign at hsign
  split at hsign
  · cases hsign
  · exact Bool.eq_false_iff.mpr ‹_›

theorem isFinite_abs (h : x.isFinite) : x.abs.isFinite := by
  rwa [isFinite_iff, magnitude_abs, ← isFinite_iff]

theorem text_of_isInf (h : x.isInf) : Binary64.text x = if signBit x then "-inf" else "inf" := by
  have hnumber : ¬x.isNaN := by
    rw [isInf_iff] at h
    rw [isNaN_iff, h]
    exact Nat.lt_irrefl _
  rw [Binary64.text, if_neg hnumber, if_pos h]
  cases signBit x <;> rfl

end Binary64

/-- The text is a numeral, and is read as a finite double. -/
def FiniteNumeral (text : String) : Prop :=
  ∃ d, Numeral text.toList d ∧ d.toFloat.isFinite

theorem finiteNumeral_shortest {x : Float} (h : x.isFinite) : FiniteNumeral (Decimal.shortest x.abs).text := by
  refine ⟨Decimal.shortest x.abs, ?_, ?_⟩
  · rw [Decimal.text, String.toList_ofList]
    exact Decimal.numeral_chars _
  · rw [Decimal.toFloat_shortest (isFinite_abs h) (signBit_abs x)]
    exact isFinite_abs h

theorem FiniteNumeral.not_mem {text : String} (h : FiniteNumeral text) : 'n' ∉ text.toList := by
  obtain ⟨d, hnumeral, -⟩ := h
  have hrun := hnumeral.numberRun.all
  intro hmem
  exact absurd (hrun 'n' hmem) (by decide)

/-! ## 3. The text of a number -/

/-- The text shows a number with finite parts: two numerals, of which the first one may have a minus sign. -/
inductive ShowsFinite : String → Prop where
  | parts {sign re between im : String} : sign ∈ ["", "-"] → FiniteNumeral re → between ∈ ["+", "-"] →
      FiniteNumeral im → ShowsFinite (sign ++ re ++ " " ++ between ++ " " ++ im ++ "i")

/-- So neither an infinity nor a NaN is shown. -/
theorem ShowsFinite.not_mem {text : String} (h : ShowsFinite text) : 'n' ∉ text.toList := by
  obtain ⟨hsign, hre, hbetween, him⟩ := h
  have hoption : ∀ {t u v : String}, t ∈ [u, v] → 'n' ∉ u.toList → 'n' ∉ v.toList → 'n' ∉ t.toList := by
    intro t u v ht hu hv
    rcases List.mem_pair.mp ht with rfl | rfl
    · exact hu
    · exact hv
  have hsign := hoption hsign (by decide) (by decide)
  have hbetween := hoption hbetween (by decide) (by decide)
  have hspace : 'n' ∉ " ".toList := by decide
  have hunit : 'n' ∉ "i".toList := by decide
  simp only [String.toList_append, List.mem_append, not_or]
  exact ⟨⟨⟨⟨⟨⟨hsign, hre.not_mem⟩, hspace⟩, hbetween⟩, hspace⟩, him.not_mem⟩, hunit⟩

namespace Number
variable {z : Number}

/-- The sign in front of the imaginary part. -/
def signText (z : Number) : String :=
  if z.im ≥ 0.0 then "+" else "-"

theorem signText_mem (z : Number) : z.signText ∈ ["+", "-"] := by
  unfold signText
  split <;> decide

theorem text_eq (z : Number) : z.text = Binary64.text (fourPlaces z.re) ++ " " ++ z.signText ++ " " ++
    Binary64.text (fourPlaces z.im.abs) ++ "i" :=
  rfl

theorem fitsFourPlaces_abs (x : Float) : FitsFourPlaces x.abs ↔ FitsFourPlaces x := by
  rw [FitsFourPlaces, units_abs, FitsFourPlaces]

theorem showsFinite_text (hre : z.re.isFinite) (him : z.im.isFinite) (hfits : FitsFourPlaces z.re)
    (hfits' : FitsFourPlaces z.im) : ShowsFinite z.text := by
  have hreal := isFinite_fourPlaces hre hfits
  have himaginary := isFinite_fourPlaces (isFinite_abs him) ((fitsFourPlaces_abs _).mpr hfits')
  have hsign : (if signBit (fourPlaces z.re) then "-" else "") ∈ ["", "-"] := by
    split <;> decide
  rw [text_eq, text_of_abs hreal, text_of_abs himaginary, signBit_fourPlaces (signBit_abs _),
    if_neg Bool.false_ne_true, String.empty_append]
  exact .parts hsign (finiteNumeral_shortest hreal) z.signText_mem (finiteNumeral_shortest himaginary)

/-- How an infinite real part of the given sign is shown. -/
def infinityText (negative : Bool) : String :=
  if negative then "-inf" else "inf"

theorem mem_infinityText (negative : Bool) : 'n' ∈ (infinityText negative).toList := by
  cases negative <;> decide

theorem text_fourPlaces {x : Float} (h : x.isFinite) (hlarge : ¬FitsFourPlaces x) :
    Binary64.text (fourPlaces x) = infinityText (signBit x) := by
  obtain ⟨hinfinite, hsign⟩ := isInf_fourPlaces h hlarge
  rw [text_of_isInf hinfinite, signBit_eq_of_sign_eq hsign, infinityText]

/-- A number with finite parts is shown by two finite numerals exactly if both parts fit the four places.  The place of
a part that does not is taken by an infinity. -/
theorem showsFinite_text_iff (hre : z.re.isFinite) (him : z.im.isFinite) :
    (ShowsFinite z.text ↔ FitsFourPlaces z.re ∧ FitsFourPlaces z.im) ∧
      (¬FitsFourPlaces z.re → ∃ im, z.text = infinityText (signBit z.re) ++ " " ++ z.signText ++ " " ++ im ++ "i") ∧
      (¬FitsFourPlaces z.im → ∃ re, z.text = re ++ " " ++ z.signText ++ " " ++ "inf" ++ "i") := by
  have hreal : ¬FitsFourPlaces z.re →
      ∃ im, z.text = infinityText (signBit z.re) ++ " " ++ z.signText ++ " " ++ im ++ "i" := by
    intro hlarge
    rw [text_eq, text_fourPlaces hre hlarge]
    exact ⟨_, rfl⟩
  have himaginary : ¬FitsFourPlaces z.im → ∃ re, z.text = re ++ " " ++ z.signText ++ " " ++ "inf" ++ "i" := by
    intro hlarge
    rw [← fitsFourPlaces_abs] at hlarge
    rw [text_eq, text_fourPlaces (isFinite_abs him) hlarge, signBit_abs]
    exact ⟨_, rfl⟩
  refine ⟨⟨fun hshows => ⟨?_, ?_⟩, fun hfits => showsFinite_text hre him hfits.1 hfits.2⟩, hreal, himaginary⟩
  -- the n of an infinity stands in no numeral
  · by_contra hlarge
    obtain ⟨im, htext⟩ := hreal hlarge
    refine hshows.not_mem ?_
    rw [htext]
    simp [String.toList_append, mem_infinityText]
  · by_contra hlarge
    obtain ⟨re, htext⟩ := himaginary hlarge
    refine hshows.not_mem ?_
    rw [htext]
    simp [String.toList_append]

/-- The largest power of two with a finite text is `2 ^ 1010`. -/
theorem showsFinite_text_powerOfTwo : ShowsFinite (powerOfTwo 2033).text := by
  have hfits : FitsFourPlaces (powerOfTwo 2033).re ∧ FitsFourPlaces (powerOfTwo 2033).im := by decide +kernel
  exact (showsFinite_text_iff (by decide +kernel) (by decide +kernel)).1.mpr hfits

/-- The next one, `2 ^ 1011`, is shown as infinite, although it is far from the largest double. -/
theorem not_showsFinite_text : ¬ ∀ z : Number, z.re.isFinite → z.im.isFinite → ShowsFinite z.text := by
  intro hall
  have hlarge : ¬FitsFourPlaces (powerOfTwo 2034).re := by decide +kernel
  have hshows := hall (powerOfTwo 2034) (by decide +kernel) (by decide +kernel)
  rw [text_eq, text_fourPlaces (by decide +kernel) hlarge] at hshows
  refine hshows.not_mem ?_
  simp [String.toList_append, mem_infinityText]

end Number

end ComplexCalc
