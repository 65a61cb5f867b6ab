/-!
White space in texts: the characters with the `White_Space` property, texts without them, and texts of nothing else.
-/

namespace ComplexCalc.Text

/-- Whether the code point of a character lies in one of the ranges, which are given by their first and last ones. -/
def inRanges (ranges : List (Nat × Nat)) (c : Char) : Bool :=
  ranges.any fun (first, last) => first ≤ c.toNat && c.toNat ≤ last

theorem inRanges_iff {ranges : List (Nat × Nat)} {c : Char} :
    inRanges ranges c ↔ ∃ r ∈ ranges, r.1 ≤ c.toNat ∧ c.toNat ≤ r.2 := by
  simp [inRanges]

/-- First and last code point of each range of the `White_Space` property. -/
def blankRanges : List (Nat × Nat) :=
  [(0x09, 0x0D), (0x20, 0x20), (0x85, 0x85), (0xA0, 0xA0), (0x1680, 0x1680), (0x2000, 0x200A),
    (0x2028, 0x2029), (0x202F, 0x202F), (0x205F, 0x205F), (0x3000, 0x3000)]

def isBlankChar (c : Char) : Bool :=
  inRanges blankRanges c

/-- A text with its white space removed, wherever it stands. -/
def strip (s : String) : List Char :=
  s.toList.filter fun c => !isBlankChar c

theorem isBlankChar_of_mem_strip {s : String} {c : Char} (h : c ∈ strip s) : isBlankChar c = false := by
  have hkept := (List.mem_filter.mp h).2
  rwa [Bool.not_eq_true'] at hkept

/-- What is left stands in the order in which it stood. -/
theorem strip_sublist (s : String) : (strip s).Sublist s.toList :=
  List.filter_sublist

/-- Nothing but white space is missing. -/
theorem count_strip {c : Char} (h : isBlankChar c = false) (s : String) : (strip s).count c = s.toList.count c :=
  List.count_filter (by rw [h, Bool.not_false])

/-- Whether a text holds nothing but white space. -/
def isBlank (s : String) : Bool :=
  s.toList.all isBlankChar

theorem isBlank_iff_strip (s : String) : isBlank s ↔ strip s = [] := by
  simp [isBlank, strip]

/-- A text without the white space at its two ends. -/
def trim (s : String) : String :=
  String.ofList (((s.toList.dropWhile isBlankChar).reverse.dropWhile isBlankChar).reverse)

end ComplexCalc.Text
