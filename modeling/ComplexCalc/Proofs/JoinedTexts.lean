import ComplexCalc.Proofs.ReadBack

/-!
# JoinedTexts — the tokens of two texts in a row

A symbol other than a star is a token by itself, and a star is one except beside another star.  Where one of these
stands at the boundary of two texts, no token goes over it (section 1).  The lexer counts on from where it starts
(section 2), so the tokens of the first text are followed by those of the second, or by what stops it there (section 3).
-/

namespace ComplexCalc

/-! ## 1. Boundaries -/

/-- The symbols that are tokens by themselves, whatever stands beside them. -/
def separators : List Char := ['+', '-', '/', '(', ')']

/-- Where the texts meet, there is a separator on either side, or a star on one side only. -/
def Apart (text rest : List Char) : Prop :=
  ∀ x ∈ text.getLast?, ∀ y ∈ rest.head?, x ∈ separators ∨ y ∈ separators ∨ ¬(x = '*' ↔ y = '*')

section
variable {text rest slice : List Char} {c d : Char}

theorem mem_symbols_iff : c ∈ symbols ↔ c ∈ separators ∨ c = '*' := by
  simp only [symbols, separators, List.mem_cons, List.not_mem_nil, or_false]
  tauto

/-- A token with a symbol in it does not go on, unless with another symbol. -/
theorem not_spelling_symbol_snoc (hc : c ∈ slice) (hsymbol : c ∈ symbols) (hd : d ∉ symbols) :
    ¬Spelling (slice ++ [d]) := by
  obtain ⟨hnumber, hletter⟩ := not_number_of_symbol hsymbol
  have hmem : c ∈ slice ++ [d] := List.mem_append_left _ hc
  intro hspelling
  generalize hwhole : slice ++ [d] = whole at hspelling hmem
  cases hspelling with
  | real hrun => exact Bool.false_ne_true (hnumber.symm.trans (hrun.all c hmem))
  | imaginary hrun =>
    rw [(List.append_inj' hwhole rfl).1] at hc
    exact Bool.false_ne_true (hnumber.symm.trans (hrun.all c hc))
  | word hword => exact Bool.false_ne_true (hletter.symm.trans (hword.isAlphanum c hmem))
  | power =>
    obtain ⟨-, hstar⟩ := List.append_inj' (show slice ++ [d] = ['*'] ++ ['*'] from hwhole) rfl
    exact hd (mem_symbols_iff.mpr (.inr (List.singleton_inj.mp hstar)))
  | @symbol other =>
    rw [(List.append_inj' (show slice ++ [d] = [] ++ [other] from hwhole) rfl).1] at hc
    cases hc

/-- Where texts are apart, a slice at the end of the first one does not go on in the second. -/
theorem Apart.not_spelling (h : Apart slice rest) (hslice : Spelling slice) (hd : rest.head? = some d) :
    ¬Spelling (slice ++ [d]) := by
  have hboundary := h _ (List.getLast?_eq_some_getLast hslice.ne_nil) d hd
  by_cases hsymbol : d ∈ symbols
  · apply not_spelling_snoc_symbol hslice.ne_nil hsymbol
    rintro rfl rfl
    exact absurd (h '*' rfl '*' hd) (by decide)
  · have hother := mt mem_symbols_iff.mpr hsymbol
    refine not_spelling_symbol_snoc (List.getLast_mem hslice.ne_nil) (mem_symbols_iff.mpr ?_) hsymbol
    tauto

theorem Apart.of_append (h : Apart (slice ++ text) rest) (hne : text ≠ []) : Apart text rest := by
  intro x hx
  exact h x (List.getLast?_append_of_ne_nil slice hne ▸ hx)

end

/-! ## 2. Positions -/

/-- The token so many bytes further on. -/
def Lexeme.movedBy (n : Nat) (t : Lexeme) : Lexeme :=
  ⟨t.token, t.position + n⟩

namespace Token
variable {position : Nat} {text rest : List Char} {ts : List Lexeme} {x : SyntaxError}

theorem scan_movedBy (h : scan position text = .ok ts) (n : Nat) :
    scan (position + n) text = .ok (ts.map (·.movedBy n)) := by
  obtain ⟨slices, hsegments, hspelled, hpositions⟩ := scan_ok_iff.mp h
  refine scan_ok_iff.mpr ⟨slices, hsegments, List.forall₂_map_right_iff.mpr hspelled, ?_⟩
  intro k t ht
  rw [List.getElem?_map] at ht
  obtain ⟨u, hu, rfl⟩ := Option.map_eq_some_iff.mp ht
  show u.position + n = _
  rw [hpositions k u hu]
  omega

theorem scan_movedBy_error (h : scan position text = .error x) :
    ∃ c p, x = .invalidCharacter c p ∧ ∀ n, scan (position + n) text = .error (.invalidCharacter c (p + n)) := by
  obtain ⟨before, c, behind, ts, rfl, rfl, hlexes, hstarts⟩ := scan_stops h
  refine ⟨c, _, rfl, fun n => ?_⟩
  rw [scan_of_startsNoToken hlexes hstarts, Nat.add_right_comm]

/-! ## 3. Texts in a row -/

/-- The lexer goes on behind the first text as it starts with the second one. -/
theorem scan_append_of_apart (h : scan position text = .ok ts) (hapart : Apart text rest) :
    scan position (text ++ rest) = (scan (position + byteLength text) rest).map (ts ++ ·) := by
  obtain ⟨slices, hsegments, hlists⟩ := scan_ok_iff.mp h
  clear h
  induction hsegments generalizing position ts with
  | nil =>
    obtain ⟨hspelled, -⟩ := hlists
    cases hspelled
    show scan position rest = (scan position rest).map id
    cases scan position rest <;> rfl
  | @cons slice behind _ hslice hnext _ ih =>
    obtain ⟨t, us, rfl, ht, hlists⟩ := hlists.cases_cons
    -- only the last slice meets the boundary, and the others end where they did before
    have hgreedy : ∀ d, (behind ++ rest).head? = some d → ¬Spelling (slice ++ [d]) := by
      intro d hd
      cases behind with
      | nil =>
        rw [List.append_nil] at hapart
        exact hapart.not_spelling hslice hd
      | cons c cs => exact hnext d hd
    have hbehind : Apart behind rest := by
      cases behind with
      | nil => exact fun _ hx => nomatch hx
      | cons c cs => exact hapart.of_append (List.cons_ne_nil c cs)
    rw [List.append_assoc, scan_append ht hgreedy, ih hbehind hlists, byteLength_append, Nat.add_assoc]
    cases scan (position + (byteLength slice + byteLength behind)) rest <;> rfl

end Token

/-- Where two source texts are apart, the tokens of one behind the other are those of the first and then those of the
second, as many bytes further on as the first has without white space.  If the second has no tokens, the same character
is reported, as many bytes further on. -/
theorem tokenize_append (a b : String) (ta : List Lexeme) (ha : tokenize a = .ok ta)
    (hapart : Apart (Text.strip a) (Text.strip b)) :
    (∀ tb, tokenize b = .ok tb →
        tokenize (a ++ b) = .ok (ta ++ tb.map (·.movedBy (byteLength (Text.strip a))))) ∧
      ∀ x, tokenize b = .error x → ∃ c p, x = .invalidCharacter c p ∧
        tokenize (a ++ b) = .error (.invalidCharacter c (p + byteLength (Text.strip a))) := by
  have hjoined := Token.scan_append_of_apart ha hapart
  rw [← strip_append, ← tokenize] at hjoined
  constructor
  · intro tb hb
    rw [hjoined, Token.scan_movedBy hb]
    rfl
  · intro x hx
    obtain ⟨c, p, rfl, hmoved⟩ := Token.scan_movedBy_error hx
    refine ⟨c, p, rfl, ?_⟩
    rw [hjoined, hmoved]
    rfl

/-- A star is a token by itself in front of a name. -/
theorem tokenize_append_star :
    Apart (Text.strip "x *") (Text.strip "y / z") ∧
      tokenize ("x *" ++ "y / z") = .ok [⟨.name "x", 0⟩, ⟨.operator .mul, 1⟩, ⟨.name "y", 2⟩, ⟨.operator .div, 3⟩,
        ⟨.name "z", 4⟩] := by
  have hx : tokenize "x *" = .ok [⟨.name "x", 0⟩, ⟨.operator .mul, 1⟩] := by decide +kernel
  have hyz : tokenize "y / z" = .ok [⟨.name "y", 0⟩, ⟨.operator .div, 1⟩, ⟨.name "z", 2⟩] := by decide +kernel
  have hapart : Apart (Text.strip "x *") (Text.strip "y / z") := by
    rintro _ ⟨⟩ _ ⟨⟩
    exact .inr (.inr (by decide))
  exact ⟨hapart, (tokenize_append "x *" "y / z" _ hx hapart).1 _ hyz⟩

/-- Two stars are no boundary: they are a power. -/
example : tokenize ("x*" ++ "*y") = .ok [⟨.name "x", 0⟩, ⟨.operator .pow, 1⟩, ⟨.name "y", 3⟩] := by decide +kernel

end ComplexCalc
