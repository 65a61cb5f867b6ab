import ComplexCalc.Proofs.Segmentation

/-!
# Lexing — tokens up to the first character that starts none

The lexer cuts a text into slices that spell tokens (section 1).  It fails at a character only if no token starts there
and the token in front of it does not go on with it: no letter, digit or symbol (section 2), and no point behind a real
number.  What stands in front of the character is cut the same way with nothing behind it (section 3).
-/

namespace ComplexCalc

/-! ## 1. Texts of tokens -/

/-- The text is cut into slices that spell the tokens, none of which is a spelling still with the character that follows
it. -/
inductive Lexes : List Char → List Token → Prop where
  | nil : Lexes [] []
  | cons {slice rest t ts} : t.SpelledBy slice → (∀ d, rest.head? = some d → ¬ Spelling (slice ++ [d])) →
      Lexes rest ts → Lexes (slice ++ rest) (t :: ts)

theorem lexes_of_scan {position : Nat} {text : List Char} {ts : List Lexeme} (h : Token.scan position text = .ok ts) :
    Lexes text (ts.map (·.token)) := by
  obtain ⟨slices, hsegments, hlists⟩ := Token.scan_ok_iff.mp h
  clear h
  induction hsegments generalizing position ts with
  | nil =>
    obtain ⟨hspelled, -⟩ := hlists
    cases hspelled
    exact .nil
  | cons _ hnext _ ih =>
    obtain ⟨t, rest, rfl, ht, hlists⟩ := hlists.cases_cons
    exact .cons ht hnext (ih hlists)

theorem Lexes.scan {text : List Char} {ts : List Token} (h : Lexes text ts) (position : Nat) :
    ∃ us, Token.scan position text = .ok us ∧ us.map (·.token) = ts := by
  induction h generalizing position with
  | nil => exact ⟨[], by rw [Token.scan], rfl⟩
  | @cons slice _ t _ ht hnext _ ih =>
    obtain ⟨us, hscan, hus⟩ := ih (position + byteLength slice)
    refine ⟨⟨t, position⟩ :: us, ?_, ?_⟩
    · rw [Token.scan_append ht hnext, hscan]
      rfl
    · rw [List.map_cons, hus]

theorem Lexes.eq_nil_iff {text : List Char} {ts : List Token} (h : Lexes text ts) : text = [] ↔ ts = [] := by
  cases h with
  | nil => simp
  | cons ht => simp [(Token.spelling_iff.mpr ⟨_, ht⟩).ne_nil]

/-! ## 2. Characters that start no token -/

/-- Behind the tokens the character neither starts a token nor belongs to the last one. -/
structure StartsNoToken (ts : List Token) (c : Char) : Prop where
  not_alphanum : c.isAlphanum = false
  not_symbol : c ∉ symbols
  not_point : c = '.' → ∀ x, ts.getLast? ≠ some (.real x)

namespace Token

/-- A letter, a digit or a symbol starts a token, so a slice that starts with it is a spelling. -/
theorem spelling_cut {c : Char} (h : c.isAlphanum = true ∨ c ∈ symbols) (cs : List Char) :
    Spelling (cut (c :: cs)).1 := by
  by_cases hdigit : c.isDigit = true
  · have hrun : NumberRun (c :: cs.takeWhile isNumberChar) :=
      ⟨hdigit, fun d hd => List.all_eq_true.mp List.all_takeWhile d hd⟩
    by_cases hi : (cs.dropWhile isNumberChar).head? = some 'i'
    · obtain ⟨rest, hrest⟩ := List.head?_eq_some_iff.mp hi
      rw [cut_imaginary hdigit hrest]
      exact .imaginary hrun
    · rw [cut_real hdigit hi]
      exact .real hrun
  · by_cases halpha : c.isAlpha = true
    · rw [cut_word halpha]
      exact .word ⟨halpha, fun d hd => List.all_eq_true.mp List.all_takeWhile d hd⟩
    · have hsymbol : c ∈ symbols := h.resolve_left (by simp [Char.isAlphanum, hdigit, halpha])
      by_cases hstar : c = '*' ∧ cs.head? = some '*'
      · obtain ⟨rest, rfl⟩ := List.head?_eq_some_iff.mp hstar.2
        obtain rfl := hstar.1
        exact .power
      · rw [cut_single (eq_false_of_ne_true hdigit) (eq_false_of_ne_true halpha) fun hc hnext => hstar ⟨hc, hnext⟩]
        exact .symbol hsymbol

theorem ofSpelling?_cut_eq_none_iff {c : Char} {cs : List Char} :
    ofSpelling? (cut (c :: cs)).1 = none ↔ StartsNoToken [] c := by
  constructor
  · intro h
    have hnone : ¬ Spelling (cut (c :: cs)).1 := by
      intro hspelling
      obtain ⟨t, ht⟩ := spelling_iff.mp hspelling
      rw [ofSpelling?_eq_some_iff.mpr ht] at h
      cases h
    exact
      { not_alphanum := eq_false_of_ne_true fun hc => hnone (spelling_cut (.inl hc) cs)
        not_symbol := fun hc => hnone (spelling_cut (.inr hc) cs)
        not_point := nofun }
  · intro h
    obtain ⟨halpha, hdigit⟩ : c.isAlpha = false ∧ c.isDigit = false := Bool.or_eq_false_iff.mp h.not_alphanum
    rw [cut_single hdigit halpha fun hc => absurd (hc ▸ h.not_symbol) (by decide), Option.eq_none_iff_forall_ne_some]
    intro t ht
    rcases spelling_cons (spelling_iff.mpr ⟨t, ofSpelling?_eq_some_iff.mp ht⟩) with ⟨hc, -⟩ | ⟨hc, -⟩ | ⟨hc, -⟩
    · rw [hdigit] at hc
      cases hc
    · rw [halpha] at hc
      cases hc
    · exact h.not_symbol hc

end Token

/-- The slices of digits and points are those of the real numbers. -/
theorem Token.SpelledBy.numberRun_iff {t : Token} {slice : List Char} (h : t.SpelledBy slice) :
    NumberRun slice ↔ ∃ x, t = .real x := by
  constructor
  · intro hrun
    obtain ⟨d, -, hd⟩ := hrun.exists_longest
    have hreal := (Token.ofSpelling?_number hrun hd).1
    rw [Token.ofSpelling?_eq_some_iff.mpr h, Option.some_inj] at hreal
    exact ⟨_, hreal⟩
  · rintro ⟨x, rfl⟩
    cases h with
    | real hrun => exact hrun

namespace StartsNoToken
variable {c : Char} {t : Token} {ts : List Token} {slice : List Char}

/-- A token does not go on with a character that starts none behind it. -/
theorem not_spelling (h : StartsNoToken [t] c) (ht : t.SpelledBy slice) : ¬ Spelling (slice ++ [c]) := by
  intro hspelling
  obtain rfl : c = '.' := by
    rcases hspelling.char_cases c (by simp) with hc | hc
    · rw [h.not_alphanum] at hc
      cases hc
    · exact (List.mem_cons.mp hc).resolve_right h.not_symbol
  -- only numbers have points in them, and an imaginary one ends with the unit
  cases slice with
  | nil => exact absurd rfl (Token.spelling_iff.mpr ⟨t, ht⟩).ne_nil
  | cons a as =>
    rcases Token.spelling_cons hspelling with ⟨ha, hall | ⟨ds, hds, -⟩⟩ | ⟨-, hall⟩ | ⟨-, has | ⟨-, has⟩⟩
    · have hrun : NumberRun (a :: as) := ⟨ha, fun d hd => hall d (by simp [hd])⟩
      obtain ⟨x, rfl⟩ := ht.numberRun_iff.mp hrun
      exact h.not_point rfl x rfl
    · exact absurd (List.append_inj' hds rfl).2 (by decide)
    · exact absurd (hall '.' (by simp)) (by decide)
    · simp at has
    · exact absurd (List.append_inj' (show as ++ ['.'] = [] ++ ['*'] from has) rfl).2 (by decide)

theorem of_cons (h : StartsNoToken (t :: ts) c) : StartsNoToken ts c := by
  refine ⟨h.not_alphanum, h.not_symbol, ?_⟩
  intro hc x hx
  refine h.not_point hc x ?_
  rw [List.getLast?_cons, hx]
  rfl

/-- One more token in front matters only to a point that is right behind it. -/
theorem cons (h : StartsNoToken ts c) (ht : ts = [] → c = '.' → ∀ x, t ≠ .real x) : StartsNoToken (t :: ts) c := by
  refine ⟨h.not_alphanum, h.not_symbol, ?_⟩
  intro hc x hx
  cases ts with
  | nil => exact ht rfl hc x (Option.some.inj hx)
  | cons u us =>
    rw [List.getLast?_cons_cons] at hx
    exact h.not_point hc x hx

end StartsNoToken

/-! ## 3. The first failure -/

namespace Token

/-- The lexer stops at a character that starts no token, and counts the bytes before it, which it has cut into
tokens. -/
theorem scan_stops {position : Nat} {text : List Char} {x : SyntaxError} (h : scan position text = .error x) :
    ∃ before c behind ts, text = before ++ c :: behind ∧ x = .invalidCharacter c (position + byteLength before) ∧
      Lexes before ts ∧ StartsNoToken ts c := by
  induction position, text using scan.induct with
  | case1 position =>
    rw [scan] at h
    cases h
  | case2 position c cs hnone =>
    rw [scan, hnone] at h
    cases h
    exact ⟨[], c, cs, [], rfl, rfl, .nil, ofSpelling?_cut_eq_none_iff.mp hnone⟩
  | case3 position c cs t ht ih =>
    have hspelled := ofSpelling?_eq_some_iff.mp ht
    have hnext : ∀ d, (cut (c :: cs)).2.head? = some d → ¬ Spelling ((cut (c :: cs)).1 ++ [d]) :=
      fun d hd => not_spelling_cut_snoc hd
    -- the slice that is cut off is ASCII, so its characters are its bytes
    have hbytes := byteLength_eq_length (spelling_iff.mpr ⟨t, hspelled⟩).utf8Size_eq
    rw [← cut_append (c :: cs), scan_append hspelled hnext, hbytes] at h
    cases hrest : scan (position + (cut (c :: cs)).1.length) (cut (c :: cs)).2 with
    | ok following =>
      rw [hrest] at h
      cases h
    | error y =>
      rw [hrest] at h
      cases h
      obtain ⟨before, d, behind, ts, hbehind, rfl, hlexes, hstarts⟩ := ih hrest
      rw [hbehind] at hnext
      refine ⟨(cut (c :: cs)).1 ++ before, d, behind, t :: ts, ?_, ?_, .cons hspelled ?_ hlexes, hstarts.cons ?_⟩
      · rw [List.append_assoc, ← hbehind, cut_append]
      · rw [byteLength_append, hbytes, Nat.add_assoc]
      · intro a ha
        exact hnext a (by rw [List.head?_append, ha]; rfl)
      · -- a point right behind a real number would have been cut off with it
        rintro hnil rfl x rfl
        obtain rfl := hlexes.eq_nil_iff.mpr hnil
        have hrun := hspelled.numberRun_iff.mpr ⟨x, rfl⟩
        exact hnext '.' rfl (.real (hrun.snoc rfl))

/-- Texts of tokens are scanned as far as they go, up to a character that starts no token behind them. -/
theorem scan_of_startsNoToken {before : List Char} {ts : List Token} {c : Char} (h : Lexes before ts)
    (hstarts : StartsNoToken ts c) (position : Nat) (behind : List Char) :
    scan position (before ++ c :: behind) = .error (.invalidCharacter c (position + byteLength before)) := by
  induction h generalizing position with
  | nil =>
    rw [List.nil_append, scan, ofSpelling?_cut_eq_none_iff.mpr hstarts]
    rfl
  | @cons slice rest t ts ht hnext hrest ih =>
    rw [List.append_assoc, scan_append ht ?_, ih hstarts.of_cons, byteLength_append, ← Nat.add_assoc]
    · rfl
    · intro d hd
      cases rest with
      | nil =>
        cases hd
        obtain rfl := hrest.eq_nil_iff.mp rfl
        exact hstarts.not_spelling ht
      | cons a rest => exact hnext d hd

end Token

/-- A prefix of a text without white space has none either. -/
theorem strip_prefix {source : String} {before behind : List Char} (h : Text.strip source = before ++ behind) :
    Text.strip (String.ofList before) = before := by
  rw [Text.strip, String.toList_ofList, List.filter_eq_self]
  intro c hc
  have hmem : c ∈ Text.strip source := by
    rw [h]
    exact List.mem_append_left _ hc
  rw [Text.isBlankChar_of_mem_strip hmem, Bool.not_false]

/-- A source text has no tokens exactly if, without its white space, it is a text of tokens, a character that starts no
token behind them, and any other text.  This character is reported, at the byte offset where it stands. -/
theorem tokenize_error_iff (source : String) (x : SyntaxError) :
    tokenize source = .error x ↔
      ∃ before c behind ts, Text.strip source = before ++ c :: behind ∧
        x = .invalidCharacter c (byteLength before) ∧
        tokenize (String.ofList before) = .ok ts ∧ StartsNoToken (ts.map (·.token)) c := by
  constructor
  · intro h
    obtain ⟨before, c, behind, ts, htext, rfl, hlexes, hstarts⟩ := Token.scan_stops h
    obtain ⟨us, hscan, rfl⟩ := hlexes.scan 0
    refine ⟨before, c, behind, us, htext, by rw [Nat.zero_add], ?_, hstarts⟩
    rw [tokenize, strip_prefix htext, hscan]
  · rintro ⟨before, c, behind, ts, htext, rfl, htokens, hstarts⟩
    rw [tokenize, strip_prefix htext] at htokens
    rw [tokenize, htext, Token.scan_of_startsNoToken (lexes_of_scan htokens) hstarts, Nat.zero_add]

/-- A point goes on with a real number, but not with an imaginary one. -/
example : tokenize "2i." = .error (.invalidCharacter '.' 2) := by decide +kernel

end ComplexCalc
