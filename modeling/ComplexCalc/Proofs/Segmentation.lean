import Mathlib
import ComplexCalc.Token.Lexer

/-!
# Segmentation — the tokens of a text are its only longest-match cut

A text without white space is cut into slices that spell tokens, where no slice spells a token still with the character
behind it.  There is at most one such cut (section 4).  The lexer finds it wherever there is one, and what it makes of a
slice is the token that the slice spells, with the value of the longest numeral in front of a number (sections 1 and 2).
-/

namespace ComplexCalc

/-- A run of characters of one kind ends where the next character is of another kind. -/
theorem span_exact {p : Char → Bool} {run : List Char} (rest : List Char) (hrun : ∀ c ∈ run, p c = true)
    (hnext : ∀ c, rest.head? = some c → p c = false) :
    (run ++ rest).takeWhile p = run ∧ (run ++ rest).dropWhile p = rest := by
  rw [List.takeWhile_append_of_pos hrun, List.dropWhile_append_of_pos hrun]
  cases rest with
  | nil => simp
  | cons c rest => simp [hnext c rfl]

theorem head?_dropWhile_false {p : Char → Bool} {text : List Char} {c : Char}
    (h : (text.dropWhile p).head? = some c) : p c = false := by
  have hstop := List.head?_dropWhile_not p text
  rwa [h] at hstop

/-! ## 1. Numerals -/

/-- Digits, with at most one point behind the first of them, and what they are worth. -/
inductive Numeral : List Char → Decimal → Prop where
  | whole {ds} : ds ≠ [] → (∀ c ∈ ds, c.isDigit = true) → Numeral ds ⟨Nat.ofDigitChars 10 ds 0, 0⟩
  | pointed {ds fs} : ds ≠ [] → (∀ c ∈ ds, c.isDigit = true) → (∀ c ∈ fs, c.isDigit = true) →
      Numeral (ds ++ '.' :: fs) ⟨Nat.ofDigitChars 10 (ds ++ fs) 0, fs.length⟩

/-- The longest numeral in front of a run of characters, by its worth. -/
def LongestNumeral (run : List Char) (d : Decimal) : Prop :=
  ∃ front, front <+: run ∧ Numeral front d ∧ ∀ other w, other <+: run → Numeral other w → other.length ≤ front.length

/-- A run of digits and points that starts with a digit. -/
inductive NumberRun : List Char → Prop where
  | intro {c cs} : c.isDigit = true → (∀ d ∈ cs, Token.isNumberChar d = true) → NumberRun (c :: cs)

theorem NumberRun.all {run : List Char} (h : NumberRun run) : ∀ c ∈ run, Token.isNumberChar c = true := by
  obtain ⟨hc, hcs⟩ := h
  intro d hd
  rcases List.mem_cons.mp hd with rfl | hd
  · simp [Token.isNumberChar, hc]
  · exact hcs d hd

theorem ne_point_of_isDigit {c : Char} (h : c.isDigit = true) : c ≠ '.' := by
  rintro rfl
  exact absurd h (by decide)

theorem count_point_of_digits {ds : List Char} (h : ∀ c ∈ ds, c.isDigit = true) : ds.count '.' = 0 := by
  apply List.count_eq_zero.mpr
  intro hmem
  exact absurd (h '.' hmem) (by decide)

theorem Numeral.count_point_le {cs d} (h : Numeral cs d) : cs.count '.' ≤ 1 := by
  cases h with
  | whole _ hds =>
    have hwhole := count_point_of_digits hds
    omega
  | pointed _ hds hfs =>
    have hwhole := count_point_of_digits hds
    have hfraction := count_point_of_digits hfs
    rw [List.count_append, List.count_cons_self]
    omega

theorem Numeral.ofText?_eq {cs d} (h : Numeral cs d) : Decimal.ofText? cs = some d := by
  cases h with
  | whole hne hds =>
    have hspan := span_exact [] hds (by simp)
    rw [List.append_nil] at hspan
    rw [Decimal.ofText?, hspan.1, hspan.2]
    exact if_neg hne
  | @pointed ds fs hne hds hfs =>
    have hspan := span_exact ('.' :: fs) hds (by simp)
    rw [Decimal.ofText?, hspan.1, hspan.2]
    exact if_pos ⟨List.all_eq_true.mpr hfs, List.append_ne_nil_of_left_ne_nil hne fs⟩

/-- Of the texts that start with a digit the numerals are those that can be read. -/
theorem numeral_iff_ofText? {c : Char} {cs : List Char} {d : Decimal} (hc : c.isDigit = true) :
    Numeral (c :: cs) d ↔ Decimal.ofText? (c :: cs) = some d := by
  constructor
  · exact Numeral.ofText?_eq
  · intro h
    have hwhole : ∀ e ∈ (c :: cs).takeWhile Char.isDigit, e.isDigit = true := fun e he => List.mem_takeWhile_imp he
    have hnonempty : (c :: cs).takeWhile Char.isDigit ≠ [] := by
      rw [List.takeWhile_cons_of_pos hc]
      exact List.cons_ne_nil _ _
    have htext := List.takeWhile_append_dropWhile (p := Char.isDigit) (l := c :: cs)
    unfold Decimal.ofText? at h
    dsimp only at h
    split at h
    · rename_i hbehind
      rw [if_neg hnonempty, Option.some_inj] at h
      rw [hbehind, List.append_nil] at htext
      rw [htext] at h hwhole
      rw [← h]
      exact .whole (List.cons_ne_nil _ _) hwhole
    · rename_i fraction hbehind
      split at h
      · rename_i hread
        rw [Option.some_inj] at h
        rw [← htext, hbehind, ← h]
        exact .pointed hnonempty hwhole (List.all_eq_true.mp hread.1)
      · cases h
    · cases h

/-- A text is no more than one numeral. -/
theorem Numeral.unique {cs d w} (h : Numeral cs d) (h' : Numeral cs w) : d = w := by
  have hsame := h.ofText?_eq
  rw [h'.ofText?_eq] at hsame
  exact (Option.some_inj.mp hsame).symm

theorem Numeral.longest {cs d} (h : Numeral cs d) : LongestNumeral cs d :=
  ⟨cs, List.prefix_rfl, h, fun _ _ hother _ => hother.length_le⟩

theorem Numeral.numberRun {cs : List Char} {d : Decimal} (h : Numeral cs d) : NumberRun cs := by
  have hnumber : ∀ {c : Char}, c.isDigit = true → Token.isNumberChar c = true := by
    intro c hc
    rw [Token.isNumberChar, hc, Bool.true_or]
  cases h with
  | whole hne hds =>
    cases cs with
    | nil => exact absurd rfl hne
    | cons c cs => exact .intro (hds c List.mem_cons_self) fun d hd => hnumber (hds d (List.mem_cons_of_mem c hd))
  | @pointed ds fs hne hds hfs =>
    cases ds with
    | nil => exact absurd rfl hne
    | cons c cs =>
      refine .intro (hds c List.mem_cons_self) fun d hd => ?_
      rcases List.mem_append.mp hd with hd | hd
      · exact hnumber (hds d (List.mem_cons_of_mem c hd))
      · rcases List.mem_cons.mp hd with rfl | hd
        · decide
        · exact hnumber (hfs d hd)

theorem isDigit_of_mem_takeWhile {text : List Char} (hnumber : ∀ c ∈ text, Token.isNumberChar c = true) :
    ∀ c ∈ text.takeWhile (· ≠ '.'), c.isDigit = true := by
  intro c hc
  have hpoint := List.mem_takeWhile_imp hc
  have hchar := hnumber c ((List.takeWhile_sublist _).mem hc)
  rw [Token.isNumberChar, Bool.or_eq_true, decide_eq_true_iff] at hchar
  exact hchar.resolve_right (of_decide_eq_true hpoint)

/-- A run is a numeral, or a numeral with a point in it and a second point behind it. -/
theorem NumberRun.split {run : List Char} (h : NumberRun run) :
    ∃ rest d, run = Decimal.beforeSecondPoint run ++ rest ∧ Numeral (Decimal.beforeSecondPoint run) d ∧
      (rest = [] ∨ '.' ∈ Decimal.beforeSecondPoint run ∧ rest.head? = some '.') := by
  have hwhole := isDigit_of_mem_takeWhile h.all
  have hnonempty : run.takeWhile (· ≠ '.') ≠ [] := by
    obtain ⟨hc, -⟩ := h
    simp [ne_point_of_isDigit hc]
  have hrun := List.takeWhile_append_dropWhile (p := (· ≠ '.')) (l := run)
  rw [Decimal.beforeSecondPoint]
  cases hbehind : run.dropWhile (· ≠ '.') with
  | nil =>
    rw [hbehind] at hrun
    exact ⟨[], _, hrun.symm, .whole hnonempty hwhole, .inl rfl⟩
  | cons c behind =>
    obtain rfl : c = '.' := by
      have hstop := head?_dropWhile_false (congrArg List.head? hbehind)
      simpa using hstop
    rw [hbehind] at hrun
    have hfraction : ∀ c ∈ behind.takeWhile (· ≠ '.'), c.isDigit = true := by
      apply isDigit_of_mem_takeWhile
      intro d hd
      apply h.all
      rw [← hrun]
      simp [hd]
    have hrest := List.takeWhile_append_dropWhile (p := (· ≠ '.')) (l := behind)
    refine ⟨behind.dropWhile (· ≠ '.'), _, ?_, .pointed hnonempty hwhole hfraction, ?_⟩
    · dsimp only
      rw [List.append_assoc, List.cons_append, hrest, hrun]
    · cases hend : behind.dropWhile (· ≠ '.') with
      | nil => exact .inl rfl
      | cons d rest =>
        have hstop := head?_dropWhile_false (congrArg List.head? hend)
        right
        simpa using hstop

/-- Every run can be read, and what follows its second point is left out. -/
theorem NumberRun.exists_longest {run : List Char} (h : NumberRun run) :
    ∃ d, Decimal.ofRun? run = some d ∧ LongestNumeral run d := by
  obtain ⟨rest, d, hrun, hnumeral, hend⟩ := h.split
  refine ⟨d, hnumeral.ofText?_eq, _, ⟨rest, hrun.symm⟩, hnumeral, ?_⟩
  intro other w hother hw
  rcases hend with rfl | ⟨hpoint, hend⟩
  · rw [List.append_nil] at hrun
    rw [← hrun]
    exact hother.length_le
  · -- anything longer has two points
    by_contra hlonger
    obtain ⟨rest, rfl⟩ : ∃ tail, rest = '.' :: tail := by
      cases rest with
      | nil => cases hend
      | cons d rest =>
        cases hend
        exact ⟨rest, rfl⟩
    have hprefix : Decimal.beforeSecondPoint run ++ ['.'] <+: other := by
      apply List.prefix_of_prefix_length_le _ hother
      · rw [List.length_append, List.length_singleton]
        omega
      · exact ⟨rest, by rw [List.append_assoc, List.singleton_append, ← hrun]⟩
    have hcount := hprefix.sublist.count_le '.'
    have hfront := List.one_le_count_iff.mpr hpoint
    have hone := hw.count_point_le
    rw [List.count_append, List.count_singleton_self] at hcount
    omega

theorem LongestNumeral.unique {run : List Char} {d w : Decimal} (h : LongestNumeral run d)
    (h' : LongestNumeral run w) : d = w := by
  obtain ⟨front, hfront, hnumeral, hlongest⟩ := h
  obtain ⟨front', hfront', hnumeral', hlongest'⟩ := h'
  have hlength := Nat.le_antisymm (hlongest' _ _ hfront hnumeral) (hlongest _ _ hfront' hnumeral')
  obtain rfl : front = front' :=
    (List.prefix_of_prefix_length_le hfront hfront' (Nat.le_of_eq hlength)).eq_of_length hlength
  exact hnumeral.unique hnumeral'

/-- A run is read as the longest numeral in front of it. -/
theorem NumberRun.ofRun?_eq_some_iff {run : List Char} {d : Decimal} (h : NumberRun run) :
    Decimal.ofRun? run = some d ↔ LongestNumeral run d := by
  obtain ⟨w, hread, hlongest⟩ := h.exists_longest
  rw [hread, Option.some_inj]
  constructor
  · rintro rfl
    exact hlongest
  · exact hlongest.unique

/-! ## 2. Spellings -/

/-- Letters and digits that start with a letter. -/
inductive Word : List Char → Prop where
  | intro {c cs} : c.isAlpha = true → (∀ d ∈ cs, d.isAlphanum = true) → Word (c :: cs)

/-- The characters that are tokens by themselves. -/
def symbols : List Char := ['+', '-', '*', '/', '(', ')']

/-- What spells some token: `[0-9][0-9.]*`, the same followed by `i`, `[A-Za-z][A-Za-z0-9]*`, `**`, or one of
`+ - * / ( )`. -/
inductive Spelling : List Char → Prop where
  | real {run} : NumberRun run → Spelling run
  | imaginary {run} : NumberRun run → Spelling (run ++ ['i'])
  | word {word} : Word word → Spelling word
  | power : Spelling ['*', '*']
  | symbol {c} : c ∈ symbols → Spelling [c]

/-- The token that a slice of text spells. -/
inductive Token.SpelledBy : Token → List Char → Prop where
  | real {run d} : NumberRun run → LongestNumeral run d → SpelledBy (.real d.toFloat) run
  | imaginary {run d} : NumberRun run → LongestNumeral run d → SpelledBy (.imaginary d.toFloat) (run ++ ['i'])
  | unit : SpelledBy (.imaginary 1.0) ['i']
  | builtin (f) : SpelledBy (.builtin f) f.name.toList
  | name {word} : Word word → word ≠ ['i'] → (∀ f : Builtin, word ≠ f.name.toList) →
      SpelledBy (.name (String.ofList word)) word
  | operator (op) : SpelledBy (.operator op) op.symbol.toList
  | opening : SpelledBy .opening ['(']
  | closing : SpelledBy .closing [')']

theorem NumberRun.snoc {run : List Char} {d : Char} (h : NumberRun run) (hd : Token.isNumberChar d = true) :
    NumberRun (run ++ [d]) := by
  obtain ⟨hc, hcs⟩ := h
  exact ⟨hc, List.forall_mem_append.mpr ⟨hcs, List.forall_mem_singleton.mpr hd⟩⟩

theorem Word.snoc {word : List Char} {d : Char} (h : Word word) (hd : d.isAlphanum = true) : Word (word ++ [d]) := by
  obtain ⟨hc, hcs⟩ := h
  exact ⟨hc, List.forall_mem_append.mpr ⟨hcs, List.forall_mem_singleton.mpr hd⟩⟩

theorem Word.isAlphanum {cs : List Char} (h : Word cs) : ∀ c ∈ cs, c.isAlphanum = true := by
  obtain ⟨hc, hcs⟩ := h
  refine List.forall_mem_cons.mpr ⟨?_, hcs⟩
  rw [Char.isAlphanum, hc, Bool.true_or]

theorem not_isAlpha_of_isDigit {c : Char} (h : c.isDigit = true) : c.isAlpha = false := by
  simp only [Char.isDigit, Char.isAlpha, Char.isUpper, Char.isLower, UInt32.le_iff_toNat_le] at h ⊢
  simp at h ⊢
  omega

theorem not_symbol_of_isDigit {c : Char} (h : c.isDigit = true) : c ∉ symbols := by
  have hsymbols : ∀ d ∈ symbols, (!d.isDigit) = true := List.all_eq_true.mp (by decide)
  intro hc
  have hnot := hsymbols c hc
  rw [h] at hnot
  cases hnot

theorem not_symbol_of_isAlpha {c : Char} (h : c.isAlpha = true) : c ∉ symbols := by
  have hsymbols : ∀ d ∈ symbols, (!d.isAlpha) = true := List.all_eq_true.mp (by decide)
  intro hc
  have hnot := hsymbols c hc
  rw [h] at hnot
  cases hnot

theorem Builtin.ofName?_eq_some_iff {word : String} {f : Builtin} : ofName? word = some f ↔ word = f.name := by
  constructor
  · intro h
    unfold ofName? at h
    split at h
    · cases h; rfl
    · cases h; rfl
    · cases h
  · rintro rfl
    exact ofName?_name f

namespace Token

theorem ofSpelling?_of_not_symbol {c : Char} (h : c ∉ symbols) (cs : List Char) :
    ofSpelling? (c :: cs) =
      if c.isDigit then ofNumber? (c :: cs)
      else if c.isAlpha ∧ cs.all Char.isAlphanum then some (ofWord (String.ofList (c :: cs)))
      else none := by
  unfold ofSpelling?
  split <;> rename_i heq <;> cases heq
  all_goals first | rfl | exact absurd (by decide) h

theorem ofSpelling?_number {run : List Char} {d : Decimal} (h : NumberRun run) (hd : LongestNumeral run d) :
    ofSpelling? run = some (.real d.toFloat) ∧ ofSpelling? (run ++ ['i']) = some (.imaginary d.toFloat) := by
  have hread := h.ofRun?_eq_some_iff.mpr hd
  have hend : ∀ c, ([] : List Char).head? = some c → isNumberChar c = false := by simp
  have hspan := span_exact [] h.all hend
  have hspan' := span_exact ['i'] h.all (by simp; decide)
  rw [List.append_nil] at hspan
  obtain ⟨hc, -⟩ := h
  have hsymbol := not_symbol_of_isDigit hc
  rw [List.cons_append] at hspan' ⊢
  rw [ofSpelling?_of_not_symbol hsymbol, ofSpelling?_of_not_symbol hsymbol, if_pos hc, if_pos hc, ofNumber?, ofNumber?]
  rw [hspan.1, hspan.2, hspan'.1, hspan'.2, hread]
  exact ⟨rfl, rfl⟩

theorem ofSpelling?_word {word : List Char} (h : Word word) :
    ofSpelling? word = some (ofWord (String.ofList word)) := by
  obtain ⟨hc, hcs⟩ := h
  rw [ofSpelling?_of_not_symbol (not_symbol_of_isAlpha hc), if_neg, if_pos]
  · exact ⟨hc, List.all_eq_true.mpr hcs⟩
  · intro hdigit
    rw [not_isAlpha_of_isDigit hdigit] at hc
    cases hc

theorem spelledBy_ofWord {word : List Char} (h : Word word) : (ofWord (String.ofList word)).SpelledBy word := by
  unfold ofWord
  by_cases hi : String.ofList word = "i"
  · rw [if_pos hi]
    obtain rfl : word = ['i'] := by simpa using congrArg String.toList hi
    exact .unit
  · rw [if_neg hi]
    cases hname : Builtin.ofName? (String.ofList word) with
    | some f =>
      have hword := congrArg String.toList (Builtin.ofName?_eq_some_iff.mp hname)
      rw [String.toList_ofList] at hword
      rw [hword]
      exact .builtin f
    | none =>
      refine .name h ?_ ?_
      · rintro rfl
        exact hi rfl
      · rintro f rfl
        rw [String.ofList_toList, Builtin.ofName?_name] at hname
        cases hname

theorem spelledBy_of_ofNumber? {c : Char} {cs : List Char} {t : Token} (hc : c.isDigit = true)
    (h : ofNumber? (c :: cs) = some t) : t.SpelledBy (c :: cs) := by
  have hrun : NumberRun ((c :: cs).takeWhile isNumberChar) := by
    have hfirst : isNumberChar c = true := by simp [isNumberChar, hc]
    rw [List.takeWhile_cons_of_pos hfirst]
    exact ⟨hc, fun d hd => List.mem_takeWhile_imp hd⟩
  have hslice := List.takeWhile_append_dropWhile (p := isNumberChar) (l := c :: cs)
  unfold ofNumber? at h
  rw [← hslice]
  dsimp only at h
  split at h
  · rename_i hrest
    obtain ⟨d, hread, rfl⟩ := Option.map_eq_some_iff.mp h
    rw [hrest, List.append_nil]
    exact .real hrun (hrun.ofRun?_eq_some_iff.mp hread)
  · rename_i hrest
    obtain ⟨d, hread, rfl⟩ := Option.map_eq_some_iff.mp h
    rw [hrest]
    exact .imaginary hrun (hrun.ofRun?_eq_some_iff.mp hread)
  · cases h

/-- A slice is taken for the token that it spells. -/
theorem ofSpelling?_eq_some_iff {slice : List Char} {t : Token} : ofSpelling? slice = some t ↔ t.SpelledBy slice := by
  constructor
  · intro h
    unfold ofSpelling? at h
    split at h
    · cases h; exact .operator .add
    · cases h; exact .operator .sub
    · cases h; exact .operator .mul
    · cases h; exact .operator .div
    · cases h; exact .operator .pow
    · cases h; exact .opening
    · cases h; exact .closing
    · cases h
    · split at h
      · rename_i hdigit
        exact spelledBy_of_ofNumber? hdigit h
      · split at h
        · rename_i hword
          cases h
          exact spelledBy_ofWord ⟨hword.1, List.all_eq_true.mp hword.2⟩
        · cases h
  · intro h
    cases h with
    | real hrun hvalue => exact (ofSpelling?_number hrun hvalue).1
    | imaginary hrun hvalue => exact (ofSpelling?_number hrun hvalue).2
    | unit => rfl
    | builtin f => cases f <;> rfl
    | name hword hi hbuiltin =>
      rw [ofSpelling?_word hword, ofWord, if_neg]
      · cases hname : Builtin.ofName? (String.ofList slice) with
        | none => rfl
        | some f =>
          have hsame := congrArg String.toList (Builtin.ofName?_eq_some_iff.mp hname)
          rw [String.toList_ofList] at hsame
          exact absurd hsame (hbuiltin f)
      · intro hunit
        exact hi (by simpa using congrArg String.toList hunit)
    | operator op => cases op <;> rfl
    | opening => rfl
    | closing => rfl

theorem spelling_iff {slice : List Char} : Spelling slice ↔ ∃ t, SpelledBy t slice := by
  constructor
  · intro h
    cases h with
    | real hrun =>
      obtain ⟨d, -, hd⟩ := hrun.exists_longest
      exact ⟨_, .real hrun hd⟩
    | imaginary hrun =>
      obtain ⟨d, -, hd⟩ := hrun.exists_longest
      exact ⟨_, .imaginary hrun hd⟩
    | word hword => exact ⟨_, spelledBy_ofWord hword⟩
    | power => exact ⟨_, .operator .pow⟩
    | @symbol c hc =>
      have htoken : ∀ d ∈ symbols, (ofSpelling? [d]).isSome = true := List.all_eq_true.mp (by decide)
      obtain ⟨t, ht⟩ := Option.isSome_iff_exists.mp (htoken c hc)
      exact ⟨t, ofSpelling?_eq_some_iff.mp ht⟩
  · rintro ⟨t, h⟩
    cases h with
    | real hrun => exact .real hrun
    | imaginary hrun => exact .imaginary hrun
    | unit => exact .word ⟨by decide, by simp⟩
    | builtin f => cases f <;> exact .word ⟨by decide, List.all_eq_true.mp (by decide)⟩
    | name hword => exact .word hword
    | operator op =>
      cases op with
      | pow => exact .power
      | _ => exact .symbol (by decide)
    | opening => exact .symbol (by decide)
    | closing => exact .symbol (by decide)

/-! ## 3. The longest slice -/

theorem cut_of_isDigit {c : Char} (h : c.isDigit = true) (cs : List Char) :
    cut (c :: cs) =
      match cs.dropWhile isNumberChar with
      | 'i' :: rest => (c :: cs.takeWhile isNumberChar ++ ['i'], rest)
      | rest => (c :: cs.takeWhile isNumberChar, rest) := by
  unfold cut
  split
  · rename_i heq
    cases heq
  · rename_i heq
    cases heq
    exact absurd h (by decide)
  · rename_i heq
    cases heq
    exact if_pos h

theorem cut_imaginary {c : Char} {cs rest : List Char} (h : c.isDigit = true)
    (hrest : cs.dropWhile isNumberChar = 'i' :: rest) :
    cut (c :: cs) = (c :: cs.takeWhile isNumberChar ++ ['i'], rest) := by
  rw [cut_of_isDigit h, hrest]
  rfl

theorem cut_real {c : Char} {cs : List Char} (h : c.isDigit = true)
    (hrest : (cs.dropWhile isNumberChar).head? ≠ some 'i') :
    cut (c :: cs) = (c :: cs.takeWhile isNumberChar, cs.dropWhile isNumberChar) := by
  rw [cut_of_isDigit h]
  split
  · rename_i heq
    rw [heq] at hrest
    exact absurd rfl hrest
  · rfl

theorem cut_word {c : Char} (h : c.isAlpha = true) (cs : List Char) :
    cut (c :: cs) = (c :: cs.takeWhile Char.isAlphanum, cs.dropWhile Char.isAlphanum) := by
  unfold cut
  split
  · rename_i heq
    cases heq
  · rename_i heq
    cases heq
    exact absurd h (by decide)
  · rename_i heq
    cases heq
    rw [if_neg, if_pos h]
    intro hdigit
    rw [not_isAlpha_of_isDigit hdigit] at h
    cases h

theorem cut_single {c : Char} {cs : List Char} (hdigit : c.isDigit = false) (halpha : c.isAlpha = false)
    (hstar : c = '*' → cs.head? ≠ some '*') : cut (c :: cs) = ([c], cs) := by
  unfold cut
  split
  · rename_i heq
    cases heq
  · rename_i heq
    cases heq
    exact absurd rfl (hstar rfl)
  · rename_i heq
    cases heq
    rw [hdigit, halpha]
    rfl

theorem spelling_cons {c : Char} {cs : List Char} (h : Spelling (c :: cs)) :
    c.isDigit = true ∧ ((∀ d ∈ cs, isNumberChar d = true) ∨
        ∃ ds, cs = ds ++ ['i'] ∧ ∀ d ∈ ds, isNumberChar d = true) ∨
      c.isAlpha = true ∧ (∀ d ∈ cs, d.isAlphanum = true) ∨
      c ∈ symbols ∧ (cs = [] ∨ c = '*' ∧ cs = ['*']) := by
  generalize hslice : c :: cs = slice at h
  cases h with
  | real hrun =>
    obtain ⟨hc, hcs⟩ := hrun
    cases hslice
    exact .inl ⟨hc, .inl hcs⟩
  | imaginary hrun =>
    obtain ⟨hc, hcs⟩ := hrun
    cases hslice
    exact .inl ⟨hc, .inr ⟨_, rfl, hcs⟩⟩
  | word hword =>
    obtain ⟨hc, hcs⟩ := hword
    cases hslice
    exact .inr (.inl ⟨hc, hcs⟩)
  | power =>
    cases hslice
    exact .inr (.inr ⟨by decide, .inr ⟨rfl, rfl⟩⟩)
  | symbol hsymbol =>
    cases hslice
    exact .inr (.inr ⟨hsymbol, .inl rfl⟩)

/-- Where a slice ends because it would be no spelling with the next character, the lexer cuts it off. -/
theorem cut_append_of_greedy {slice rest : List Char} (h : Spelling slice)
    (hnext : ∀ d, rest.head? = some d → ¬ Spelling (slice ++ [d])) : cut (slice ++ rest) = (slice, rest) := by
  cases h with
  | real hrun =>
    have hstop : ∀ d, rest.head? = some d → isNumberChar d = false := by
      intro d hd
      apply eq_false_of_ne_true
      intro hnumber
      exact hnext d hd (.real (hrun.snoc hnumber))
    obtain ⟨hc, hcs⟩ := hrun
    have hspan := span_exact rest hcs hstop
    rw [List.cons_append, cut_real hc, hspan.1, hspan.2]
    rw [hspan.2]
    -- an `i` behind the run would make the slice longer
    intro hi
    exact hnext 'i' hi (.imaginary ⟨hc, hcs⟩)
  | imaginary hrun =>
    obtain ⟨hc, hcs⟩ := hrun
    have hspan := span_exact ('i' :: rest) hcs (by simp; decide)
    rw [List.append_assoc, List.cons_append, List.singleton_append, cut_imaginary hc hspan.2, hspan.1]
  | word hword =>
    have hstop : ∀ d, rest.head? = some d → d.isAlphanum = false := by
      intro d hd
      apply eq_false_of_ne_true
      intro hletter
      exact hnext d hd (.word (hword.snoc hletter))
    obtain ⟨hc, hcs⟩ := hword
    have hspan := span_exact rest hcs hstop
    rw [List.cons_append, cut_word hc, hspan.1, hspan.2]
  | power => rfl
  | @symbol c hsymbol =>
    have hdigit : c.isDigit = false := eq_false_of_ne_true fun hc => not_symbol_of_isDigit hc hsymbol
    have halpha : c.isAlpha = false := eq_false_of_ne_true fun hc => not_symbol_of_isAlpha hc hsymbol
    rw [List.singleton_append]
    apply cut_single hdigit halpha
    rintro rfl hstar
    exact hnext '*' hstar .power

theorem spelling_snoc_of_isDigit {c d : Char} {cs : List Char} (hc : c.isDigit = true)
    (h : Spelling (c :: cs ++ [d])) : (∀ a ∈ cs, isNumberChar a = true) ∧ (isNumberChar d = true ∨ d = 'i') := by
  rcases spelling_cons h with ⟨-, hall | ⟨ds, hds, hall⟩⟩ | ⟨halpha, -⟩ | ⟨hsymbol, -⟩
  · exact ⟨fun a ha => hall a (by simp [ha]), .inl (hall d (by simp))⟩
  · obtain ⟨rfl, hd⟩ := List.append_inj' hds rfl
    cases hd
    exact ⟨hall, .inr rfl⟩
  · rw [not_isAlpha_of_isDigit hc] at halpha
    cases halpha
  · exact absurd hsymbol (not_symbol_of_isDigit hc)

/-- Of two characters that start with no letter or digit, only the two stars are a spelling. -/
theorem not_spelling_pair {c d : Char} (hdigit : c.isDigit = false) (halpha : c.isAlpha = false)
    (hstar : c = '*' → d ≠ '*') : ¬ Spelling [c, d] := by
  intro h
  rcases spelling_cons h with ⟨hc, -⟩ | ⟨hc, -⟩ | ⟨-, hd | ⟨hc, hd⟩⟩
  · rw [hc] at hdigit
    cases hdigit
  · rw [hc] at halpha
    cases halpha
  · cases hd
  · exact hstar hc (List.singleton_inj.mp hd)

/-- What the lexer cuts off is no spelling with the next character. -/
theorem not_spelling_cut_snoc {c d : Char} {cs : List Char} (h : (cut (c :: cs)).2.head? = some d) :
    ¬ Spelling ((cut (c :: cs)).1 ++ [d]) := by
  intro hlonger
  by_cases hdigit : c.isDigit = true
  · by_cases hi : (cs.dropWhile isNumberChar).head? = some 'i'
    · obtain ⟨rest, hrest⟩ := List.head?_eq_some_iff.mp hi
      rw [cut_imaginary hdigit hrest] at hlonger
      have hnumber := (spelling_snoc_of_isDigit hdigit hlonger).1 'i' (by simp)
      exact absurd hnumber (by decide)
    · -- the run ended in front of the character, and it is not the `i` of an imaginary number
      rw [cut_real hdigit hi] at h hlonger
      have hstop := head?_dropWhile_false h
      rcases (spelling_snoc_of_isDigit hdigit hlonger).2 with hnumber | rfl
      · rw [hstop] at hnumber
        cases hnumber
      · exact hi h
  · by_cases halpha : c.isAlpha = true
    · rw [cut_word halpha] at h hlonger
      have hstop := head?_dropWhile_false h
      rcases spelling_cons hlonger with ⟨hc, -⟩ | ⟨-, hcs⟩ | ⟨hc, -⟩
      · exact hdigit hc
      · rw [hcs d (by simp)] at hstop
        cases hstop
      · exact not_symbol_of_isAlpha halpha hc
    · -- only a second star can follow a symbol
      by_cases hstar : c = '*' ∧ cs.head? = some '*'
      · obtain ⟨rest, rfl⟩ := List.head?_eq_some_iff.mp hstar.2
        obtain rfl := hstar.1
        rcases spelling_cons hlonger with ⟨hc, -⟩ | ⟨hc, -⟩ | ⟨-, hcs⟩
        · exact absurd hc (by decide)
        · exact absurd hc (by decide)
        · simp at hcs
      · have hcut := cut_single (eq_false_of_ne_true hdigit) (eq_false_of_ne_true halpha)
          fun hc hnext => hstar ⟨hc, hnext⟩
        rw [hcut] at h hlonger
        refine not_spelling_pair (eq_false_of_ne_true hdigit) (eq_false_of_ne_true halpha) ?_ hlonger
        rintro hc rfl
        exact hstar ⟨hc, h⟩

end Token

/-! ## 4. Segments -/

/-- The text is cut into spellings, none of which is a spelling still with the character that follows it. -/
inductive Segments : List Char → List (List Char) → Prop where
  | nil : Segments [] []
  | cons {slice rest slices} : Spelling slice → (∀ d, rest.head? = some d → ¬ Spelling (slice ++ [d])) →
      Segments rest slices → Segments (slice ++ rest) (slice :: slices)

/-- The number of bytes of a text. -/
def byteLength (text : List Char) : Nat :=
  (String.ofList text).utf8ByteSize

/-- The tokens are those that the slices spell, each at the byte offset of its slice if the first is at `start`. -/
structure Lists (start : Nat) (slices : List (List Char)) (ts : List Lexeme) : Prop where
  spelled : List.Forall₂ (fun slice t => t.token.SpelledBy slice) slices ts
  positions : ∀ k t, ts[k]? = some t → t.position = start + byteLength (slices.take k).flatten

theorem utf8Size_of_le {c : Char} (h : c.toNat ≤ 127) : c.utf8Size = 1 := by
  have hval : c.val ≤ 127 := UInt32.le_iff_toNat_le.mpr h
  unfold Char.utf8Size
  exact if_pos hval

theorem utf8Size_of_isAlphanum {c : Char} (h : c.isAlphanum = true) : c.utf8Size = 1 := by
  apply utf8Size_of_le
  simp only [Char.isAlphanum, Char.isAlpha, Char.isUpper, Char.isLower, Char.isDigit, UInt32.le_iff_toNat_le] at h
  simp at h
  omega

/-- Tokens are spelled with letters, digits, points and symbols. -/
theorem Spelling.char_cases {slice : List Char} (h : Spelling slice) :
    ∀ c ∈ slice, c.isAlphanum = true ∨ c ∈ '.' :: symbols := by
  have hnumber : ∀ {run}, NumberRun run → ∀ c ∈ run, c.isAlphanum = true ∨ c ∈ '.' :: symbols := by
    intro run hrun c hc
    have hchar := hrun.all c hc
    rw [Token.isNumberChar, Bool.or_eq_true, decide_eq_true_iff] at hchar
    rcases hchar with hdigit | rfl
    · exact .inl (by simp [Char.isAlphanum, hdigit])
    · exact .inr List.mem_cons_self
  cases h with
  | real hrun => exact hnumber hrun
  | imaginary hrun =>
    intro c hc
    rcases List.mem_append.mp hc with hc | hc
    · exact hnumber hrun c hc
    · rw [List.mem_singleton.mp hc]
      exact .inl (by decide)
  | word hword =>
    obtain ⟨hfirst, hrest⟩ := hword
    intro c hc
    rcases List.mem_cons.mp hc with rfl | hc
    · exact .inl (by simp [Char.isAlphanum, hfirst])
    · exact .inl (hrest c hc)
  | power =>
    intro c hc
    obtain rfl : c = '*' := by simpa using hc
    exact .inr (by decide)
  | symbol hsymbol =>
    intro c hc
    rw [List.mem_singleton.mp hc]
    exact .inr (List.mem_cons_of_mem _ hsymbol)

/-- Tokens are spelled in ASCII. -/
theorem Spelling.utf8Size_eq {slice : List Char} (h : Spelling slice) : ∀ c ∈ slice, c.utf8Size = 1 := by
  have hascii : ∀ d ∈ '.' :: symbols, decide (d.utf8Size = 1) = true := List.all_eq_true.mp (by decide)
  intro c hc
  rcases h.char_cases c hc with hletter | hsymbol
  · exact utf8Size_of_isAlphanum hletter
  · exact of_decide_eq_true (hascii c hsymbol)

theorem isBlankChar_of_isAlphanum {c : Char} (h : c.isAlphanum = true) : Text.isBlankChar c = false := by
  simp only [Char.isAlphanum, Char.isAlpha, Char.isUpper, Char.isLower, Char.isDigit, UInt32.le_iff_toNat_le] at h
  simp [Text.isBlankChar, Text.inRanges, Text.blankRanges] at h ⊢
  omega

/-- No token is spelled with white space. -/
theorem Spelling.isBlankChar_eq {slice : List Char} (h : Spelling slice) :
    ∀ c ∈ slice, Text.isBlankChar c = false := by
  have hvisible : ∀ d ∈ '.' :: symbols, (!Text.isBlankChar d) = true := List.all_eq_true.mp (by decide)
  intro c hc
  rcases h.char_cases c hc with hletter | hsymbol
  · exact isBlankChar_of_isAlphanum hletter
  · exact Bool.not_eq_true' _ |>.mp (hvisible c hsymbol)

theorem strip_of_spelling {source : String} (h : Spelling source.toList) : Text.strip source = source.toList := by
  rw [Text.strip, List.filter_eq_self]
  intro c hc
  rw [h.isBlankChar_eq c hc, Bool.not_false]

theorem byteLength_cons (c : Char) (text : List Char) : byteLength (c :: text) = c.utf8Size + byteLength text := by
  rw [byteLength, String.ofList_cons, String.utf8ByteSize_append, String.utf8ByteSize_singleton, byteLength]

theorem byteLength_append (text rest : List Char) : byteLength (text ++ rest) = byteLength text + byteLength rest := by
  rw [byteLength, String.ofList_append, String.utf8ByteSize_append, byteLength, byteLength]

theorem byteLength_eq_length {text : List Char} (h : ∀ c ∈ text, c.utf8Size = 1) : byteLength text = text.length := by
  induction text with
  | nil => rfl
  | cons c text ih =>
    rw [byteLength_cons, h c List.mem_cons_self, ih fun d hd => h d (List.mem_cons_of_mem c hd), List.length_cons]
    omega

theorem Spelling.ne_nil {slice : List Char} (h : Spelling slice) : slice ≠ [] := by
  cases h with
  | real hrun => cases hrun; exact List.cons_ne_nil _ _
  | imaginary hrun => simp
  | word hword => cases hword; exact List.cons_ne_nil _ _
  | power => exact List.cons_ne_nil _ _
  | symbol => exact List.cons_ne_nil _ _

theorem lists_nil (start : Nat) : Lists start [] [] :=
  ⟨.nil, by simp⟩

theorem Lists.cons {start : Nat} {slice : List Char} {slices : List (List Char)} {t : Token} {ts : List Lexeme}
    (ht : t.SpelledBy slice) (h : Lists (start + byteLength slice) slices ts) :
    Lists start (slice :: slices) (⟨t, start⟩ :: ts) := by
  refine ⟨.cons ht h.spelled, ?_⟩
  intro k u hu
  cases k with
  | zero =>
    cases hu
    rfl
  | succ k =>
    rw [h.positions k u hu, List.take_succ_cons, List.flatten_cons, byteLength_append]
    omega

theorem Lists.cases_cons {start : Nat} {slice : List Char} {slices : List (List Char)} {ts : List Lexeme}
    (h : Lists start (slice :: slices) ts) :
    ∃ t rest, ts = ⟨t, start⟩ :: rest ∧ t.SpelledBy slice ∧ Lists (start + byteLength slice) slices rest := by
  obtain ⟨hspelled, hpositions⟩ := h
  cases hspelled with
  | @cons _ u _ rest ht hrest =>
    have hstart : u.position = start := hpositions 0 u rfl
    refine ⟨u.token, rest, by rw [← hstart], ht, hrest, ?_⟩
    intro k v hv
    rw [hpositions (k + 1) v hv, List.take_succ_cons, List.flatten_cons, byteLength_append]
    omega

namespace Token

/-- Before its next character, a slice is scanned as the token that it spells. -/
theorem scan_append {slice rest : List Char} {t : Token} (ht : t.SpelledBy slice)
    (hnext : ∀ d, rest.head? = some d → ¬ Spelling (slice ++ [d])) (position : Nat) :
    scan position (slice ++ rest) = (scan (position + byteLength slice) rest).map (⟨t, position⟩ :: ·) := by
  have hspelling := spelling_iff.mpr ⟨t, ht⟩
  have hcut := cut_append_of_greedy hspelling hnext
  rw [byteLength_eq_length hspelling.utf8Size_eq]
  cases slice with
  | nil => exact absurd rfl hspelling.ne_nil
  | cons c cs =>
    rw [List.cons_append] at hcut ⊢
    rw [scan, hcut]
    dsimp only
    rw [ofSpelling?_eq_some_iff.mpr ht]
    cases scan (position + (c :: cs).length) rest <;> rfl

theorem scan_ok_iff {position : Nat} {text : List Char} {ts : List Lexeme} :
    scan position text = .ok ts ↔ ∃ slices, Segments text slices ∧ Lists position slices ts := by
  constructor
  · intro h
    induction position, text using scan.induct generalizing ts with
    | case1 position =>
      rw [scan] at h
      cases h
      exact ⟨[], .nil, lists_nil position⟩
    | case2 position c cs hnone =>
      rw [scan, hnone] at h
      cases h
    | case3 position c cs t ht ih =>
      have hspelled := ofSpelling?_eq_some_iff.mp ht
      have hspelling := spelling_iff.mpr ⟨t, hspelled⟩
      have hnext : ∀ d, (cut (c :: cs)).2.head? = some d → ¬ Spelling ((cut (c :: cs)).1 ++ [d]) :=
        fun d hd => not_spelling_cut_snoc hd
      have hbytes := byteLength_eq_length hspelling.utf8Size_eq
      have htext := cut_append (c :: cs)
      rw [← htext, scan_append hspelled hnext, hbytes] at h
      cases hrest : scan (position + (cut (c :: cs)).1.length) (cut (c :: cs)).2 with
      | error x =>
        rw [hrest] at h
        cases h
      | ok rest =>
        rw [hrest] at h
        cases h
        obtain ⟨slices, hsegments, hlists⟩ := ih hrest
        rw [← hbytes] at hlists
        rw [← htext]
        exact ⟨_, .cons hspelling hnext hsegments, hlists.cons hspelled⟩
  · rintro ⟨slices, hsegments, hlists⟩
    induction hsegments generalizing position ts with
    | nil =>
      obtain ⟨hspelled, -⟩ := hlists
      cases hspelled
      rw [scan]
    | cons hspelling hnext _ ih =>
      obtain ⟨t, rest, rfl, ht, hlists⟩ := hlists.cases_cons
      rw [scan_append ht hnext, ih hlists]
      rfl

end Token

theorem Segments.flatten_eq {text : List Char} {slices : List (List Char)} (h : Segments text slices) :
    slices.flatten = text := by
  induction h with
  | nil => rfl
  | cons _ _ _ ih => rw [List.flatten_cons, ih]

/-- The first slice is what the lexer cuts off, and so is every other one from what is left. -/
theorem Segments.unique {text : List Char} {slices others : List (List Char)} (h : Segments text slices)
    (h' : Segments text others) : slices = others := by
  induction h generalizing others with
  | nil =>
    generalize htext : ([] : List Char) = text at h'
    cases h' with
    | nil => rfl
    | cons hspelling =>
      rw [eq_comm, List.append_eq_nil_iff] at htext
      exact absurd htext.1 hspelling.ne_nil
  | @cons slice rest slices hspelling hnext _ ih =>
    generalize htext : slice ++ rest = text at h'
    cases h' with
    | nil =>
      rw [List.append_eq_nil_iff] at htext
      exact absurd htext.1 hspelling.ne_nil
    | cons hspelling' hnext' h' =>
      have hcut := Token.cut_append_of_greedy hspelling hnext
      rw [htext, Token.cut_append_of_greedy hspelling' hnext'] at hcut
      cases hcut
      rw [ih h']

/-- Every cut into spellings is listed by tokens. -/
theorem Segments.exists_lists {text : List Char} {slices : List (List Char)} (h : Segments text slices) (start : Nat) :
    ∃ ts, Lists start slices ts := by
  induction h generalizing start with
  | nil => exact ⟨[], lists_nil start⟩
  | @cons slice _ _ hspelling _ _ ih =>
    obtain ⟨t, ht⟩ := Token.spelling_iff.mp hspelling
    obtain ⟨ts, hts⟩ := ih (start + byteLength slice)
    exact ⟨_, hts.cons ht⟩

theorem Segments.ne_nil {text : List Char} {slices : List (List Char)} (h : Segments text slices) :
    ∀ slice ∈ slices, slice ≠ [] := by
  induction h with
  | nil => simp
  | cons hspelling _ _ ih =>
    intro slice hslice
    rcases List.mem_cons.mp hslice with rfl | hslice
    · exact hspelling.ne_nil
    · exact ih slice hslice

theorem byteLength_pos {text : List Char} (h : text ≠ []) : 0 < byteLength text := by
  cases text with
  | nil => exact absurd rfl h
  | cons c text =>
    have hc := c.utf8Size_pos
    rw [byteLength_cons]
    omega

/-- A token stands where its slice starts, and the next one behind the slice. -/
theorem Lists.increasing {start : Nat} {slices : List (List Char)} {ts : List Lexeme} (h : Lists start slices ts)
    (hslices : ∀ slice ∈ slices, slice ≠ []) :
    (∀ t ∈ ts, start ≤ t.position) ∧ ts.Pairwise (fun t u => t.position < u.position) := by
  induction slices generalizing start ts with
  | nil =>
    obtain ⟨hspelled, -⟩ := h
    cases hspelled
    simp
  | cons slice slices ih =>
    obtain ⟨t, rest, rfl, -, hrest⟩ := h.cases_cons
    have hbytes := byteLength_pos (hslices slice List.mem_cons_self)
    obtain ⟨hstart, hpairwise⟩ := ih hrest fun s hs => hslices s (List.mem_cons_of_mem slice hs)
    constructor
    · intro u hu
      rcases List.mem_cons.mp hu with rfl | hu
      · exact Nat.le_refl start
      · have hbehind := hstart u hu
        omega
    · refine List.pairwise_cons.mpr ⟨?_, hpairwise⟩
      intro u hu
      have hbehind := hstart u hu
      show start < u.position
      omega

/-- A source text has exactly the tokens that the slices of its only longest-match cut spell, each at the byte offset of
its slice in the text without white space, and it has none if there is no such cut. -/
theorem tokenize_ok_iff_segments (source : String) :
    (∀ ts, tokenize source = .ok ts ↔ ∃ slices, Segments (Text.strip source) slices ∧ Lists 0 slices ts) ∧
      (∀ slices, Segments (Text.strip source) slices → ∃ ts, tokenize source = .ok ts) ∧
      (∀ slices others, Segments (Text.strip source) slices → Segments (Text.strip source) others →
        slices = others) ∧
      (∀ slices ts, Segments (Text.strip source) slices → Lists 0 slices ts →
        slices.flatten = Text.strip source ∧ (∀ slice ∈ slices, slice ≠ []) ∧
        (∀ t, ts.head? = some t → t.position = 0) ∧ ts.Pairwise (fun t u => t.position < u.position)) := by
  refine ⟨fun ts => Token.scan_ok_iff, ?_, fun slices others => Segments.unique, ?_⟩
  · intro slices hsegments
    obtain ⟨ts, hlists⟩ := hsegments.exists_lists 0
    exact ⟨ts, Token.scan_ok_iff.mpr ⟨slices, hsegments, hlists⟩⟩
  · intro slices ts hsegments hlists
    refine ⟨hsegments.flatten_eq, hsegments.ne_nil, ?_, (hlists.increasing hsegments.ne_nil).2⟩
    intro t ht
    rw [List.head?_eq_getElem?] at ht
    exact hlists.positions 0 t ht

/-- White space is removed first, so it may stand anywhere, and no position counts it. -/
example : tokenize " 2.5\u00a0.1 i\t*\n* ro ot" =
    .ok [⟨.imaginary 2.5, 0⟩, ⟨.operator .pow, 6⟩, ⟨.builtin .root, 8⟩] := by
  decide +kernel

end ComplexCalc
