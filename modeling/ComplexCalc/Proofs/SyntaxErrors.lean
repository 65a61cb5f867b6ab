import ComplexCalc.Proofs.Viability

/-!
# SyntaxErrors — what an error says about all continuations of the tokens

The tokens before the place of an error can still become an expression, and with the next token they no longer can.
Which error it is depends on what was due there, and the parenthesis it blames is the innermost open one.
-/

namespace ComplexCalc

/-! ## 1. Open parentheses -/

/-- The positions of the open parentheses after one more token, the innermost first. -/
def noteParenthesis (opened : List Nat) (t : Lexeme) : List Nat :=
  match t.token with
  | .opening => t.position :: opened
  | .closing => opened.tail
  | _ => opened

/-- The positions of the opening parentheses that no closing one matches, the last first. -/
def openParentheses (ts : List Lexeme) : List Nat :=
  ts.foldl noteParenthesis []

/-- The positions of the open parentheses that the scan remembers. -/
def Scan.opened {φ ω : Type} (s : Scan φ ω) : List Nat :=
  s.enclosing.map Prod.fst

theorem opened_of_step {φ ω} {g : Gauge φ ω} {s s' t} (h : g.step s t = some s') :
    s'.opened = noteParenthesis s.opened t := by
  cases Gauge.steps_of_step h with
  | @atom _ _ token _ hatom => cases token <;> first | rfl | cases hatom
  | _ => rfl

theorem opened_of_run {φ ω} {g : Gauge φ ω} {s s' ts} (h : g.run s ts = some s') :
    s'.opened = ts.foldl noteParenthesis s.opened := by
  induction ts generalizing s with
  | nil =>
    cases h
    rfl
  | cons t ts ih =>
    rw [Gauge.run, Option.bind_eq_some_iff] at h
    obtain ⟨s₁, hstep, hrun⟩ := h
    rw [ih hrun, opened_of_step hstep, List.foldl_cons]

theorem opened_eq_openParentheses {ts s} (hrun : levels.run .start ts = some s) :
    s.opened = openParentheses ts :=
  opened_of_run hrun

/-! ## 2. What each error says -/

section
variable {limit : Nat} {x : SyntaxError} {s : Scan Levels Unit} {rest : List Lexeme}

theorem Blames.points_at (h : Blames limit x s rest) {t p}
    (hx : x = .unexpected t p ∨ (∃ f, x = .noArgument t f p) ∨ x = .trailing t p) : rest.head? = some ⟨t, p⟩ := by
  cases h with
  | unexpected =>
    rcases hx with hx | ⟨f, hx⟩ | hx
    · cases hx; rfl
    · cases hx
    · cases hx
  | noArgument =>
    rcases hx with hx | ⟨f, hx⟩ | hx
    · cases hx
    · cases hx; rfl
    · cases hx
  | trailing =>
    rcases hx with hx | ⟨f, hx⟩ | hx
    · cases hx
    · cases hx
    · cases hx; rfl
  | _ => rcases hx with hx | ⟨f, hx⟩ | hx <;> cases hx

theorem Blames.trailing_iff (h : Blames limit x s rest) (hdepth : ∀ p, x ≠ .tooDeep p) :
    (∃ t p, x = .trailing t p) ↔ s.due = .operator () ∧ s.enclosing = [] := by
  cases h with
  | unexpected hdue => simp [hdue]
  | noArgument hdue => simp [hdue]
  | unexpectedEnd hdue => simp [hdue]
  | unclosed hdue hopen => simp [hopen]
  | trailing hdue hopen => simp [hdue, hopen]
  | tooDeep => exact absurd rfl (hdepth _)

theorem Blames.unexpectedEnd_iff (h : Blames limit x s rest) (hdepth : ∀ p, x ≠ .tooDeep p) :
    x = .unexpectedEnd ↔ rest = [] ∧ s.due ≠ .operator () := by
  cases h with
  | unexpected hdue => simp
  | noArgument hdue => simp
  | unexpectedEnd hdue => simp [hdue]
  | unclosed hdue => simp [hdue]
  | trailing hdue => simp
  | tooDeep => exact absurd rfl (hdepth _)

theorem Blames.unclosed_iff (h : Blames limit x s rest) (hdepth : ∀ p, x ≠ .tooDeep p) (p : Nat) :
    x = .unclosed p ↔ s.due = .operator () ∧ s.opened.head? = some p := by
  cases h with
  | unexpected hdue => simp [hdue]
  | noArgument hdue => simp [hdue]
  | unexpectedEnd hdue => simp [hdue]
  | unclosed hdue hopen => simp [hdue, hopen, Scan.opened]
  | trailing hdue hopen => simp [hopen, Scan.opened]
  | tooDeep => exact absurd rfl (hdepth _)

end

/-! ## 3. Where an error is met -/

theorem Due.ne_operator_iff {due : Due Unit} : due ≠ .operator () ↔ due = .operand ∨ due = .argument := by
  cases due <;> simp

/-- What an error that is met behind so many tokens says about them. -/
structure SyntaxError.MetBehind (x : SyntaxError) (ts : List Lexeme) (k : Nat) : Prop where
  le_length : k ≤ ts.length
  viable : Viable (ts.take k)
  not_viable : k < ts.length → ¬ Viable (ts.take (k + 1))
  points_at : ∀ t p, (x = .unexpected t p ∨ (∃ f, x = .noArgument t f p) ∨ x = .trailing t p) → ts[k]? = some ⟨t, p⟩
  trailing_iff : (∃ t p, x = .trailing t p) ↔ ∃ e, Derives .sum (ts.take k) e
  unexpectedEnd_iff : x = .unexpectedEnd ↔ k = ts.length ∧ (OperandDue ts ∨ ArgumentDue ts)
  unclosed_iff : ∀ p, x = .unclosed p ↔
    EndsInOperand (ts.take k) ∧ (openParentheses (ts.take k)).head? = some p

/-- Unless the levels run out, an error is met at the first place where no continuation makes an expression any more,
and it says what was due there. -/
theorem ofLexemes_error_location (ts : List Lexeme) (x : SyntaxError) (h : Expr.ofLexemes ts = .error x)
    (hdepth : ∀ p, x ≠ .tooDeep p) : ∃ k, x.MetBehind ts k := by
  -- the place of the error is where the scan is when it is met
  obtain ⟨us, rest, s, rfl, hrun, hblames⟩ := ofLexemes_fails h
  have htake : (us ++ rest).take us.length = us := List.take_left
  refine ⟨us.length, ?_⟩
  constructor
  · rw [List.length_append]
    omega
  · rw [htake]
    exact viable_iff_run.mpr ⟨s, hrun⟩
  · intro hlt
    cases rest with
    | nil => simp at hlt
    | cons t rest =>
      rw [List.take_length_add_append, List.take_succ_cons, List.take_zero, viable_snoc_iff hrun,
        hblames.stuck hdepth t rfl]
      rintro ⟨s', hs'⟩
      cases hs'
  · intro t p hx
    rw [List.getElem?_append_right (Nat.le_refl _), Nat.sub_self, ← List.head?_eq_getElem?]
    exact hblames.points_at hx
  · rw [htake, hblames.trailing_iff hdepth, derives_iff_run hrun]
  · rw [hblames.unexpectedEnd_iff hdepth]
    constructor
    · rintro ⟨rfl, hdue⟩
      rw [List.append_nil, operandDue_iff hrun, argumentDue_iff hrun]
      exact ⟨rfl, Due.ne_operator_iff.mp hdue⟩
    · rintro ⟨hlength, hdue⟩
      obtain rfl : rest = [] := by simpa using hlength
      rw [List.append_nil, operandDue_iff hrun, argumentDue_iff hrun] at hdue
      exact ⟨rfl, Due.ne_operator_iff.mpr hdue⟩
  · intro p
    rw [htake, hblames.unclosed_iff hdepth, endsInOperand_iff hrun, opened_eq_openParentheses hrun]

/-- The text `y + (x` is left open at its parenthesis. -/
theorem unclosed_error_location :
    ∃ k, (SyntaxError.unclosed 2).MetBehind
      [⟨.name "y", 0⟩, ⟨.operator .add, 1⟩, ⟨.opening, 2⟩, ⟨.name "x", 3⟩] k :=
  ofLexemes_error_location _ _ (by cbv) (by rintro _ ⟨⟩)

end ComplexCalc
