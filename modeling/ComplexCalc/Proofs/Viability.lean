import ComplexCalc.Proofs.Failure

/-!
# Viability — the beginnings of expressions

A token list is viable when some continuation makes it an expression.  The viable lists are those that the scan goes
through, and what is due behind one can be read off the scan.
-/

namespace ComplexCalc

open ComplexCalc.Parser

/-! ## 1. What the scan accepts is derived -/

def Levels.AtMost (n : Nat) (f : Levels) : Prop :=
  f.sum ≤ n ∧ f.product ≤ n ∧ f.power ≤ n ∧ f.sign ≤ n

/-- No frame of the scan has counted more levels. -/
def Scan.AtMost (n : Nat) (s : Scan Levels Unit) : Prop :=
  s.frame.AtMost n ∧ ∀ q ∈ s.enclosing, q.2.AtMost n

theorem Levels.AtMost.mono {n m f} (h : Levels.AtMost n f) (hle : n ≤ m) : Levels.AtMost m f := by
  obtain ⟨hsum, hproduct, hpower, hsign⟩ := h
  exact ⟨by omega, by omega, by omega, by omega⟩

theorem Levels.AtMost.binary {n f} (h : Levels.AtMost n f) (op : Operator) : Levels.AtMost (n + 1) (f.binary op) := by
  obtain ⟨hsum, hproduct, hpower, hsign⟩ := h
  cases op <;> simp only [Levels.AtMost, Levels.binary, Levels.all] <;> omega

theorem Levels.AtMost.sign {n f} (h : Levels.AtMost n f) :
    Levels.AtMost (n + 1) { f with sign := f.sign + 1 } ∧ Levels.AtMost (n + 1) (.all (f.sign + 1)) := by
  obtain ⟨hsum, hproduct, hpower, hsign⟩ := h
  simp only [Levels.AtMost, Levels.all]
  omega

theorem Scan.AtMost.step {n s s' t} (h : Scan.AtMost n s) (hstep : levels.step s t = some s') :
    Scan.AtMost (n + 1) s' := by
  obtain ⟨hframe, henclosing⟩ := h
  have hsame := hframe.mono (Nat.le_succ n)
  have hrest : ∀ q ∈ s.enclosing, q.2.AtMost (n + 1) := fun q hq => (henclosing q hq).mono (Nat.le_succ n)
  cases Gauge.steps_of_step hstep with
  | atom _ => exact ⟨hsame, hrest⟩
  | function => exact ⟨hsame, hrest⟩
  | sign _ => exact ⟨hframe.sign.1, hrest⟩
  | grouping => exact ⟨hframe.sign.2, List.forall_mem_cons.mpr ⟨hsame, hrest⟩⟩
  | argument => exact ⟨hframe.sign.2, List.forall_mem_cons.mpr ⟨hsame, hrest⟩⟩
  | binary => exact ⟨hframe.binary _, hrest⟩
  | closing => exact List.forall_mem_cons.mp hrest

theorem Scan.atMost_start : Scan.AtMost 0 .start :=
  ⟨⟨Nat.le_refl _, Nat.le_refl _, Nat.le_refl _, Nat.le_refl _⟩, List.forall_mem_nil _⟩

theorem Scan.AtMost.run {n s s' ts} (h : Scan.AtMost n s) (hrun : levels.run s ts = some s') :
    Scan.AtMost (n + ts.length) s' := by
  induction ts generalizing n s with
  | nil =>
    cases hrun
    exact h
  | cons t ts ih =>
    rw [Gauge.run, Option.bind_eq_some_iff] at hrun
    obtain ⟨s₁, hstep, hrun⟩ := hrun
    have hts := ih (h.step hstep) hrun
    rwa [List.length_cons, Nat.add_comm ts.length 1, ← Nat.add_assoc]

/-- A scan that ends behind an operand with nothing open has scanned an expression: read with as many levels as there
are tokens, they meet no error, since the scan would have stopped there too. -/
theorem derives_of_run {ts f} (hrun : levels.run .start ts = some ⟨.operator (), f, []⟩) : ∃ e, Derives .sum ts e := by
  -- as many levels as tokens cannot run out
  cases h : read .sum ts.length ts with
  | ok r =>
    obtain ⟨us, hts, hus⟩ := read_sound .sum ts.length h
    have hstops := read_stops .sum ts.length h
    obtain ⟨f', hrun', -⟩ := hus.run_levels (.all 0) []
    cases hrest : r.2 with
    | nil =>
      rw [hrest, List.append_nil] at hts
      exact ⟨r.1, hts ▸ hus⟩
    | cons t rest =>
      rw [hrest] at hts hstops
      rw [hts, Gauge.run_append, Scan.start, hrun', Option.bind_some, Gauge.run, step_of_stops_outside hstops] at hrun
      cases hrun
  | error x =>
    have hleaves := Levels.leaves_start ts.length
    obtain ⟨us, rest, s, hts, hwithin, hblames⟩ :=
      read_fails _ .sum _ (.all 0) [] hleaves (fun heq => absurd heq (by decide)) h
    have hus := hwithin.run_eq
    by_cases hdepth : ∃ p, x = .tooDeep p
    · -- every step of the scan counts at most one level, so there would be more tokens than there are
      obtain ⟨p, rfl⟩ := hdepth
      cases hblames with
      | tooDeep hstep hsign =>
        have hbound := ((Scan.AtMost.run Scan.atMost_start hus).step hstep).1.2.2.2
        rw [hts, List.length_append, List.length_cons] at hsign
        omega
    · have hstuck := hblames.stuck fun p hp => hdepth ⟨p, hp⟩
      rw [hts, Gauge.run_append, Scan.start, hus, Option.bind_some] at hrun
      cases rest with
      | nil =>
        cases hrun
        cases hblames with
        | unexpectedEnd hdue => exact absurd rfl hdue
        | unclosed hdue hopen _ => cases hopen
      | cons t rest =>
        rw [Gauge.run, hstuck t rfl] at hrun
        cases hrun

/-- The expressions are the token lists after which the scan has a complete operand and nothing open. -/
theorem derives_iff_run {ts s} (hrun : levels.run .start ts = some s) :
    (∃ e, Derives .sum ts e) ↔ s.due = .operator () ∧ s.enclosing = [] := by
  constructor
  · rintro ⟨e, h⟩
    obtain ⟨f', hrun', -⟩ := h.run_levels (.all 0) []
    rw [Scan.start, hrun'] at hrun
    cases hrun
    exact ⟨rfl, rfl⟩
  · obtain ⟨due, frame, enclosing⟩ := s
    rintro ⟨rfl, rfl⟩
    exact derives_of_run hrun

/-! ## 2. Viable token lists -/

/-- Some continuation of the tokens makes them an expression. -/
def Viable (ts : List Lexeme) : Prop :=
  ∃ us e, Derives .sum (ts ++ us) e

/-- Behind an operand, what is open can be closed. -/
theorem exists_run_closings (f : Levels) (q : List (Nat × Levels)) :
    ∃ us f', levels.run ⟨.operator (), f, q⟩ us = some ⟨.operator (), f', []⟩ := by
  induction q generalizing f with
  | nil => exact ⟨[], f, rfl⟩
  | cons outer q ih =>
    obtain ⟨us, f', h⟩ := ih outer.2
    exact ⟨⟨.closing, 0⟩ :: us, f', h⟩

theorem exists_run_completion (s : Scan Levels Unit) :
    ∃ us f, levels.run s us = some ⟨.operator (), f, []⟩ := by
  obtain ⟨due, f, q⟩ := s
  cases due with
  | operator value => exact exists_run_closings f q
  | operand =>
    obtain ⟨us, f', h⟩ := exists_run_closings f q
    exact ⟨⟨.name "x", 0⟩ :: us, f', h⟩
  | argument =>
    -- any argument will do, and its parenthesis is closed with the others
    obtain ⟨us, f', h⟩ := exists_run_closings (.all (f.sign + 1)) ((0, f) :: q)
    exact ⟨⟨.opening, 0⟩ :: ⟨.name "x", 0⟩ :: us, f', h⟩

theorem viable_iff_run {ts : List Lexeme} : Viable ts ↔ ∃ s, levels.run .start ts = some s := by
  constructor
  · rintro ⟨us, e, h⟩
    obtain ⟨f', hrun, -⟩ := h.run_levels (.all 0) []
    rw [Gauge.run_append, Option.bind_eq_some_iff] at hrun
    obtain ⟨s, hs, -⟩ := hrun
    exact ⟨s, hs⟩
  · rintro ⟨s, hs⟩
    obtain ⟨us, f, hus⟩ := exists_run_completion s
    exact ⟨us, derives_of_run (by rw [Gauge.run_append, hs]; exact hus)⟩

theorem viable_snoc_iff {ts s t} (hrun : levels.run .start ts = some s) :
    Viable (ts ++ [t]) ↔ ∃ s', levels.step s t = some s' := by
  rw [viable_iff_run, Gauge.run_append, hrun, Option.bind_some, Gauge.run_singleton]

/-! ## 3. What is due -/

/-- An operand may come next. -/
def OperandDue (ts : List Lexeme) : Prop :=
  ∃ x p, Viable (ts ++ [⟨.real x, p⟩])

/-- The parenthesis of a call has to come next. -/
def ArgumentDue (ts : List Lexeme) : Prop :=
  Viable ts ∧ ∃ us f p, ts = us ++ [⟨.builtin f, p⟩]

/-- The tokens end with a complete operand: a number, a name, a call or what stands in parentheses. -/
def EndsInOperand (ts : List Lexeme) : Prop :=
  Viable ts ∧ ∃ us vs e, ts = us ++ vs ∧ Derives .primary vs e

/-- What is due behind a token, wherever the token stands. -/
def Due.behind : Token → Due Unit
  | .real _ => .operator ()
  | .imaginary _ => .operator ()
  | .name _ => .operator ()
  | .closing => .operator ()
  | .builtin _ => .argument
  | .operator _ => .operand
  | .opening => .operand

theorem due_of_step {s s' t} (h : levels.step s t = some s') : s'.due = .behind t.token := by
  cases Gauge.steps_of_step h with
  | @atom _ _ token _ hatom => cases token <;> first | rfl | cases hatom
  | _ => rfl

theorem due_of_run_snoc {s s' us t} (h : levels.run s (us ++ [t]) = some s') : s'.due = .behind t.token := by
  rw [Gauge.run_append, Option.bind_eq_some_iff] at h
  obtain ⟨s₁, -, h⟩ := h
  rw [Gauge.run_singleton] at h
  exact due_of_step h

theorem operandDue_iff {ts s} (hrun : levels.run .start ts = some s) : OperandDue ts ↔ s.due = .operand := by
  simp only [OperandDue, viable_snoc_iff hrun]
  constructor
  · rintro ⟨x, p, s', hstep⟩
    cases Gauge.steps_of_step hstep with
    | atom _ => rfl
  · obtain ⟨due, f, q⟩ := s
    rintro rfl
    exact ⟨0.0, 0, _, rfl⟩

theorem argumentDue_iff {ts s} (hrun : levels.run .start ts = some s) : ArgumentDue ts ↔ s.due = .argument := by
  constructor
  · rintro ⟨-, us, f, p, rfl⟩
    exact due_of_run_snoc hrun
  · intro hdue
    refine ⟨viable_iff_run.mpr ⟨s, hrun⟩, ?_⟩
    rcases List.eq_nil_or_concat ts with rfl | ⟨us, ⟨token, p⟩, rfl⟩
    · cases hrun
      cases hdue
    · rw [List.concat_eq_append] at hrun ⊢
      rw [due_of_run_snoc hrun] at hdue
      cases token with
      | builtin f => exact ⟨us, f, p, rfl⟩
      | _ => cases hdue

section
variable {ts us before after : List Lexeme} {op : Operator} {p q : Nat}

/-- A closing parenthesis around an operator stands on one side of it. -/
theorem closing_beside_operator (h : ts ++ ⟨.operator op, q⟩ :: us = before ++ ⟨.closing, p⟩ :: after) :
    (∃ after', ts = before ++ ⟨.closing, p⟩ :: after') ∨
      ∃ before', us = before' ++ ⟨.closing, p⟩ :: after ∧ before = ts ++ ⟨.operator op, q⟩ :: before' := by
  rcases List.append_eq_append_iff.mp h with ⟨ws, rfl, hws⟩ | ⟨ws, rfl, hws⟩
  · cases ws with
    | nil => cases hws
    | cons t ws => cases hws; exact .inr ⟨ws, rfl, rfl⟩
  · cases ws with
    | nil => cases hws
    | cons t ws => cases hws; exact .inl ⟨ws, rfl⟩

/-- A closing parenthesis before a last one, or the last one itself. -/
theorem closing_at_end (h : ts ++ [⟨.closing, q⟩] = before ++ ⟨.closing, p⟩ :: after) :
    (∃ after', ts = before ++ ⟨.closing, p⟩ :: after') ∨ before = ts ∧ p = q := by
  rcases List.append_eq_append_iff.mp h with ⟨ws, rfl, hws⟩ | ⟨ws, rfl, hws⟩
  · cases ws with
    | nil => cases hws; exact .inr ⟨List.append_nil ts, rfl⟩
    | cons t ws => exact absurd (congrArg List.length hws) (by simp)
  · cases ws with
    | nil => cases hws; exact .inr ⟨(List.append_nil before).symm, rfl⟩
    | cons t ws => cases hws; exact .inl ⟨ws, rfl⟩

end

/-- Some of the tokens before a closing parenthesis at the position make a primary phrase with it. -/
def ClosesPrimary (before : List Lexeme) (p : Nat) : Prop :=
  ∃ us vs e, before = us ++ vs ∧ Derives .primary (vs ++ [⟨.closing, p⟩]) e

theorem ClosesPrimary.after {before p} (ts : List Lexeme) (h : ClosesPrimary before p) :
    ClosesPrimary (ts ++ before) p := by
  obtain ⟨us, vs, e, rfl, he⟩ := h
  exact ⟨ts ++ us, vs, e, by rw [List.append_assoc], he⟩

/-- Every closing parenthesis among the tokens ends a primary phrase. -/
def ClosesPrimaries (ts : List Lexeme) : Prop :=
  ∀ before p after, ts = before ++ ⟨.closing, p⟩ :: after → ClosesPrimary before p

theorem ClosesPrimaries.binary {ts us op q} (hts : ClosesPrimaries ts) (hus : ClosesPrimaries us) :
    ClosesPrimaries (ts ++ ⟨.operator op, q⟩ :: us) := by
  intro before p after h
  rcases closing_beside_operator h with ⟨after', rfl⟩ | ⟨before', rfl, rfl⟩
  · exact hts _ _ _ rfl
  · have h := (hus _ _ _ rfl).after (ts ++ [⟨.operator op, q⟩])
    rwa [List.append_assoc] at h

theorem ClosesPrimaries.nil : ClosesPrimaries [] := by
  intro before p after h
  cases before <;> cases h

theorem ClosesPrimaries.cons {ts t} (hts : ClosesPrimaries ts) (ht : t.token ≠ .closing) :
    ClosesPrimaries (t :: ts) := by
  intro before p after h
  cases before with
  | nil => cases h; exact absurd rfl ht
  | cons t' before =>
    cases h
    exact (hts _ _ _ rfl).after [t]

/-- What is enclosed is closed inside, or by the parenthesis that ends it. -/
theorem ClosesPrimaries.enclosed {ts q e} (hts : ClosesPrimaries ts)
    (h : Derives .primary (ts ++ [⟨.closing, q⟩]) e) : ClosesPrimaries (ts ++ [⟨.closing, q⟩]) := by
  intro before p after heq
  rcases closing_at_end heq with ⟨after', hinside⟩ | ⟨rfl, rfl⟩
  · exact hts _ _ _ hinside
  · exact ⟨[], before, e, rfl, h⟩

theorem Derives.closesPrimaries {ph ts e} (h : Derives ph ts e) : ClosesPrimaries ts := by
  induction h with
  | product _ ih => exact ih
  | power _ ih => exact ih
  | signed _ ih => exact ih
  | primary _ ih => exact ih
  | additive _ _ _ iha ihb => exact iha.binary ihb
  | multiplicative _ _ _ iha ihb => exact iha.binary ihb
  | raised _ _ iha ihb => exact iha.binary ihb
  | minus _ ih => exact ih.cons (by simp)
  | plus _ ih => exact ih.cons (by simp)
  | real => exact ClosesPrimaries.nil.cons (by simp)
  | imaginary => exact ClosesPrimaries.nil.cons (by simp)
  | name => exact ClosesPrimaries.nil.cons (by simp)
  | @call _ _ f p q _ h ih =>
    have hopened : ClosesPrimaries (⟨.opening, q⟩ :: _) := ih.cons (by simp)
    have hcalled : ClosesPrimaries (⟨.builtin f, p⟩ :: _) := hopened.cons (by simp)
    exact hcalled.enclosed (.call h)
  | enclosed h ih => exact .enclosed (ih.cons (by simp)) (.enclosed h)

theorem endsInOperand_iff {ts s} (hrun : levels.run .start ts = some s) :
    EndsInOperand ts ↔ s.due = .operator () := by
  have hviable : Viable ts := viable_iff_run.mpr ⟨s, hrun⟩
  constructor
  · rintro ⟨-, us, vs, e, rfl, hvs⟩
    obtain ⟨ws, t, rfl, ht⟩ : ∃ ws t, vs = ws ++ [t] ∧ Due.behind t.token = .operator () := by
      cases hvs with
      | real => exact ⟨[], _, rfl, rfl⟩
      | imaginary => exact ⟨[], _, rfl, rfl⟩
      | name => exact ⟨[], _, rfl, rfl⟩
      | call _ => exact ⟨_, _, rfl, rfl⟩
      | enclosed _ => exact ⟨_, _, rfl, rfl⟩
    rw [← List.append_assoc] at hrun
    rw [due_of_run_snoc hrun, ht]
  · intro hdue
    refine ⟨hviable, ?_⟩
    rcases List.eq_nil_or_concat ts with rfl | ⟨us, ⟨token, p⟩, rfl⟩
    · cases hrun
      cases hdue
    · rw [List.concat_eq_append] at hrun hviable ⊢
      rw [due_of_run_snoc hrun] at hdue
      cases token with
      | real x => exact ⟨us, _, _, rfl, .real⟩
      | imaginary x => exact ⟨us, _, _, rfl, .imaginary⟩
      | name x => exact ⟨us, _, _, rfl, .name⟩
      | closing =>
        -- the completed expression shows which primary phrase the parenthesis ends
        obtain ⟨vs, e, h⟩ := hviable
        rw [List.append_assoc] at h
        obtain ⟨us', ws, b, rfl, hb⟩ := h.closesPrimaries _ _ _ rfl
        exact ⟨us', _, b, by rw [List.append_assoc], hb⟩
      | _ => cases hdue

end ComplexCalc
