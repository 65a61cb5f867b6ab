import ComplexCalc.Proofs.TreeHeight

/-!
# CallBudget — how deep the calls of the parser nest

The parser is given a budget of calls (section 1).  A call is spent where an expression starts, and where a power or a
signed phrase is read inside another one, and it is refunded when it returns.  All of these calls but the first take a
level before they are made, so one more than there are levels are enough, however many tokens there are (section 2).
With fewer the budget runs out on some that are accepted (section 3).
-/

namespace ComplexCalc

namespace Parser

/-! ## 1. Reading with a budget -/

/-- Reading with a budget of calls.  It ends with an outcome and what is left of the budget, or with nothing where the
budget runs out. -/
abbrev Budgeted := ExceptT SyntaxError (StateT Nat Option)

/-- A call takes one of the budget until it returns, be it with a value or with an error. -/
def calling {α : Type} (body : Budgeted α) : Budgeted α :=
  ExceptT.mk fun
    | 0 => none
    | budget + 1 => (body.run.run budget).map fun (outcome, left) => (outcome, left + 1)

/-- The budget is too small. -/
def RunsOut {α : Type} (x : Budgeted α) (budget : Nat) : Prop :=
  x.run.run budget = none

section
variable {α β : Type} {x : Budgeted α} {budget : Nat}

theorem run_calling_succ (x : Budgeted α) (budget : Nat) :
    (calling x).run.run (budget + 1) = (x.run.run budget).map fun (outcome, left) => (outcome, left + 1) := rfl

theorem run_bind (x : Budgeted α) (f : α → Budgeted β) (budget : Nat) :
    (x >>= f).run.run budget = (x.run.run budget).bind fun (outcome, left) =>
      match outcome with
      | .ok a => (f a).run.run left
      | .error cause => some (.error cause, left) := by
  show (x.run.run budget).bind _ = _
  congr 1
  funext ⟨outcome, left⟩
  cases outcome <;> rfl

theorem calling_runsOut_zero : RunsOut (calling x) 0 := rfl

theorem RunsOut.calling (h : RunsOut x budget) : RunsOut (calling x) (budget + 1) := by
  rw [RunsOut, run_calling_succ, h]
  rfl

theorem RunsOut.bind (h : RunsOut x budget) (f : α → Budgeted β) : RunsOut (x >>= f) budget := by
  rw [RunsOut, run_bind, h]
  rfl

end

mutual

/-- Reads a phrase with the calls that it takes: one for each sum, and one for each power and each signed phrase that
stands in another one.  The links of a chain take none: they are met one after another, not one inside another. -/
def Budgeted.read (ph : Phrase) (room : Nat) (ts : List Lexeme) : Budgeted (Expr × List Lexeme) :=
  match ph with
  | .sum => calling do
    let (left, rest) ← Budgeted.read .product room ts
    Budgeted.chain Operator.isAdditive .product room left rest
  | .product => do
    let (left, rest) ← Budgeted.read .power room ts
    Budgeted.chain Operator.isMultiplicative .power room left rest
  | .power => do
    let (base, rest) ← Budgeted.read .signed room ts
    Budgeted.exponent room base rest
  | .signed =>
    match ts with
    | ⟨.operator .sub, position⟩ :: rest =>
      match room with
      | 0 => throw (.tooDeep position)
      | room + 1 => do
        let (operand, rest) ← calling (Budgeted.read .signed room rest)
        return (.binary .sub (.lit .zero) operand, rest)
    | ⟨.operator .add, position⟩ :: rest =>
      match room with
      | 0 => throw (.tooDeep position)
      | room + 1 => calling (Budgeted.read .signed room rest)
    | ts => Budgeted.read .primary room ts
  | .primary =>
    match ts with
    | [] => throw .unexpectedEnd
    | ⟨.real x, _⟩ :: rest => return (.lit ⟨x, 0.0⟩, rest)
    | ⟨.imaginary x, _⟩ :: rest => return (.lit ⟨0.0, x⟩, rest)
    | ⟨.name x, _⟩ :: rest => return (.var x, rest)
    | ⟨.opening, position⟩ :: rest => Budgeted.enclosed room position rest
    | ⟨.builtin f, _⟩ :: rest =>
      match rest with
      | ⟨.opening, position⟩ :: rest => do
        let (argument, rest) ← Budgeted.enclosed room position rest
        return (.call f argument, rest)
      | ⟨token, position⟩ :: _ => throw (.noArgument token f position)
      | [] => throw .unexpectedEnd
    | ⟨token, position⟩ :: _ => throw (.unexpected token position)
termination_by (room, match ph with | .sum => 6 | .product => 5 | .power => 4 | .signed => 3 | .primary => 2)

/-- What follows the left part of a chain. -/
def Budgeted.chain (links : Operator → Bool) (operand : Phrase) (room : Nat) (left : Expr) (ts : List Lexeme) :
    Budgeted (Expr × List Lexeme) :=
  match ts with
  | ⟨.operator op, position⟩ :: rest =>
    if links op then
      match room with
      | 0 => throw (.tooDeep position)
      | room + 1 => do
        let (right, rest) ← Budgeted.read operand room rest
        Budgeted.chain links operand room (.binary op left right) rest
    else return (left, ts)
  | _ => return (left, ts)
termination_by (room, 0)

/-- What follows the base of a power. -/
def Budgeted.exponent (room : Nat) (base : Expr) (ts : List Lexeme) : Budgeted (Expr × List Lexeme) :=
  match ts with
  | ⟨.operator .pow, position⟩ :: rest =>
    match room with
    | 0 => throw (.tooDeep position)
    | room + 1 => do
      let (exponent, rest) ← calling (Budgeted.read .power room rest)
      return (.binary .pow base exponent, rest)
  | rest => return (base, rest)
termination_by (room, 0)

/-- What follows an opening parenthesis, up to the closing one. -/
def Budgeted.enclosed (room opened : Nat) (ts : List Lexeme) : Budgeted (Expr × List Lexeme) :=
  match room with
  | 0 => throw (.tooDeep opened)
  | room + 1 => do
    let (inner, rest) ← Budgeted.read .sum room ts
    match rest with
    | ⟨.closing, _⟩ :: rest => return (inner, rest)
    | _ => throw (.unclosed opened)
termination_by (room, 0)

end

/-- Reads an expression that all of the tokens spell. -/
def Budgeted.whole (ts : List Lexeme) : Budgeted Expr := do
  let (e, rest) ← Budgeted.read .sum levelLimit ts
  match rest with
  | [] => return e
  | ⟨token, position⟩ :: _ => throw (.trailing token position)

/-- Parses the tokens with a budget of calls. -/
def ofLexemesWithin (budget : Nat) (ts : List Lexeme) : Option (Except SyntaxError Expr × Nat) :=
  (Budgeted.whole ts).run.run budget

/-! ## 2. Calls that suffice -/

/-- Whatever the budget is, the outcome is this one and the budget is whole again, or the budget runs out, which it
does only if it has fewer calls than are named. -/
def Affords {α : Type} (calls : Nat) (x : Budgeted α) (r : Except SyntaxError α) : Prop :=
  ∀ budget, x.run.run budget = some (r, budget) ∨ budget < calls ∧ RunsOut x budget

theorem Affords.ok {α : Type} {calls : Nat} (a : α) : Affords calls (pure a) (.ok a) :=
  fun _ => .inl rfl

theorem Affords.error {α : Type} {calls : Nat} (cause : SyntaxError) :
    Affords calls (throw cause : Budgeted α) (.error cause) :=
  fun _ => .inl rfl

section
variable {α β : Type} {calls more : Nat} {x : Budgeted α} {r : Except SyntaxError α}

theorem Affords.mono (h : Affords calls x r) (hle : calls ≤ more) : Affords more x r :=
  fun budget => (h budget).imp_right fun ⟨hlt, hout⟩ => ⟨Nat.lt_of_lt_of_le hlt hle, hout⟩

/-- What goes on with the budget whole again needs no more calls than its parts. -/
theorem Affords.bind {f : α → Budgeted β} {g : α → Except SyntaxError β} (h : Affords calls x r)
    (hnext : ∀ a, Affords calls (f a) (g a)) : Affords calls (x >>= f) (r >>= g) := by
  intro budget
  rcases h budget with hx | ⟨hlt, hout⟩
  · cases r with
    | error cause => exact .inl (by rw [run_bind, hx]; rfl)
    | ok a =>
      have hrun : (x >>= f).run.run budget = (f a).run.run budget := by rw [run_bind, hx, Option.bind_some]
      rw [RunsOut, hrun]
      exact hnext a budget
  · exact .inr ⟨hlt, hout.bind f⟩

theorem Affords.calling (h : Affords calls x r) : Affords (calls + 1) (calling x) r := by
  intro budget
  cases budget with
  | zero => exact .inr ⟨Nat.succ_pos calls, calling_runsOut_zero⟩
  | succ budget =>
    rcases h budget with hx | ⟨hlt, hout⟩
    · exact .inl (by rw [run_calling_succ, hx]; rfl)
    · exact .inr ⟨Nat.succ_lt_succ hlt, hout.calling⟩

end

section
variable {room : Nat}

theorem Budgeted.chain_of_stops {links : Operator → Bool} {operand : Phrase} {left : Expr} {ts : List Lexeme}
    (h : Stops links ts) : Budgeted.chain links operand room left ts = pure (left, ts) := by
  rw [Budgeted.chain.eq_def]
  split
  · rw [if_neg (by rw [show links _ = false from h]; decide)]
  · rfl

/-- A link takes no call, but a level, so the operands have ever fewer calls to make. -/
theorem chain_affords {links : Operator → Bool} {operand : Phrase}
    (hread : ∀ below ≤ room, ∀ ts, Affords below (Budgeted.read operand below ts) (read operand below ts))
    (left : Expr) (ts : List Lexeme) :
    Affords room (Budgeted.chain links operand room left ts) (chain links operand room left ts) := by
  induction room generalizing left ts with
  | zero =>
    rcases stops_or_link links ts with stops | ⟨op, position, rest, rfl, hop⟩
    · rw [Budgeted.chain_of_stops stops, chain_of_stops stops]
      exact .ok _
    · rw [Budgeted.chain, if_pos hop, chain_zero hop]
      exact .error _
  | succ room ih =>
    rcases stops_or_link links ts with stops | ⟨op, position, rest, rfl, hop⟩
    · rw [Budgeted.chain_of_stops stops, chain_of_stops stops]
      exact .ok _
    · rw [Budgeted.chain, if_pos hop, chain_succ hop]
      have hright := (hread room (Nat.le_succ room) rest).mono (Nat.le_succ room)
      refine hright.bind fun right => ?_
      exact (ih (fun below hb => hread below (Nat.le_succ_of_le hb)) _ _).mono (Nat.le_succ room)

theorem exponent_affords
    (hread : ∀ below < room, ∀ ts, Affords below (Budgeted.read .power below ts) (read .power below ts))
    (base : Expr) (ts : List Lexeme) :
    Affords room (Budgeted.exponent room base ts) (exponent room base ts) := by
  rw [Budgeted.exponent.eq_def]
  rcases ts with _ | ⟨⟨token, position⟩, rest⟩
  · exact .ok _
  cases token with
  | operator op =>
    cases op with
    | pow =>
      cases room with
      | zero => exact .error _
      | succ room => exact .bind (hread room (Nat.lt_succ_self room) rest).calling fun raised => .ok _
    | _ => exact .ok _
  | _ => exact .ok _

theorem enclosed_affords
    (hread : ∀ below < room, ∀ ts, Affords (below + 1) (Budgeted.read .sum below ts) (read .sum below ts))
    (opened : Nat) (ts : List Lexeme) : Affords room (Budgeted.enclosed room opened ts) (enclosed room opened ts) := by
  cases room with
  | zero =>
    rw [Budgeted.enclosed, enclosed_zero]
    exact .error _
  | succ room =>
    rw [Budgeted.enclosed, enclosed_succ]
    refine .bind (hread room (Nat.lt_succ_self room) ts) fun inner => ?_
    obtain ⟨e, _ | ⟨⟨token, position⟩, rest⟩⟩ := inner
    · exact .error _
    cases token with
    | closing => exact .ok _
    | _ => exact .error _

theorem primary_affords
    (hread : ∀ below < room, ∀ ts, Affords (below + 1) (Budgeted.read .sum below ts) (read .sum below ts))
    (ts : List Lexeme) : Affords room (Budgeted.read .primary room ts) (read .primary room ts) := by
  rw [read_primary, Budgeted.read.eq_def]
  rcases ts with _ | ⟨⟨token, position⟩, rest⟩
  · exact .error _
  cases token with
  | real x => exact .ok _
  | imaginary x => exact .ok _
  | name x => exact .ok _
  | opening => exact enclosed_affords hread position rest
  | builtin f =>
    rcases rest with _ | ⟨⟨token, opened⟩, rest⟩
    · exact .error _
    cases token with
    | opening => exact .bind (enclosed_affords hread opened rest) fun argument => .ok _
    | _ => exact .error _
  | operator op => exact .error _
  | closing => exact .error _

theorem signed_affords
    (hread : ∀ below < room, ∀ ts, Affords below (Budgeted.read .signed below ts) (read .signed below ts))
    (hprimary : ∀ ts, Affords room (Budgeted.read .primary room ts) (read .primary room ts))
    (ts : List Lexeme) : Affords room (Budgeted.read .signed room ts) (read .signed room ts) := by
  rw [read_signed, Budgeted.read.eq_def]
  rcases ts with _ | ⟨⟨token, position⟩, rest⟩
  · exact hprimary []
  cases token with
  | operator op =>
    cases op with
    | sub =>
      cases room with
      | zero => exact .error _
      | succ room => exact .bind (hread room (Nat.lt_succ_self room) rest).calling fun operand => .ok _
    | add =>
      cases room with
      | zero => exact .error _
      | succ room => exact (hread room (Nat.lt_succ_self room) rest).calling
    | _ => exact hprimary _
  | _ => exact hprimary _

end

/-- The most calls that a phrase takes: a sum is one itself, and every other one takes a level. -/
def callsFor : Phrase → Nat → Nat
  | .sum, room => room + 1
  | _, room => room

theorem read_affords (ph : Phrase) (room : Nat) :
    ∀ ts, Affords (callsFor ph room) (Budgeted.read ph room ts) (read ph room ts) := by
  induction ph, room using read_induction with
  | primary room sum => exact primary_affords sum
  | signed room signed primary => exact signed_affords signed primary
  | power room power signed =>
    intro ts
    rw [read_power, Budgeted.read]
    exact .bind (signed ts) fun base => exponent_affords power base.1 base.2
  | product room power =>
    intro ts
    rw [read_product, Budgeted.read]
    exact .bind (power room (Nat.le_refl room) ts) fun left => chain_affords power left.1 left.2
  | sum room product =>
    intro ts
    rw [read_sum, Budgeted.read]
    refine .calling ?_
    exact .bind (product room (Nat.le_refl room) ts) fun left => chain_affords product left.1 left.2

theorem whole_affords (ts : List Lexeme) : Affords (levelLimit + 1) (Budgeted.whole ts) (Expr.ofLexemes ts) := by
  rw [Budgeted.whole, Expr.ofLexemes]
  refine .bind (read_affords .sum levelLimit ts) fun whole => ?_
  obtain ⟨e, rest⟩ := whole
  cases rest with
  | nil => exact .ok _
  | cons t rest => exact .error _

/-! ## 3. Calls that are needed -/

/-- Each of the signs is read in a call of its own, inside the one before. -/
theorem minuses_runsOut {budget n : Nat} (h : budget < n) (room p : Nat) (ts : List Lexeme) :
    RunsOut (Budgeted.read .signed (room + n) (minuses p n ++ ts)) budget := by
  induction n generalizing budget p with
  | zero => exact absurd h (Nat.not_lt_zero budget)
  | succ n ih =>
    rw [minuses, List.cons_append, ← Nat.add_assoc, Budgeted.read]
    refine RunsOut.bind ?_ _
    cases budget with
    | zero => exact calling_runsOut_zero
    | succ budget => exact (ih (Nat.lt_of_succ_lt_succ h) (p + 1)).calling

/-- The sum takes a call besides those of its signs. -/
theorem negatedSum_runsOut {n : Nat} (h : n ≤ levelLimit) : RunsOut (Budgeted.whole (negatedSum n)) n := by
  refine RunsOut.bind ?_ _
  rw [Budgeted.read]
  cases n with
  | zero => exact calling_runsOut_zero
  | succ n =>
    obtain ⟨room, hroom⟩ := Nat.exists_eq_add_of_le' h
    have hsigned : RunsOut (Budgeted.read .signed levelLimit (negatedSum (n + 1))) n := by
      rw [hroom]
      exact minuses_runsOut (Nat.lt_succ_self n) room 0 _
    refine RunsOut.calling (RunsOut.bind ?_ _)
    rw [Budgeted.read]
    refine RunsOut.bind ?_ _
    rw [Budgeted.read]
    exact hsigned.bind _

/-- With one call more than there are levels, any tokens are parsed as they are without a budget, and all calls are
refunded, whether the tokens are accepted or not.  No smaller budget is enough for all that is accepted. -/
theorem calls_bounded_by_levelLimit :
    (∀ ts, ofLexemesWithin (levelLimit + 1) ts = some (Expr.ofLexemes ts, levelLimit + 1)) ∧
      ∀ budget ≤ levelLimit, ∃ ts e, Expr.ofLexemes ts = .ok e ∧ ofLexemesWithin budget ts = none := by
  constructor
  · intro ts
    rcases whole_affords ts (levelLimit + 1) with hsame | ⟨hlt, -⟩
    · exact hsame
    · exact absurd hlt (Nat.lt_irrefl _)
  · intro budget hbudget
    exact ⟨negatedSum budget, _, ofLexemes_negatedSum hbudget, negatedSum_runsOut hbudget⟩

/-- A call that fails is refunded as well: the second sign is read in one, inside those of the first one and the sum. -/
example : ofLexemesWithin 3 [⟨.operator .sub, 0⟩, ⟨.operator .sub, 1⟩] = some (.error .unexpectedEnd, 3) := by cbv

end Parser

end ComplexCalc
