import ComplexCalc.Proofs.Grammar

/-!
# Scan — one pass over the tokens with a stack of open parentheses

A scan knows what the next token may be and keeps a frame for each parenthesis that is open.  What is written into the
frames is left to a gauge.
-/

namespace ComplexCalc

open ComplexCalc.Parser

/-! ## 1. Scanning -/

/-- The tokens that are operands by themselves. -/
def Token.isAtom : Token → Bool
  | .real _ => true
  | .imaginary _ => true
  | .name _ => true
  | _ => false

/-- How a scan keeps count: `φ` is what it notes in a frame, and `ω` what it knows of a complete operand. -/
structure Gauge (φ ω : Type) where
  operand : ω
  sign : Operator → φ → φ
  call : φ → φ
  binary : Operator → φ → ω → φ
  enter : φ → φ
  leave : φ → ω → ω

/-- What has to come next: an operand, the parenthesis after a function, or what may stand behind a complete operand. -/
inductive Due (ω : Type) where
  | operand
  | argument
  | operator (value : ω)

/-- What is due, the innermost frame, and for each open parenthesis its position and the frame around it. -/
structure Scan (φ ω : Type) where
  due : Due ω
  frame : φ
  enclosing : List (Nat × φ)

namespace Gauge

variable {φ ω : Type} (g : Gauge φ ω)

/-- The scan after one more token, unless the token cannot stand there. -/
def step (s : Scan φ ω) (t : Lexeme) : Option (Scan φ ω) :=
  match s.due, t.token with
  | .operand, .real _ => some ⟨.operator g.operand, s.frame, s.enclosing⟩
  | .operand, .imaginary _ => some ⟨.operator g.operand, s.frame, s.enclosing⟩
  | .operand, .name _ => some ⟨.operator g.operand, s.frame, s.enclosing⟩
  | .operand, .builtin _ => some ⟨.argument, g.call s.frame, s.enclosing⟩
  | .operand, .operator op =>
    if op.isAdditive then some ⟨.operand, g.sign op s.frame, s.enclosing⟩ else none
  -- a parenthesis opens a frame of its own, as an operand or as the argument of a function
  | .operand, .opening => some ⟨.operand, g.enter s.frame, (t.position, s.frame) :: s.enclosing⟩
  | .argument, .opening => some ⟨.operand, g.enter s.frame, (t.position, s.frame) :: s.enclosing⟩
  | .operator value, .operator op => some ⟨.operand, g.binary op s.frame value, s.enclosing⟩
  | .operator value, .closing =>
    match s.enclosing with
    | [] => none
    | (_, outer) :: enclosing => some ⟨.operator (g.leave s.frame value), outer, enclosing⟩
  | _, _ => none

def run (s : Scan φ ω) : List Lexeme → Option (Scan φ ω)
  | [] => some s
  | t :: ts => (g.step s t).bind fun s => run s ts

theorem run_append (s : Scan φ ω) (ts us : List Lexeme) :
    g.run s (ts ++ us) = (g.run s ts).bind fun s => g.run s us := by
  induction ts generalizing s with
  | nil => rfl
  | cons t ts ih =>
    rw [List.cons_append, run, run]
    cases g.step s t with
    | none => rfl
    | some s => exact ih s

theorem run_singleton (s : Scan φ ω) (t : Lexeme) : g.run s [t] = g.step s t := by
  rw [run]
  cases g.step s t <;> rfl

section
variable {g} {s : Scan φ ω} {f f' : φ} {value : ω} {q : List (Nat × φ)} {ts us : List Lexeme} {p r : Nat}

theorem run_binary {op} (hleft : g.run s ts = some ⟨.operator value, f, q⟩) :
    g.run s (ts ++ ⟨.operator op, p⟩ :: us) = g.run ⟨.operand, g.binary op f value, q⟩ us := by
  rw [run_append, hleft]
  rfl

theorem run_enclosed (hinner : g.run ⟨.operand, g.enter f, (p, f) :: q⟩ ts = some ⟨.operator value, f', (p, f) :: q⟩) :
    g.run ⟨.operand, f, q⟩ (⟨.opening, p⟩ :: ts ++ [⟨.closing, r⟩]) =
      some ⟨.operator (g.leave f' value), f, q⟩ := by
  rw [run_append]
  show Option.bind (g.run ⟨.operand, g.enter f, (p, f) :: q⟩ ts) _ = _
  rw [hinner]
  rfl

theorem run_call {callee o}
    (hinner : g.run ⟨.operand, g.enter (g.call f), (p, g.call f) :: q⟩ ts =
      some ⟨.operator value, f', (p, g.call f) :: q⟩) :
    g.run ⟨.operand, f, q⟩ (⟨.builtin callee, o⟩ :: ⟨.opening, p⟩ :: ts ++ [⟨.closing, r⟩]) =
      some ⟨.operator (g.leave f' value), g.call f, q⟩ := by
  rw [run_append]
  show Option.bind (g.run ⟨.operand, g.enter (g.call f), (p, g.call f) :: q⟩ ts) _ = _
  rw [hinner]
  rfl

end

/-- The steps of a scan, one rule for each. -/
inductive Steps : Scan φ ω → Lexeme → Scan φ ω → Prop where
  | atom {f q token p} : token.isAtom = true → Steps ⟨.operand, f, q⟩ ⟨token, p⟩ ⟨.operator g.operand, f, q⟩
  | function {f q callee p} : Steps ⟨.operand, f, q⟩ ⟨.builtin callee, p⟩ ⟨.argument, g.call f, q⟩
  | sign {f q op p} : op.isAdditive = true →
      Steps ⟨.operand, f, q⟩ ⟨.operator op, p⟩ ⟨.operand, g.sign op f, q⟩
  | grouping {f q p} : Steps ⟨.operand, f, q⟩ ⟨.opening, p⟩ ⟨.operand, g.enter f, (p, f) :: q⟩
  | argument {f q p} : Steps ⟨.argument, f, q⟩ ⟨.opening, p⟩ ⟨.operand, g.enter f, (p, f) :: q⟩
  | binary {f q value op p} :
      Steps ⟨.operator value, f, q⟩ ⟨.operator op, p⟩ ⟨.operand, g.binary op f value, q⟩
  | closing {f q value outer p} :
      Steps ⟨.operator value, f, outer :: q⟩ ⟨.closing, p⟩ ⟨.operator (g.leave f value), outer.2, q⟩

variable {g}

theorem steps_of_step {s s' : Scan φ ω} {t : Lexeme} (h : g.step s t = some s') : g.Steps s t s' := by
  obtain ⟨due, f, q⟩ := s
  obtain ⟨token, p⟩ := t
  cases due with
  | operand =>
    cases token with
    | real x => cases h; exact .atom rfl
    | imaginary x => cases h; exact .atom rfl
    | name x => cases h; exact .atom rfl
    | builtin callee => cases h; exact .function
    | opening => cases h; exact .grouping
    | closing => cases h
    | operator op =>
      cases op with
      | add => cases h; exact .sign rfl
      | sub => cases h; exact .sign rfl
      | _ => cases h
  | argument =>
    cases token with
    | opening => cases h; exact .argument
    | _ => cases h
  | operator value =>
    cases token with
    | operator op => cases h; exact .binary
    | closing =>
      cases q with
      | nil => cases h
      | cons outer q => cases h; exact .closing
    | _ => cases h

end Gauge

/-- The levels that are spent where the next operator, factor, exponent or sign stands. -/
structure Levels where
  sum : Nat
  product : Nat
  power : Nat
  sign : Nat

namespace Levels

/-- The same number of levels everywhere. -/
def all (n : Nat) : Levels :=
  ⟨n, n, n, n⟩

def binary (f : Levels) : Operator → Levels
  | .add => all (f.sum + 1)
  | .sub => all (f.sum + 1)
  | .mul => ⟨f.sum, f.product + 1, f.product + 1, f.product + 1⟩
  | .div => ⟨f.sum, f.product + 1, f.product + 1, f.product + 1⟩
  | .pow => ⟨f.sum, f.product, f.power + 1, f.power + 1⟩

end Levels

/-- Counts levels: each chained operator, power, sign and opening parenthesis takes one. -/
def levels : Gauge Levels Unit where
  operand := ()
  sign _ f := { f with sign := f.sign + 1 }
  call f := f
  binary op f _ := f.binary op
  -- what is inside starts with the levels of the operand that it is
  enter f := .all (f.sign + 1)
  leave _ _ := ()

/-- The scan of a whole token list starts with no level spent and nothing open. -/
def Scan.start : Scan Levels Unit :=
  ⟨.operand, .all 0, []⟩

/-- What a phrase leaves as it was in the frame it stands in. -/
def Levels.Keeps : Phrase → Levels → Levels → Prop
  | .sum, _, _ => True
  | .product, f, f' => f'.sum = f.sum
  | .power, f, f' => f'.sum = f.sum ∧ f'.product = f.product
  | .signed, f, f' => f'.sum = f.sum ∧ f'.product = f.product ∧ f'.power = f.power
  | .primary, f, f' => f' = f

theorem Derives.run_levels {ph us e} (h : Derives ph us e) (f : Levels) (q : List (Nat × Levels)) :
    ∃ f', levels.run ⟨.operand, f, q⟩ us = some ⟨.operator (), f', q⟩ ∧ Levels.Keeps ph f f' := by
  induction h generalizing f q with
  | product _ ih =>
    obtain ⟨f', h, -⟩ := ih f q
    exact ⟨f', h, trivial⟩
  | @additive _ _ _ _ op _ _ _ _ iha ihb =>
    obtain ⟨f', ha, -⟩ := iha f q
    obtain ⟨f'', hb, -⟩ := ihb (f'.binary op) q
    exact ⟨f'', (Gauge.run_binary ha).trans hb, trivial⟩
  | power _ ih =>
    obtain ⟨f', h, hsum, -⟩ := ih f q
    exact ⟨f', h, hsum⟩
  | @multiplicative _ _ _ _ op _ hop _ _ iha ihb =>
    -- the operators of a product leave the levels of the sum around it
    obtain ⟨f', ha, hsum⟩ := iha f q
    obtain ⟨f'', hb, hsum', -⟩ := ihb (f'.binary op) q
    refine ⟨f'', (Gauge.run_binary ha).trans hb, ?_⟩
    rw [Levels.Keeps] at *
    rw [hsum', ← hsum]
    cases op <;> first | rfl | cases hop
  | signed _ ih =>
    obtain ⟨f', h, hsum, hproduct, -⟩ := ih f q
    exact ⟨f', h, hsum, hproduct⟩
  | raised _ _ iha ihb =>
    obtain ⟨f', ha, hsum, hproduct, -⟩ := iha f q
    obtain ⟨f'', hb, hsum', hproduct'⟩ := ihb (f'.binary .pow) q
    exact ⟨f'', (Gauge.run_binary ha).trans hb, hsum'.trans hsum, hproduct'.trans hproduct⟩
  | primary _ ih =>
    obtain ⟨f', h, rfl⟩ := ih f q
    exact ⟨_, h, rfl, rfl, rfl⟩
  | minus _ ih =>
    obtain ⟨f', h, hkeeps⟩ := ih { f with sign := f.sign + 1 } q
    exact ⟨f', h, hkeeps⟩
  | plus _ ih =>
    obtain ⟨f', h, hkeeps⟩ := ih { f with sign := f.sign + 1 } q
    exact ⟨f', h, hkeeps⟩
  | real => exact ⟨f, rfl, rfl⟩
  | imaginary => exact ⟨f, rfl, rfl⟩
  | name => exact ⟨f, rfl, rfl⟩
  | @call _ _ _ _ opened _ _ ih =>
    -- whatever the inside leaves in its frame is dropped with it
    obtain ⟨f', h, -⟩ := ih (.all (f.sign + 1)) ((opened, f) :: q)
    exact ⟨f, Gauge.run_call h, rfl⟩
  | @enclosed _ _ opened _ _ ih =>
    obtain ⟨f', h, -⟩ := ih (.all (f.sign + 1)) ((opened, f) :: q)
    exact ⟨f, Gauge.run_enclosed h, rfl⟩

end ComplexCalc
