import ComplexCalc.Expr.Parser

/-!
# Reading — what each phrase of an expression is read by

The parser is a family of functions that call each other.  Here they are one function of the phrase, with one equation
for each phrase, and one induction principle that follows the calls: a phrase is read by the phrases that bind tighter,
and by any other only after a level is spent.
-/

namespace ComplexCalc

theorem bind_eq_ok_iff {ε α β : Type} {x : Except ε α} {f : α → Except ε β} {b : β} :
    (x >>= f) = .ok b ↔ ∃ a, x = .ok a ∧ f a = .ok b := by
  cases x <;> simp [bind, Except.bind]

theorem bind_eq_error_iff {ε α β : Type} {x : Except ε α} {f : α → Except ε β} {e : ε} :
    (x >>= f) = .error e ↔ x = .error e ∨ ∃ a, x = .ok a ∧ f a = .error e := by
  cases x <;> simp [bind, Except.bind]

/-- The phrases of an expression, from the one that binds loosest to the one that binds tightest. -/
inductive Phrase where
  | sum
  | product
  | power
  | signed
  | primary
deriving DecidableEq, Repr

def Operator.isPower (op : Operator) : Bool :=
  op == .pow

/-- Whether the operator, right behind a phrase, goes on with it. -/
def Phrase.continues : Phrase → Operator → Bool
  | .sum, _ => true
  | .product, op => !op.isAdditive
  | .power, op => op.isPower
  | .signed, _ => false
  | .primary, _ => false

namespace Parser

/-- The function that reads a phrase. -/
def read : Phrase → Nat → List Lexeme → Reading
  | .sum => sum
  | .product => product
  | .power => power
  | .signed => signed
  | .primary => primary

/-- What follows the left part of a chain of operands, which is a sum or a product. -/
def chain (links : Operator → Bool) (operand : Phrase) (room : Nat) (left : Expr) (ts : List Lexeme) : Reading :=
  match ts with
  | ⟨.operator op, position⟩ :: rest =>
    if links op then
      match room with
      | 0 => .error (.tooDeep position)
      | room + 1 => do
        let (right, rest) ← read operand room rest
        chain links operand room (.binary op left right) rest
    else .ok (left, ts)
  | _ => .ok (left, ts)

/-- What follows the base of a power. -/
def exponent (room : Nat) (base : Expr) (ts : List Lexeme) : Reading :=
  match ts with
  | ⟨.operator .pow, position⟩ :: rest =>
    match room with
    | 0 => .error (.tooDeep position)
    | room + 1 => do
      let (exponent, rest) ← read .power room rest
      return (.binary .pow base exponent, rest)
  | rest => return (base, rest)

/-- No operator of the given kind stands at the front. -/
def Stops (links : Operator → Bool) : List Lexeme → Prop
  | ⟨.operator op, _⟩ :: _ => links op = false
  | _ => True

/-- What is no operator of two kinds is none of a kind that they cover. -/
theorem Stops.of_cover {links these those : Operator → Bool} {ts : List Lexeme} (h : Stops these ts)
    (h' : Stops those ts) (hcover : ∀ op, links op = true → these op = true ∨ those op = true) : Stops links ts := by
  unfold Stops at h h' ⊢
  split
  · rename_i op position rest
    rw [Bool.eq_false_iff]
    intro hop
    rcases hcover op hop with hop | hop
    · exact absurd hop (Bool.eq_false_iff.mp h)
    · exact absurd hop (Bool.eq_false_iff.mp h')
  · trivial

theorem Stops.mono {links more : Operator → Bool} {ts : List Lexeme} (h : Stops more ts)
    (hsub : ∀ op, links op = true → more op = true) : Stops links ts :=
  h.of_cover h fun op hop => .inl (hsub op hop)

theorem stops_never (ts : List Lexeme) : Stops (fun _ => false) ts := by
  unfold Stops
  split
  · rfl
  · trivial

theorem stops_or_link (links : Operator → Bool) (ts : List Lexeme) :
    Stops links ts ∨ ∃ op position rest, ts = ⟨.operator op, position⟩ :: rest ∧ links op = true := by
  unfold Stops
  split
  · rename_i op position rest
    cases h : links op with
    | false => exact .inl rfl
    | true => exact .inr ⟨op, position, rest, rfl, h⟩
  · exact .inl trivial

/-! ## 1. Chains and exponents -/

-- Both tails of the parser are the chain of their own operators; the induction is on the levels that the links spend.

theorem sumTail_eq_chain (room : Nat) (left : Expr) (ts : List Lexeme) :
    sumTail room left ts = chain Operator.isAdditive .product room left ts := by
  induction room generalizing left ts with
  | zero => exact (sumTail.eq_def 0 left ts).trans (chain.eq_def Operator.isAdditive .product 0 left ts).symm
  | succ room ih =>
    rw [sumTail.eq_def, chain.eq_def]
    simp only [ih]
    rfl

theorem productTail_eq_chain (room : Nat) (left : Expr) (ts : List Lexeme) :
    productTail room left ts = chain Operator.isMultiplicative .power room left ts := by
  induction room generalizing left ts with
  | zero => exact (productTail.eq_def 0 left ts).trans (chain.eq_def Operator.isMultiplicative .power 0 left ts).symm
  | succ room ih =>
    rw [productTail.eq_def, chain.eq_def]
    simp only [ih]
    rfl

section
variable {links : Operator → Bool} {operand : Phrase} {room position : Nat} {left base : Expr} {op : Operator}
variable {ts rest : List Lexeme}

theorem chain_of_stops (h : Stops links ts) : chain links operand room left ts = .ok (left, ts) := by
  rw [chain.eq_def]
  split
  · rw [if_neg (by rw [show links _ = false from h]; decide)]
  · rfl

theorem chain_zero (h : links op = true) :
    chain links operand 0 left (⟨.operator op, position⟩ :: rest) = .error (.tooDeep position) := by
  rw [chain.eq_def]
  simp only [h, if_true]

theorem chain_succ (h : links op = true) :
    chain links operand (room + 1) left (⟨.operator op, position⟩ :: rest) =
      read operand room rest >>= fun r => chain links operand room (.binary op left r.1) r.2 := by
  rw [chain.eq_def]
  simp only [h, if_true]

theorem exponent_of_stops (h : Stops Operator.isPower ts) : exponent room base ts = .ok (base, ts) := by
  unfold exponent
  split
  · exact absurd (show Operator.isPower .pow = false from h) (by decide)
  · rfl

theorem exponent_succ : exponent (room + 1) base (⟨.operator .pow, position⟩ :: rest) =
    read .power room rest >>= fun r => .ok (.binary .pow base r.1, r.2) := rfl

/-- A base is left as it is, or an exponent is read with one level less. -/
theorem exponent_ok_cases {e} (h : exponent room base ts = .ok (e, rest)) :
    (e = base ∧ rest = ts ∧ Stops Operator.isPower ts) ∨
      ∃ below p mid raised, room = below + 1 ∧ ts = ⟨.operator .pow, p⟩ :: mid ∧
        read .power below mid = .ok (raised, rest) ∧ e = .binary .pow base raised := by
  rcases stops_or_link Operator.isPower ts with stops | ⟨op, p, mid, rfl, hop⟩
  · rw [exponent_of_stops stops] at h
    cases h
    exact .inl ⟨rfl, rfl, stops⟩
  · obtain rfl : op = .pow := beq_iff_eq.mp hop
    cases room with
    | zero => cases h
    | succ room =>
      rw [exponent_succ, bind_eq_ok_iff] at h
      obtain ⟨⟨raised, final⟩, hraised, h⟩ := h
      cases h
      exact .inr ⟨room, p, mid, raised, rfl, rfl, hraised, rfl⟩

end

/-- A chain that is read stops, or goes on with its next operand and then with one level less. -/
inductive Chains (links : Operator → Bool) (operand : Phrase) :
    Nat → Expr → List Lexeme → Expr → List Lexeme → Prop where
  | stop {room left ts} : Stops links ts → Chains links operand room left ts left ts
  | link {room left op p ts right mid e rest} : links op = true → read operand room ts = .ok (right, mid) →
      Chains links operand room (.binary op left right) mid e rest →
      Chains links operand (room + 1) left (⟨.operator op, p⟩ :: ts) e rest

theorem chains_of_ok {links operand room left ts e rest} (h : chain links operand room left ts = .ok (e, rest)) :
    Chains links operand room left ts e rest := by
  induction room generalizing left ts with
  | zero =>
    rcases stops_or_link links ts with stops | ⟨op, position, tail, rfl, hop⟩
    · rw [chain_of_stops stops] at h
      cases h
      exact .stop stops
    · rw [chain_zero hop] at h
      cases h
  | succ room ih =>
    rcases stops_or_link links ts with stops | ⟨op, position, tail, rfl, hop⟩
    · rw [chain_of_stops stops] at h
      cases h
      exact .stop stops
    · rw [chain_succ hop, bind_eq_ok_iff] at h
      obtain ⟨⟨right, mid⟩, hright, h⟩ := h
      exact .link hop hright (ih h)

/-! ## 2. Phrases -/

theorem read_sum (room : Nat) (ts : List Lexeme) :
    read .sum room ts =
      read .product room ts >>= fun r => chain Operator.isAdditive .product room r.1 r.2 := by
  simp only [read, sum, sumTail_eq_chain]

theorem read_product (room : Nat) (ts : List Lexeme) :
    read .product room ts =
      read .power room ts >>= fun r => chain Operator.isMultiplicative .power room r.1 r.2 := by
  simp only [read, product, productTail_eq_chain]

theorem read_power (room : Nat) (ts : List Lexeme) :
    read .power room ts = read .signed room ts >>= fun r => exponent room r.1 r.2 := by
  simp only [read]
  rw [power]
  rfl

theorem read_signed (room : Nat) (ts : List Lexeme) :
    read .signed room ts =
      match ts with
      | ⟨.operator .sub, position⟩ :: rest =>
        match room with
        | 0 => .error (.tooDeep position)
        | room + 1 => read .signed room rest >>= fun r => .ok (.binary .sub (.lit .zero) r.1, r.2)
      | ⟨.operator .add, position⟩ :: rest =>
        match room with
        | 0 => .error (.tooDeep position)
        | room + 1 => read .signed room rest
      | ts => read .primary room ts := by
  simp only [read]
  rw [signed.eq_def]
  rfl

theorem read_primary (room : Nat) (ts : List Lexeme) :
    read .primary room ts =
      match ts with
      | [] => .error .unexpectedEnd
      | ⟨.real x, _⟩ :: rest => .ok (.lit ⟨x, 0.0⟩, rest)
      | ⟨.imaginary x, _⟩ :: rest => .ok (.lit ⟨0.0, x⟩, rest)
      | ⟨.name x, _⟩ :: rest => .ok (.var x, rest)
      | ⟨.opening, position⟩ :: rest => enclosed room position rest
      | ⟨.builtin f, _⟩ :: rest =>
        match rest with
        | ⟨.opening, position⟩ :: rest => enclosed room position rest >>= fun r => .ok (.call f r.1, r.2)
        | ⟨token, position⟩ :: _ => .error (.noArgument token f position)
        | [] => .error .unexpectedEnd
      | ⟨token, position⟩ :: _ => .error (.unexpected token position) := by
  simp only [read]
  rw [primary.eq_def]
  rfl

theorem enclosed_zero (opened : Nat) (ts : List Lexeme) : enclosed 0 opened ts = .error (.tooDeep opened) := by
  rw [enclosed]

theorem enclosed_succ (room opened : Nat) (ts : List Lexeme) :
    enclosed (room + 1) opened ts = read .sum room ts >>= fun r =>
      match r.2 with
      | ⟨.closing, _⟩ :: rest => .ok (r.1, rest)
      | _ => .error (.unclosed opened) := by
  rw [enclosed]
  rfl

/-- What is enclosed is a whole sum, which is read with one level less. -/
theorem enclosed_ok_cases {room opened ts e rest} (h : enclosed room opened ts = .ok (e, rest)) :
    ∃ below p, room = below + 1 ∧ read .sum below ts = .ok (e, ⟨.closing, p⟩ :: rest) := by
  cases room with
  | zero =>
    rw [enclosed_zero] at h
    cases h
  | succ room =>
    rw [enclosed_succ, bind_eq_ok_iff] at h
    obtain ⟨⟨inner, mid⟩, hinner, h⟩ := h
    split at h
    · rename_i p after hmid
      cases hmid
      cases h
      exact ⟨room, p, rfl, hinner⟩
    · cases h

/-- A primary phrase that is read is one token, or something enclosed. -/
inductive ReadsPrimary (room : Nat) : List Lexeme → Expr → List Lexeme → Prop where
  | real {x p rest} : ReadsPrimary room (⟨.real x, p⟩ :: rest) (.lit ⟨x, 0.0⟩) rest
  | imaginary {x p rest} : ReadsPrimary room (⟨.imaginary x, p⟩ :: rest) (.lit ⟨0.0, x⟩) rest
  | name {x p rest} : ReadsPrimary room (⟨.name x, p⟩ :: rest) (.var x) rest
  | enclosed {p ts e rest} : enclosed room p ts = .ok (e, rest) → ReadsPrimary room (⟨.opening, p⟩ :: ts) e rest
  | call {f p opened ts e rest} : enclosed room opened ts = .ok (e, rest) →
      ReadsPrimary room (⟨.builtin f, p⟩ :: ⟨.opening, opened⟩ :: ts) (.call f e) rest

theorem readsPrimary_of_ok {room ts e rest} (h : read .primary room ts = .ok (e, rest)) : ReadsPrimary room ts e rest := by
  rw [read_primary] at h
  split at h
  case h_5 => exact .enclosed h
  case h_6 =>
    split at h
    · rw [bind_eq_ok_iff] at h
      obtain ⟨⟨argument, mid⟩, hargument, h⟩ := h
      cases h
      exact .call hargument
    · cases h
    · cases h
  all_goals cases h
  · exact .real
  · exact .imaginary
  · exact .name

/-- A signed phrase that is read is another one behind a sign, with one level less, or a primary one. -/
inductive ReadsSigned : Nat → List Lexeme → Expr → List Lexeme → Prop where
  | minus {room p ts e rest} : read .signed room ts = .ok (e, rest) →
      ReadsSigned (room + 1) (⟨.operator .sub, p⟩ :: ts) (.binary .sub (.lit .zero) e) rest
  | plus {room p ts e rest} : read .signed room ts = .ok (e, rest) →
      ReadsSigned (room + 1) (⟨.operator .add, p⟩ :: ts) e rest
  | primary {room ts e rest} : read .primary room ts = .ok (e, rest) → ReadsSigned room ts e rest

theorem readsSigned_of_ok {room ts e rest} (h : read .signed room ts = .ok (e, rest)) : ReadsSigned room ts e rest := by
  rw [read_signed] at h
  split at h
  · split at h
    · cases h
    · rw [bind_eq_ok_iff] at h
      obtain ⟨⟨operand, mid⟩, hoperand, h⟩ := h
      cases h
      exact .minus hoperand
  · split at h
    · cases h
    · exact .plus h
  · exact .primary h

theorem power_of_ok {room ts e rest} (h : read .power room ts = .ok (e, rest)) :
    ∃ base mid, read .signed room ts = .ok (base, mid) ∧ exponent room base mid = .ok (e, rest) := by
  rw [read_power, bind_eq_ok_iff] at h
  obtain ⟨⟨base, mid⟩, hbase, h⟩ := h
  exact ⟨base, mid, hbase, h⟩

theorem product_of_ok {room ts e rest} (h : read .product room ts = .ok (e, rest)) :
    ∃ left mid, read .power room ts = .ok (left, mid) ∧
      Chains Operator.isMultiplicative .power room left mid e rest := by
  rw [read_product, bind_eq_ok_iff] at h
  obtain ⟨⟨left, mid⟩, hleft, h⟩ := h
  exact ⟨left, mid, hleft, chains_of_ok h⟩

theorem sum_of_ok {room ts e rest} (h : read .sum room ts = .ok (e, rest)) :
    ∃ left mid, read .product room ts = .ok (left, mid) ∧
      Chains Operator.isAdditive .product room left mid e rest := by
  rw [read_sum, bind_eq_ok_iff] at h
  obtain ⟨⟨left, mid⟩, hleft, h⟩ := h
  exact ⟨left, mid, hleft, chains_of_ok h⟩

/-- The levels left decide first and the phrase second: a phrase calls tighter ones with the same levels, and looser
ones only with fewer. -/
theorem read_induction {P : Phrase → Nat → Prop}
    (primary : ∀ room, (∀ below < room, P .sum below) → P .primary room)
    (signed : ∀ room, (∀ below < room, P .signed below) → P .primary room → P .signed room)
    (power : ∀ room, (∀ below < room, P .power below) → P .signed room → P .power room)
    (product : ∀ room, (∀ below ≤ room, P .power below) → P .product room)
    (sum : ∀ room, (∀ below ≤ room, P .product below) → P .sum room)
    (ph : Phrase) (room : Nat) : P ph room := by
  induction room using Nat.strongRecOn generalizing ph with
  | ind room ih =>
    -- with the same levels, each phrase comes after the tighter ones it calls
    have hprimary := primary room fun below h => ih below h .sum
    have hsigned := signed room (fun below h => ih below h .signed) hprimary
    have hpower := power room (fun below h => ih below h .power) hsigned
    have hproduct := product room fun below h => by
      rcases Nat.lt_or_eq_of_le h with h | rfl
      · exact ih below h .power
      · exact hpower
    have hsum := sum room fun below h => by
      rcases Nat.lt_or_eq_of_le h with h | rfl
      · exact ih below h .product
      · exact hproduct
    cases ph with
    | sum => exact hsum
    | product => exact hproduct
    | power => exact hpower
    | signed => exact hsigned
    | primary => exact hprimary

/-! ## 3. What is left behind a phrase -/

theorem Chains.stops {links operand room left ts e rest} (h : Chains links operand room left ts e rest)
    (hread : ∀ below ≤ room, ∀ {ts e rest}, read operand below ts = .ok (e, rest) → Stops operand.continues rest)
    (hts : Stops operand.continues ts) : Stops operand.continues rest ∧ Stops links rest := by
  induction h with
  | stop stops => exact ⟨hts, stops⟩
  | @link room _ _ _ _ _ _ _ _ _ hright _ ih =>
    exact ih (fun below hb => hread below (Nat.le_succ_of_le hb)) (hread room (Nat.le_succ room) hright)

/-- A phrase is read to its end: no operator that goes on with it is left. -/
theorem read_stops (ph : Phrase) (room : Nat) :
    ∀ {ts e rest}, read ph room ts = .ok (e, rest) → Stops ph.continues rest := by
  induction ph, room using read_induction with
  | primary room _ => exact fun _ => stops_never _
  | signed room _ _ => exact fun _ => stops_never _
  | power room power _ =>
    intro ts e rest h
    obtain ⟨base, mid, -, hexponent⟩ := power_of_ok h
    rcases exponent_ok_cases hexponent with ⟨rfl, rfl, stops⟩ | ⟨below, p, tail, raised, rfl, rfl, hraised, rfl⟩
    · exact stops
    · exact power below (Nat.lt_succ_self below) hraised
  | product room power =>
    intro ts e rest h
    obtain ⟨left, mid, hleft, hchain⟩ := product_of_ok h
    obtain ⟨hpower, hlinks⟩ := hchain.stops power (power room (Nat.le_refl _) hleft)
    -- what goes on with a product goes on with a power or is linked by the chain
    exact hpower.of_cover hlinks (by intro op; cases op <;> decide)
  | sum room product =>
    intro ts e rest h
    obtain ⟨left, mid, hleft, hchain⟩ := sum_of_ok h
    obtain ⟨hproduct, hlinks⟩ := hchain.stops product (product room (Nat.le_refl _) hleft)
    exact hproduct.of_cover hlinks (by intro op; cases op <;> decide)

end Parser

/-- What is accepted is one sum that leaves no token. -/
theorem Expr.ofLexemes_ok_iff {ts : List Lexeme} {e : Expr} :
    Expr.ofLexemes ts = .ok e ↔ Parser.read .sum levelLimit ts = .ok (e, []) := by
  rw [Expr.ofLexemes, bind_eq_ok_iff]
  constructor
  · rintro ⟨⟨whole, rest⟩, hread, h⟩
    cases rest with
    | nil =>
      cases h
      exact hread
    | cons t rest => cases h
  · intro hread
    exact ⟨(e, []), hread, rfl⟩

end ComplexCalc
