import ComplexCalc.Proofs.Grammar

/-!
# Locality — what a phrase is read as depends on its own tokens

The levels that are free decide only whether the reading of a phrase goes through: with fewer of them it stops at the
limit, or it does what it does with more (section 1).  Of what stands behind a phrase only the first token is looked
at, and only for whether it is an operator that goes on with the phrase (section 2).
-/

namespace ComplexCalc

namespace Parser

/-- What a phrase is read as where so many levels are in use already. -/
def readAt (ph : Phrase) (level : Nat) : List Lexeme → Reading :=
  read ph (levelLimit - level)

/-! ## 1. Levels -/

/-- The first outcome is that the levels ran out, or else it is the second one. -/
def UpToLimit {α : Type} (r s : Except SyntaxError α) : Prop :=
  (∃ p, r = .error (.tooDeep p)) ∨ r = s

theorem UpToLimit.same {α : Type} (r : Except SyntaxError α) : UpToLimit r r :=
  .inr rfl

/-- What goes on in the same way up to the limit comes to the same up to the limit. -/
theorem UpToLimit.bind {α β : Type} {x y : Except SyntaxError α} {f g : α → Except SyntaxError β}
    (h : UpToLimit x y) (hnext : ∀ a, UpToLimit (f a) (g a)) : UpToLimit (x >>= f) (y >>= g) := by
  rcases h with ⟨p, rfl⟩ | rfl
  · exact .inl ⟨p, rfl⟩
  · cases x with
    | error cause => exact .same _
    | ok a => exact hnext a

section
variable {less more : Nat}

theorem chain_upToLimit {links : Operator → Bool} {operand : Phrase} (hle : less ≤ more)
    (hread : ∀ below ≤ less, ∀ above ≥ below, ∀ ts, UpToLimit (read operand below ts) (read operand above ts))
    (left : Expr) (ts : List Lexeme) :
    UpToLimit (chain links operand less left ts) (chain links operand more left ts) := by
  induction less generalizing more left ts with
  | zero =>
    rcases stops_or_link links ts with stops | ⟨op, position, rest, rfl, hop⟩
    · rw [chain_of_stops stops, chain_of_stops stops]
      exact .same _
    · exact .inl ⟨position, chain_zero hop⟩
  | succ less ih =>
    obtain ⟨extra, rfl⟩ := Nat.exists_eq_add_of_lt hle
    rcases stops_or_link links ts with stops | ⟨op, position, rest, rfl, hop⟩
    · rw [chain_of_stops stops, chain_of_stops stops]
      exact .same _
    · -- both chains spend a level on the link, so the operand and the rest of the chain compare as before
      rw [chain_succ hop, chain_succ hop]
      refine .bind (hread less (Nat.le_succ less) _ (by omega) rest) fun r => ?_
      exact ih (by omega) (fun below hb => hread below (Nat.le_succ_of_le hb)) _ _

theorem exponent_upToLimit (hle : less ≤ more)
    (hread : ∀ below < less, ∀ above ≥ below, ∀ ts, UpToLimit (read .power below ts) (read .power above ts))
    (base : Expr) (ts : List Lexeme) : UpToLimit (exponent less base ts) (exponent more base ts) := by
  rcases stops_or_link Operator.isPower ts with stops | ⟨op, position, rest, rfl, hop⟩
  · rw [exponent_of_stops stops, exponent_of_stops stops]
    exact .same _
  · obtain rfl : op = .pow := beq_iff_eq.mp hop
    cases less with
    | zero => exact .inl ⟨position, rfl⟩
    | succ less =>
      obtain ⟨extra, rfl⟩ := Nat.exists_eq_add_of_lt hle
      rw [exponent_succ, exponent_succ]
      exact .bind (hread less (Nat.lt_succ_self less) _ (by omega) rest) fun r => .same _

theorem enclosed_upToLimit (hle : less ≤ more)
    (hread : ∀ below < less, ∀ above ≥ below, ∀ ts, UpToLimit (read .sum below ts) (read .sum above ts))
    (opened : Nat) (ts : List Lexeme) : UpToLimit (enclosed less opened ts) (enclosed more opened ts) := by
  cases less with
  | zero => exact .inl ⟨opened, enclosed_zero ..⟩
  | succ less =>
    obtain ⟨extra, rfl⟩ := Nat.exists_eq_add_of_lt hle
    rw [enclosed_succ, enclosed_succ]
    exact .bind (hread less (Nat.lt_succ_self less) _ (by omega) ts) fun r => .same _

theorem primary_upToLimit (hle : less ≤ more)
    (hread : ∀ below < less, ∀ above ≥ below, ∀ ts, UpToLimit (read .sum below ts) (read .sum above ts))
    (ts : List Lexeme) : UpToLimit (read .primary less ts) (read .primary more ts) := by
  rw [read_primary, read_primary]
  split
  case h_5 => exact enclosed_upToLimit hle hread _ _
  case h_6 =>
    split
    · exact .bind (enclosed_upToLimit hle hread _ _) fun r => .same _
    · exact .same _
    · exact .same _
  all_goals exact .same _

theorem signed_upToLimit (hle : less ≤ more)
    (hread : ∀ below < less, ∀ above ≥ below, ∀ ts, UpToLimit (read .signed below ts) (read .signed above ts))
    (hprimary : ∀ ts, UpToLimit (read .primary less ts) (read .primary more ts))
    (ts : List Lexeme) : UpToLimit (read .signed less ts) (read .signed more ts) := by
  rw [read_signed, read_signed]
  split
  · cases less with
    | zero => exact .inl ⟨_, rfl⟩
    | succ less =>
      obtain ⟨extra, rfl⟩ := Nat.exists_eq_add_of_lt hle
      exact .bind (hread less (Nat.lt_succ_self less) _ (by omega) _) fun r => .same _
  · cases less with
    | zero => exact .inl ⟨_, rfl⟩
    | succ less =>
      obtain ⟨extra, rfl⟩ := Nat.exists_eq_add_of_lt hle
      exact hread less (Nat.lt_succ_self less) _ (by omega) _
  · exact hprimary _

end

/-- With fewer levels a phrase is read in the same way, unless they run out. -/
theorem read_upToLimit (ph : Phrase) (less : Nat) :
    ∀ more ≥ less, ∀ ts, UpToLimit (read ph less ts) (read ph more ts) := by
  induction ph, less using read_induction with
  | primary room sum => exact fun more hle => primary_upToLimit hle sum
  | signed room signed primary => exact fun more hle => signed_upToLimit hle signed (primary more hle)
  | power room power signed =>
    intro more hle ts
    rw [read_power, read_power]
    exact .bind (signed more hle ts) fun r => exponent_upToLimit hle power r.1 r.2
  | product room power =>
    intro more hle ts
    rw [read_product, read_product]
    exact .bind (power room (Nat.le_refl room) more hle ts) fun r => chain_upToLimit hle power r.1 r.2
  | sum room product =>
    intro more hle ts
    rw [read_sum, read_sum]
    exact .bind (product room (Nat.le_refl room) more hle ts) fun r => chain_upToLimit hle product r.1 r.2

/-- A level has no effect but that of the limit.  At a deeper level a phrase is nested too deeply, or it comes to what
it comes to at a level that is less deep: the same tree with the same tokens behind it, or the same error. -/
theorem level_only_limits (ph : Phrase) (ts : List Lexeme) {shallow deep : Nat} (h : shallow ≤ deep) :
    ((∃ p, readAt ph deep ts = .error (.tooDeep p)) ∨ readAt ph deep ts = readAt ph shallow ts) ∧
      ∀ e rest, readAt ph deep ts = .ok (e, rest) → readAt ph shallow ts = .ok (e, rest) := by
  have hroom : levelLimit - deep ≤ levelLimit - shallow := Nat.sub_le_sub_left h levelLimit
  have hsame : UpToLimit (readAt ph deep ts) (readAt ph shallow ts) := read_upToLimit ph _ _ hroom ts
  refine ⟨hsame, fun e rest hdeep => ?_⟩
  rcases hsame with ⟨p, hlimit⟩ | hsame
  · rw [hdeep] at hlimit
    cases hlimit
  · rw [← hsame, hdeep]

/-- Where the sum is still within the limit, it is read as where it stands alone. -/
theorem level_only_limits_sum :
    let ts : List Lexeme := [⟨.name "x", 0⟩, ⟨.operator .add, 1⟩, ⟨.name "y", 2⟩, ⟨.closing, 3⟩]
    readAt .sum 255 ts = .ok (.binary .add (.var "x") (.var "y"), [⟨.closing, 3⟩]) ∧
      readAt .sum 0 ts = .ok (.binary .add (.var "x") (.var "y"), [⟨.closing, 3⟩]) := by
  intro ts
  have hdeep : readAt .sum 255 ts = .ok (.binary .add (.var "x") (.var "y"), [⟨.closing, 3⟩]) := by cbv
  exact ⟨hdeep, (level_only_limits .sum ts (Nat.zero_le 255)).2 _ _ hdeep⟩

/-- At the limit itself there is no level for the sign. -/
example : readAt .sum 256 [⟨.operator .sub, 0⟩, ⟨.name "x", 1⟩] = .error (.tooDeep 0) := by cbv

/-! ## 2. What stands behind a phrase -/

theorem Stops.replace {links : Operator → Bool} {us rest other : List Lexeme} (h : Stops links (us ++ rest))
    (hother : Stops links other) : Stops links (us ++ other) := by
  cases us with
  | nil => exact hother
  | cons t us =>
    -- the token at the front is the same
    obtain ⟨token, position⟩ := t
    cases token <;> exact h

/-- The tokens are read as the phrase whatever stands behind them, if it does not go on with the phrase. -/
def ReadsBefore (ph : Phrase) (room : Nat) (us : List Lexeme) (e : Expr) : Prop :=
  ∀ rest, Stops ph.continues rest → read ph room (us ++ rest) = .ok (e, rest)

/-- What is read as the phrase is some tokens at the front, and they are read in the same way before anything else. -/
def ReadsLocally (ph : Phrase) (room : Nat) : Prop :=
  ∀ {ts e rest}, read ph room ts = .ok (e, rest) → ∃ us, ts = us ++ rest ∧ ReadsBefore ph room us e

theorem Chains.readsBefore {links operand room left ts e rest} (h : Chains links operand room left ts e rest)
    (hread : ∀ below ≤ room, ReadsLocally operand below) :
    ∃ us, ts = us ++ rest ∧ ∀ other, Stops operand.continues other → Stops links other →
      chain links operand room left (us ++ other) = .ok (e, other) := by
  induction h with
  | stop stops => exact ⟨[], rfl, fun other _ hother => chain_of_stops hother⟩
  | @link room left op p ts right mid e rest hop hright _ ih =>
    obtain ⟨us, hts, hus⟩ := hread room (Nat.le_succ room) hright
    obtain ⟨vs, hmid, hvs⟩ := ih fun below hb => hread below (Nat.le_succ_of_le hb)
    -- the operand ends where it ended before, be it at the next link or at what stands behind the chain
    have hend : Stops operand.continues (vs ++ rest) := by
      rw [← hmid]
      exact read_stops operand room hright
    refine ⟨⟨.operator op, p⟩ :: us ++ vs, by rw [hts, hmid, List.append_assoc]; rfl, ?_⟩
    intro other hoperand hlinks
    rw [List.append_assoc, List.cons_append, chain_succ hop, hus (vs ++ other) (hend.replace hoperand)]
    exact hvs other hoperand hlinks

theorem exponent_readsBefore {room base ts e rest} (h : exponent room base ts = .ok (e, rest))
    (hread : ∀ below < room, ReadsLocally .power below) :
    ∃ us, ts = us ++ rest ∧ ∀ other, Stops Operator.isPower other →
      exponent room base (us ++ other) = .ok (e, other) := by
  rcases exponent_ok_cases h with ⟨rfl, rfl, -⟩ | ⟨below, p, mid, raised, rfl, rfl, hraised, rfl⟩
  · exact ⟨[], rfl, fun other hother => exponent_of_stops hother⟩
  · obtain ⟨us, rfl, hus⟩ := hread below (Nat.lt_succ_self below) hraised
    refine ⟨⟨.operator .pow, p⟩ :: us, rfl, fun other hother => ?_⟩
    rw [List.cons_append, exponent_succ, hus other hother]
    rfl

/-- The contents end at their parenthesis, so it does not matter what stands behind it. -/
theorem enclosed_readsBefore {room opened ts e rest} (h : enclosed room opened ts = .ok (e, rest))
    (hread : ∀ below < room, ReadsLocally .sum below) :
    ∃ us, ts = us ++ rest ∧ ∀ other, enclosed room opened (us ++ other) = .ok (e, other) := by
  obtain ⟨below, p, rfl, hinner⟩ := enclosed_ok_cases h
  obtain ⟨us, rfl, hus⟩ := hread below (Nat.lt_succ_self below) hinner
  refine ⟨us ++ [⟨.closing, p⟩], by rw [List.append_assoc]; rfl, fun other => ?_⟩
  have hinner : read .sum below (us ++ ⟨.closing, p⟩ :: other) = .ok (e, ⟨.closing, p⟩ :: other) := hus _ trivial
  rw [List.append_assoc, List.singleton_append, enclosed_succ, hinner]
  rfl

theorem primary_readsLocally {room : Nat} (hread : ∀ below < room, ReadsLocally .sum below) :
    ReadsLocally .primary room := by
  intro ts e rest h
  cases readsPrimary_of_ok h with
  | @enclosed position _ _ _ hinner =>
    obtain ⟨us, rfl, hus⟩ := enclosed_readsBefore hinner hread
    refine ⟨⟨.opening, position⟩ :: us, rfl, fun other _ => ?_⟩
    rw [List.cons_append, read_primary]
    exact hus other
  | @call f position opened _ _ _ hargument =>
    obtain ⟨us, rfl, hus⟩ := enclosed_readsBefore hargument hread
    refine ⟨⟨.builtin f, position⟩ :: ⟨.opening, opened⟩ :: us, rfl, fun other _ => ?_⟩
    rw [List.cons_append, List.cons_append, read_primary]
    simp only [hus other]
    rfl
  -- the others are a single token
  | _ =>
    refine ⟨[_], rfl, fun other _ => ?_⟩
    rw [List.singleton_append, read_primary]

theorem signed_readsLocally {room : Nat} (hsigned : ∀ below < room, ReadsLocally .signed below)
    (hprimary : ReadsLocally .primary room) : ReadsLocally .signed room := by
  intro ts e rest h
  cases readsSigned_of_ok h with
  | @minus room position _ _ _ hoperand =>
    obtain ⟨us, rfl, hus⟩ := hsigned room (Nat.lt_succ_self room) hoperand
    refine ⟨⟨.operator .sub, position⟩ :: us, rfl, fun other hother => ?_⟩
    rw [List.cons_append, read_signed]
    simp only [hus other hother]
    rfl
  | @plus room position _ _ _ hoperand =>
    obtain ⟨us, rfl, hus⟩ := hsigned room (Nat.lt_succ_self room) hoperand
    refine ⟨⟨.operator .add, position⟩ :: us, rfl, fun other hother => ?_⟩
    rw [List.cons_append, read_signed]
    exact hus other hother
  | primary hfirst =>
    obtain ⟨us, rfl, hus⟩ := hprimary hfirst
    obtain ⟨vs, hvs, hderives⟩ := read_sound .primary room hfirst
    obtain rfl : us = vs := List.append_cancel_right hvs
    -- there is no sign in front of a primary phrase, whatever stands behind it
    refine ⟨us, rfl, fun other hother => ?_⟩
    rw [hderives.read_signed_eq]
    exact hus other hother

theorem read_locally (ph : Phrase) (room : Nat) : ReadsLocally ph room := by
  induction ph, room using read_induction with
  | primary room sum => exact primary_readsLocally sum
  | signed room signed primary => exact signed_readsLocally signed primary
  | power room power signed =>
    intro ts e rest h
    obtain ⟨base, mid, hbase, hexponent⟩ := power_of_ok h
    obtain ⟨us, rfl, hus⟩ := signed hbase
    obtain ⟨vs, rfl, hvs⟩ := exponent_readsBefore hexponent power
    refine ⟨us ++ vs, (List.append_assoc ..).symm, fun other hother => ?_⟩
    rw [List.append_assoc, read_power, hus (vs ++ other) (stops_never _)]
    exact hvs other hother
  | product room power =>
    intro ts e rest h
    obtain ⟨left, mid, hleft, hchain⟩ := product_of_ok h
    obtain ⟨us, rfl, hus⟩ := power room (Nat.le_refl room) hleft
    obtain ⟨vs, rfl, hvs⟩ := hchain.readsBefore power
    refine ⟨us ++ vs, (List.append_assoc ..).symm, fun other hother => ?_⟩
    have hpower : Stops Phrase.power.continues other := hother.mono (by intro op; cases op <;> decide)
    have hlinks : Stops Operator.isMultiplicative other := hother.mono (by intro op; cases op <;> decide)
    rw [List.append_assoc, read_product, hus (vs ++ other) ((read_stops .power room hleft).replace hpower)]
    exact hvs other hpower hlinks
  | sum room product =>
    intro ts e rest h
    obtain ⟨left, mid, hleft, hchain⟩ := sum_of_ok h
    obtain ⟨us, rfl, hus⟩ := product room (Nat.le_refl room) hleft
    obtain ⟨vs, rfl, hvs⟩ := hchain.readsBefore product
    refine ⟨us ++ vs, (List.append_assoc ..).symm, fun other hother => ?_⟩
    have hproduct : Stops Phrase.product.continues other := hother.mono fun _ _ => rfl
    have hlinks : Stops Operator.isAdditive other := hother.mono fun _ _ => rfl
    rw [List.append_assoc, read_sum, hus (vs ++ other) ((read_stops .product room hleft).replace hproduct)]
    exact hvs other hproduct hlinks

theorem read_sum_nil (room : Nat) : read .sum room [] = .error .unexpectedEnd := by
  have hprimary : read .primary room [] = .error .unexpectedEnd := by rw [read_primary]
  have hsigned : read .signed room [] = .error .unexpectedEnd := by
    rw [read_signed]
    exact hprimary
  rw [read_sum, read_product, read_power, hsigned]
  rfl

/-- No binary operator stands at the front. -/
def EndsExpression (ts : List Lexeme) : Prop :=
  ∀ t ∈ ts.head?, t.token.operator? = none

theorem endsExpression_iff (ts : List Lexeme) : EndsExpression ts ↔ Stops Phrase.sum.continues ts := by
  cases ts with
  | nil => simp [EndsExpression, Stops]
  | cons t ts =>
    obtain ⟨token, position⟩ := t
    cases token <;> simp [EndsExpression, Stops, Token.operator?, Phrase.continues]

/-- An expression that is read at some level is at least one token and goes on until no operator follows, and whatever
else without an operator in front follows instead, it is read as the same expression, which leaves just that. -/
theorem expression_read_before_any_end (level : Nat) (us rest : List Lexeme) (e : Expr)
    (h : readAt .sum level (us ++ rest) = .ok (e, rest)) :
    us ≠ [] ∧ EndsExpression rest ∧
      ∀ other, EndsExpression other → readAt .sum level (us ++ other) = .ok (e, other) := by
  obtain ⟨vs, hvs, hread⟩ := read_locally .sum (levelLimit - level) h
  obtain rfl : us = vs := List.append_cancel_right hvs
  refine ⟨?_, (endsExpression_iff rest).mpr (read_stops .sum _ h), fun other hother => ?_⟩
  · rintro rfl
    have hnone := hread [] trivial
    rw [List.nil_append, read_sum_nil] at hnone
    cases hnone
  · exact hread other ((endsExpression_iff other).mp hother)

/-- A call ends with its parenthesis, be it followed by another one or by a name. -/
theorem expression_read_before_any_end_call :
    let us : List Lexeme :=
      [⟨.name "x", 0⟩, ⟨.operator .pow, 1⟩, ⟨.builtin .root, 3⟩, ⟨.opening, 7⟩, ⟨.name "y", 8⟩, ⟨.closing, 9⟩]
    let e : Expr := .binary .pow (.var "x") (.call .root (.var "y"))
    readAt .sum 254 (us ++ [⟨.closing, 10⟩]) = .ok (e, [⟨.closing, 10⟩]) ∧
      readAt .sum 254 (us ++ [⟨.name "z", 10⟩]) = .ok (e, [⟨.name "z", 10⟩]) := by
  intro us e
  have hread : readAt .sum 254 (us ++ [⟨.closing, 10⟩]) = .ok (e, [⟨.closing, 10⟩]) := by cbv
  have hother : EndsExpression [⟨.name "z", 10⟩] := by
    rintro _ ⟨⟩
    rfl
  exact ⟨hread, (expression_read_before_any_end 254 us _ e hread).2.2 _ hother⟩

end Parser

end ComplexCalc
