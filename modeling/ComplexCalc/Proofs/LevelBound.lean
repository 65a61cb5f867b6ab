import ComplexCalc.Proofs.Scan

/-!
# LevelBound — what is read spends no more levels than there are

The parser passes down how many levels are left, and the scan counts how many are spent.  Where a phrase starts the two
add up to the limit.  So the tokens of a phrase that was read are scanned without a counter that passes the limit.
-/

namespace ComplexCalc

open ComplexCalc.Parser

/-! ## 1. Scans within a limit -/

/-- The scan goes through the tokens, and behind each of them at most so many levels are spent. -/
inductive ScansWithin (limit : Nat) : Scan Levels Unit → List Lexeme → Scan Levels Unit → Prop where
  | nil {s} : ScansWithin limit s [] s
  | cons {s s' s'' t ts} : levels.step s t = some s' → s'.frame.sign ≤ limit → ScansWithin limit s' ts s'' →
      ScansWithin limit s (t :: ts) s''

section
variable {limit : Nat} {s s' s'' : Scan Levels Unit} {t : Lexeme} {us vs : List Lexeme}

theorem ScansWithin.append (h : ScansWithin limit s us s') (h' : ScansWithin limit s' vs s'') :
    ScansWithin limit s (us ++ vs) s'' := by
  induction h with
  | nil => exact h'
  | cons hstep hsign _ ih => exact .cons hstep hsign (ih h')

theorem ScansWithin.snoc (h : ScansWithin limit s us s') (hstep : levels.step s' t = some s'')
    (hsign : s''.frame.sign ≤ limit) : ScansWithin limit s (us ++ [t]) s'' :=
  h.append (.cons hstep hsign .nil)

theorem ScansWithin.run_eq (h : ScansWithin limit s us s') : levels.run s us = some s' := by
  induction h with
  | nil => rfl
  | cons hstep _ _ ih =>
    rw [Gauge.run, hstep]
    exact ih

end

/-! ## 2. Levels that are left -/

/-- Of the levels, so many are left where a phrase of the given kind starts. -/
def Levels.Leaves (limit : Nat) : Phrase → Nat → Levels → Prop
  | .sum, room, f => f = .all f.sum ∧ f.sum + room = limit
  | .product, room, f => f.power = f.product ∧ f.sign = f.product ∧ f.product + room = limit
  | .power, room, f => f.sign = f.power ∧ f.power + room = limit
  | .signed, room, f => f.sign + room = limit
  | .primary, room, f => f.sign + room = limit

/-- A sum starts with a product, with the same levels left. -/
theorem Levels.Leaves.product {limit room f} (h : Leaves limit .sum room f) : Leaves limit .product room f := by
  obtain ⟨hall, hroom⟩ := h
  rw [hall]
  exact ⟨rfl, rfl, hroom⟩

/-- The counter that goes up at the links of a chain, and from which its operands start. -/
structure Levels.Counts (links : Operator → Bool) (operand : Phrase) (counter : Levels → Nat) : Prop where
  ne_primary : operand ≠ .primary
  leaves : ∀ limit op room f, links op = true → counter f + (room + 1) = limit →
    Leaves limit operand room (f.binary op)
  sign : ∀ op f, links op = true → (f.binary op).sign = counter f + 1
  keeps : ∀ op f f', links op = true → Keeps operand (f.binary op) f' → counter f' = counter f + 1

theorem Levels.counts_product : Counts Operator.isMultiplicative .power Levels.product where
  ne_primary := by decide
  leaves limit op room f hop hroom := by
    cases op with
    | mul => exact ⟨rfl, by show f.product + 1 + room = _; omega⟩
    | div => exact ⟨rfl, by show f.product + 1 + room = _; omega⟩
    | _ => cases hop
  sign op f hop := by cases op <;> first | rfl | cases hop
  keeps op f f' hop hf' := by
    rw [hf'.2]
    cases op <;> first | rfl | cases hop

theorem Levels.counts_sum : Counts Operator.isAdditive .product Levels.sum where
  ne_primary := by decide
  leaves limit op room f hop hroom := by
    cases op with
    | add => exact ⟨rfl, rfl, by show f.sum + 1 + room = _; omega⟩
    | sub => exact ⟨rfl, rfl, by show f.sum + 1 + room = _; omega⟩
    | _ => cases hop
  sign op f hop := by cases op <;> first | rfl | cases hop
  keeps op f f' hop hf' := by
    rw [show f'.sum = _ from hf']
    cases op <;> first | rfl | cases hop

/-! ## 3. Phrases -/

/-- What is read as a phrase is scanned within the limit. -/
def ReadsWithin (limit : Nat) (ph : Phrase) (room : Nat) : Prop :=
  ∀ {ts e rest} (f q), Levels.Leaves limit ph room f → read ph room ts = .ok (e, rest) →
    ∃ us f', ts = us ++ rest ∧ ScansWithin limit ⟨.operand, f, q⟩ us ⟨.operator (), f', q⟩

/-- The tokens of a phrase that was read are derived, so their scan leaves what the phrase keeps. -/
theorem ScansWithin.keeps {limit ph room us e rest f f' q}
    (h : ScansWithin limit ⟨.operand, f, q⟩ us ⟨.operator (), f', q⟩)
    (hread : read ph room (us ++ rest) = .ok (e, rest)) : Levels.Keeps ph f f' := by
  obtain ⟨vs, hvs, hderives⟩ := read_sound ph room hread
  obtain rfl := List.append_cancel_right hvs
  obtain ⟨f'', hrun, hkeeps⟩ := hderives.run_levels f q
  rw [h.run_eq] at hrun
  cases hrun
  exact hkeeps

/-- The counter of a chain goes up by one at every link, and there are no more links than levels. -/
theorem chain_within {limit links operand counter room left ts e rest f q}
    (hcounts : Levels.Counts links operand counter) (h : Chains links operand room left ts e rest)
    (hread : ∀ below ≤ room, ReadsWithin limit operand below) (hroom : counter f + room = limit) :
    ∃ us f', ts = us ++ rest ∧ ScansWithin limit ⟨.operator (), f, q⟩ us ⟨.operator (), f', q⟩ := by
  induction h generalizing f with
  | stop _ => exact ⟨[], f, rfl, .nil⟩
  | @link room _ op p _ _ _ _ _ hop hright _ ih =>
    have hleaves := hcounts.leaves limit op room f hop hroom
    have hsign := hcounts.sign op f hop
    obtain ⟨us, f', rfl, hus⟩ := hread room (Nat.le_succ room) (f.binary op) q hleaves hright
    have hcounter := hcounts.keeps op f f' hop (hus.keeps hright)
    obtain ⟨vs, f'', rfl, hvs⟩ := ih (f := f') (fun below hb => hread below (Nat.le_succ_of_le hb)) (by omega)
    have hlink : ScansWithin limit ⟨.operator (), f, q⟩ (⟨.operator op, p⟩ :: us) ⟨.operator (), f', q⟩ :=
      .cons rfl (by show (f.binary op).sign ≤ limit; omega) hus
    exact ⟨⟨.operator op, p⟩ :: us ++ vs, f'', by simp, hlink.append hvs⟩

theorem exponent_within {limit room base ts e rest f q} (power : ∀ below < room, ReadsWithin limit .power below)
    (hroom : f.power + room = limit) (h : exponent room base ts = .ok (e, rest)) :
    ∃ us f', ts = us ++ rest ∧ ScansWithin limit ⟨.operator (), f, q⟩ us ⟨.operator (), f', q⟩ := by
  rcases exponent_ok_cases h with ⟨-, rfl, -⟩ | ⟨below, p, mid, raised, rfl, rfl, hraised, -⟩
  · exact ⟨[], f, rfl, .nil⟩
  · have hleaves : Levels.Leaves limit .power below (f.binary .pow) :=
      ⟨rfl, by show f.power + 1 + below = _; omega⟩
    obtain ⟨us, f', rfl, hus⟩ := power below (Nat.lt_succ_self below) _ q hleaves hraised
    exact ⟨⟨.operator .pow, p⟩ :: us, f', rfl, .cons rfl (by show f.power + 1 ≤ limit; omega) hus⟩

/-- The inside has a frame of its own, which is dropped with the closing parenthesis. -/
theorem enclosed_within {limit room opened ts e rest s} (sum : ∀ below < room, ReadsWithin limit .sum below)
    (hroom : s.frame.sign + room = limit)
    (hstep : levels.step s ⟨.opening, opened⟩ =
      some ⟨.operand, .all (s.frame.sign + 1), (opened, s.frame) :: s.enclosing⟩)
    (h : enclosed room opened ts = .ok (e, rest)) :
    ∃ us, ts = us ++ rest ∧
      ScansWithin limit s (⟨.opening, opened⟩ :: us) ⟨.operator (), s.frame, s.enclosing⟩ := by
  obtain ⟨below, p, rfl, hinner⟩ := enclosed_ok_cases h
  have hleaves : Levels.Leaves limit .sum below (.all (s.frame.sign + 1)) :=
    ⟨rfl, by show s.frame.sign + 1 + below = _; omega⟩
  obtain ⟨us, f', rfl, hus⟩ :=
    sum below (Nat.lt_succ_self below) _ ((opened, s.frame) :: s.enclosing) hleaves hinner
  refine ⟨us ++ [⟨.closing, p⟩], by simp, .cons hstep (by show s.frame.sign + 1 ≤ limit; omega) ?_⟩
  exact hus.snoc rfl (by show s.frame.sign ≤ limit; omega)

theorem primary_within {limit room} (sum : ∀ below < room, ReadsWithin limit .sum below) :
    ReadsWithin limit .primary room := by
  intro ts e rest f q hroom h
  have hsign : f.sign ≤ limit := by rw [Levels.Leaves] at hroom; omega
  cases readsPrimary_of_ok h with
  | real => exact ⟨[_], f, rfl, .cons rfl hsign .nil⟩
  | imaginary => exact ⟨[_], f, rfl, .cons rfl hsign .nil⟩
  | name => exact ⟨[_], f, rfl, .cons rfl hsign .nil⟩
  | enclosed hinner =>
    obtain ⟨us, rfl, hus⟩ := enclosed_within (s := ⟨.operand, f, q⟩) sum hroom rfl hinner
    exact ⟨_, f, rfl, hus⟩
  | call hargument =>
    -- a function leaves the frame as it is, and its parenthesis is counted like any other
    obtain ⟨us, rfl, hus⟩ := enclosed_within (s := ⟨.argument, f, q⟩) sum hroom rfl hargument
    exact ⟨_, f, rfl, .cons rfl hsign hus⟩

theorem signed_within {limit room} (signed : ∀ below < room, ReadsWithin limit .signed below)
    (primary : ReadsWithin limit .primary room) : ReadsWithin limit .signed room := by
  intro ts e rest f q hroom h
  rw [Levels.Leaves] at hroom
  -- either sign is one level more in front of the same operand
  have hsigned : ∀ {below : Nat} {op : Operator} {p : Nat} {mid : List Lexeme} {operand : Expr}, room = below + 1 →
      op.isAdditive = true → read .signed below mid = .ok (operand, rest) → ∃ us f',
        ⟨.operator op, p⟩ :: mid = us ++ rest ∧ ScansWithin limit ⟨.operand, f, q⟩ us ⟨.operator (), f', q⟩ := by
    rintro below op p mid operand rfl hop hoperand
    have hleaves : Levels.Leaves limit .signed below { f with sign := f.sign + 1 } := by
      show f.sign + 1 + below = _
      omega
    obtain ⟨us, f', rfl, hus⟩ := signed below (Nat.lt_succ_self below) _ q hleaves hoperand
    refine ⟨⟨.operator op, p⟩ :: us, f', rfl, .cons (if_pos hop) ?_ hus⟩
    show f.sign + 1 ≤ limit
    omega
  cases readsSigned_of_ok h with
  | minus hoperand => exact hsigned rfl rfl hoperand
  | plus hoperand => exact hsigned rfl rfl hoperand
  | primary hprimary => exact primary f q hroom hprimary

theorem read_within (limit : Nat) (ph : Phrase) (room : Nat) : ReadsWithin limit ph room := by
  induction ph, room using read_induction with
  | primary room sum => exact primary_within sum
  | signed room signed primary => exact signed_within signed primary
  | power room power signed =>
    intro ts e rest f q hleaves h
    obtain ⟨hsign, hroom⟩ := hleaves
    obtain ⟨base, mid, hbase, hexponent⟩ := power_of_ok h
    obtain ⟨us, f', rfl, hus⟩ := signed f q (by rw [Levels.Leaves]; omega) hbase
    obtain ⟨-, -, hpower⟩ := hus.keeps hbase
    obtain ⟨vs, f'', rfl, hvs⟩ := exponent_within (f := f') (q := q) power (by omega) hexponent
    exact ⟨us ++ vs, f'', by rw [List.append_assoc], hus.append hvs⟩
  | product room power =>
    intro ts e rest f q hleaves h
    obtain ⟨hpower, hsign, hroom⟩ := hleaves
    obtain ⟨left, mid, hleft, hchain⟩ := product_of_ok h
    obtain ⟨us, f', rfl, hus⟩ := power room (Nat.le_refl _) f q ⟨by omega, by omega⟩ hleft
    obtain ⟨-, hproduct⟩ := hus.keeps hleft
    obtain ⟨vs, f'', rfl, hvs⟩ :=
      chain_within (f := f') (q := q) Levels.counts_product hchain power (by omega)
    exact ⟨us ++ vs, f'', by rw [List.append_assoc], hus.append hvs⟩
  | sum room product =>
    intro ts e rest f q hleaves h
    obtain ⟨left, mid, hleft, hchain⟩ := sum_of_ok h
    obtain ⟨us, f', rfl, hus⟩ := product room (Nat.le_refl _) f q hleaves.product hleft
    obtain ⟨-, hroom⟩ := hleaves
    have hsum : f'.sum = f.sum := hus.keeps hleft
    obtain ⟨vs, f'', rfl, hvs⟩ :=
      chain_within (f := f') (q := q) Levels.counts_sum hchain product (by omega)
    exact ⟨us ++ vs, f'', by rw [List.append_assoc], hus.append hvs⟩

end ComplexCalc
