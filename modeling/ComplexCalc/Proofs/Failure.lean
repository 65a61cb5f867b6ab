import ComplexCalc.Proofs.LevelBound

/-!
# Failure — where the parser stops is where the scan stops

Every exit of the parser with an error is described by the state of the scan at the token that is blamed.  The tokens
before it belong to phrases that were read, so they are scanned within the limit (`read_within`).
-/

namespace ComplexCalc

open ComplexCalc.Parser

/-- What an error says about the place where it was met: the scan up to there, and the tokens from there on. -/
inductive Blames (limit : Nat) : SyntaxError → Scan Levels Unit → List Lexeme → Prop where
  | unexpected {s t p rest} : s.due = .operand → levels.step s ⟨t, p⟩ = none →
      Blames limit (.unexpected t p) s (⟨t, p⟩ :: rest)
  | noArgument {s t f p rest} : s.due = .argument → levels.step s ⟨t, p⟩ = none →
      Blames limit (.noArgument t f p) s (⟨t, p⟩ :: rest)
  | unexpectedEnd {s} : s.due ≠ .operator () → Blames limit .unexpectedEnd s []
  | unclosed {s p outer q rest} : s.due = .operator () → s.enclosing = (p, outer) :: q →
      (∀ t ∈ rest.head?, levels.step s t = none) → Blames limit (.unclosed p) s rest
  | trailing {s t p rest} : s.due = .operator () → s.enclosing = [] → levels.step s ⟨t, p⟩ = none →
      Blames limit (.trailing t p) s (⟨t, p⟩ :: rest)
  | tooDeep {s s' t p rest} : levels.step s ⟨t, p⟩ = some s' → s'.frame.sign = limit + 1 →
      Blames limit (.tooDeep p) s (⟨t, p⟩ :: rest)

theorem Blames.stuck {limit x s rest} (h : Blames limit x s rest) (hdepth : ∀ p, x ≠ .tooDeep p) :
    ∀ t ∈ rest.head?, levels.step s t = none := by
  intro t ht
  cases h with
  | unexpected hdue hstep => cases ht; exact hstep
  | noArgument hdue hstep => cases ht; exact hstep
  | unexpectedEnd hdue => cases ht
  | unclosed hdue hopen hstep => exact hstep t ht
  | trailing hdue hopen hstep => cases ht; exact hstep
  | tooDeep => exact absurd rfl (hdepth _)

/-- From the given state of the scan, the error is met after some of the tokens, which are scanned within the limit. -/
def Fails (limit : Nat) (x : SyntaxError) (s : Scan Levels Unit) (ts : List Lexeme) : Prop :=
  ∃ us rest s', ts = us ++ rest ∧ ScansWithin limit s us s' ∧ Blames limit x s' rest

theorem Blames.fails {limit x s ts} (h : Blames limit x s ts) : Fails limit x s ts :=
  ⟨[], ts, s, rfl, .nil, h⟩

theorem Fails.after {limit x s s' us ts} (hscan : ScansWithin limit s us s') (h : Fails limit x s' ts) :
    Fails limit x s (us ++ ts) := by
  obtain ⟨vs, rest, s'', rfl, hvs, hblames⟩ := h
  exact ⟨us ++ vs, rest, s'', by rw [List.append_assoc], hscan.append hvs, hblames⟩

theorem Fails.cons {limit x s t ts} (s' : Scan Levels Unit) (hstep : levels.step s t = some s')
    (hsign : s'.frame.sign ≤ limit) (h : Fails limit x s' ts) : Fails limit x s (t :: ts) :=
  h.after (.cons hstep hsign .nil)

/-- What is not read as a phrase fails where the scan does.  A sign in front is for the signed phrase, which never
leaves it to the primary one. -/
def FailsAsScanned (limit : Nat) (ph : Phrase) (room : Nat) : Prop :=
  ∀ {ts x} (f q), Levels.Leaves limit ph room f → (ph = .primary → Stops Operator.isAdditive ts) →
    read ph room ts = .error x → Fails limit x ⟨.operand, f, q⟩ ts

theorem chain_fails {limit links operand counter room left ts x f q} (hcounts : Levels.Counts links operand counter)
    (hread : ∀ below ≤ room, FailsAsScanned limit operand below) (hroom : counter f + room = limit)
    (h : chain links operand room left ts = .error x) : Fails limit x ⟨.operator (), f, q⟩ ts := by
  induction room generalizing left ts f with
  | zero =>
    rcases stops_or_link links ts with stops | ⟨op, position, tail, rfl, hop⟩
    · rw [chain_of_stops stops] at h
      cases h
    · rw [chain_zero hop] at h
      cases h
      have hlevel := hcounts.sign op f hop
      exact (Blames.tooDeep rfl (by show (f.binary op).sign = _; omega)).fails
  | succ room ih =>
    rcases stops_or_link links ts with stops | ⟨op, position, tail, rfl, hop⟩
    · rw [chain_of_stops stops] at h
      cases h
    · have hleaves := hcounts.leaves limit op room f hop hroom
      have hsign := hcounts.sign op f hop
      apply Fails.cons ⟨.operand, f.binary op, q⟩ rfl (by show (f.binary op).sign ≤ _; omega)
      rw [chain_succ hop, bind_eq_error_iff] at h
      rcases h with h | ⟨⟨right, mid⟩, hright, h⟩
      · exact hread room (Nat.le_succ room) _ q hleaves (fun heq => absurd heq hcounts.ne_primary) h
      · -- the operand was read, so the scan goes through it and meets the error behind it
        obtain ⟨us, f', rfl, hus⟩ := read_within limit operand room (f.binary op) q hleaves hright
        have hcounter := hcounts.keeps op f f' hop (hus.keeps hright)
        exact (ih (fun below hb => hread below (Nat.le_succ_of_le hb)) (by omega) h).after hus

theorem exponent_fails {limit room base ts x f q} (power : ∀ below < room, FailsAsScanned limit .power below)
    (hroom : f.power + room = limit) (h : exponent room base ts = .error x) :
    Fails limit x ⟨.operator (), f, q⟩ ts := by
  rcases stops_or_link Operator.isPower ts with stops | ⟨op, position, tail, rfl, hop⟩
  · rw [exponent_of_stops stops] at h
    cases h
  · obtain rfl : op = .pow := beq_iff_eq.mp hop
    cases room with
    | zero =>
      cases h
      exact (Blames.tooDeep rfl (by show f.power + 1 = _; omega)).fails
    | succ room =>
      rw [exponent_succ, bind_eq_error_iff] at h
      apply Fails.cons ⟨.operand, f.binary .pow, q⟩ rfl (by show f.power + 1 ≤ _; omega)
      rcases h with h | ⟨r, -, h⟩
      · have hleaves : Levels.Leaves limit .power room (f.binary .pow) := ⟨rfl, by show f.power + 1 + room = _; omega⟩
        exact power room (by omega) _ q hleaves (fun heq => absurd heq (by decide)) h
      · cases h

/-- Behind a complete operand, what is neither an operator nor a closing parenthesis cannot stand. -/
theorem step_of_stops {f q t rest} (hstops : Stops Phrase.sum.continues (t :: rest))
    (hclosing : ∀ p, t ≠ ⟨.closing, p⟩) : levels.step ⟨.operator (), f, q⟩ t = none := by
  obtain ⟨token, position⟩ := t
  cases token with
  | operator op => exact absurd (show true = false from hstops) (by decide)
  | closing => exact absurd rfl (hclosing position)
  | real x => rfl
  | imaginary x => rfl
  | builtin f => rfl
  | name x => rfl
  | opening => rfl

/-- The parenthesis itself is scanned first, in the state where it may stand. -/
theorem enclosed_fails {limit room opened ts x s} (sum : ∀ below < room, FailsAsScanned limit .sum below)
    (hroom : s.frame.sign + room = limit)
    (hstep : levels.step s ⟨.opening, opened⟩ =
      some ⟨.operand, .all (s.frame.sign + 1), (opened, s.frame) :: s.enclosing⟩)
    (h : enclosed room opened ts = .error x) : Fails limit x s (⟨.opening, opened⟩ :: ts) := by
  cases room with
  | zero =>
    rw [enclosed_zero] at h
    cases h
    exact (Blames.tooDeep hstep (by show s.frame.sign + 1 = _; omega)).fails
  | succ room =>
    have hleaves : Levels.Leaves limit .sum room (.all (s.frame.sign + 1)) :=
      ⟨rfl, by show s.frame.sign + 1 + room = _; omega⟩
    apply Fails.cons _ hstep (by show s.frame.sign + 1 ≤ _; omega)
    rw [enclosed_succ, bind_eq_error_iff] at h
    rcases h with h | ⟨⟨inner, mid⟩, hinner, h⟩
    · exact sum room (by omega) _ _ hleaves (fun heq => absurd heq (by decide)) h
    · obtain ⟨us, f', rfl, hus⟩ :=
        read_within limit .sum room _ ((opened, s.frame) :: s.enclosing) hleaves hinner
      apply Fails.after hus
      have hstops := read_stops .sum room hinner
      split at h
      · cases h
      · rename_i hopen
        cases h
        refine (Blames.unclosed rfl rfl ?_).fails
        intro t ht
        cases mid with
        | nil => cases ht
        | cons t' rest =>
          cases ht
          exact step_of_stops hstops fun p hp => hopen p rest (by rw [hp])

theorem primary_fails {limit room} (sum : ∀ below < room, FailsAsScanned limit .sum below) :
    FailsAsScanned limit .primary room := by
  intro ts x f q hroom hts h
  rw [read_primary] at h
  split at h
  · cases h
    exact (Blames.unexpectedEnd (by rintro ⟨⟩)).fails
  · cases h
  · cases h
  · cases h
  · exact enclosed_fails sum hroom rfl h
  · -- a function: its parenthesis is due
    apply Fails.cons ⟨.argument, f, q⟩ rfl (by rw [Levels.Leaves] at hroom; show f.sign ≤ _; omega)
    split at h
    · rw [bind_eq_error_iff] at h
      rcases h with h | ⟨r, -, h⟩
      · exact enclosed_fails sum hroom rfl h
      · cases h
    · rename_i token position after hopening
      cases h
      refine (Blames.noArgument rfl ?_).fails
      cases token with
      | opening => exact absurd rfl hopening
      | _ => rfl
    · cases h
      exact (Blames.unexpectedEnd (by rintro ⟨⟩)).fails
  · -- no token that starts a primary phrase, and no sign either
    rename_i token position after hreal himaginary hname hopening hbuiltin
    cases h
    refine (Blames.unexpected rfl ?_).fails
    cases token with
    | real x => exact absurd rfl (hreal x)
    | imaginary x => exact absurd rfl (himaginary x)
    | name x => exact absurd rfl (hname x)
    | builtin f => exact absurd rfl (hbuiltin f)
    | opening => exact absurd rfl hopening
    | closing => rfl
    | operator op => exact if_neg (by rw [show op.isAdditive = false from hts rfl]; decide)

theorem stops_of_no_sign {ts} (hminus : ∀ p rest, ts ≠ ⟨.operator .sub, p⟩ :: rest)
    (hplus : ∀ p rest, ts ≠ ⟨.operator .add, p⟩ :: rest) : Stops Operator.isAdditive ts := by
  rcases stops_or_link Operator.isAdditive ts with stops | ⟨op, position, rest, rfl, hop⟩
  · exact stops
  · cases op with
    | add => exact absurd rfl (hplus position rest)
    | sub => exact absurd rfl (hminus position rest)
    | _ => cases hop

theorem signed_fails {limit room} (signed : ∀ below < room, FailsAsScanned limit .signed below)
    (primary : FailsAsScanned limit .primary room) : FailsAsScanned limit .signed room := by
  intro ts x f q hroom _ h
  rw [Levels.Leaves] at hroom
  rw [read_signed] at h
  split at h
  · split at h
    · cases h
      exact (Blames.tooDeep rfl (by show f.sign + 1 = _; omega)).fails
    · rename_i position after room
      apply Fails.cons ⟨.operand, { f with sign := f.sign + 1 }, q⟩ rfl (by show f.sign + 1 ≤ _; omega)
      rw [bind_eq_error_iff] at h
      rcases h with h | ⟨r, -, h⟩
      · have hleaves : Levels.Leaves limit .signed room { f with sign := f.sign + 1 } := by
          show f.sign + 1 + room = _
          omega
        exact signed room (Nat.lt_succ_self room) _ q hleaves (fun heq => absurd heq (by decide)) h
      · cases h
  · split at h
    · cases h
      exact (Blames.tooDeep rfl (by show f.sign + 1 = _; omega)).fails
    · rename_i position after room
      apply Fails.cons ⟨.operand, { f with sign := f.sign + 1 }, q⟩ rfl (by show f.sign + 1 ≤ _; omega)
      have hleaves : Levels.Leaves limit .signed room { f with sign := f.sign + 1 } := by
        show f.sign + 1 + room = _
        omega
      exact signed room (Nat.lt_succ_self room) _ q hleaves (fun heq => absurd heq (by decide)) h
  · rename_i hminus hplus
    exact primary f q hroom (fun _ => stops_of_no_sign hminus hplus) h

theorem read_fails (limit : Nat) (ph : Phrase) (room : Nat) : FailsAsScanned limit ph room := by
  induction ph, room using read_induction with
  | primary room sum => exact primary_fails sum
  | signed room signed primary => exact signed_fails signed primary
  | power room power signed =>
    intro ts x f q hleaves _ h
    obtain ⟨hsign, hroom⟩ := hleaves
    rw [read_power, bind_eq_error_iff] at h
    rcases h with h | ⟨⟨base, mid⟩, hbase, h⟩
    · exact signed f q (by rw [Levels.Leaves]; omega) (fun heq => absurd heq (by decide)) h
    · obtain ⟨us, f', rfl, hus⟩ := read_within limit .signed room f q (by rw [Levels.Leaves]; omega) hbase
      obtain ⟨-, -, hpower⟩ := hus.keeps hbase
      exact (exponent_fails power (by omega) h).after hus
  | product room power =>
    intro ts x f q hleaves _ h
    obtain ⟨hpower, hsign, hroom⟩ := hleaves
    rw [read_product, bind_eq_error_iff] at h
    rcases h with h | ⟨⟨left, mid⟩, hleft, h⟩
    · exact power room (Nat.le_refl _) f q ⟨by omega, by omega⟩ (fun heq => absurd heq (by decide)) h
    · obtain ⟨us, f', rfl, hus⟩ := read_within limit .power room f q ⟨by omega, by omega⟩ hleft
      obtain ⟨-, hproduct⟩ := hus.keeps hleft
      exact (chain_fails Levels.counts_product power (by omega) h).after hus
  | sum room product =>
    intro ts x f q hleaves _ h
    have hproduct := hleaves.product
    obtain ⟨-, hroom⟩ := hleaves
    rw [read_sum, bind_eq_error_iff] at h
    rcases h with h | ⟨⟨left, mid⟩, hleft, h⟩
    · exact product room (Nat.le_refl _) _ q hproduct (fun heq => absurd heq (by decide)) h
    · obtain ⟨us, f', rfl, hus⟩ := read_within limit .product room f q hproduct hleft
      have hsum : f'.sum = f.sum := hus.keeps hleft
      exact (chain_fails Levels.counts_sum product (by omega) h).after hus

/-- Outside all parentheses, a closing one cannot stand either. -/
theorem step_of_stops_outside {f t rest} (hstops : Stops Phrase.sum.continues (t :: rest)) :
    levels.step ⟨.operator (), f, []⟩ t = none := by
  by_cases hclosing : ∃ p, t = ⟨.closing, p⟩
  · obtain ⟨p, rfl⟩ := hclosing
    rfl
  · exact step_of_stops hstops fun p hp => hclosing ⟨p, hp⟩

/-- Where nothing is read yet, all levels are left. -/
theorem Levels.leaves_start (limit : Nat) : Levels.Leaves limit .sum limit (.all 0) :=
  ⟨rfl, Nat.zero_add limit⟩

theorem ofLexemes_fails_within {ts x} (h : Expr.ofLexemes ts = .error x) : Fails levelLimit x .start ts := by
  have hleaves := Levels.leaves_start levelLimit
  rw [Expr.ofLexemes, bind_eq_error_iff] at h
  rcases h with h | ⟨⟨e, rest⟩, hread, h⟩
  · exact read_fails levelLimit .sum levelLimit _ _ hleaves (fun heq => absurd heq (by decide)) h
  · obtain ⟨us, f', rfl, hus⟩ := read_within levelLimit .sum levelLimit (.all 0) [] hleaves hread
    have hstops := read_stops .sum levelLimit hread
    cases rest with
    | nil => cases h
    | cons t rest =>
      cases h
      exact Fails.after hus (Blames.trailing rfl rfl (step_of_stops_outside hstops)).fails

theorem ofLexemes_fails {ts x} (h : Expr.ofLexemes ts = .error x) :
    ∃ us rest s, ts = us ++ rest ∧ levels.run .start us = some s ∧ Blames levelLimit x s rest := by
  obtain ⟨us, rest, s, hts, hus, hblames⟩ := ofLexemes_fails_within h
  exact ⟨us, rest, s, hts, hus.run_eq, hblames⟩

end ComplexCalc
