import ComplexCalc.Proofs.Reading

/-!
# Grammar — the grammar of expressions, and that the parser follows it

The grammar is a relation between tokens and trees, with no limit on levels and no look at positions.  What the parser
accepts is derived by it (section 1).  What it derives is accepted with its own tree, unless the levels run out, which
takes more tokens than levels (section 2).  So no token list has two trees (section 3).  The variables and the calls
of a tree are the names and the functions among its tokens (section 4).
-/

namespace ComplexCalc

/-- The tokens spell the expression, as a phrase of the given kind:

    sum     := product (("+" | "-") product)*      grouped from the left
    product := power (("*" | "/") power)*          grouped from the left
    power   := signed ("**" power)?                grouped from the right
    signed  := ("-" | "+") signed | primary
    primary := real | imaginary | name | function "(" sum ")" | "(" sum ")"

A minus sign subtracts from zero; a plus sign and parentheses leave nothing in the tree. -/
inductive Derives : Phrase → List Lexeme → Expr → Prop where
  | product {ts e} : Derives .product ts e → Derives .sum ts e
  | additive {ts us a b op p} : op.isAdditive = true → Derives .sum ts a → Derives .product us b →
      Derives .sum (ts ++ ⟨.operator op, p⟩ :: us) (.binary op a b)
  | power {ts e} : Derives .power ts e → Derives .product ts e
  | multiplicative {ts us a b op p} : op.isMultiplicative = true → Derives .product ts a →
      Derives .power us b → Derives .product (ts ++ ⟨.operator op, p⟩ :: us) (.binary op a b)
  | signed {ts e} : Derives .signed ts e → Derives .power ts e
  | raised {ts us a b p} : Derives .signed ts a → Derives .power us b →
      Derives .power (ts ++ ⟨.operator .pow, p⟩ :: us) (.binary .pow a b)
  | primary {ts e} : Derives .primary ts e → Derives .signed ts e
  | minus {ts e p} : Derives .signed ts e →
      Derives .signed (⟨.operator .sub, p⟩ :: ts) (.binary .sub (.lit .zero) e)
  | plus {ts e p} : Derives .signed ts e → Derives .signed (⟨.operator .add, p⟩ :: ts) e
  | real {x p} : Derives .primary [⟨.real x, p⟩] (.lit ⟨x, 0.0⟩)
  | imaginary {x p} : Derives .primary [⟨.imaginary x, p⟩] (.lit ⟨0.0, x⟩)
  | name {x p} : Derives .primary [⟨.name x, p⟩] (.var x)
  | call {ts e f p q r} : Derives .sum ts e →
      Derives .primary (⟨.builtin f, p⟩ :: ⟨.opening, q⟩ :: ts ++ [⟨.closing, r⟩]) (.call f e)
  | enclosed {ts e p q} : Derives .sum ts e →
      Derives .primary (⟨.opening, p⟩ :: ts ++ [⟨.closing, q⟩]) e

open ComplexCalc.Parser

/-! ## 1. Soundness -/

/-- What is read as a phrase is derived as that phrase. -/
def Sound (ph : Phrase) (room : Nat) : Prop :=
  ∀ {ts e rest}, read ph room ts = .ok (e, rest) → ∃ us, ts = us ++ rest ∧ Derives ph us e

/-- The tokens before the chain grow with every link, so the whole chain is one derivation from the left. -/
theorem Parser.Chains.sound {links operand room left ts e rest whole before}
    (link : ∀ {ts us a b op p}, links op = true → Derives whole ts a → Derives operand us b →
      Derives whole (ts ++ ⟨.operator op, p⟩ :: us) (.binary op a b))
    (sound : ∀ below ≤ room, Sound operand below) (hleft : Derives whole before left)
    (h : Chains links operand room left ts e rest) :
    ∃ us, ts = us ++ rest ∧ Derives whole (before ++ us) e := by
  induction h generalizing before with
  | stop _ => exact ⟨[], rfl, by rwa [List.append_nil]⟩
  | @link room _ op p _ _ _ _ _ hop hright _ ih =>
    -- the left part of the next link is all that is derived so far
    obtain ⟨us, rfl, hus⟩ := sound room (Nat.le_succ room) hright
    obtain ⟨vs, rfl, hvs⟩ := ih (fun below hb => sound below (Nat.le_succ_of_le hb)) (link hop hleft hus)
    exact ⟨⟨.operator op, p⟩ :: us ++ vs, by simp, by simpa using hvs⟩

theorem exponent_sound {room base ts e rest before} (sound : ∀ below < room, Sound .power below)
    (hbase : Derives .signed before base) (h : exponent room base ts = .ok (e, rest)) :
    ∃ us, ts = us ++ rest ∧ Derives .power (before ++ us) e := by
  rcases exponent_ok_cases h with ⟨rfl, rfl, -⟩ | ⟨below, p, mid, raised, rfl, rfl, hraised, rfl⟩
  · exact ⟨[], rfl, by rw [List.append_nil]; exact .signed hbase⟩
  · obtain ⟨us, rfl, hus⟩ := sound below (Nat.lt_succ_self below) hraised
    exact ⟨⟨.operator .pow, p⟩ :: us, rfl, .raised hbase hus⟩

theorem enclosed_sound {room opened ts e rest} (sound : ∀ below < room, Sound .sum below)
    (h : enclosed room opened ts = .ok (e, rest)) :
    ∃ us p, ts = us ++ ⟨.closing, p⟩ :: rest ∧ Derives .sum us e := by
  obtain ⟨below, p, rfl, hinner⟩ := enclosed_ok_cases h
  obtain ⟨us, rfl, hus⟩ := sound below (Nat.lt_succ_self below) hinner
  exact ⟨us, p, rfl, hus⟩

theorem primary_sound {room} (sum : ∀ below < room, Sound .sum below) : Sound .primary room := by
  intro ts e rest h
  cases readsPrimary_of_ok h with
  | real => exact ⟨[_], rfl, .real⟩
  | imaginary => exact ⟨[_], rfl, .imaginary⟩
  | name => exact ⟨[_], rfl, .name⟩
  | @enclosed opened _ _ _ hinner =>
    obtain ⟨us, p, rfl, hus⟩ := enclosed_sound sum hinner
    exact ⟨⟨.opening, opened⟩ :: us ++ [⟨.closing, p⟩], by simp, .enclosed hus⟩
  | @call f position opened _ _ _ hargument =>
    obtain ⟨us, p, rfl, hus⟩ := enclosed_sound sum hargument
    exact ⟨⟨.builtin f, position⟩ :: ⟨.opening, opened⟩ :: us ++ [⟨.closing, p⟩], by simp, .call hus⟩

theorem signed_sound {room} (signed : ∀ below < room, Sound .signed below) (primary : Sound .primary room) :
    Sound .signed room := by
  intro ts e rest h
  cases readsSigned_of_ok h with
  | @minus _ position _ _ _ hoperand =>
    obtain ⟨us, rfl, hus⟩ := signed _ (Nat.lt_succ_self _) hoperand
    exact ⟨⟨.operator .sub, position⟩ :: us, rfl, .minus hus⟩
  | @plus _ position _ _ _ hoperand =>
    obtain ⟨us, rfl, hus⟩ := signed _ (Nat.lt_succ_self _) hoperand
    exact ⟨⟨.operator .add, position⟩ :: us, rfl, .plus hus⟩
  | primary hprimary =>
    obtain ⟨us, rfl, hus⟩ := primary hprimary
    exact ⟨us, rfl, .primary hus⟩

theorem read_sound (ph : Phrase) (room : Nat) : Sound ph room := by
  induction ph, room using read_induction with
  | primary room sum => exact primary_sound sum
  | signed room signed primary => exact signed_sound signed primary
  | power room power signed =>
    intro ts e rest h
    obtain ⟨base, mid, hbase, hexponent⟩ := power_of_ok h
    obtain ⟨us, rfl, hus⟩ := signed hbase
    obtain ⟨vs, rfl, hvs⟩ := exponent_sound power hus hexponent
    exact ⟨us ++ vs, by rw [List.append_assoc], hvs⟩
  | product room power =>
    intro ts e rest h
    obtain ⟨left, mid, hleft, hchain⟩ := product_of_ok h
    obtain ⟨us, rfl, hus⟩ := power room (Nat.le_refl _) hleft
    obtain ⟨vs, rfl, hvs⟩ := hchain.sound .multiplicative power (.power hus)
    exact ⟨us ++ vs, by rw [List.append_assoc], hvs⟩
  | sum room product =>
    intro ts e rest h
    obtain ⟨left, mid, hleft, hchain⟩ := sum_of_ok h
    obtain ⟨us, rfl, hus⟩ := product room (Nat.le_refl _) hleft
    obtain ⟨vs, rfl, hvs⟩ := hchain.sound .additive product (.product hus)
    exact ⟨us ++ vs, by rw [List.append_assoc], hvs⟩

theorem ofLexemes_sound {ts : List Lexeme} {e : Expr} (h : Expr.ofLexemes ts = .ok e) : Derives .sum ts e := by
  obtain ⟨us, rfl, hus⟩ := read_sound .sum levelLimit (Expr.ofLexemes_ok_iff.mp h)
  rwa [List.append_nil]

/-! ## 2. Completeness -/

/-- The levels ran out, which takes more tokens than levels. -/
def Exhausts (room : Nat) (us : List Lexeme) (r : Reading) : Prop :=
  room < us.length ∧ ∃ p, r = .error (.tooDeep p)

/-- Before anything that does not go on with the phrase, the tokens are read as it. -/
def ReadsTo (ph : Phrase) (us : List Lexeme) (e : Expr) : Prop :=
  ∀ room rest, Stops ph.continues rest →
    read ph room (us ++ rest) = .ok (e, rest) ∨ Exhausts room us (read ph room (us ++ rest))

/-- The tokens are read as the left part of a chain, which then goes on with the levels that its links left over. -/
def ChainsTo (ph : Phrase) (links : Operator → Bool) (operand : Phrase) (us : List Lexeme) (e : Expr) : Prop :=
  ∀ room rest, Stops operand.continues rest →
    (∃ free, room ≤ free + us.length ∧ read ph room (us ++ rest) = chain links operand free e rest) ∨
      Exhausts room us (read ph room (us ++ rest))

/-- What a derivation says about reading.  A derivation of a chain ends with its last link, and the reading of a chain
starts with its first, so a chain is followed up to any of its links. -/
def Complete : Phrase → List Lexeme → Expr → Prop
  | .sum => ChainsTo .sum Operator.isAdditive .product
  | .product => ChainsTo .product Operator.isMultiplicative .power
  | ph => ReadsTo ph

theorem ChainsTo.readsTo {ph links operand us e} (h : ChainsTo ph links operand us e)
    (hlinks : ∀ op, links op = true → ph.continues op = true)
    (hoperand : ∀ op, operand.continues op = true → ph.continues op = true) : ReadsTo ph us e := by
  intro room rest hrest
  rcases h room rest (hrest.mono hoperand) with ⟨free, -, h⟩ | h
  · rw [chain_of_stops (hrest.mono hlinks)] at h
    exact .inl h
  · exact .inr h

theorem ChainsTo.first {ph links operand us e}
    (hread : ∀ room ts, read ph room ts = read operand room ts >>= fun r => chain links operand room r.1 r.2)
    (h : ReadsTo operand us e) : ChainsTo ph links operand us e := by
  intro room rest hrest
  rw [hread]
  rcases h room rest hrest with h | ⟨hlt, p, h⟩
  · exact .inl ⟨room, by omega, by rw [h]; rfl⟩
  · exact .inr ⟨hlt, p, by rw [h]; rfl⟩

theorem ChainsTo.link {ph links operand ts us a b op p} (hop : links op = true)
    (hstop : operand.continues op = false) (ha : ChainsTo ph links operand ts a) (hb : ReadsTo operand us b) :
    ChainsTo ph links operand (ts ++ ⟨.operator op, p⟩ :: us) (.binary op a b) := by
  intro room rest hrest
  have hlength : (ts ++ ⟨.operator op, p⟩ :: us).length = ts.length + us.length + 1 := by
    rw [List.length_append, List.length_cons]
    omega
  rw [Exhausts, hlength, List.append_assoc]
  rcases ha room (⟨.operator op, p⟩ :: us ++ rest) hstop with ⟨free, hfree, h⟩ | ⟨hlt, h⟩
  · -- the chain has read its left part and stands at the operator, with the levels that are left over
    rw [h, List.cons_append]
    cases free with
    | zero => exact .inr ⟨by omega, p, chain_zero hop⟩
    | succ free =>
      rw [chain_succ hop]
      rcases hb free rest hrest with h | ⟨hlt, q, h⟩
      · exact .inl ⟨free, by omega, by rw [h]; rfl⟩
      · exact .inr ⟨by omega, q, by rw [h]; rfl⟩
  · exact .inr ⟨by omega, h⟩

theorem sum_readsTo {us e} (h : Complete .sum us e) : ReadsTo .sum us e :=
  ChainsTo.readsTo h (fun _ _ => rfl) (fun _ _ => rfl)

theorem product_readsTo {us e} (h : Complete .product us e) : ReadsTo .product us e :=
  ChainsTo.readsTo h (by intro op; cases op <;> decide) (by intro op; cases op <;> decide)

theorem ReadsTo.power {us e} (h : ReadsTo .signed us e) : ReadsTo .power us e := by
  intro room rest hrest
  rw [read_power]
  rcases h room rest (hrest.mono fun _ h => absurd h Bool.false_ne_true) with h | ⟨hlt, p, h⟩
  · refine .inl ?_
    rw [h]
    exact exponent_of_stops hrest
  · exact .inr ⟨hlt, p, by rw [h]; rfl⟩

theorem ReadsTo.raised {us vs a b p} (ha : ReadsTo .signed us a) (hb : ReadsTo .power vs b) :
    ReadsTo .power (us ++ ⟨.operator .pow, p⟩ :: vs) (.binary .pow a b) := by
  intro room rest hrest
  have hlength : (us ++ ⟨.operator .pow, p⟩ :: vs).length = us.length + vs.length + 1 := by
    rw [List.length_append, List.length_cons]
    omega
  rw [Exhausts, hlength, List.append_assoc, read_power]
  rcases ha room (⟨.operator .pow, p⟩ :: vs ++ rest) rfl with h | ⟨hlt, q, h⟩
  · rw [h]
    cases room with
    | zero => exact .inr ⟨by omega, p, rfl⟩
    | succ room =>
      rcases hb room rest hrest with h | ⟨hlt, q, h⟩
      · exact .inl (by simp only [bind, Except.bind, List.cons_append, exponent_succ, h])
      · exact .inr ⟨by omega, q, by simp only [bind, Except.bind, List.cons_append, exponent_succ, h]⟩
  · exact .inr ⟨by omega, q, by rw [h]; rfl⟩

theorem ReadsTo.minus {us e p} (h : ReadsTo .signed us e) :
    ReadsTo .signed (⟨.operator .sub, p⟩ :: us) (.binary .sub (.lit .zero) e) := by
  intro room rest hrest
  rw [Exhausts, List.length_cons, List.cons_append, read_signed]
  cases room with
  | zero => exact .inr ⟨by omega, p, rfl⟩
  | succ room =>
    rcases h room rest hrest with h | ⟨hlt, q, h⟩
    · exact .inl (by simp only [h, bind, Except.bind])
    · exact .inr ⟨by omega, q, by simp only [h, bind, Except.bind]⟩

theorem ReadsTo.plus {us e p} (h : ReadsTo .signed us e) : ReadsTo .signed (⟨.operator .add, p⟩ :: us) e := by
  intro room rest hrest
  rw [Exhausts, List.length_cons, List.cons_append, read_signed]
  cases room with
  | zero => exact .inr ⟨by omega, p, rfl⟩
  | succ room =>
    rcases h room rest hrest with h | ⟨hlt, q, h⟩
    · exact .inl h
    · exact .inr ⟨by omega, q, h⟩

/-- A primary phrase does not start with a sign, so it is read as such where a signed phrase is due. -/
theorem Derives.read_signed_eq {us e} (h : Derives .primary us e) (room : Nat) (rest : List Lexeme) :
    read .signed room (us ++ rest) = read .primary room (us ++ rest) := by
  rw [read_signed]
  cases h <;> rfl

theorem enclosed_complete {us e p} (h : ReadsTo .sum us e) (room opened : Nat) (rest : List Lexeme) :
    enclosed room opened (us ++ ⟨.closing, p⟩ :: rest) = .ok (e, rest) ∨
      room < us.length + 1 ∧ ∃ q, enclosed room opened (us ++ ⟨.closing, p⟩ :: rest) = .error (.tooDeep q) := by
  cases room with
  | zero => exact .inr ⟨by omega, opened, enclosed_zero ..⟩
  | succ room =>
    rw [enclosed_succ]
    rcases h room (⟨.closing, p⟩ :: rest) trivial with h | ⟨hlt, q, h⟩
    · exact .inl (by rw [h]; rfl)
    · exact .inr ⟨by omega, q, by rw [h]; rfl⟩

theorem ReadsTo.enclosed {us e p q} (h : ReadsTo .sum us e) :
    ReadsTo .primary (⟨.opening, p⟩ :: us ++ [⟨.closing, q⟩]) e := by
  intro room rest _
  have hlength : (⟨.opening, p⟩ :: us ++ [⟨.closing, q⟩] : List Lexeme).length = us.length + 2 := by simp
  rw [Exhausts, hlength, List.append_assoc, read_primary]
  rcases enclosed_complete (p := q) h room p rest with h | ⟨hlt, r, h⟩
  · exact .inl h
  · exact .inr ⟨by omega, r, h⟩

theorem ReadsTo.call {us e f p q r} (h : ReadsTo .sum us e) :
    ReadsTo .primary (⟨.builtin f, p⟩ :: ⟨.opening, q⟩ :: us ++ [⟨.closing, r⟩]) (.call f e) := by
  intro room rest _
  have hlength : (⟨.builtin f, p⟩ :: ⟨.opening, q⟩ :: us ++ [⟨.closing, r⟩] : List Lexeme).length = us.length + 3 := by
    simp
  rw [Exhausts, hlength, List.append_assoc, read_primary]
  simp only [List.cons_append, List.nil_append]
  rcases enclosed_complete (p := r) h room q rest with h | ⟨hlt, t, h⟩
  · exact .inl (by rw [h]; rfl)
  · exact .inr ⟨by omega, t, by rw [h]; rfl⟩

theorem Derives.complete {ph us e} (h : Derives ph us e) : Complete ph us e := by
  induction h with
  | product _ product => exact ChainsTo.first read_sum (product_readsTo product)
  | @additive _ _ _ _ op _ hop _ _ sum product =>
    exact ChainsTo.link hop (by simp [Phrase.continues, hop]) sum (product_readsTo product)
  | power _ power => exact ChainsTo.first read_product power
  | @multiplicative _ _ _ _ op _ hop _ _ product power =>
    exact ChainsTo.link hop (by cases op <;> first | rfl | cases hop) product power
  | signed _ signed => exact ReadsTo.power signed
  | raised _ _ signed power => exact ReadsTo.raised signed power
  | primary hprimary primary =>
    -- here the signed phrase looks for a sign first
    intro room rest hrest
    rw [hprimary.read_signed_eq]
    exact primary room rest hrest
  | minus _ signed => exact ReadsTo.minus signed
  | plus _ signed => exact ReadsTo.plus signed
  | real => exact fun room rest _ => .inl (by rw [read_primary]; rfl)
  | imaginary => exact fun room rest _ => .inl (by rw [read_primary]; rfl)
  | name => exact fun room rest _ => .inl (by rw [read_primary]; rfl)
  | call _ sum => exact ReadsTo.call (sum_readsTo sum)
  | enclosed _ sum => exact ReadsTo.enclosed (sum_readsTo sum)

/-- Read with at least as many levels as there are tokens, what the grammar derives is read whole. -/
theorem Derives.read_eq {ts e} (h : Derives .sum ts e) {room : Nat} (hroom : ts.length ≤ room) :
    read .sum room ts = .ok (e, []) := by
  have hread := sum_readsTo h.complete room [] trivial
  rw [List.append_nil] at hread
  rcases hread with hread | ⟨hlt, -⟩
  · exact hread
  · omega

theorem Derives.ofLexemes_eq {ts e} (h : Derives .sum ts e) :
    Expr.ofLexemes ts = .ok e ∨ ∃ p, Expr.ofLexemes ts = .error (.tooDeep p) := by
  have hread := sum_readsTo h.complete levelLimit [] trivial
  rw [List.append_nil] at hread
  rcases hread with hread | ⟨-, p, hread⟩
  · exact .inl (Expr.ofLexemes_ok_iff.mpr hread)
  · rw [show read .sum = sum from rfl] at hread
    exact .inr ⟨p, by rw [Expr.ofLexemes, hread]; rfl⟩

/-! ## 3. One tree for each token list -/

theorem Derives.unique {ts a b} (ha : Derives .sum ts a) (hb : Derives .sum ts b) : a = b := by
  have h := (ha.read_eq (Nat.le_refl _)).symm.trans (hb.read_eq (Nat.le_refl _))
  cases h
  rfl

/-- The parser follows the grammar: it accepts only what the grammar derives, with the tree of the derivation, and
refuses nothing of it but what is nested too deeply. -/
theorem ofLexemes_follows_grammar (ts : List Lexeme) :
    (∀ e, Expr.ofLexemes ts = .ok e → Derives .sum ts e) ∧
      (∀ e, Derives .sum ts e →
        Expr.ofLexemes ts = .ok e ∨ ∃ p, Expr.ofLexemes ts = .error (.tooDeep p)) ∧
      (∀ a b, Derives .sum ts a → Derives .sum ts b → a = b) ∧
      ((¬ ∃ e, Derives .sum ts e) → ∃ x, Expr.ofLexemes ts = .error x) := by
  refine ⟨fun e => ofLexemes_sound, fun e => Derives.ofLexemes_eq, fun a b => Derives.unique, fun hnone => ?_⟩
  cases h : Expr.ofLexemes ts with
  | ok e => exact absurd ⟨e, ofLexemes_sound h⟩ hnone
  | error x => exact ⟨x, rfl⟩

/-! ## 4. Words -/

def Token.name? : Token → Option String
  | .name x => some x
  | _ => none

def Token.builtin? : Token → Option Builtin
  | .builtin f => some f
  | _ => none

/-- A name or a function. -/
def Token.isWord (t : Token) : Bool :=
  t.name?.isSome || t.builtin?.isSome

/-- The names among the tokens, each as often as it occurs. -/
def namesOf (ts : List Lexeme) : List String :=
  ts.filterMap fun t => t.token.name?

/-- The functions among the tokens, each as often as it occurs. -/
def builtinsOf (ts : List Lexeme) : List Builtin :=
  ts.filterMap fun t => t.token.builtin?

def wordsOf (ts : List Lexeme) : List Token :=
  (ts.map (·.token)).filter Token.isWord

namespace Expr

/-- The functions that are called, from left to right, each before those in its argument. -/
def calls : Expr → List Builtin
  | .lit _ => []
  | .var _ => []
  | .binary _ left right => left.calls ++ right.calls
  | .call f argument => f :: argument.calls

/-- The variables and the functions in one sequence. -/
def words : Expr → List Token
  | .lit _ => []
  | .var x => [.name x]
  | .binary _ left right => left.words ++ right.words
  | .call f argument => .builtin f :: argument.words

theorem occurrences_eq_words (e : Expr) : e.occurrences = e.words.filterMap Token.name? := by
  induction e with
  | lit z => rfl
  | var x => rfl
  | binary op a b iha ihb => rw [occurrences, iha, ihb, words, List.filterMap_append]
  | call f a ih => exact ih

theorem calls_eq_words (e : Expr) : e.calls = e.words.filterMap Token.builtin? := by
  induction e with
  | lit z => rfl
  | var x => rfl
  | binary op a b iha ihb => rw [calls, iha, ihb, words, List.filterMap_append]
  | call f a ih => exact congrArg (f :: ·) ih

end Expr

/-- What is told of words alone can be looked up among the words. -/
theorem filterMap_wordsOf {α : Type} {f : Token → Option α} (h : ∀ t, t.isWord = false → f t = none)
    (ts : List Lexeme) : (wordsOf ts).filterMap f = ts.filterMap fun t => f t.token := by
  induction ts with
  | nil => rfl
  | cons t ts ih =>
    rw [wordsOf, List.map_cons, List.filterMap_cons (a := t)]
    cases hword : t.token.isWord with
    | true => rw [List.filter_cons_of_pos hword, List.filterMap_cons, ← wordsOf, ih]
    | false => rw [List.filter_cons_of_neg (Bool.eq_false_iff.mp hword), ← wordsOf, ih, h _ hword]

/-- The words of a tree are those among its tokens, in the same order. -/
theorem Derives.words_eq {ph ts e} (h : Derives ph ts e) : e.words = wordsOf ts := by
  have happend : ∀ ts us, wordsOf (ts ++ us) = wordsOf ts ++ wordsOf us := by
    intro ts us
    rw [wordsOf, List.map_append, List.filter_append, ← wordsOf, ← wordsOf]
  induction h with
  | product _ ih => exact ih
  | additive _ _ _ iha ihb =>
    rw [Expr.words, iha, ihb, happend]
    rfl
  | power _ ih => exact ih
  | multiplicative _ _ _ iha ihb =>
    rw [Expr.words, iha, ihb, happend]
    rfl
  | signed _ ih => exact ih
  | raised _ _ iha ihb =>
    rw [Expr.words, iha, ihb, happend]
    rfl
  | primary _ ih => exact ih
  | minus _ ih => exact ih
  | plus _ ih => exact ih
  | real => rfl
  | imaginary => rfl
  | name => rfl
  | call _ ih =>
    rw [Expr.words, ih, happend]
    exact (List.append_nil _).symm
  | enclosed _ ih =>
    rw [ih, happend]
    exact (List.append_nil _).symm

/-- The variables of a tree are the names among its tokens, in the same order. -/
theorem Derives.occurrences_eq {ph ts e} (h : Derives ph ts e) : e.occurrences = namesOf ts := by
  have hnone : ∀ t : Token, t.isWord = false → t.name? = none := by
    intro t ht
    cases t <;> first | rfl | cases ht
  rw [e.occurrences_eq_words, h.words_eq, filterMap_wordsOf hnone]
  rfl

/-- The calls of a tree are the functions among its tokens, in the same order. -/
theorem Derives.calls_eq {ph ts e} (h : Derives ph ts e) : e.calls = builtinsOf ts := by
  have hnone : ∀ t : Token, t.isWord = false → t.builtin? = none := by
    intro t ht
    cases t <;> first | rfl | cases ht
  rw [e.calls_eq_words, h.words_eq, filterMap_wordsOf hnone]
  rfl

end ComplexCalc
