import ComplexCalc.Proofs.Numerals
import ComplexCalc.Proofs.Substitution

/-!
# ReadBack — the text of an expression is read as the expression again

A literal is shown rounded, as the sum of its parts, in parentheses where it is an operand (section 1).  So each operand
is a primary phrase, and no operator takes more or less than it did (section 2).  No two tokens of the text run into each
other (section 3), and what a source text is read as can be shown in this way (section 4).
-/

namespace ComplexCalc

open Binary64

/-! ## 1. Literals -/

/-- The double is neither a NaN nor has a sign. -/
structure Binary64.Plain (x : Float) : Prop where
  unsigned : signBit x = false
  isNumber : x.isNaN = false

theorem plain_toFloat (d : Decimal) : Plain d.toFloat :=
  ⟨signBit_nearest .., isNaN_nearest ..⟩

theorem signBit_floor {x : Float} (h : signBit x = false) : signBit (floor x) = false := by
  rw [floor]
  split
  · split
    · exact h
    · rw [h]
      exact signBit_nearest ..
  · exact h

theorem signBit_fourPlaces {x : Float} (h : signBit x = false) : signBit (Number.fourPlaces x) = false := by
  have hscale : signBit 10000.0 = false := by decide +kernel
  have hhalf : signBit 0.5 = false := by decide +kernel
  have hzero : signBit 0.0 = false := by decide +kernel
  exact signBit_add (signBit_div (signBit_floor (signBit_add (signBit_mul h hscale) hhalf)) hscale) hzero

namespace Expr

def literals : Expr → List Number
  | .lit z => [z]
  | .var _ => []
  | .binary _ left right => left.literals ++ right.literals
  | .call _ argument => argument.literals

/-- The tree in which each literal is the sum of its parts, both rounded to four places. -/
def rounded : Expr → Expr
  | .lit z => .binary .add (.lit ⟨Number.fourPlaces z.re, 0.0⟩) (.lit ⟨0.0, Number.fourPlaces z.im⟩)
  | .var x => .var x
  | .binary op left right => .binary op left.rounded right.rounded
  | .call f argument => .call f argument.rounded

theorem occurrences_rounded (e : Expr) : e.rounded.occurrences = e.occurrences := by
  induction e with
  | lit z => rfl
  | var x => rfl
  | binary op a b iha ihb => rw [rounded, occurrences, iha, ihb, occurrences]
  | call f a ih => rw [rounded, occurrences, ih, occurrences]

/-! ## 2. Tokens -/

/-- The tokens of an operand, from those that it is shown as. -/
def operandTokens (e : Expr) (ts : List Token) : List Token :=
  match e with
  | .lit _ => .opening :: ts ++ [.closing]
  | _ => ts

/-- The tokens that an expression is shown as. -/
def tokens : Expr → List Token
  | .lit z => [.real (Number.fourPlaces z.re), .operator .add, .imaginary (Number.fourPlaces z.im)]
  | .var x => [.name x]
  | .binary op left right =>
    .opening :: (left.operandTokens left.tokens ++ .operator op :: right.operandTokens right.tokens) ++ [.closing]
  | .call f argument => .builtin f :: .opening :: argument.tokens ++ [.closing]

end Expr

/-- The tokens, all at the start of the text. -/
def placed (ts : List Token) : List Lexeme :=
  ts.map (⟨·, 0⟩)

theorem map_token_placed (ts : List Token) : (placed ts).map (·.token) = ts := by
  rw [placed, List.map_map]
  exact List.map_id ts

theorem placed_cons (t : Token) (ts : List Token) : placed (t :: ts) = ⟨t, 0⟩ :: placed ts := rfl

theorem placed_append (ts us : List Token) : placed (ts ++ us) = placed ts ++ placed us :=
  List.map_append

theorem Derives.operation {ts us a b} (op : Operator) (ha : Derives .primary ts a) (hb : Derives .primary us b) :
    Derives .sum (ts ++ ⟨.operator op, 0⟩ :: us) (.binary op a b) := by
  have hleft := Derives.signed (.primary ha)
  have hright := Derives.signed (.primary hb)
  cases op with
  | add => exact .additive rfl (.product (.power hleft)) (.power hright)
  | sub => exact .additive rfl (.product (.power hleft)) (.power hright)
  | mul => exact .product (.multiplicative rfl (.power hleft) hright)
  | div => exact .product (.multiplicative rfl (.power hleft) hright)
  | pow => exact .product (.power (.raised (.primary ha) hright))

/-- What an expression is shown as is a sum, and as an operand a primary phrase, whose tree has its literals rounded. -/
theorem derives_tokens (e : Expr) :
    Derives .sum (placed e.tokens) e.rounded ∧ Derives .primary (placed (e.operandTokens e.tokens)) e.rounded := by
  have hboth : ∀ {ts a}, Derives .primary ts a → Derives .sum ts a ∧ Derives .primary ts a :=
    fun h => ⟨.product (.power (.signed (.primary h))), h⟩
  induction e with
  | lit z =>
    have hparts : Derives .sum (placed (Expr.tokens (.lit z))) (Expr.rounded (.lit z)) := by
      show Derives .sum ([⟨.real _, 0⟩] ++ ⟨.operator .add, 0⟩ :: [⟨.imaginary _, 0⟩]) _
      exact .operation .add .real .imaginary
    exact ⟨hparts, .enclosed hparts⟩
  | var x => exact hboth .name
  | binary op a b iha ihb =>
    have henclosed := Derives.enclosed (p := 0) (q := 0) (.operation op iha.2 ihb.2)
    have htokens : placed (Expr.tokens (.binary op a b)) = ⟨.opening, 0⟩ :: (placed (a.operandTokens a.tokens) ++
        ⟨.operator op, 0⟩ :: placed (b.operandTokens b.tokens)) ++ [⟨.closing, 0⟩] := by
      rw [Expr.tokens, placed_append, placed_cons, placed_append]
      rfl
    rw [← htokens] at henclosed
    exact hboth henclosed
  | call f a ih =>
    have hcall := Derives.call (f := f) (p := 0) (q := 0) (r := 0) ih.1
    have htokens : placed (Expr.tokens (.call f a)) =
        ⟨.builtin f, 0⟩ :: ⟨.opening, 0⟩ :: placed a.tokens ++ [⟨.closing, 0⟩] := by
      rw [Expr.tokens, placed_append]
      rfl
    rw [← htokens] at hcall
    exact hboth hcall

/-! ## 3. Texts -/

/-- The literals are neither negative nor NaN, and the names are spelled as names. -/
def Expr.Readable : Expr → Prop
  | .lit z => Plain z.re ∧ Plain z.im
  | .var x => (Token.name x).SpelledBy x.toList
  | .binary _ left right => left.Readable ∧ right.Readable
  | .call _ argument => argument.Readable

theorem strip_append (s t : String) : Text.strip (s ++ t) = Text.strip s ++ Text.strip t := by
  rw [Text.strip, String.toList_append, List.filter_append, Text.strip, Text.strip]

theorem strip_operator (op : Operator) : Text.strip op.symbol = op.symbol.toList :=
  strip_of_spelling (Token.spelling_iff.mpr ⟨_, .operator op⟩)

theorem strip_builtin (f : Builtin) : Text.strip f.name = f.name.toList :=
  strip_of_spelling (Token.spelling_iff.mpr ⟨_, .builtin f⟩)

/-- Only operators are spelled with stars. -/
theorem star_not_mem {t : Token} {slice : List Char} (h : t.SpelledBy slice) (ht : ∀ op, t ≠ .operator op) :
    '*' ∉ slice := by
  have hnumber : ∀ {run}, NumberRun run → '*' ∉ run := fun hrun hmem => absurd (hrun.all _ hmem) (by decide)
  cases h with
  | real hrun => exact hnumber hrun
  | imaginary hrun => simpa using hnumber hrun
  | unit => decide
  | builtin f => cases f <;> decide
  | name hword =>
    obtain ⟨halpha, hall⟩ := hword
    intro hmem
    rcases List.mem_cons.mp hmem with rfl | hmem
    · exact absurd halpha (by decide)
    · exact absurd (hall _ hmem) (by decide)
  | operator op => exact absurd rfl (ht op)
  | opening => decide
  | closing => decide

/-- An operator is a token by itself in front of anything but a star. -/
theorem Lexes.operator {rest : List Char} {us : List Token} (op : Operator) (h : Lexes rest us)
    (hstar : rest.head? ≠ some '*') : Lexes (op.symbol.toList ++ rest) (.operator op :: us) := by
  refine .cons (.operator op) ?_ h
  intro d hd hspelling
  have hne : d ≠ '*' := by
    rintro rfl
    exact hstar hd
  cases op with
  | pow =>
    rcases Token.spelling_cons hspelling with ⟨hdigit, -⟩ | ⟨halpha, -⟩ | ⟨-, hnil | ⟨-, hone⟩⟩
    · cases hdigit
    · cases halpha
    · cases hnil
    · cases hone
  | _ => exact not_spelling_symbol_cons (by decide) (fun _ => hne) hspelling

theorem text_of_plain {z : Number} (him : Plain z.im) :
    z.text = Binary64.text (Number.fourPlaces z.re) ++ " " ++ "+" ++ " " ++ Binary64.text (Number.fourPlaces z.im) ++
      "i" := by
  have hsign : z.im ≥ 0.0 := zero_le him.unsigned him.isNumber
  rw [Number.text, if_pos hsign, abs_eq_self him.unsigned]
  rfl

/-- A literal is shown as the sum of its rounded parts. -/
theorem lexes_literal {z : Number} (hre : Plain z.re) (him : Plain z.im)
    (hfinite : (Number.fourPlaces z.re).isFinite ∧ (Number.fourPlaces z.im).isFinite) :
    Lexes (Text.strip z.text) (Expr.tokens (.lit z)) := by
  obtain ⟨hreal, -⟩ := spelledBy_text hfinite.1 (signBit_fourPlaces hre.unsigned)
  obtain ⟨hdigits, himaginary⟩ := spelledBy_text hfinite.2 (signBit_fourPlaces him.unsigned)
  have hstrip : Text.strip z.text = (Binary64.text (Number.fourPlaces z.re)).toList ++
      '+' :: (((Binary64.text (Number.fourPlaces z.im)).toList ++ ['i']) ++ []) := by
    have hspace : Text.strip " " = [] := by decide
    have hplus : Text.strip "+" = ['+'] := strip_operator .add
    have hunit : Text.strip "i" = ['i'] := by decide
    rw [text_of_plain him]
    simp only [strip_append, hspace, hplus, hunit, strip_of_spelling (Token.spelling_iff.mpr ⟨_, hreal⟩),
      strip_of_spelling (Token.spelling_iff.mpr ⟨_, hdigits⟩)]
    simp
  have hsecond : Lexes (((Binary64.text (Number.fourPlaces z.im)).toList ++ ['i']) ++ []) [.imaginary _] :=
    .cons himaginary (by simp) .nil
  have hplus := hsecond.operator .add (by
    intro hhead
    rw [List.append_nil] at hhead
    exact star_not_mem himaginary nofun (List.mem_of_head? hhead))
  rw [hstrip]
  refine .cons hreal ?_ hplus
  rintro _ ⟨⟩
  exact not_spelling_snoc_symbol (Token.spelling_iff.mpr ⟨_, hreal⟩).ne_nil (by decide) nofun

theorem Lexes.parenthesized {text : List Char} {ts : List Token} (h : Lexes text ts) :
    Lexes ('(' :: text ++ [')']) (.opening :: ts ++ [.closing]) :=
  (h.append_closing (Lexes.closing .nil)).opening

/-- A text that is cut into the tokens and has no star at either end. -/
structure Shows (text : List Char) (ts : List Token) : Prop where
  lexes : Lexes text ts
  head : text.head? ≠ some '*'
  last : text.getLast? ≠ some '*'

namespace Shows
variable {text other : List Char} {ts us : List Token}

theorem parenthesized (h : Lexes text ts) : Shows ('(' :: text ++ [')']) (.opening :: ts ++ [.closing]) where
  lexes := h.parenthesized
  head := nofun
  last := by
    rw [List.getLast?_concat]
    exact nofun

theorem operation (h : Shows text ts) (h' : Shows other us) (op : Operator) :
    Lexes (text ++ op.symbol.toList ++ other) (ts ++ .operator op :: us) := by
  obtain ⟨d, more, hsymbol, hd⟩ : ∃ d more, op.symbol.toList = d :: more ∧ d ∈ symbols := by
    cases op <;> exact ⟨_, _, rfl, by decide⟩
  -- the operator ends in front of the right operand, and the left operand in front of the operator
  have hbehind := h'.lexes.operator op h'.head
  rw [hsymbol] at hbehind ⊢
  rw [List.append_assoc]
  exact h.lexes.append_symbol hd (fun hlast => absurd hlast h.last) hbehind

theorem name {x : String} (h : (Token.name x).SpelledBy x.toList) : Shows x.toList [.name x] where
  lexes := by
    have hlexes : Lexes (x.toList ++ []) [.name x] := .cons h (by simp) .nil
    rwa [List.append_nil] at hlexes
  head hhead := star_not_mem h nofun (List.mem_of_head? hhead)
  last hlast := star_not_mem h nofun (List.mem_of_getLast? hlast)

theorem call (f : Builtin) (h : Lexes text ts) :
    Shows (f.name.toList ++ ('(' :: text ++ [')'])) (.builtin f :: .opening :: ts ++ [.closing]) where
  lexes := by
    refine .cons (.builtin f) ?_ h.parenthesized
    rintro _ ⟨⟩
    exact not_spelling_snoc_symbol (Token.spelling_iff.mpr ⟨_, .builtin f⟩).ne_nil (by decide) nofun
  head := by cases f <;> exact nofun
  last := by
    rw [← List.append_assoc, List.getLast?_concat]
    exact nofun

end Shows

theorem strip_parenthesized (s : String) : Text.strip ("(" ++ s ++ ")") = '(' :: Text.strip s ++ [')'] := by
  have hopening : Text.strip "(" = ['('] := by decide
  have hclosing : Text.strip ")" = [')'] := by decide
  rw [strip_append, strip_append, hopening, hclosing]
  rfl

theorem strip_binary (op : Operator) (a b : Expr) :
    Text.strip (Expr.binary op a b).text =
      '(' :: (Text.strip (a.asOperand a.text) ++ op.symbol.toList ++ Text.strip (b.asOperand b.text)) ++ [')'] := by
  have hspace : Text.strip " " = [] := by decide
  have htext : (Expr.binary op a b).text =
      "(" ++ (a.asOperand a.text ++ " " ++ op.symbol ++ " " ++ b.asOperand b.text) ++ ")" := by
    rw [Expr.text]
    simp only [String.append_assoc]
  rw [htext, strip_parenthesized]
  simp only [strip_append, hspace, strip_operator, List.append_nil]

theorem strip_call (f : Builtin) (a : Expr) :
    Text.strip (Expr.call f a).text = f.name.toList ++ ('(' :: Text.strip a.text ++ [')']) := by
  have htext : (Expr.call f a).text = f.name ++ ("(" ++ a.text ++ ")") := by
    rw [Expr.text]
    simp only [String.append_assoc]
  rw [htext, strip_append, strip_builtin, strip_parenthesized]

/-- The text of an expression is cut into the tokens that it is shown as, by itself and as an operand. -/
theorem shows_text {e : Expr} (h : e.Readable)
    (hfinite : ∀ z ∈ e.literals, (Number.fourPlaces z.re).isFinite ∧ (Number.fourPlaces z.im).isFinite) :
    Lexes (Text.strip e.text) e.tokens ∧
      Shows (Text.strip (e.asOperand e.text)) (e.operandTokens e.tokens) := by
  induction e with
  | lit z =>
    have hlexes := lexes_literal h.1 h.2 (hfinite z (List.mem_singleton.mpr rfl))
    refine ⟨hlexes, ?_⟩
    rw [Expr.asOperand, strip_parenthesized]
    exact .parenthesized hlexes
  | var x =>
    have hshows := Shows.name h
    rw [← strip_of_spelling (Token.spelling_iff.mpr ⟨_, h⟩)] at hshows
    exact ⟨hshows.lexes, hshows⟩
  | binary op a b iha ihb =>
    have ha := (iha h.1 fun z hz => hfinite z (List.mem_append_left _ hz)).2
    have hb := (ihb h.2 fun z hz => hfinite z (List.mem_append_right _ hz)).2
    have hshows := Shows.parenthesized (ha.operation hb op)
    rw [← strip_binary] at hshows
    exact ⟨hshows.lexes, hshows⟩
  | call f a ih =>
    have hshows := Shows.call f (ih h hfinite).1
    rw [← strip_call] at hshows
    exact ⟨hshows.lexes, hshows⟩

/-! ## 4. Source texts -/

/-- Each token is one that a text can spell. -/
def Spellable (ts : List Lexeme) : Prop :=
  ∀ t ∈ ts, ∃ slice, t.token.SpelledBy slice

section
variable {ts us : List Lexeme} {t : Lexeme}

theorem Spellable.left (h : Spellable (ts ++ t :: us)) : Spellable ts :=
  fun l hl => h l (List.mem_append_left _ hl)

theorem Spellable.right (h : Spellable (ts ++ t :: us)) : Spellable us :=
  fun l hl => h l (List.mem_append_right _ (List.mem_cons_of_mem _ hl))

theorem Spellable.tail (h : Spellable (t :: ts)) : Spellable ts :=
  fun l hl => h l (List.mem_cons_of_mem _ hl)

end

theorem Lexes.spelled {text : List Char} {ts : List Token} (h : Lexes text ts) :
    ∀ t ∈ ts, ∃ slice, t.SpelledBy slice := by
  induction h with
  | nil => simp
  | cons ht _ _ ih =>
    intro u hu
    rcases List.mem_cons.mp hu with rfl | hu
    · exact ⟨_, ht⟩
    · exact ih u hu

theorem plain_zero : Plain 0.0 :=
  ⟨by decide +kernel, by decide +kernel⟩

theorem plain_one : Plain 1.0 :=
  ⟨by decide +kernel, by decide +kernel⟩

/-- No token stands for a negative number: a minus sign is an operator. -/
theorem Derives.readable {ph : Phrase} {ts : List Lexeme} {e : Expr} (h : Derives ph ts e)
    (hspelled : Spellable ts) : e.Readable := by
  induction h with
  | product _ ih => exact ih hspelled
  | additive _ _ _ iha ihb => exact ⟨iha hspelled.left, ihb hspelled.right⟩
  | power _ ih => exact ih hspelled
  | multiplicative _ _ _ iha ihb => exact ⟨iha hspelled.left, ihb hspelled.right⟩
  | signed _ ih => exact ih hspelled
  | raised _ _ iha ihb => exact ⟨iha hspelled.left, ihb hspelled.right⟩
  | primary _ ih => exact ih hspelled
  | minus _ ih => exact ⟨⟨plain_zero, plain_zero⟩, ih hspelled.tail⟩
  | plus _ ih => exact ih hspelled.tail
  | real =>
    obtain ⟨slice, hslice⟩ := hspelled _ (List.mem_singleton.mpr rfl)
    cases hslice
    exact ⟨plain_toFloat _, plain_zero⟩
  | imaginary =>
    obtain ⟨slice, hslice⟩ := hspelled _ (List.mem_singleton.mpr rfl)
    cases hslice
    · exact ⟨plain_zero, plain_toFloat _⟩
    · exact ⟨plain_zero, plain_one⟩
  | @name x =>
    obtain ⟨slice, hslice⟩ := hspelled _ (List.mem_singleton.mpr rfl)
    have hsame : x.toList = slice := by
      cases hslice
      exact String.toList_ofList
    show (Token.name x).SpelledBy x.toList
    rwa [hsame]
  | call _ ih => exact ih hspelled.tail.tail.left
  | enclosed _ ih => exact ih hspelled.tail.left

theorem readable_of_parse {source : String} {e : Expr} (h : Expr.parse source = .ok e) : e.Readable := by
  obtain ⟨hlexes, ts, hts, hsum⟩ := lexes_of_parse h
  refine hsum.readable fun t ht => hlexes.spelled t.token ?_
  rw [← hts]
  exact List.mem_map_of_mem ht

/-- The text of what a source text is read as is read as the same tree, but for its literals, each of which has become
the sum of its rounded parts.  Nothing else can go wrong than that the parentheses nest it too deeply. -/
theorem parse_text {source : String} {e : Expr} (h : Expr.parse source = .ok e)
    (hfinite : ∀ z ∈ e.literals, (Number.fourPlaces z.re).isFinite ∧ (Number.fourPlaces z.im).isFinite) :
    (Expr.parse e.text = .ok e.rounded ∨ ∃ p, Expr.parse e.text = .error (.tooDeep p)) ∧
      e.rounded.occurrences = e.occurrences := by
  have hlexes := (shows_text (readable_of_parse h) hfinite).1
  rw [← map_token_placed e.tokens] at hlexes
  exact ⟨hlexes.parse_cases (derives_tokens e).1, e.occurrences_rounded⟩

/-- The imaginary unit is shown as `0 + 1i`, which is read as a sum. -/
theorem parse_text_imaginaryUnit :
    let e := Expr.lit ⟨0.0, 1.0⟩
    (Expr.parse e.text = .ok e.rounded ∨ ∃ p, Expr.parse e.text = .error (.tooDeep p)) ∧
      e.rounded.occurrences = e.occurrences := by
  refine parse_text parse_imaginaryUnit fun z hz => ?_
  obtain rfl : z = ⟨0.0, 1.0⟩ := List.mem_singleton.mp hz
  decide +kernel

end ComplexCalc
