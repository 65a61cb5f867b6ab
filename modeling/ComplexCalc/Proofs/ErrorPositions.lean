import ComplexCalc.Proofs.Grammar
import ComplexCalc.Proofs.Lexing

/-!
# ErrorPositions — the position of an error is where the thing stands that it names

An error of the lexer names a character of the text.  An error of the parser names tokens that follow one another
(section 2), and every token is spelled at its position (section 1), so the text from the position on starts with what
the message shows.
-/

namespace ComplexCalc

open ComplexCalc.Parser

/-! ## 1. What stands at a position -/

/-- The text starts with a spelling of the token. -/
def Token.Leads (t : Token) (text : List Char) : Prop :=
  ∃ slice rest, text = slice ++ rest ∧ t.SpelledBy slice

theorem Token.Leads.ne_nil {t : Token} {text : List Char} (h : t.Leads text) : text ≠ [] := by
  obtain ⟨slice, rest, rfl, hslice⟩ := h
  have hsome := (Token.spelling_iff.mpr ⟨t, hslice⟩).ne_nil
  simp [hsome]

theorem head?_of_opening_leads {text : List Char} (h : Token.opening.Leads text) : text.head? = some '(' := by
  obtain ⟨slice, rest, rfl, hslice⟩ := h
  cases hslice
  rfl

/-- Operators start with one of four characters, the power with the same one as the product. -/
theorem head?_of_operator_leads {op : Operator} {text : List Char} (h : (Token.operator op).Leads text) :
    ∃ c ∈ ['+', '-', '*', '/'], text.head? = some c := by
  obtain ⟨slice, rest, rfl, hslice⟩ := h
  cases hslice
  cases op with
  | add => exact ⟨'+', by decide, rfl⟩
  | sub => exact ⟨'-', by decide, rfl⟩
  | mul => exact ⟨'*', by decide, rfl⟩
  | div => exact ⟨'/', by decide, rfl⟩
  | pow => exact ⟨'*', by decide, rfl⟩

/-- Every slice of a cut is where the slices before it end. -/
theorem Lists.located {start : Nat} {slices : List (List Char)} {ts : List Lexeme} (h : Lists start slices ts) {k : Nat}
    {u : Lexeme} (hu : ts[k]? = some u) :
    ∃ before behind, slices.flatten = before ++ behind ∧ start + byteLength before = u.position ∧
      u.token.Leads behind := by
  obtain ⟨hk, rfl⟩ := List.getElem?_eq_some_iff.mp hu
  have hk' : k < slices.length := h.spelled.length_eq ▸ hk
  refine ⟨(slices.take k).flatten, (slices.drop k).flatten, ?_, (h.positions k _ hu).symm, ?_⟩
  · rw [← List.flatten_append, List.take_append_drop]
  · rw [List.drop_eq_getElem_cons hk', List.flatten_cons]
    exact ⟨_, _, rfl, h.spelled.get hk' hk⟩

/-- Among the tokens of the source the one at the given index has the position, and the text from there on starts with
its spelling. -/
structure HasToken (source : String) (p : Nat) (behind : List Char) (ts : List Lexeme) (k : Nat) (t : Token) : Prop where
  tokens : tokenize source = .ok ts
  listed : ts[k]? = some ⟨t, p⟩
  leads : t.Leads behind

theorem tokenize_located {source : String} {ts : List Lexeme} {k p : Nat} {t : Token} (h : tokenize source = .ok ts)
    (hlisted : ts[k]? = some ⟨t, p⟩) :
    ∃ before behind, Text.strip source = before ++ behind ∧ byteLength before = p ∧ HasToken source p behind ts k t := by
  obtain ⟨slices, hsegments, hlists⟩ := Token.scan_ok_iff.mp h
  obtain ⟨before, behind, hflatten, hposition, hleads⟩ := hlists.located hlisted
  rw [hsegments.flatten_eq] at hflatten
  rw [Nat.zero_add] at hposition
  exact ⟨before, behind, hflatten, hposition, h, hlisted, hleads⟩

/-! ## 2. The tokens that an error of the parser names -/

/-- The tokens in a row that an error is about. Where the tokens end too early there is none. -/
inductive SyntaxError.Cites : SyntaxError → List Lexeme → Prop where
  | unexpected {t p} : Cites (.unexpected t p) [⟨t, p⟩]
  | noArgument {t f p q} : Cites (.noArgument t f p) [⟨.builtin f, q⟩, ⟨t, p⟩]
  | unexpectedEnd : Cites .unexpectedEnd []
  | unclosed {p} : Cites (.unclosed p) [⟨.opening, p⟩]
  | trailing {t p} : Cites (.trailing t p) [⟨t, p⟩]
  | operatorTooDeep {op p} : Cites (.tooDeep p) [⟨.operator op, p⟩]
  | openingTooDeep {p} : Cites (.tooDeep p) [⟨.opening, p⟩]

/-- The error cites some of the tokens. -/
def SyntaxError.CitedFrom (x : SyntaxError) (ts : List Lexeme) : Prop :=
  ∃ cited, x.Cites cited ∧ cited <:+: ts

theorem SyntaxError.Cites.citedFrom {x : SyntaxError} {cited rest : List Lexeme} (h : x.Cites cited) :
    x.CitedFrom (cited ++ rest) :=
  ⟨cited, h, (List.prefix_append cited rest).isInfix⟩

theorem SyntaxError.CitedFrom.behind {x : SyntaxError} {ts : List Lexeme} (h : x.CitedFrom ts) (us : List Lexeme) :
    x.CitedFrom (us ++ ts) := by
  obtain ⟨cited, hcites, hinfix⟩ := h
  exact ⟨cited, hcites, hinfix.trans (List.suffix_append us ts).isInfix⟩

/-- What a phrase cannot be read from is what its error cites. -/
def FailsCiting (ph : Phrase) (room : Nat) : Prop :=
  ∀ {ts x}, read ph room ts = .error x → x.CitedFrom ts

/-- Behind a phrase that was read, an error cites tokens of what is left. -/
theorem citedFrom_of_rest {ph room ts r} {x : SyntaxError} (hread : read ph room ts = .ok r) (h : x.CitedFrom r.2) :
    x.CitedFrom ts := by
  obtain ⟨us, rfl, -⟩ := read_sound ph room hread
  exact h.behind us

theorem chain_cites {links operand room left ts x} (hread : ∀ below ≤ room, FailsCiting operand below)
    (h : chain links operand room left ts = .error x) : x.CitedFrom ts := by
  induction room generalizing left ts with
  | zero =>
    rcases stops_or_link links ts with stops | ⟨op, position, tail, rfl, hop⟩
    · rw [chain_of_stops stops] at h
      cases h
    · rw [chain_zero hop] at h
      cases h
      exact SyntaxError.Cites.operatorTooDeep.citedFrom
  | succ room ih =>
    rcases stops_or_link links ts with stops | ⟨op, position, tail, rfl, hop⟩
    · rw [chain_of_stops stops] at h
      cases h
    · rw [chain_succ hop, bind_eq_error_iff] at h
      apply SyntaxError.CitedFrom.behind _ [⟨.operator op, position⟩]
      rcases h with h | ⟨r, hright, h⟩
      · exact hread room (Nat.le_succ room) h
      · exact citedFrom_of_rest hright (ih (fun below hb => hread below (Nat.le_succ_of_le hb)) h)

theorem exponent_cites {room base ts x} (power : ∀ below < room, FailsCiting .power below)
    (h : exponent room base ts = .error x) : x.CitedFrom ts := by
  rcases stops_or_link Operator.isPower ts with stops | ⟨op, position, tail, rfl, hop⟩
  · rw [exponent_of_stops stops] at h
    cases h
  · obtain rfl : op = .pow := beq_iff_eq.mp hop
    cases room with
    | zero =>
      cases h
      exact SyntaxError.Cites.operatorTooDeep.citedFrom
    | succ room =>
      rw [exponent_succ, bind_eq_error_iff] at h
      rcases h with h | ⟨r, -, h⟩
      · exact (power room (Nat.lt_succ_self room) h).behind [_]
      · cases h

/-- A parenthesis is remembered by its position until it is closed. -/
theorem enclosed_cites {room opened ts x} (sum : ∀ below < room, FailsCiting .sum below)
    (h : enclosed room opened ts = .error x) : x.CitedFrom (⟨.opening, opened⟩ :: ts) := by
  cases room with
  | zero =>
    rw [enclosed_zero] at h
    cases h
    exact SyntaxError.Cites.openingTooDeep.citedFrom
  | succ room =>
    rw [enclosed_succ, bind_eq_error_iff] at h
    rcases h with h | ⟨r, -, h⟩
    · exact (sum room (Nat.lt_succ_self room) h).behind [_]
    · split at h
      · cases h
      · cases h
        exact SyntaxError.Cites.unclosed.citedFrom

theorem primary_cites {room} (sum : ∀ below < room, FailsCiting .sum below) : FailsCiting .primary room := by
  intro ts x h
  rw [read_primary] at h
  split at h
  · cases h
    exact SyntaxError.Cites.unexpectedEnd.citedFrom
  · cases h
  · cases h
  · cases h
  · exact enclosed_cites sum h
  · -- the name of the function is cited only with the token that is no parenthesis
    split at h
    · rw [bind_eq_error_iff] at h
      rcases h with h | ⟨r, -, h⟩
      · exact (enclosed_cites sum h).behind [_]
      · cases h
    · cases h
      exact SyntaxError.Cites.noArgument.citedFrom
    · cases h
      exact SyntaxError.Cites.unexpectedEnd.citedFrom
  · cases h
    exact SyntaxError.Cites.unexpected.citedFrom

theorem signed_cites {room} (signed : ∀ below < room, FailsCiting .signed below) (primary : FailsCiting .primary room) :
    FailsCiting .signed room := by
  intro ts x h
  rw [read_signed] at h
  split at h
  · split at h
    · cases h
      exact SyntaxError.Cites.operatorTooDeep.citedFrom
    · rename_i position rest room
      rw [bind_eq_error_iff] at h
      rcases h with h | ⟨r, -, h⟩
      · exact (signed room (Nat.lt_succ_self room) h).behind [_]
      · cases h
  · split at h
    · cases h
      exact SyntaxError.Cites.operatorTooDeep.citedFrom
    · rename_i position rest room
      exact (signed room (Nat.lt_succ_self room) h).behind [_]
  · exact primary h

theorem read_cites (ph : Phrase) (room : Nat) : FailsCiting ph room := by
  induction ph, room using read_induction with
  | primary room sum => exact primary_cites sum
  | signed room signed primary => exact signed_cites signed primary
  | power room power signed =>
    intro ts x h
    rw [read_power, bind_eq_error_iff] at h
    rcases h with h | ⟨r, hbase, h⟩
    · exact signed h
    · exact citedFrom_of_rest hbase (exponent_cites power h)
  | product room power =>
    intro ts x h
    rw [read_product, bind_eq_error_iff] at h
    rcases h with h | ⟨r, hleft, h⟩
    · exact power room (Nat.le_refl _) h
    · exact citedFrom_of_rest hleft (chain_cites power h)
  | sum room product =>
    intro ts x h
    rw [read_sum, bind_eq_error_iff] at h
    rcases h with h | ⟨r, hleft, h⟩
    · exact product room (Nat.le_refl _) h
    · exact citedFrom_of_rest hleft (chain_cites product h)

theorem ofLexemes_cites {ts x} (h : Expr.ofLexemes ts = .error x) : x.CitedFrom ts := by
  rw [Expr.ofLexemes, bind_eq_error_iff] at h
  rcases h with h | ⟨⟨e, rest⟩, hread, h⟩
  · exact read_cites .sum levelLimit h
  · have hsum : read .sum levelLimit ts = .ok (e, rest) := hread
    cases rest with
    | nil => cases h
    | cons t rest =>
      cases h
      exact citedFrom_of_rest hsum SyntaxError.Cites.trailing.citedFrom

/-! ## 3. The text from the position on -/

/-- What an error says about the text from its position on. Of a token the message shows the text, and what was due in
its place if the function before it has no argument. -/
def SyntaxError.Names (x : SyntaxError) (source : String) (p : Nat) (behind : List Char) : Prop :=
  match x with
  | .invalidCharacter c _ => behind.head? = some c
  | .unexpected _ _ =>
    ∃ ts k t, HasToken source p behind ts k t ∧ x.message = s!"Error at {p}: Unexpected token: {t.text}."
  | .noArgument _ _ _ =>
    ∃ ts k t f q shown, HasToken source p behind ts (k + 1) t ∧ ts[k]? = some ⟨.builtin f, q⟩ ∧
      shown = s!"{t.text} (expected '(' after {f.name})" ∧ x.message = s!"Error at {p}: Unexpected token: {shown}."
  | .trailing _ _ =>
    ∃ ts k t, HasToken source p behind ts k t ∧
      x.message = s!"Error at {p}: Incomplete expression, extra tokens starting at: {t.text}"
  | .unclosed _ => behind.head? = some '('
  | .tooDeep _ => ∃ c ∈ ['+', '-', '*', '/', '('], behind.head? = some c
  | .unexpectedEnd => False

theorem SyntaxError.Names.ne_nil {x : SyntaxError} {source : String} {p : Nat} {behind : List Char}
    (h : x.Names source p behind) : behind ≠ [] := by
  cases x with
  | invalidCharacter c q => exact fun hnil => by simp [Names, hnil] at h
  | unexpected t q =>
    obtain ⟨ts, k, t, htoken, -⟩ := h
    exact htoken.leads.ne_nil
  | noArgument t f q =>
    obtain ⟨ts, k, t, f, q, shown, htoken, -⟩ := h
    exact htoken.leads.ne_nil
  | unexpectedEnd => exact h.elim
  | unclosed q => exact fun hnil => by simp [Names, hnil] at h
  | trailing t q =>
    obtain ⟨ts, k, t, htoken, -⟩ := h
    exact htoken.leads.ne_nil
  | tooDeep q => exact fun hnil => by simp [Names, hnil] at h

/-- What the cited tokens are about stands at the position, since each is spelled at its own. -/
theorem SyntaxError.Cites.names {x : SyntaxError} {source : String} {ts cited : List Lexeme} {p : Nat}
    (hcites : x.Cites cited) (hcited : cited <:+: ts) (htokens : tokenize source = .ok ts)
    (hp : x.position? = some p) :
    ∃ before behind, Text.strip source = before ++ behind ∧ byteLength before = p ∧ x.Names source p behind := by
  obtain ⟨k, -, hk⟩ := List.infix_iff_getElem?.mp hcited
  cases hcites with
  | unexpected =>
    cases hp
    obtain ⟨before, behind, htext, hbytes, htoken⟩ := tokenize_located htokens (hk 0 (by simp))
    exact ⟨before, behind, htext, hbytes, ts, _, _, htoken, rfl⟩
  | noArgument =>
    cases hp
    -- the function is the first of the two tokens, and the position is that of the second
    have hfunction := hk 0 (by simp)
    have hlisted := hk 1 (by simp)
    rw [Nat.zero_add] at hfunction
    rw [Nat.add_comm] at hlisted
    obtain ⟨before, behind, htext, hbytes, htoken⟩ := tokenize_located htokens hlisted
    exact ⟨before, behind, htext, hbytes, ts, k, _, _, _, _, htoken, hfunction, rfl, rfl⟩
  | unexpectedEnd => cases hp
  | unclosed =>
    cases hp
    obtain ⟨before, behind, htext, hbytes, htoken⟩ := tokenize_located htokens (hk 0 (by simp))
    exact ⟨before, behind, htext, hbytes, head?_of_opening_leads htoken.leads⟩
  | trailing =>
    cases hp
    obtain ⟨before, behind, htext, hbytes, htoken⟩ := tokenize_located htokens (hk 0 (by simp))
    exact ⟨before, behind, htext, hbytes, ts, _, _, htoken, rfl⟩
  | operatorTooDeep =>
    cases hp
    obtain ⟨before, behind, htext, hbytes, htoken⟩ := tokenize_located htokens (hk 0 (by simp))
    obtain ⟨c, hc, hhead⟩ := head?_of_operator_leads htoken.leads
    exact ⟨before, behind, htext, hbytes, c, List.mem_append_left ['('] hc, hhead⟩
  | openingTooDeep =>
    cases hp
    obtain ⟨before, behind, htext, hbytes, htoken⟩ := tokenize_located htokens (hk 0 (by simp))
    exact ⟨before, behind, htext, hbytes, '(', by decide, head?_of_opening_leads htoken.leads⟩

/-- The position of an error lies inside the text without white space, between two characters of it, and the text from
there on starts with what the error names: the character, the token that the message shows, or the operator or
parenthesis it speaks of. -/
theorem parse_error_position (source : String) (x : SyntaxError) (p : Nat) (h : Expr.parse source = .error x)
    (hp : x.position? = some p) :
    p < byteLength (Text.strip source) ∧
      ∃ before behind, Text.strip source = before ++ behind ∧ byteLength before = p ∧ x.Names source p behind := by
  have hnames : ∃ before behind, Text.strip source = before ++ behind ∧ byteLength before = p ∧
      x.Names source p behind := by
    rcases bind_eq_error_iff.mp h with h | ⟨ts, htokens, h⟩
    · obtain ⟨before, c, behind, -, htext, rfl, -⟩ := Token.scan_stops h
      cases hp
      exact ⟨before, c :: behind, htext, (Nat.zero_add _).symm, rfl⟩
    · obtain ⟨cited, hcites, hinfix⟩ := ofLexemes_cites h
      exact hcites.names hinfix htokens hp
  refine ⟨?_, hnames⟩
  obtain ⟨before, behind, htext, rfl, hbehind⟩ := hnames
  have hpos := byteLength_pos hbehind.ne_nil
  rw [htext, byteLength_append]
  omega

/-- In `x * root + y`, the sign behind the function stands at 6 of the text without white space. -/
theorem parse_error_position_missing_argument :
    ∃ x, Expr.parse "x * root + y" = .error x ∧ x.position? = some 6 ∧
      6 < byteLength (Text.strip "x * root + y") ∧
      ∃ before behind, Text.strip "x * root + y" = before ++ behind ∧ byteLength before = 6 ∧
        x.Names "x * root + y" 6 behind := by
  have herror : Expr.parse "x * root + y" = .error (.noArgument (.operator .add) .root 6) := by cbv
  exact ⟨_, herror, rfl, parse_error_position _ _ 6 herror rfl⟩

end ComplexCalc
