import ComplexCalc.Proofs.Lexing
import ComplexCalc.Proofs.Sessions

/-!
# Substitution — a prompt stands for what is typed, in parentheses

Where no name is left in the typed texts, they can as well be written into the source text in the place of the names.
The parentheses keep the tokens apart (section 3) and make each text a primary phrase (section 2), so the new text is
read as the tree with the typed trees in the place of its variables, unless it is nested too deeply.  Such a tree has
the value that the old one has under the store (section 1).
-/

namespace ComplexCalc

/-! ## 1. Trees -/

namespace Expr

/-- The tree with a tree in the place of each variable. -/
def subst (σ : String → Expr) : Expr → Expr
  | .lit z => .lit z
  | .var x => σ x
  | .binary op left right => .binary op (left.subst σ) (right.subst σ)
  | .call f argument => .call f (argument.subst σ)

theorem subst_var (e : Expr) : e.subst .var = e := by
  induction e with
  | lit z => rfl
  | var x => rfl
  | binary op a b iha ihb => rw [subst, iha, ihb]
  | call f a ih => rw [subst, ih]

/-- A variable can be bound to the value of the tree that would be in its place. -/
theorem valueIn_subst {σ : String → Expr} {s t : Store} {e : Expr}
    (h : ∀ x ∈ e.occurrences, (σ x).valueIn s = t.get? x) : (e.subst σ).valueIn s = e.valueIn t := by
  induction e with
  | lit z => rfl
  | var x => exact h x (List.mem_singleton.mpr rfl)
  | binary op a b iha ihb =>
    have ha := iha fun x hx => h x (List.mem_append_left _ hx)
    have hb := ihb fun x hx => h x (List.mem_append_right _ hx)
    rw [subst, valueIn, ha, hb, valueIn]
  | call f a ih => rw [subst, valueIn, ih h, valueIn]

theorem valueIn_of_closed {e : Expr} (h : e.occurrences = []) (s t : Store) : e.valueIn s = e.valueIn t := by
  have hsubst := valueIn_subst (σ := .var) (s := s) (t := t) (e := e) (by simp [h])
  rwa [subst_var] at hsubst

end Expr

/-! ## 2. Tokens -/

/-- The second token list is the first one with other tokens in the place of each token, at whatever positions. -/
def SplicedTo (splice : Token → List Token) (ts us : List Lexeme) : Prop :=
  us.map (·.token) = (ts.map (·.token)).flatMap splice

section
variable {splice : Token → List Token} {ts rest us : List Lexeme} {t : Token} {p : Nat}

theorem SplicedTo.eq_nil (h : SplicedTo splice [] us) : us = [] :=
  List.map_eq_nil_iff.mp h

theorem SplicedTo.cases_append (h : SplicedTo splice (ts ++ rest) us) :
    ∃ as bs, us = as ++ bs ∧ SplicedTo splice ts as ∧ SplicedTo splice rest bs := by
  rw [SplicedTo, List.map_append, List.flatMap_append, List.map_eq_append_iff] at h
  exact h

theorem SplicedTo.cases_cons (h : SplicedTo splice (⟨t, p⟩ :: rest) us) (ht : splice t = [t]) :
    ∃ q bs, us = ⟨t, q⟩ :: bs ∧ SplicedTo splice rest bs := by
  rw [SplicedTo, List.map_cons, List.flatMap_cons, ht, List.singleton_append, List.map_eq_cons_iff] at h
  obtain ⟨⟨_, q⟩, bs, hus, rfl, hbs⟩ := h
  exact ⟨q, bs, hus, hbs⟩

theorem SplicedTo.cases_link (h : SplicedTo splice (ts ++ ⟨t, p⟩ :: rest) us) (ht : splice t = [t]) :
    ∃ as q bs, us = as ++ ⟨t, q⟩ :: bs ∧ SplicedTo splice ts as ∧ SplicedTo splice rest bs := by
  obtain ⟨as, _, rfl, has, hbehind⟩ := h.cases_append
  obtain ⟨q, bs, rfl, hbs⟩ := hbehind.cases_cons ht
  exact ⟨as, q, bs, rfl, has, hbs⟩

/-- Where each name gives way to a primary phrase, phrases remain phrases of their kind. -/
theorem Derives.subst {ph e} {σ : String → Expr} (h : Derives ph ts e)
    (hother : ∀ t : Token, t.name? = none → splice t = [t])
    (hname : ∀ x ∈ e.occurrences, ∀ us : List Lexeme, us.map (·.token) = splice (.name x) → Derives .primary us (σ x))
    (hus : SplicedTo splice ts us) : Derives ph us (e.subst σ) := by
  induction h generalizing us with
  | product _ ih => exact .product (ih hname hus)
  | @additive _ _ a b op _ hop _ _ iha ihb =>
    obtain ⟨as, _, bs, rfl, has, hbs⟩ := hus.cases_link (hother (.operator op) rfl)
    exact .additive hop (iha (fun x hx => hname x (List.mem_append_left _ hx)) has)
      (ihb (fun x hx => hname x (List.mem_append_right _ hx)) hbs)
  | power _ ih => exact .power (ih hname hus)
  | @multiplicative _ _ a b op _ hop _ _ iha ihb =>
    obtain ⟨as, _, bs, rfl, has, hbs⟩ := hus.cases_link (hother (.operator op) rfl)
    exact .multiplicative hop (iha (fun x hx => hname x (List.mem_append_left _ hx)) has)
      (ihb (fun x hx => hname x (List.mem_append_right _ hx)) hbs)
  | signed _ ih => exact .signed (ih hname hus)
  | @raised _ _ a b _ _ _ iha ihb =>
    obtain ⟨as, _, bs, rfl, has, hbs⟩ := hus.cases_link (hother (.operator .pow) rfl)
    exact .raised (iha (fun x hx => hname x (List.mem_append_left _ hx)) has)
      (ihb (fun x hx => hname x (List.mem_append_right _ hx)) hbs)
  | primary _ ih => exact .primary (ih hname hus)
  | minus _ ih =>
    obtain ⟨_, bs, rfl, hbs⟩ := hus.cases_cons (hother (.operator .sub) rfl)
    exact .minus (ih hname hbs)
  | plus _ ih =>
    obtain ⟨_, bs, rfl, hbs⟩ := hus.cases_cons (hother (.operator .add) rfl)
    exact .plus (ih hname hbs)
  | @real x =>
    obtain ⟨_, bs, rfl, hbs⟩ := hus.cases_cons (hother (.real x) rfl)
    rw [hbs.eq_nil]
    exact .real
  | @imaginary x =>
    obtain ⟨_, bs, rfl, hbs⟩ := hus.cases_cons (hother (.imaginary x) rfl)
    rw [hbs.eq_nil]
    exact .imaginary
  | @name x =>
    rw [SplicedTo, List.map_singleton, List.flatMap_singleton] at hus
    exact hname x (List.mem_singleton.mpr rfl) us hus
  | @call _ _ f _ _ _ _ ih =>
    obtain ⟨_, _, rfl, hbehind⟩ := hus.cases_cons (hother (.builtin f) rfl)
    obtain ⟨_, _, rfl, hinside⟩ := SplicedTo.cases_cons hbehind (hother .opening rfl)
    obtain ⟨as, _, bs, rfl, has, hbs⟩ := SplicedTo.cases_link hinside (hother .closing rfl)
    rw [hbs.eq_nil]
    exact .call (ih hname has)
  | enclosed _ ih =>
    obtain ⟨_, _, rfl, hinside⟩ := hus.cases_cons (hother .opening rfl)
    obtain ⟨as, _, bs, rfl, has, hbs⟩ := SplicedTo.cases_link hinside (hother .closing rfl)
    rw [hbs.eq_nil]
    exact .enclosed (ih hname has)

/-- The grammar does not look at positions. -/
theorem Derives.of_map_eq {ph e} (h : Derives ph ts e) (hus : us.map (·.token) = ts.map (·.token)) :
    Derives ph us e := by
  have hsame : SplicedTo (fun t => [t]) ts us := by rw [SplicedTo, List.flatMap_singleton', hus]
  have hvar : ∀ x ∈ e.occurrences, ∀ us : List Lexeme, us.map (·.token) = [.name x] → Derives .primary us (.var x) := by
    intro x _ us hus
    obtain ⟨⟨_, p⟩, rfl, rfl⟩ := List.map_eq_singleton_iff.mp hus
    exact .name
  have hsubst := h.subst (fun _ _ => rfl) hvar hsame
  rwa [Expr.subst_var] at hsubst

end

/-- The tokens in the place of a token: a name stands for the tokens of an answer, in parentheses. -/
def Token.spliceToken (answer : String → List Token) : Token → List Token
  | .name x => .opening :: answer x ++ [.closing]
  | t => [t]

theorem Derives.splice {ts us : List Lexeme} {ph e} {answer : String → List Token} {σ : String → Expr}
    (h : Derives ph ts e) (hanswer : ∀ x ∈ e.occurrences, ∃ as, as.map (·.token) = answer x ∧ Derives .sum as (σ x))
    (hus : SplicedTo (Token.spliceToken answer) ts us) : Derives ph us (e.subst σ) := by
  refine h.subst ?_ ?_ hus
  · intro t ht
    cases t with
    | name x => cases ht
    | _ => rfl
  · intro x hx us hus
    obtain ⟨as, has, hsum⟩ := hanswer x hx
    rw [Token.spliceToken, List.cons_append, List.map_eq_cons_iff] at hus
    obtain ⟨⟨_, p⟩, _, rfl, rfl, hus⟩ := hus
    obtain ⟨bs, _, rfl, hbs, hus⟩ := List.map_eq_append_iff.mp hus
    obtain ⟨⟨_, q⟩, rfl, rfl⟩ := List.map_eq_singleton_iff.mp hus
    exact .enclosed (hsum.of_map_eq (hbs.trans has.symm))

/-! ## 3. Texts -/

theorem class_of_symbol {c : Char} (h : c ∈ symbols) : c.isDigit = false ∧ c.isAlpha = false :=
  ⟨eq_false_of_ne_true fun hc => not_symbol_of_isDigit hc h, eq_false_of_ne_true fun hc => not_symbol_of_isAlpha hc h⟩

theorem not_number_of_symbol {c : Char} (h : c ∈ symbols) : Token.isNumberChar c = false ∧ c.isAlphanum = false := by
  have hall : symbols.all (fun c => !Token.isNumberChar c && !c.isAlphanum) = true := by decide
  simpa using List.all_eq_true.mp hall c h

/-- A symbol is a token by itself, whatever is in front of it, unless both are stars. -/
theorem not_spelling_snoc_symbol {slice : List Char} (h : slice ≠ []) {d : Char} (hd : d ∈ symbols)
    (hstars : slice = ['*'] → d ≠ '*') : ¬ Spelling (slice ++ [d]) := by
  obtain ⟨hnumber, hletter⟩ := not_number_of_symbol hd
  have hi : d ≠ 'i' := by
    rintro rfl
    exact absurd hd (by decide)
  intro hspelling
  cases slice with
  | nil => exact h rfl
  | cons c cs =>
    rcases Token.spelling_cons hspelling with ⟨-, hall | ⟨ds, hds, -⟩⟩ | ⟨-, hall⟩ | ⟨-, hsnoc | ⟨rfl, hsnoc⟩⟩
    · rw [hall d (by simp)] at hnumber
      cases hnumber
    · exact hi (List.singleton_inj.mp (List.append_inj' hds rfl).2)
    · rw [hall d (by simp)] at hletter
      cases hletter
    · simp at hsnoc
    · obtain ⟨rfl, hd⟩ := List.append_inj' (show cs ++ [d] = [] ++ ['*'] from hsnoc) rfl
      exact hstars rfl (List.singleton_inj.mp hd)

/-- A symbol is a token by itself, whatever follows it, unless both are stars. -/
theorem not_spelling_symbol_cons {c d : Char} (hc : c ∈ symbols) (hstars : c = '*' → d ≠ '*') : ¬ Spelling [c, d] :=
  Token.not_spelling_pair (class_of_symbol hc).1 (class_of_symbol hc).2 hstars

namespace Lexes
variable {text rest : List Char} {ts us : List Token}

theorem opening (h : Lexes text ts) : Lexes ('(' :: text) (.opening :: ts) :=
  .cons .opening (fun _ _ => not_spelling_symbol_cons (by decide) nofun) h

theorem closing (h : Lexes text ts) : Lexes (')' :: text) (.closing :: ts) :=
  .cons .closing (fun _ _ => not_spelling_symbol_cons (by decide) nofun) h

/-- What is in front of a symbol is cut as if nothing followed, unless it ends in a star and another one follows. -/
theorem append_symbol {d : Char} (h : Lexes text ts) (hd : d ∈ symbols) (hstars : text.getLast? = some '*' → d ≠ '*')
    (h' : Lexes (d :: rest) us) : Lexes (text ++ d :: rest) (ts ++ us) := by
  induction h with
  | nil => exact h'
  | @cons slice behind t ts ht hnext _ ih =>
    rw [List.append_assoc]
    refine .cons ht ?_ (ih ?_)
    · intro a ha
      cases behind with
      | nil =>
        cases ha
        refine not_spelling_snoc_symbol (Token.spelling_iff.mpr ⟨t, ht⟩).ne_nil hd ?_
        rintro rfl
        exact hstars rfl
      | cons c behind => exact hnext a ha
    · intro hlast
      apply hstars
      rw [List.getLast?_append, hlast]
      rfl

/-- What is in front of a closing parenthesis is cut as if nothing followed. -/
theorem append_closing (h : Lexes text ts) (h' : Lexes (')' :: rest) us) : Lexes (text ++ ')' :: rest) (ts ++ us) :=
  h.append_symbol (by decide) nofun h'

end Lexes

namespace Token

/-- The text with an answer in the place of each name, in parentheses. -/
def spliceText (answer : String → List Char) (text : List Char) : List Char :=
  match text with
  | [] => []
  | c :: cs =>
    match (ofSpelling? (cut (c :: cs)).1).bind name? with
    | some x => '(' :: answer x ++ ')' :: spliceText answer (cut (c :: cs)).2
    | none => (cut (c :: cs)).1 ++ spliceText answer (cut (c :: cs)).2
termination_by text.length
decreasing_by all_goals exact length_cut_lt c cs

variable {answer : String → List Char}

theorem spliceText_append {slice rest : List Char} {t : Token} (ht : t.SpelledBy slice)
    (hnext : ∀ d, rest.head? = some d → ¬ Spelling (slice ++ [d])) :
    spliceText answer (slice ++ rest) =
      match t.name? with
      | some x => '(' :: answer x ++ ')' :: spliceText answer rest
      | none => slice ++ spliceText answer rest := by
  have hspelling := spelling_iff.mpr ⟨t, ht⟩
  have hcut := cut_append_of_greedy hspelling hnext
  cases slice with
  | nil => exact absurd rfl hspelling.ne_nil
  | cons c cs =>
    rw [List.cons_append] at hcut ⊢
    rw [spliceText, hcut]
    dsimp only
    rw [ofSpelling?_eq_some_iff.mpr ht, Option.bind_some]

theorem head?_spliceText {text : List Char} {d : Char} (h : (spliceText answer text).head? = some d) :
    d = '(' ∨ text.head? = some d := by
  cases text with
  | nil =>
    rw [spliceText] at h
    cases h
  | cons c cs =>
    rw [spliceText] at h
    split at h
    · cases h
      exact .inl rfl
    · right
      rw [List.head?_append_of_ne_nil _ (cut_fst_ne_nil c cs)] at h
      rw [← cut_append (c :: cs), List.head?_append_of_ne_nil _ (cut_fst_ne_nil c cs), h]

/-- Characters that are in none of the slices can be left out of the answers at once. -/
theorem filter_spliceText {p : Char → Bool} (hopening : p '(' = true) (hclosing : p ')' = true) {text : List Char}
    (htext : ∀ c ∈ text, p c = true) :
    (spliceText answer text).filter p = spliceText (fun x => (answer x).filter p) text := by
  induction text using spliceText.induct with
  | case1 => rw [spliceText, spliceText, List.filter_nil]
  | case2 c cs x hx ih =>
    have hrest := ih fun d hd => htext d (by rw [← cut_append (c :: cs)]; exact List.mem_append_right _ hd)
    rw [spliceText, spliceText, hx]
    simp only [List.filter_append, List.filter_cons_of_pos hopening, List.filter_cons_of_pos hclosing, List.cons_append,
      hrest]
  | case3 c cs hnone ih =>
    have hslice : ∀ d ∈ (cut (c :: cs)).1, p d = true :=
      fun d hd => htext d (by rw [← cut_append (c :: cs)]; exact List.mem_append_left _ hd)
    have hrest := ih fun d hd => htext d (by rw [← cut_append (c :: cs)]; exact List.mem_append_right _ hd)
    rw [spliceText, spliceText, hnone]
    dsimp only
    rw [List.filter_append, List.filter_eq_self.mpr hslice, hrest]

end Token

/-- The parentheses keep the tokens of the answers apart from those of the text. -/
theorem Lexes.splice {text : List Char} {ts : List Token} {answer : String → List Char} {tokens : String → List Token}
    (h : Lexes text ts) (hanswer : ∀ x ∈ ts.filterMap Token.name?, Lexes (answer x) (tokens x)) :
    Lexes (Token.spliceText answer text) (ts.flatMap (Token.spliceToken tokens)) := by
  induction h with
  | nil =>
    rw [Token.spliceText]
    exact .nil
  | @cons slice rest t ts ht hnext _ ih =>
    rw [Token.spliceText_append ht hnext, List.flatMap_cons]
    cases hname : t.name? with
    | some x =>
      rw [List.filterMap_cons_some hname] at hanswer
      -- from the back: the rest, the closing parenthesis, the answer, the opening parenthesis
      have hbehind := (ih fun y hy => hanswer y (List.mem_cons_of_mem x hy)).closing
      have hinside := (hanswer x List.mem_cons_self).append_closing hbehind
      cases t with
      | name y =>
        cases hname
        rw [Token.spliceToken, List.append_assoc]
        exact hinside.opening
      | _ => cases hname
    | none =>
      rw [List.filterMap_cons_none hname] at hanswer
      have htoken : Token.spliceToken tokens t = [t] := by
        cases t with
        | name y => cases hname
        | _ => rfl
      rw [htoken]
      refine .cons ht ?_ (ih hanswer)
      intro d hd
      -- behind the slice stands what stood there before, or the parenthesis in front of an answer
      rcases Token.head?_spliceText hd with rfl | hd
      · exact not_spelling_snoc_symbol (Token.spelling_iff.mpr ⟨t, ht⟩).ne_nil (by decide) nofun
      · exact hnext d hd

/-! ## 4. Source texts -/

/-- The source text without its white space, with what is typed for each name in its place, in parentheses. -/
def substituteNames (typed : String → String) (source : String) : String :=
  String.ofList (Token.spliceText (fun x => (typed x).toList) (Text.strip source))

theorem strip_substituteNames (typed : String → String) (source : String) :
    Text.strip (substituteNames typed source) =
      Token.spliceText (fun x => Text.strip (typed x)) (Text.strip source) := by
  rw [substituteNames, Text.strip, String.toList_ofList]
  exact Token.filter_spliceText (by decide) (by decide) fun c hc => (List.mem_filter.mp hc).2

/-- The tokens of a source text, without their positions. -/
def sourceTokens (source : String) : List Token :=
  match tokenize source with
  | .error _ => []
  | .ok ts => ts.map (·.token)

theorem lexes_of_parse {source : String} {e : Expr} (h : Expr.parse source = .ok e) :
    Lexes (Text.strip source) (sourceTokens source) ∧
      ∃ ts, ts.map (·.token) = sourceTokens source ∧ Derives .sum ts e := by
  obtain ⟨ts, htokens, hread⟩ := tokenize_of_parse h
  rw [sourceTokens, htokens]
  exact ⟨lexes_of_scan htokens, ts, rfl, ofLexemes_sound hread⟩

/-- A text that is cut into the tokens of a sum is read as its tree, unless it is nested too deeply. -/
theorem Lexes.parse_cases {source : String} {ts : List Lexeme} {e : Expr}
    (h : Lexes (Text.strip source) (ts.map (·.token))) (hsum : Derives .sum ts e) :
    Expr.parse source = .ok e ∨ ∃ p, Expr.parse source = .error (.tooDeep p) := by
  obtain ⟨us, hus, htokens⟩ := h.scan 0
  rw [Expr.parse, show tokenize source = .ok us from hus]
  exact (hsum.of_map_eq htokens).ofLexemes_eq

theorem Lexes.parse_eq {source : String} {ts : List Lexeme} {e : Expr}
    (h : Lexes (Text.strip source) (ts.map (·.token))) (hsum : Derives .sum ts e) (hshort : ts.length ≤ levelLimit) :
    Expr.parse source = .ok e := by
  obtain ⟨us, hus, htokens⟩ := h.scan 0
  have hlength : us.length = ts.length := by
    rw [← List.length_map (·.token), htokens, List.length_map]
  rw [Expr.parse, show tokenize source = .ok us from hus]
  exact Expr.ofLexemes_ok_iff.mpr ((hsum.of_map_eq htokens).read_eq (by omega))

/-- A text that spells a single token is read as that token. -/
theorem parse_of_spelledBy {source : String} {t : Token} {e : Expr} (h : t.SpelledBy source.toList)
    (hprimary : Derives .primary [⟨t, 0⟩] e) : Expr.parse source = .ok e := by
  have hlexes : Lexes (source.toList ++ []) [t] := .cons h (by simp) .nil
  rw [List.append_nil, ← strip_of_spelling (Token.spelling_iff.mpr ⟨t, h⟩)] at hlexes
  exact hlexes.parse_eq (.product (.power (.signed (.primary hprimary)))) (Nat.le_of_ble_eq_true rfl)

/-- A text for each name, written in its place, is read as its tree in the place of the variable. -/
theorem parse_substituteNames {source : String} {e : Expr} {typed : String → String} {σ : String → Expr}
    (h : Expr.parse source = .ok e) (htyped : ∀ x ∈ e.occurrences, Expr.parse (typed x) = .ok (σ x)) :
    Expr.parse (substituteNames typed source) = .ok (e.subst σ) ∨
      ∃ p, Expr.parse (substituteNames typed source) = .error (.tooDeep p) := by
  obtain ⟨hlexes, ts, hts, hsum⟩ := lexes_of_parse h
  have hnames : e.occurrences = (sourceTokens source).filterMap Token.name? := by
    rw [hsum.occurrences_eq, ← hts, List.filterMap_map]
    rfl
  have hanswers : ∀ x ∈ (sourceTokens source).filterMap Token.name?,
      Lexes (Text.strip (typed x)) (sourceTokens (typed x)) := by
    rw [← hnames]
    exact fun x hx => (lexes_of_parse (htyped x hx)).1
  have hspliced := hlexes.splice hanswers
  rw [← strip_substituteNames] at hspliced
  obtain ⟨us, hus, htokens⟩ := hspliced.scan 0
  rw [← hts] at htokens
  have hderives := hsum.splice (fun x hx => (lexes_of_parse (htyped x hx)).2) htokens
  rw [Expr.parse, show tokenize _ = .ok us from hus]
  exact hderives.ofLexemes_eq

/-! ## 5. Answers -/

/-- The names that a run asks for, with the texts that are typed for them. -/
structure Answered (c after : Context) (e : Expr) (given : List (String × String)) : Prop where
  requested : after.script.requested = c.script.requested ++ given.map (·.1)
  replies : c.script.replies = given.map (fun g => .text g.2) ++ after.script.replies
  complete : ∀ x ∈ e.occurrences, c.store.contains x = true ∨ x ∈ given.map (·.1)
  /-- What is typed for a name has the value that the name is bound to, if it needs no prompts of its own. -/
  values : (∀ g ∈ given, sourceNames g.2 = []) → ∀ g ∈ given, ∃ inner z,
    Expr.parse g.2 = .ok inner ∧ inner.valueIn .empty = some z ∧ after.store.get? g.1 = some z

theorem Context.Types.replies_eq {c : Context} {x typed : String} (h : c.Types x typed) :
    c.script.replies = .text typed :: (c.asked x).script.replies := by
  obtain ⟨-, hreply, -⟩ := h
  rw [Context.replies_asked]
  rw [Context.reply, Script.request] at hreply
  cases hreplies : c.script.replies with
  | nil =>
    rw [hreplies] at hreply
    cases hreply
  | cons reply rest =>
    rw [hreplies] at hreply
    cases hreply
    rfl

theorem Runs.answered {e c v after} (h : Runs e c (.ok v) after) : ∃ given, Answered c after e given := by
  generalize hr : Except.ok v = r at h
  induction h generalizing v with
  | lit => exact ⟨[], by simp, by simp, by simp [Expr.occurrences], by simp⟩
  | reused hbound =>
    refine ⟨[], by simp [Context.noting], by simp [Context.noting], ?_, by simp⟩
    intro y hy
    rw [Expr.occurrences, List.mem_singleton] at hy
    subst hy
    exact .inl (Store.contains_iff.mpr ⟨_, hbound⟩)
  | @bound x typed inner z c after htypes hread hrun ih =>
    cases hr
    obtain ⟨given, hrequested, hreplies, -, -⟩ := ih rfl
    have hasked : (c.inside x typed).script.requested = c.script.requested ++ [x] :=
      Script.requested_request c.script x
    refine ⟨(x, typed) :: given, ?_, ?_, ?_, ?_⟩
    · show after.script.requested = _
      rw [hrequested, hasked, List.append_assoc]
      rfl
    · rw [htypes.replies_eq]
      exact congrArg (Reply.text typed :: ·) hreplies
    · intro y hy
      rw [Expr.occurrences, List.mem_singleton] at hy
      simp [hy]
    · intro hclosed
      -- without names in the typed text, it is all that was given
      have hnames : inner.occurrences = [] := by
        rw [occurrences_of_parse hread]
        exact hclosed _ List.mem_cons_self
      obtain rfl : given = [] := by
        rw [hrun.eq_of_closed hnames] at hrequested
        simpa using hrequested
      intro g hg
      rw [List.mem_singleton] at hg
      subst hg
      refine ⟨inner, z, hread, ?_, ?_⟩
      · rw [Expr.valueIn_of_closed hnames .empty after.store, hrun.valueIn]
      · show (c.store.insert x z).get? x = some z
        rw [Store.get?_insert, if_pos rfl]
  | binary ha hb _ iha ihb =>
    cases hr
    obtain ⟨given, hrequested, hreplies, hcomplete, hvalues⟩ := iha rfl
    obtain ⟨others, hrequested', hreplies', hcomplete', hvalues'⟩ := ihb rfl
    refine ⟨given ++ others, ?_, ?_, ?_, ?_⟩
    · rw [hrequested', hrequested, List.append_assoc, List.map_append]
    · rw [hreplies, hreplies', List.map_append, List.append_assoc]
    · intro x hx
      rw [List.map_append, List.mem_append]
      rcases List.mem_append.mp hx with hx | hx
      · exact (hcomplete x hx).imp_right .inl
      · rcases hcomplete' x hx with hx | hx
        · -- the left operand bound it, so it was asked for there unless it was bound before
          rcases ha.adds x hx with hx | hx
          · exact .inl hx
          · exact (hcomplete x hx).imp_right .inl
        · exact .inr (.inr hx)
    · -- what the left operand bound is still bound at the end
      intro hclosed g hg
      rcases List.mem_append.mp hg with hg | hg
      · obtain ⟨inner, z, hread, hvalue, hbound⟩ :=
          hvalues (fun g hg => hclosed g (List.mem_append_left _ hg)) g hg
        exact ⟨inner, z, hread, hvalue, hb.keeps _ _ hbound⟩
      · exact hvalues' (fun g hg => hclosed g (List.mem_append_right _ hg)) g hg
  | call _ ih =>
    cases hr
    obtain ⟨given, hrequested, hreplies, hcomplete, hvalues⟩ := ih rfl
    exact ⟨given, hrequested, hreplies, hcomplete, hvalues⟩
  | _ => cases hr

/-- The text that is typed for a name, if the names were asked for in this order and got these replies. -/
def typedFor (requested : List String) (replies : List Reply) (x : String) : String :=
  (((requested.zip replies).lookup x).bind Reply.text?).getD ""

/-- The tree of the text that is typed for a name. -/
def typedTree (typed : String → String) (x : String) : Expr :=
  match Expr.parse (typed x) with
  | .ok e => e
  | .error _ => .lit .zero

theorem exists_typedFor {given : List (String × String)} (rest : List Reply) {x : String}
    (hx : x ∈ given.map (·.1)) :
    (x, typedFor (given.map (·.1)) (given.map (fun g => .text g.2) ++ rest) x) ∈ given := by
  induction given with
  | nil => cases hx
  | cons g given ih =>
    obtain ⟨y, typed⟩ := g
    by_cases hxy : x = y
    · subst hxy
      simp [typedFor, Reply.text?]
    · have hrest : x ∈ given.map (·.1) := by simpa [hxy] using hx
      have hmem := ih hrest
      simp only [typedFor, List.map_cons, List.cons_append, List.zip_cons_cons, List.lookup_cons,
        beq_eq_false_iff_ne.mpr hxy] at hmem ⊢
      exact List.mem_cons_of_mem _ hmem

/-- The texts typed in an evaluation that has a value have values of their own, to which their names are bound. -/
theorem Answered.typed {source : String} {replies : List Reply} {after : Context} {e : Expr}
    {given : List (String × String)} (h : Answered (.started source replies) after e given)
    (hclosed : ∀ text, Reply.text text ∈ replies.take after.script.requested.length → sourceNames text = []) :
    ∀ x ∈ e.occurrences,
      Expr.parse (typedFor after.script.requested replies x) =
          .ok (typedTree (typedFor after.script.requested replies) x) ∧
        (typedTree (typedFor after.script.requested replies) x).valueIn .empty = after.store.get? x := by
  obtain ⟨hrequested, hreplies, hcomplete, hvalues⟩ := h
  have hrequested : after.script.requested = given.map (·.1) := hrequested
  have hreplies : replies = given.map (fun g => .text g.2) ++ after.script.replies := hreplies
  have hconsumed : replies.take after.script.requested.length = given.map (fun g => .text g.2) := by
    rw [hreplies, hrequested, List.length_map, List.take_left' (List.length_map _)]
  rw [hconsumed] at hclosed
  intro x hx
  have hgiven : x ∈ given.map (·.1) := by
    rcases hcomplete x hx with hbound | hgiven
    · cases hbound
    · exact hgiven
  have hmem := exists_typedFor after.script.replies hgiven
  rw [← hreplies, ← hrequested] at hmem
  obtain ⟨inner, z, hread, hvalue, hbound⟩ := hvalues (fun g hg => hclosed g.2 (List.mem_map_of_mem hg)) _ hmem
  rw [typedTree, hread, hbound]
  exact ⟨rfl, hvalue⟩

/-! ## 6. Prompting is substitution -/

/-- Where no variable has to be bound for the value, nothing is asked for. -/
theorem evaluate_of_valueIn {source : String} {e : Expr} {v : Number} (replies : List Reply)
    (hread : Expr.parse source = .ok e) (hvalue : e.valueIn .empty = some v) :
    (evaluate source replies).1 = .ok (v, e) ∧ (evaluate source replies).2.script.requested = [] := by
  obtain ⟨after, hrun, hquiet⟩ := Expr.runs_of_valueIn (c := .started source replies) hvalue
  rw [evaluate_of_runs_ok hread hrun]
  refine ⟨rfl, ?_⟩
  show after.script.requested = []
  rw [hquiet.script]
  rfl

theorem parse_imaginaryUnit : Expr.parse "i" = .ok (.lit ⟨0.0, 1.0⟩) := by
  have hspelled : (Token.imaginary 1.0).SpelledBy "i".toList := .unit
  exact parse_of_spelledBy hspelled .imaginary

/-- If an evaluation has a value, and no name is left in what was typed, the typed texts can be written into the source
text instead.  Then nothing is asked for, and the value is the same unless the new text is nested too deeply. -/
theorem evaluate_substituteNames {source : String} {replies : List Reply} {v : Number} {e : Expr}
    (h : (evaluate source replies).1 = .ok (v, e))
    (hclosed : ∀ text, Reply.text text ∈ replies.take (evaluate source replies).2.script.requested.length →
      sourceNames text = []) :
    let typed := typedFor (evaluate source replies).2.script.requested replies
    let written := substituteNames typed source
    (evaluate written []).2.script.requested = [] ∧
      ((evaluate written []).1 = .ok (v, e.subst (typedTree typed)) ∨
        ∃ p, (evaluate written []).1 = .error (.malformed (.tooDeep p))) := by
  rcases evaluate_cases source replies with ⟨_, _, heval⟩ | ⟨_, _, _, _, _, heval⟩ | ⟨_, z, after, hread, hrun, heval⟩
  · rw [heval] at h
    cases h
  · rw [heval] at h
    cases h
  · obtain ⟨given, hgiven⟩ := hrun.answered
    have hrequested : (evaluate source replies).2.script.requested = after.script.requested := by rw [heval]; rfl
    rw [heval] at h
    cases h
    rw [hrequested] at hclosed ⊢
    have htyped := hgiven.typed hclosed
    intro typed written
    -- the new text is read as the tree with the answers in it, and each of them has the value its name was bound to
    rcases parse_substituteNames hread fun x hx => (htyped x hx).1 with hwritten | ⟨p, hwritten⟩
    · have hvalue : (e.subst (typedTree typed)).valueIn .empty = some v := by
        rw [Expr.valueIn_subst fun x hx => (htyped x hx).2, hrun.valueIn]
      obtain ⟨hresult, hnone⟩ := evaluate_of_valueIn [] hwritten hvalue
      exact ⟨hnone, .inl hresult⟩
    · rw [evaluate_of_parse_error hwritten]
      exact ⟨rfl, .inr ⟨p, rfl⟩⟩

/-- One answer is written in both places of its name. -/
theorem evaluate_substituteNames_double :
    (evaluate "(i)+(i)" []).2.script.requested = [] ∧
      ((evaluate "(i)+(i)" []).1.map (·.1) = (evaluate "x + x" [.text "i"]).1.map (·.1) ∨
        ∃ p, (evaluate "(i)+(i)" []).1 = .error (.malformed (.tooDeep p))) := by
  have hrun : Runs (.binary .add (.var "x") (.var "x")) (.started "x + x" [.text "i"]) (.ok _) _ :=
    .binary (.bound ⟨rfl, rfl, by decide⟩ parse_imaginaryUnit .lit) (.reused rfl) rfl
  have heval := evaluate_of_runs_ok (by cbv) hrun
  have hresult := congrArg Prod.fst heval
  have hrequested : (evaluate "x + x" [.text "i"]).2.script.requested = ["x"] := by rw [heval]; rfl
  have hwritten : substituteNames (typedFor ["x"] [.text "i"]) "x + x" = "(i)+(i)" := by cbv
  have hclosed : ∀ text, Reply.text text ∈ [Reply.text "i"].take ["x"].length → sourceNames text = [] := by
    intro text htext
    obtain rfl : text = "i" := by simpa using htext
    rw [← occurrences_of_parse parse_imaginaryUnit, Expr.occurrences]
  rw [← hrequested] at hclosed
  obtain ⟨hnone, hsame⟩ := evaluate_substituteNames hresult hclosed
  rw [hrequested, hwritten] at hnone hsame
  refine ⟨hnone, hsame.imp_left ?_⟩
  intro h
  rw [h, hresult]
  rfl

end ComplexCalc
