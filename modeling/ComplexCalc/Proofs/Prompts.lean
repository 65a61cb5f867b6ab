import ComplexCalc.Proofs.FinalStore
import ComplexCalc.Proofs.Grammar

/-!
# Prompts — requests and bindings are nested like brackets

A prompt is open from its request to the binding that ends it, and what is typed for it is evaluated in between.  An
evaluation with a value closes every prompt it opens.  One that fails leaves open exactly the prompts that its error
names, from the outside in.
-/

namespace ComplexCalc

/-! ## 1. Brackets -/

/-- A prompt opens with the request for a variable and closes with its binding. -/
inductive Bracket where
  | request (x : String)
  | bound (x : String) (z : Number)
deriving DecidableEq

def Event.bracket? : Event → Option Bracket
  | .requested x => some (.request x)
  | .bound x z => some (.bound x z)
  | _ => none

def brackets (events : List Event) : List Bracket :=
  events.filterMap Event.bracket?

namespace Bracket

/-- The name that is asked for. -/
def request? : Bracket → Option String
  | .request x => some x
  | .bound _ _ => none

/-- What the user is told. -/
def notice? : Bracket → Option Notice
  | .request _ => none
  | .bound x z => some { text := s!"variable bound: {x} = {z.text}" }

/-- The open prompts after one more bracket, the innermost first. -/
def note (opened : List String) : Bracket → List String
  | .request x => x :: opened
  | .bound _ _ => opened.tail

end Bracket

/-- The prompts that are still open, the outermost first. -/
def openRequests (bs : List Bracket) : List String :=
  (bs.foldl Bracket.note []).reverse

/-- Every request is closed by one binding of the same name, with closed prompts only in between.  The names are those
that are asked for outside of every other prompt, in order. -/
inductive Nested : List Bracket → List String → Prop where
  | nil : Nested [] []
  | prompt {x z inside names rest others} : Nested inside names → Nested rest others →
      Nested (.request x :: inside ++ .bound x z :: rest) (x :: others)

theorem Nested.append {bs cs : List Bracket} {names others : List String} (h : Nested bs names)
    (h' : Nested cs others) : Nested (bs ++ cs) (names ++ others) := by
  induction h with
  | nil => exact h'
  | @prompt x z inside _ rest _ hinside _ _ ih =>
    rw [List.append_assoc, List.cons_append]
    exact .prompt hinside ih

theorem Nested.single {bs : List Bracket} {names : List String} (h : Nested bs names) (x : String) (z : Number) :
    Nested (.request x :: bs ++ [.bound x z]) [x] :=
  .prompt h .nil

/-- Any names can be those of closed prompts. -/
theorem exists_nested (names : List String) : ∃ bs, Nested bs names := by
  induction names with
  | nil => exact ⟨[], .nil⟩
  | cons x names ih =>
    obtain ⟨bs, hbs⟩ := ih
    exact ⟨_, .prompt (x := x) (z := .zero) .nil hbs⟩

/-- Closed prompts leave the open ones as they are. -/
theorem Nested.foldl_note {bs : List Bracket} {names : List String} (h : Nested bs names) (opened : List String) :
    bs.foldl Bracket.note opened = opened := by
  induction h generalizing opened with
  | nil => rfl
  | prompt _ _ ihinside ihrest =>
    rw [List.foldl_append, List.foldl_cons, List.foldl_cons, ihinside, ihrest]
    rfl

/-! ## 2. What a run notes -/

/-- All that happens on the way from the one context to the other: the brackets among the events, the requests that
reach the script and the notices that reach the user. -/
structure Notes (c after : Context) (bs : List Bracket) : Prop where
  events : ∃ events, after.transcript = c.transcript ++ events ∧ brackets events = bs ∧
    notices events = bs.filterMap Bracket.notice?
  requested : after.script.requested = c.script.requested ++ bs.filterMap Bracket.request?

section
variable {c mid after : Context} {bs cs : List Bracket}

theorem Notes.rfl : Notes c c [] :=
  ⟨⟨[], by simp, by simp [brackets], by simp [notices]⟩, by simp⟩

theorem Notes.trans (h : Notes c mid bs) (h' : Notes mid after cs) : Notes c after (bs ++ cs) := by
  obtain ⟨⟨events, htranscript, hbrackets, hnotices⟩, hrequested⟩ := h
  obtain ⟨⟨events', htranscript', hbrackets', hnotices'⟩, hrequested'⟩ := h'
  constructor
  · refine ⟨events ++ events', ?_, ?_, ?_⟩
    · rw [htranscript', htranscript, List.append_assoc]
    · rw [brackets, List.filterMap_append, ← brackets, ← brackets, hbrackets, hbrackets']
    · rw [notices, List.filterMap_append, ← notices, ← notices, hnotices, hnotices', List.filterMap_append]
  · rw [hrequested', hrequested, List.filterMap_append, List.append_assoc]

theorem notes_asked (c : Context) (x : String) : Notes c (c.asked x) [.request x] :=
  ⟨⟨[.requested x], rfl, rfl, rfl⟩, Script.requested_request c.script x⟩

theorem notes_bound (c : Context) (x : String) (z : Number) : Notes c (c.noting [.bound x z]) [.bound x z] :=
  ⟨⟨[.bound x z], rfl, rfl, rfl⟩, (List.append_nil _).symm⟩

theorem Notes.storing (h : Notes c after bs) (s : Store) : Notes c (after.storing s) bs :=
  ⟨h.events, h.requested⟩

/-- Events that are no brackets and give no notice. -/
theorem Notes.noting (h : Notes c after bs) {events : List Event} (hbrackets : brackets events = [])
    (hnotices : notices events = []) : Notes c (after.noting events) bs := by
  have hquiet : Notes after (after.noting events) [] :=
    ⟨⟨events, .refl _, hbrackets, hnotices⟩, (List.append_nil _).symm⟩
  have hboth := h.trans hquiet
  rwa [List.append_nil] at hboth

end

theorem parseEvents_quiet (source : String) :
    brackets (parseEvents source) = [] ∧ notices (parseEvents source) = [] := by
  unfold parseEvents
  split
  · exact ⟨rfl, rfl⟩
  · split <;> exact ⟨rfl, rfl⟩

theorem Notes.inside {c : Context} (x typed : String) : Notes c (c.inside x typed) [.request x] :=
  ((notes_asked c x).storing .empty).noting (parseEvents_quiet typed).1 (parseEvents_quiet typed).2

theorem isError_of_mem_notices {events : List Event} {n : Notice} (h : n ∈ notices events) : n.isError = false := by
  obtain ⟨event, -, hnotice⟩ := List.mem_filterMap.mp h
  cases event <;> cases hnotice <;> rfl

/-! ## 3. Names that are still to be asked for -/

theorem Runs.contains_iff {e c v after} (h : Runs e c (.ok v) after) (x : String) :
    after.store.contains x = true ↔ c.store.contains x = true ∨ x ∈ e.occurrences := by
  constructor
  · exact h.adds x
  · rintro (hx | hx)
    · exact h.keeps.contains hx
    · exact Expr.contains_of_valueIn h.valueIn x hx

/-- The names that the store does not bind, in order of their first occurrence. -/
def Store.missing (s : Store) (names : List String) : List String :=
  (names.filter fun x => !s.contains x).eraseDups

theorem Store.missing_append {s t : Store} {names : List String} (others : List String)
    (h : ∀ x, t.contains x = true ↔ s.contains x = true ∨ x ∈ names) :
    s.missing (names ++ others) = s.missing names ++ t.missing others := by
  have hothers : (others.filter fun x => !s.contains x).removeAll (names.filter fun x => !s.contains x) =
      others.filter fun x => !t.contains x := by
    rw [List.removeAll, List.filter_filter]
    apply List.filter_congr
    intro x _
    have hx := h x
    cases ht : t.contains x <;> cases hs : s.contains x <;> simp [ht, hs] at hx ⊢ <;> exact hx
  rw [missing, List.filter_append, List.eraseDups_append, hothers, missing, missing]

theorem Store.exists_missing_append (s : Store) (names others : List String) :
    ∃ rest, s.missing (names ++ others) = s.missing names ++ rest := by
  rw [missing, List.filter_append, List.eraseDups_append]
  exact ⟨_, rfl⟩

theorem Store.missing_of_contains {s : Store} {x : String} (h : s.contains x = true) : s.missing [x] = [] := by
  simp [missing, h]

theorem Store.missing_of_none {s : Store} {x : String} (h : s.get? x = none) : s.missing [x] = [x] := by
  simp [missing, contains, h, List.eraseDups_cons]

theorem Store.missing_empty (names : List String) : Store.empty.missing names = names.eraseDups := by
  rw [missing, List.filter_eq_self.mpr]
  intro x _
  rfl

/-! ## 4. Runs nest their prompts -/

/-- The prompts that an error goes through, the outermost first: one for each typed text that has no value, and at last
one that got nothing, if that is what went wrong. -/
def Error.names : Error → List String
  | .invalid x cause => x :: cause.names
  | .cancelled x => [x]
  | .blank x => [x]
  | .malformed _ => []
  | .divisionByZero => []

/-- How the brackets fit the result: all are closed, or some prompts are left open, which are those of the error, and
could still be closed and followed by the others. -/
structure Fits (bs : List Bracket) (names : List String) (r : Except Error Number) : Prop where
  closed : ∀ z, r = .ok z → Nested bs names
  opened : ∀ x, r = .error x → ∀ before, bs.foldl Bracket.note before = x.names.reverse ++ before
  completes : ∃ more, Nested (bs ++ more) names

section
variable {as bs : List Bracket} {names others : List String} {r : Except Error Number} {x : Error}

theorem Nested.fits (h : Nested bs names) (hr : ∀ x, r = .error x → x.names = []) : Fits bs names r := by
  refine ⟨fun _ _ => h, ?_, [], ?_⟩
  · intro x hx before
    rw [h.foldl_note, hr x hx]
    rfl
  · rwa [List.append_nil]

/-- What comes after closed prompts. -/
theorem Fits.behind (h : Nested as names) (h' : Fits bs others r) : Fits (as ++ bs) (names ++ others) r := by
  obtain ⟨hclosed, hopened, more, hmore⟩ := h'
  refine ⟨fun z hz => h.append (hclosed z hz), ?_, more, ?_⟩
  · intro x hx before
    rw [List.foldl_append, h.foldl_note, hopened x hx]
  · rw [List.append_assoc]
    exact h.append hmore

/-- What is not reached any more. -/
theorem Fits.before (h : Fits bs names (.error x)) (others : List String) : Fits bs (names ++ others) (.error x) := by
  obtain ⟨-, hopened, more, hmore⟩ := h
  obtain ⟨rest, hrest⟩ := exists_nested others
  refine ⟨nofun, hopened, more ++ rest, ?_⟩
  rw [← List.append_assoc]
  exact hmore.append hrest

/-- What fails inside of a prompt leaves it open. -/
theorem Fits.within (h : Fits bs names (.error x)) (n : String) :
    Fits (.request n :: bs) [n] (.error (.invalid n x)) := by
  obtain ⟨-, hopened, more, hmore⟩ := h
  refine ⟨nofun, ?_, more ++ [.bound n .zero], ?_⟩
  · intro y hy before
    cases hy
    rw [List.foldl_cons, hopened x rfl, Error.names, List.reverse_cons, List.append_assoc]
    rfl
  · rw [List.cons_append, ← List.append_assoc]
    exact hmore.single n .zero

/-- A prompt that gets no text. -/
theorem fits_request {n : String} (hx : x.names = [n]) : Fits [.request n] [n] (.error x) := by
  refine ⟨nofun, ?_, [.bound n .zero], Nested.nil.single n .zero⟩
  intro y hy before
  cases hy
  rw [hx]
  rfl

end

/-- A run asks for the variables that are not bound yet, one after the other. -/
theorem Runs.fits {e c r after} (h : Runs e c r after) :
    ∃ bs, Notes c after bs ∧ Fits bs (c.store.missing e.occurrences) r := by
  induction h with
  | lit => exact ⟨[], .rfl, Nested.nil.fits (by intro x hx; cases hx)⟩
  | reused hbound =>
    have hcontains := Store.contains_iff.mpr ⟨_, hbound⟩
    refine ⟨[], Notes.rfl.noting rfl rfl, ?_⟩
    rw [Expr.occurrences, Store.missing_of_contains hcontains]
    exact Nested.nil.fits (by intro x hx; cases hx)
  | @cancelled x c hnone =>
    refine ⟨_, notes_asked c x, ?_⟩
    rw [Expr.occurrences, Store.missing_of_none hnone]
    exact fits_request rfl
  | @unreadable x c hnone =>
    refine ⟨_, (notes_asked c x).noting rfl rfl, ?_⟩
    rw [Expr.occurrences, Store.missing_of_none hnone]
    exact fits_request rfl
  | @blank x _ c hnone =>
    refine ⟨_, notes_asked c x, ?_⟩
    rw [Expr.occurrences, Store.missing_of_none hnone]
    exact fits_request rfl
  | @malformed x typed cause c htypes _ =>
    refine ⟨_, (notes_asked c x).noting (parseEvents_quiet typed).1 (parseEvents_quiet typed).2, ?_⟩
    rw [Expr.occurrences, Store.missing_of_none htypes.1]
    exact fits_request rfl
  | @invalid x typed _ cause c after htypes _ _ ih =>
    obtain ⟨bs, hnotes, hfits⟩ := ih
    -- the request stays open around whatever is left open inside
    refine ⟨_, ((Notes.inside x typed).trans hnotes).storing c.store, ?_⟩
    rw [Expr.occurrences, Store.missing_of_none htypes.1]
    exact hfits.within x
  | @bound x typed _ z c after htypes _ _ ih =>
    obtain ⟨bs, hnotes, hfits⟩ := ih
    have hinside := ((Notes.inside x typed).trans hnotes).storing (c.store.insert x z)
    refine ⟨_, hinside.trans (notes_bound _ x z), ?_⟩
    rw [Expr.occurrences, Store.missing_of_none htypes.1]
    exact ((hfits.closed z rfl).single x z).fits (by intro x hx; cases hx)
  | binary ha _ _ iha ihb =>
    obtain ⟨as, hleft, hfitsa⟩ := iha
    obtain ⟨bs, hright, hfitsb⟩ := ihb
    refine ⟨_, hleft.trans hright, ?_⟩
    -- what the left operand asked for is bound when the right one starts, so it is not missing there
    rw [Expr.occurrences, Store.missing_append _ ha.contains_iff]
    exact ((hfitsa.closed _ rfl).append (hfitsb.closed _ rfl)).fits (by intro x hx; cases hx)
  | divided ha _ _ iha ihb =>
    obtain ⟨as, hleft, hfitsa⟩ := iha
    obtain ⟨bs, hright, hfitsb⟩ := ihb
    refine ⟨_, hleft.trans hright, ?_⟩
    rw [Expr.occurrences, Store.missing_append _ ha.contains_iff]
    exact ((hfitsa.closed _ rfl).append (hfitsb.closed _ rfl)).fits (by intro x hx; cases hx; rfl)
  | left _ ih =>
    obtain ⟨bs, hnotes, hfits⟩ := ih
    -- the names of the right operand, which is not evaluated, only show how the prompts could go on
    obtain ⟨others, hothers⟩ := Store.exists_missing_append _ _ _
    refine ⟨bs, hnotes, ?_⟩
    rw [Expr.occurrences, hothers]
    exact hfits.before others
  | right ha _ iha ihb =>
    obtain ⟨as, hleft, hfitsa⟩ := iha
    obtain ⟨bs, hright, hfitsb⟩ := ihb
    refine ⟨_, hleft.trans hright, ?_⟩
    rw [Expr.occurrences, Store.missing_append _ ha.contains_iff]
    exact hfitsb.behind (hfitsa.closed _ rfl)
  | call _ ih =>
    obtain ⟨bs, hnotes, hfits⟩ := ih
    exact ⟨bs, hnotes, (hfits.closed _ rfl).fits (by intro x hx; cases hx)⟩
  | argument _ ih => exact ih

/-! ## 5. Evaluations nest their prompts -/

/-- The names in a source text, each as often as it occurs, if the text is made of tokens. -/
def sourceNames (source : String) : List String :=
  match tokenize source with
  | .error _ => []
  | .ok ts => namesOf ts

theorem tokenize_of_parse {source : String} {e : Expr} (h : Expr.parse source = .ok e) :
    ∃ ts, tokenize source = .ok ts ∧ Expr.ofLexemes ts = .ok e := by
  rw [Expr.parse, bind_eq_ok_iff] at h
  exact h

theorem occurrences_of_parse {source : String} {e : Expr} (h : Expr.parse source = .ok e) :
    e.occurrences = sourceNames source := by
  obtain ⟨ts, htokens, hread⟩ := tokenize_of_parse h
  rw [(ofLexemes_sound hread).occurrences_eq, sourceNames, htokens]

/-- The notice that an evaluation begins with. -/
def startNotice (source : String) : Notice :=
  { text := s!"starting parse: {source}" }

/-- At the start of an evaluation no bracket is noted, and the user has been told that it begins. -/
theorem started_quiet (source : String) (replies : List Reply) :
    brackets (Context.started source replies).transcript = [] ∧
      notices (Context.started source replies).transcript = [startNotice source] := by
  obtain ⟨hbrackets, hnotices⟩ := parseEvents_quiet source
  constructor
  · exact hbrackets
  · show startNotice source :: notices (parseEvents source) = _
    rw [hnotices]

theorem evaluate_fits (source : String) (replies : List Reply) :
    ∃ bs, Notes (.started source replies) (evaluate source replies).2 bs ∧
      Fits bs (sourceNames source).eraseDups ((evaluate source replies).1.map (·.1)) := by
  rcases evaluate_cases source replies with ⟨cause, hread, heval⟩ | ⟨e, x, after, hread, hrun, heval⟩ |
      ⟨e, z, after, hread, hrun, heval⟩
  · rw [heval]
    have hnone : Fits [] [] (.error (.malformed cause)) := Nested.nil.fits (by intro x hx; cases hx; rfl)
    exact ⟨[], .rfl, hnone.before (sourceNames source).eraseDups⟩
  · rw [heval, ← occurrences_of_parse hread, ← Store.missing_empty]
    exact hrun.fits
  · obtain ⟨bs, hnotes, hfits⟩ := hrun.fits
    rw [heval, ← occurrences_of_parse hread, ← Store.missing_empty]
    exact ⟨bs, hnotes.noting rfl rfl, hfits⟩

/-- What an evaluation shows to the one who answers its prompts and to the one who is told about its bindings. -/
structure PromptsNest (source : String) (r : Except Error (Number × Expr)) (after : Context) : Prop where
  requested : after.script.requested = (brackets after.transcript).filterMap Bracket.request?
  notices : notices after.transcript = startNotice source :: (brackets after.transcript).filterMap Bracket.notice?
  noError : ∀ n ∈ ComplexCalc.notices after.transcript, n.isError = false
  closed : ∀ result, r = .ok result → Nested (brackets after.transcript) (sourceNames source).eraseDups
  opened : ∀ x, r = .error x → openRequests (brackets after.transcript) = x.names
  completes : ∃ more, Nested (brackets after.transcript ++ more) (sourceNames source).eraseDups

/-- The requests and bindings of an evaluation are nested.  Outside of all prompts it asks for the distinct names of the
source text in order, and where it fails, the prompts left open are those that the error goes through. -/
theorem evaluate_promptsNest (source : String) (replies : List Reply) :
    PromptsNest source (evaluate source replies).1 (evaluate source replies).2 := by
  obtain ⟨bs, ⟨⟨events, htranscript, hbrackets, hnotices⟩, hrequested⟩, hclosed, hopened, hcompletes⟩ :=
    evaluate_fits source replies
  obtain ⟨hbracketsStart, hnoticesStart⟩ := started_quiet source replies
  have hall : brackets (evaluate source replies).2.transcript = bs := by
    rw [htranscript, brackets, List.filterMap_append, ← brackets, ← brackets, hbracketsStart, hbrackets,
      List.nil_append]
  have htold : ComplexCalc.notices (evaluate source replies).2.transcript =
      startNotice source :: bs.filterMap Bracket.notice? := by
    rw [htranscript, ComplexCalc.notices, List.filterMap_append, ← ComplexCalc.notices, ← ComplexCalc.notices,
      hnoticesStart, hnotices, List.singleton_append]
  constructor
  · rw [hall]
    exact hrequested
  · rw [hall]
    exact htold
  · exact fun n hn => isError_of_mem_notices hn
  · intro result hresult
    rw [hall]
    exact hclosed result.1 (by rw [hresult]; rfl)
  · intro x hx
    rw [hall, openRequests, hopened x (by rw [hx]; rfl) [], List.append_nil, List.reverse_reverse]
  · rw [hall]
    exact hcompletes

end ComplexCalc
