import ComplexCalc.Proofs.Bindings
import ComplexCalc.Proofs.Names
import ComplexCalc.Proofs.Replies

/-!
# LogRecords — the log of an evaluation tells of its prompts

A log record is told by its level and its first words, which no record of another kind begins with (section 1).  A run
with a value notes the reading of each text that is typed, and takes every variable that it comes to from the store or
asks for it (section 2).  So the log of an evaluation with a value adds up (section 3).
-/

namespace ComplexCalc

/-! ## 1. Kinds of records -/

/-- What a log record is about. -/
inductive RecordKind where
  | tokenized
  | parsed
  /-- A variable that is already bound. -/
  | reused
  /-- A value is requested. -/
  | requested
  | evaluated
deriving DecidableEq

namespace RecordKind

def level : RecordKind → LogLevel
  | .tokenized => .trace
  | _ => .debug

/-- What the text of each record of the kind begins with. -/
def words : RecordKind → String
  | .tokenized => "tokenized "
  | .parsed => "parsed "
  | .reused => "variable "
  | .requested => "requesting a value for "
  | .evaluated => "evaluated "

end RecordKind

/-- Whether the record is of the kind. -/
def LogRecord.isOf (r : LogRecord) (kind : RecordKind) : Bool :=
  r.level = kind.level && kind.words.toList.isPrefixOf r.text.toList

/-- The kind of the record of an event. -/
def Event.kind? : Event → Option RecordKind
  | .tokenized _ _ => some .tokenized
  | .parsed _ _ => some .parsed
  | .reused _ _ => some .reused
  | .requested _ => some .requested
  | .evaluated _ _ _ => some .evaluated
  | _ => none

/-- What is noted when a value is requested. -/
def requestRecord (x : String) : LogRecord :=
  ⟨.debug, .variables, "requesting a value for " ++ x⟩

def Event.requested? : Event → Option String
  | .requested x => some x
  | _ => none

/-- The names asked for, in order. -/
def requestsOf (events : List Event) : List String :=
  events.filterMap Event.requested?

/-- How many events have a record of the kind. -/
def countOf (kind : RecordKind) (events : List Event) : Nat :=
  events.countP fun event => event.kind? = some kind

section
variable {event : Event} {r : LogRecord} {kind other : RecordKind}

theorem LogRecord.isOf_iff : r.isOf kind ↔ r.level = kind.level ∧ kind.words.toList <+: r.text.toList := by
  rw [isOf, Bool.and_eq_true, decide_eq_true_iff, List.isPrefixOf_iff_prefix]

/-- The first words of two kinds differ before either of them ends. -/
theorem RecordKind.eq_of_prefix (h : kind.words.toList <+: other.words.toList) : kind = other := by
  rw [← List.isPrefixOf_iff_prefix] at h
  cases kind <;> cases other <;> first | rfl | exact absurd h (by decide)

theorem LogRecord.isOf_unique (h : r.isOf kind) (h' : r.isOf other) : kind = other := by
  rcases List.prefix_or_prefix_of_prefix (isOf_iff.mp h).2 (isOf_iff.mp h').2 with hwords | hwords
  · exact RecordKind.eq_of_prefix hwords
  · exact (RecordKind.eq_of_prefix hwords).symm

/-- The text of a record begins with the words of its kind. -/
theorem Event.exists_kind (h : event.record? = some r) : ∃ kind, event.kind? = some kind ∧ r.isOf kind := by
  cases event with
  | started | unreadable | bound => cases h
  | tokenized | parsed | reused | requested | evaluated =>
    cases h
    refine ⟨_, rfl, LogRecord.isOf_iff.mpr ⟨rfl, ?_⟩⟩
    simp only [String.toList_append, List.append_assoc]
    exact List.prefix_append _ _

theorem Event.isOf_eq (h : event.record? = some r) (kind : RecordKind) :
    r.isOf kind = decide (event.kind? = some kind) := by
  obtain ⟨own, hown, hrecord⟩ := exists_kind h
  rw [hown, Bool.eq_iff_iff, decide_eq_true_iff, Option.some_inj]
  constructor
  · exact fun hkind => LogRecord.isOf_unique hrecord hkind
  · rintro rfl
    exact hrecord

end

/-- The record of a value ends with the count of the bound variables. -/
theorem exists_evaluated_record (source : String) (z : Number) (count : Nat) :
    ∃ r, (Event.evaluated source z count).record? = some r ∧ r.isOf .evaluated ∧
      s!" with {count} variable(s) bound".toList <:+ r.text.toList := by
  obtain ⟨r, hrecord⟩ : ∃ r, (Event.evaluated source z count).record? = some r := ⟨_, rfl⟩
  refine ⟨r, hrecord, ?_, ?_⟩
  · rw [Event.isOf_eq hrecord]
    exact decide_eq_true rfl
  · cases hrecord
    simp only [String.toList_append, List.append_assoc]
    -- in front of the count stand the first words, the source in quotes, the word between it and the value, the value
    iterate 3 apply List.suffix_append_of_suffix
    exact List.suffix_append _ _

theorem countP_logRecords (kind : RecordKind) (events : List Event) :
    (logRecords events).countP (·.isOf kind) = countOf kind events := by
  rw [logRecords, countOf, List.countP_filterMap]
  apply List.countP_congr
  intro event _
  cases hrecord : event.record? with
  | none => cases event <;> first | exact Iff.rfl | cases hrecord
  | some r => exact Bool.eq_iff_iff.mp (Event.isOf_eq hrecord kind)

theorem filter_logRecords_requested (events : List Event) :
    (logRecords events).filter (·.isOf .requested) = (requestsOf events).map requestRecord := by
  rw [logRecords, requestsOf, List.filter_filterMap, List.map_filterMap]
  congr 1
  funext event
  cases hrecord : event.record? with
  | none => cases event <;> first | rfl | cases hrecord
  | some r =>
    rw [Option.filter_some, Event.isOf_eq hrecord]
    cases event <;> cases hrecord <;> rfl

/-! ## 2. Runs with a value -/

/-- The reply is a text that is read as the tree. -/
def Reply.TypesTree (reply : Reply) (tree : Expr) : Prop :=
  ∃ typed, reply = .text typed ∧ Expr.parse typed = .ok tree

/-- How many events of a kind a run notes that asks for so many names and uses so many bound ones again. -/
def RecordKind.expected (requests uses : Nat) : RecordKind → Nat
  | .tokenized => requests
  | .parsed => requests
  | .reused => uses
  | .requested => requests
  | .evaluated => 0

theorem RecordKind.expected_add (kind : RecordKind) (n m k l : Nat) :
    kind.expected n k + kind.expected m l = kind.expected (n + m) (k + l) := by
  cases kind <;> rfl

/-- On the way from the one context to the other a tree was typed for each of the names, and bound variables were used
so many times. -/
structure Tells (c after : Context) (names : List String) (trees : List Expr) (uses : Nat) : Prop where
  asks : Asks c after names
  typed : List.Forall₂ Reply.TypesTree (c.script.replies.take names.length) trees
  length_eq : trees.length = names.length
  noted : ∃ events, after.transcript = c.transcript ++ events ∧ requestsOf events = names ∧
    ∀ kind, countOf kind events = kind.expected names.length uses

section
variable {c mid after : Context} {names others : List String} {trees more : List Expr} {uses again : Nat}

theorem Tells.rfl : Tells c c [] [] 0 :=
  ⟨.rfl, .nil, Eq.refl _, [], (List.append_nil _).symm, Eq.refl _, fun kind => by cases kind <;> exact Eq.refl _⟩

theorem Tells.trans (h : Tells c mid names trees uses) (h' : Tells mid after others more again) :
    Tells c after (names ++ others) (trees ++ more) (uses + again) := by
  obtain ⟨hasks, htyped, hlength, events, htranscript, hnames, hcount⟩ := h
  obtain ⟨hasks', htyped', hlength', events', htranscript', hnames', hcount'⟩ := h'
  refine ⟨hasks.trans hasks', ?_, ?_, events ++ events', ?_, ?_, fun kind => ?_⟩
  · -- the second part takes the replies that the first one has left
    rw [hasks.replies] at htyped'
    rw [List.length_append, List.take_add]
    exact List.rel_append htyped htyped'
  · rw [List.length_append, List.length_append, hlength, hlength']
  · rw [htranscript', htranscript, List.append_assoc]
  · rw [requestsOf, List.filterMap_append, ← requestsOf, ← requestsOf, hnames, hnames']
  · rw [countOf, List.countP_append, ← countOf, ← countOf, hcount, hcount', List.length_append, kind.expected_add]

theorem tells_reused (c : Context) (x : String) (z : Number) : Tells c (c.noting [.reused x z]) [] [] 1 :=
  ⟨Asks.rfl.noting _, .nil, Eq.refl _, [.reused x z], Eq.refl _, Eq.refl _, fun kind => by cases kind <;> exact Eq.refl _⟩

theorem parseEvents_of_parse {source : String} {e : Expr} (h : Expr.parse source = .ok e) :
    ∃ stripped count, parseEvents source = [.tokenized stripped count, .parsed source e] := by
  obtain ⟨ts, htokens, hread⟩ := tokenize_of_parse h
  rw [parseEvents, htokens]
  simp only [hread]
  exact ⟨_, _, Eq.refl _⟩

/-- The typed text is read behind its request, and is evaluated with no variable bound. -/
theorem tells_inside {x typed : String} {e : Expr} (htypes : c.Types x typed) (hread : Expr.parse typed = .ok e) :
    Tells c (c.inside x typed) [x] [e] 0 := by
  obtain ⟨stripped, count, hevents⟩ := parseEvents_of_parse hread
  refine ⟨asks_inside c x typed, ?_, Eq.refl _, .requested x :: parseEvents typed, ?_, ?_, fun kind => ?_⟩
  · -- the text is the first reply that is left
    have hfirst := Context.head?_of_reply htypes.2.1 nofun
    rw [← List.head?_eq_getElem?, List.head?_eq_some_iff] at hfirst
    obtain ⟨rest, hreplies⟩ := hfirst
    rw [hreplies]
    exact .cons ⟨typed, Eq.refl _, hread⟩ .nil
  · exact List.append_assoc ..
  · rw [hevents]
    exact Eq.refl _
  · rw [hevents]
    cases kind <;> exact Eq.refl _

theorem Tells.storing (h : Tells c after names trees uses) (s : Store) : Tells c (after.storing s) names trees uses :=
  ⟨h.asks.storing s, h.typed, h.length_eq, h.noted⟩

theorem tells_bound (c : Context) (x : String) (z : Number) : Tells c (c.noting [.bound x z]) [] [] 0 :=
  ⟨Asks.rfl.noting _, .nil, Eq.refl _, [.bound x z], Eq.refl _, Eq.refl _, fun kind => by cases kind <;> exact Eq.refl _⟩

end

/-- The variables in the trees, each as often as it occurs. -/
def occurrencesIn (trees : List Expr) : Nat :=
  (trees.map fun e => e.occurrences.length).sum

theorem occurrencesIn_append (trees more : List Expr) :
    occurrencesIn (trees ++ more) = occurrencesIn trees + occurrencesIn more := by
  rw [occurrencesIn, List.map_append, List.sum_append, ← occurrencesIn, ← occurrencesIn]

/-- Each occurrence of a variable, in the expression or in what is typed on the way, is either used again or asked
for. -/
theorem Runs.tells {e c v after} (h : Runs e c v after) {value : Number} (hv : v = .ok value) :
    ∃ names trees uses, Tells c after names trees uses ∧
      uses + names.length = e.occurrences.length + occurrencesIn trees := by
  induction h generalizing value with
  | lit => exact ⟨[], [], 0, .rfl, rfl⟩
  | reused => exact ⟨[], [], 1, tells_reused _ _ _, rfl⟩
  | @bound x typed e z c _ htypes hread _ ih =>
    -- one occurrence in the expression is paid for by the request, those of the typed tree are counted inside
    obtain ⟨names, trees, uses, htells, hcount⟩ := ih rfl
    have hinside := ((tells_inside htypes hread).trans htells).storing (c.store.insert x z)
    refine ⟨_, _, _, hinside.trans (tells_bound _ x z), ?_⟩
    have hsplit : occurrencesIn ([e] ++ trees ++ []) = e.occurrences.length + occurrencesIn trees := by
      rw [List.append_nil, occurrencesIn_append]
      rfl
    rw [hsplit, List.append_nil, List.length_append, List.length_singleton, Expr.occurrences, List.length_singleton]
    omega
  | binary _ _ _ iha ihb =>
    obtain ⟨names, trees, uses, htells, hcount⟩ := iha rfl
    obtain ⟨others, more, again, htells', hcount'⟩ := ihb rfl
    refine ⟨_, _, _, htells.trans htells', ?_⟩
    rw [occurrencesIn_append, List.length_append, Expr.occurrences, List.length_append]
    omega
  | call _ ih => exact ih rfl
  -- the other runs end in an error
  | _ => cases hv

/-! ## 3. Evaluations with a value -/

theorem Expr.nodup_variableNames (e : Expr) : e.variableNames.Nodup :=
  e.pairwise_variableNames.imp fun h => ne_of_lt h

/-- What the log of an evaluation of the source text with the replies says once it has come to the value. -/
structure LogAddsUp (source : String) (replies : List Reply) (z : Number) (e : Expr) (after : Context) : Prop where
  requested : (logRecords after.transcript).filter (·.isOf .requested) = after.script.requested.map requestRecord
  tokenized : (logRecords after.transcript).countP (·.isOf .tokenized) = 1 + after.script.requested.length
  parsed : (logRecords after.transcript).countP (·.isOf .parsed) = 1 + after.script.requested.length
  /-- The trees are those of all texts that were typed. -/
  reused : ∃ trees, List.Forall₂ Reply.TypesTree (replies.take after.script.requested.length) trees ∧
    trees.length = after.script.requested.length ∧
    (logRecords after.transcript).countP (·.isOf .reused) + after.script.requested.length =
      e.occurrences.length + occurrencesIn trees
  evaluated : (logRecords after.transcript).countP (·.isOf .evaluated) = 1
  /-- The count of bound variables that the last record ends with is that of the names of the expression. -/
  last : ∃ r, (logRecords after.transcript).getLast? = some r ∧ r.isOf .evaluated ∧
    s!" with {e.variableNames.length} variable(s) bound".toList <:+ r.text.toList

theorem Runs.logAddsUp {source : String} {replies : List Reply} {e : Expr} {z : Number} {after : Context}
    (hrun : Runs e (.started source replies) (.ok z) after) (hread : Expr.parse source = .ok e) :
    LogAddsUp source replies z e (after.noting [.evaluated source z after.store.size]) := by
  obtain ⟨names, trees, uses, ⟨hasks, htyped, hlength, events, htranscript, hnames, hcount⟩, htotal⟩ := hrun.tells rfl
  obtain ⟨stripped, count, hevents⟩ := parseEvents_of_parse hread
  have hsize : after.store.size = e.variableNames.length := by
    refine Store.size_eq_length e.nodup_variableNames fun x => ?_
    rw [hrun.contains_iff, Expr.mem_variableNames]
    exact or_iff_right nofun
  have hrequested : (after.noting [.evaluated source z after.store.size]).script.requested = names := hasks.requested
  -- the text is read before the run, and the value is noted behind it
  have hwhole : (after.noting [.evaluated source z after.store.size]).transcript =
      [.started source, .tokenized stripped count, .parsed source e] ++ events ++
        [.evaluated source z after.store.size] := by
    show after.transcript ++ _ = _
    rw [htranscript, Context.started, hevents]
    rfl
  have hcounts : ∀ kind, (logRecords (after.noting [.evaluated source z after.store.size]).transcript).countP
      (·.isOf kind) = countOf kind [.started source, .tokenized stripped count, .parsed source e] +
        kind.expected names.length uses + countOf kind [.evaluated source z after.store.size] := by
    intro kind
    rw [countP_logRecords, hwhole, countOf, List.countP_append, List.countP_append, ← countOf, ← countOf, ← countOf,
      hcount]
  constructor
  · rw [filter_logRecords_requested, hrequested, hwhole, requestsOf, List.filterMap_append, List.filterMap_append,
      ← requestsOf, ← requestsOf, ← requestsOf, hnames]
    exact congrArg (List.map requestRecord) (List.append_nil names)
  · rw [hcounts, hrequested]
    rfl
  · rw [hcounts, hrequested]
    rfl
  · rw [hcounts, hrequested]
    refine ⟨trees, htyped, hlength, ?_⟩
    show 0 + uses + names.length = _
    rw [Nat.zero_add, htotal]
  · rw [hcounts]
    rfl
  · obtain ⟨r, hrecord, hkind, hending⟩ := exists_evaluated_record source z e.variableNames.length
    refine ⟨r, ?_, hkind, hending⟩
    rw [hwhole, logRecords, List.filterMap_append, hsize, List.filterMap_cons_some hrecord]
    exact List.getLast?_concat

/-- The log of an evaluation with a value tells of its prompts.  The requests in it are those for the names asked for,
in the same order; one text more than that was cut into tokens and parsed; each variable that was not asked for was
bound already; and in the end it tells how many variables are bound, which is how many names the expression has. -/
theorem log_adds_up {source : String} {replies : List Reply} {z : Number} {e : Expr} {after : Context}
    (h : evaluate source replies = (.ok (z, e), after)) : LogAddsUp source replies z e after := by
  rcases evaluate_cases source replies with ⟨_, _, heval⟩ | ⟨_, _, _, _, _, heval⟩ | ⟨_, _, _, hread, hrun, heval⟩
  · rw [heval] at h
    cases h
  · rw [heval] at h
    cases h
  · rw [heval] at h
    cases h
    exact hrun.logAddsUp hread

/-- Of the four occurrences, in the expression and in the text typed for its variable, two are asked for. -/
theorem log_adds_up_nested :
    LogAddsUp "x * x" [.text "a + a", .text "2"] ⟨16.0, 0.0⟩ (.binary .mul (.var "x") (.var "x"))
      (evaluate "x * x" [.text "a + a", .text "2"]).2 := by
  have hvalue : (evaluate "x * x" [.text "a + a", .text "2"]).1 =
      .ok (⟨16.0, 0.0⟩, .binary .mul (.var "x") (.var "x")) := by decide +kernel
  exact log_adds_up (Prod.ext hvalue rfl)

end ComplexCalc
