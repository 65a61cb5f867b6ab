import ComplexCalc.Proofs.Effects
import ComplexCalc.Proofs.Substitution

/-!
# TypedValues — a text that is typed for a variable is evaluated like a source text

A run adds to what was asked and noted before and does not look at it (section 1).  So what is typed for a variable runs
behind the prompt for the variable in the same way as behind the start of an evaluation of its own (section 2).
-/

namespace ComplexCalc

/-! ## 1. Runs behind other runs -/

/-- The context with names that were asked for and events that were noted in front of its own. -/
def Context.behind (names : List String) (events : List Event) (c : Context) : Context :=
  { c with
    script := { c.script with requested := names ++ c.script.requested }
    transcript := events ++ c.transcript }

theorem Effect.on_behind (f : Effect) (names : List String) (events : List Event) (c : Context) :
    f.on (c.behind names events) = (f.on c).behind names events := by
  simp only [on, Context.behind, List.append_assoc]

/-- What was asked and noted before makes no difference to a run. -/
theorem Runs.behind {e c r after} (h : Runs e c r after) (names : List String) (events : List Event) :
    Runs e (c.behind names events) r (after.behind names events) := by
  obtain ⟨f, rfl, -, hcarries⟩ := h.hasEffect
  have hbehind := hcarries (c.behind names events) ⟨fun _ _ => rfl, fun _ _ => rfl⟩
  rwa [Effect.on_behind] at hbehind

theorem notices_append (events more : List Event) : notices (events ++ more) = notices events ++ notices more :=
  List.filterMap_append

/-! ## 2. Behind a prompt and behind a start -/

/-- Where a text is evaluated, whatever was asked and noted before. -/
def Context.reading (text : String) (replies : List Reply) : Context :=
  (Context.interactive replies).noting (parseEvents text)

/-- What is noted before a text is evaluated that was typed for the variable. -/
def promptEvents (x : String) : List Event :=
  .started x :: parseEvents x ++ [.requested x]

theorem inside_eq_behind (x text : String) (replies : List Reply) :
    (Context.started x (.text text :: replies)).inside x text =
      (Context.reading text replies).behind [x] (promptEvents x) := by
  simp [Context.inside, Context.started, Context.reading, Context.behind, Context.noting, Context.storing,
    Context.asked, Context.interactive, Script.ofReplies, Script.request, promptEvents]

theorem notices_promptEvents (x : String) : notices (promptEvents x) = [startNotice x] := by
  have hstarted := (started_quiet x []).2
  rw [promptEvents, notices_append]
  rw [Context.started] at hstarted
  exact congrArg (· ++ []) hstarted

/-- The notice that a variable was bound. -/
def boundNotice (x : String) (z : Number) : Notice :=
  { text := s!"variable bound: {x} = {z.text}" }

/-- The name is asked for and given the text, which then goes as it does by itself. -/
structure AgreesTyped (x text : String) (replies : List Reply) : Prop where
  value : ∀ v e, (evaluate text replies).1 = .ok (v, e) → (evaluate x (.text text :: replies)).1 = .ok (v, .var x)
  error : ∀ cause, (evaluate text replies).1 = .error cause →
    (evaluate x (.text text :: replies)).1 = .error (.invalid x cause)
  requested : (evaluate x (.text text :: replies)).2.script.requested =
    x :: (evaluate text replies).2.script.requested
  messages : ∃ told, notices (evaluate text replies).2.transcript = startNotice text :: told ∧
    notices (evaluate x (.text text :: replies)).2.transcript = startNotice x :: told ++
      match (evaluate text replies).1 with
      | .ok (v, _) => [boundNotice x v]
      | .error _ => []

/-- A word that is no word for something else is read as a variable. -/
theorem parse_name {x : String} (hword : Word x.toList) (hunit : x ≠ "i") (hbuiltin : ∀ f : Builtin, x ≠ f.name) :
    Expr.parse x = .ok (.var x) := by
  have hspelled : (Token.name (String.ofList x.toList)).SpelledBy x.toList :=
    .name hword (fun h => hunit (String.toList_inj.mp h)) fun f h => hbuiltin f (String.toList_inj.mp h)
  rw [String.ofList_toList] at hspelled
  exact parse_of_spelledBy hspelled .name

section
variable {x text : String} {replies : List Reply} {e : Expr} {after : Context}

theorem AgreesTyped.of_parse_error {cause} (hname : Expr.parse x = .ok (.var x)) (htext : Text.isBlank text = false)
    (hread : Expr.parse text = .error cause) : AgreesTyped x text replies := by
  have htypes : (Context.started x (.text text :: replies)).Types x text := ⟨rfl, rfl, htext⟩
  have houter := evaluate_of_runs_error hname (.malformed htypes hread)
  -- nothing is bound yet, so the text was read in the context that it would be evaluated in
  have hcontext : ((Context.started x (.text text :: replies)).asked x).noting (parseEvents text) =
      (Context.reading text replies).behind [x] (promptEvents x) := inside_eq_behind x text replies
  have hinner : evaluate text replies = _ := evaluate_of_parse_error hread
  rw [hcontext] at houter
  constructor
  · rw [hinner]
    intro v e h
    cases h
  · rw [hinner, houter]
    intro _ h
    cases h
    rfl
  · rw [hinner, houter]
    rfl
  · rw [hinner, houter]
    refine ⟨notices (Context.reading text replies).transcript, notices_append [.started text] _, ?_⟩
    rw [Context.behind, notices_append, notices_promptEvents, List.append_nil]
    rfl

theorem AgreesTyped.of_runs_error {cause} (hname : Expr.parse x = .ok (.var x)) (htext : Text.isBlank text = false)
    (hread : Expr.parse text = .ok e) (hrun : Runs e (.reading text replies) (.error cause) after) :
    AgreesTyped x text replies := by
  have htypes : (Context.started x (.text text :: replies)).Types x text := ⟨rfl, rfl, htext⟩
  have hinside := hrun.behind [x] (promptEvents x)
  rw [← inside_eq_behind] at hinside
  have houter := evaluate_of_runs_error hname (.invalid htypes hread hinside)
  have hinner : evaluate text replies = _ := evaluate_of_runs_error hread (hrun.behind [] [.started text])
  constructor
  · rw [hinner]
    intro v e h
    cases h
  · rw [hinner, houter]
    intro _ h
    cases h
    rfl
  · rw [hinner, houter]
    rfl
  · rw [hinner, houter]
    refine ⟨notices after.transcript, notices_append [.started text] _, ?_⟩
    show notices (promptEvents x ++ after.transcript) = _
    rw [notices_append, notices_promptEvents, List.append_nil]
    rfl

theorem AgreesTyped.of_runs_ok {v} (hname : Expr.parse x = .ok (.var x)) (htext : Text.isBlank text = false)
    (hread : Expr.parse text = .ok e) (hrun : Runs e (.reading text replies) (.ok v) after) :
    AgreesTyped x text replies := by
  have htypes : (Context.started x (.text text :: replies)).Types x text := ⟨rfl, rfl, htext⟩
  have hinside := hrun.behind [x] (promptEvents x)
  rw [← inside_eq_behind] at hinside
  have houter := evaluate_of_runs_ok hname (.bound htypes hread hinside)
  have hinner : evaluate text replies = _ := evaluate_of_runs_ok hread (hrun.behind [] [.started text])
  constructor
  · rw [hinner, houter]
    intro _ _ h
    cases h
    rfl
  · rw [hinner]
    intro _ h
    cases h
  · rw [hinner, houter]
    rfl
  · rw [hinner, houter]
    refine ⟨notices after.transcript, ?_, ?_⟩
    · show notices ([.started text] ++ after.transcript ++ [.evaluated ..]) = _
      rw [notices_append, notices_append]
      exact List.append_nil _
    · show notices (promptEvents x ++ after.transcript ++ [.bound x v] ++ [.evaluated ..]) = _
      rw [notices_append, notices_append, notices_append, notices_promptEvents]
      exact List.append_nil _

/-- What is typed for a name is evaluated like a source text with the replies that are left: it has the same value, or
fails for the same cause, after the same requests and notices. -/
theorem evaluate_name_agrees (hword : Word x.toList) (hunit : x ≠ "i") (hbuiltin : ∀ f : Builtin, x ≠ f.name)
    (htext : Text.isBlank text = false) : AgreesTyped x text replies := by
  have hname := parse_name hword hunit hbuiltin
  cases hread : Expr.parse text with
  | error cause => exact .of_parse_error hname htext hread
  | ok e =>
    have hrun := runs_eval (c := .reading text replies) rfl e
    cases hresult : ((Context.reading text replies).eval e).1 with
    | error cause =>
      rw [hresult] at hrun
      exact .of_runs_error hname htext hread hrun
    | ok v =>
      rw [hresult] at hrun
      exact .of_runs_ok hname htext hread hrun

end

/-- What is typed asks for a variable of the same name. -/
theorem evaluate_name_agrees_again : AgreesTyped "x" "x + 1" [.text "2", .cancelled] :=
  evaluate_name_agrees (.intro (by decide) (by simp)) (by decide) (fun f => by cases f <;> decide) (by decide)

end ComplexCalc
