import ComplexCalc.Proofs.Prompts

/-!
# Sessions — evaluations one after the other in the same context

A binding is kept for good, so a bound variable is not asked for again.  An evaluation that fails has bound the
variables to the left of the place where it halts.  When it is tried again, they are read from the store, and it comes
to the same place: the prompt that failed is the first one, or the same division is by zero before anything is asked.
-/

namespace ComplexCalc

/-! ## 1. Requests outside of other prompts -/

/-- The requests that are made while no prompt is open, if so many are open at first. -/
def outerRequests : Nat → List Bracket → List String
  | _, [] => []
  | 0, .request x :: bs => x :: outerRequests 1 bs
  | depth + 1, .request _ :: bs => outerRequests (depth + 2) bs
  | depth, .bound _ _ :: bs => outerRequests (depth - 1) bs

theorem outerRequests_prefix (depth : Nat) (bs more : List Bracket) :
    outerRequests depth bs <+: outerRequests depth (bs ++ more) := by
  induction bs generalizing depth with
  | nil =>
    rw [outerRequests]
    exact List.nil_prefix
  | cons b bs ih =>
    cases b with
    | request x =>
      cases depth with
      | zero => exact List.prefix_cons_inj x |>.mpr (ih 1)
      | succ depth => exact ih (depth + 2)
    | bound x z =>
      rw [List.cons_append, outerRequests, outerRequests]
      exact ih (depth - 1)

theorem Nested.outerRequests_append {bs : List Bracket} {names : List String} (h : Nested bs names)
    (rest : List Bracket) :
    outerRequests 0 (bs ++ rest) = names ++ outerRequests 0 rest ∧
      ∀ depth, outerRequests (depth + 1) (bs ++ rest) = outerRequests (depth + 1) rest := by
  induction h generalizing rest with
  | nil => exact ⟨rfl, fun _ => rfl⟩
  | @prompt x z inside _ behind _ _ _ ihinside ihbehind =>
    have hinside := (ihinside (.bound x z :: behind ++ rest)).2
    rw [List.append_assoc, List.cons_append]
    constructor
    · rw [outerRequests, hinside, List.cons_append, outerRequests, (ihbehind rest).1, List.cons_append]
    · intro depth
      rw [outerRequests, hinside, List.cons_append, outerRequests]
      exact (ihbehind rest).2 depth

/-- The brackets that evaluating the expression adds. -/
def Context.bracketsOf (c : Context) (e : Expr) : List Bracket :=
  brackets ((c.eval e).2.transcript.drop c.transcript.length)

theorem Notes.brackets_drop {c after : Context} {bs : List Bracket} (h : Notes c after bs) :
    brackets (after.transcript.drop c.transcript.length) = bs := by
  obtain ⟨⟨events, htranscript, hbrackets, -⟩, -⟩ := h
  rw [htranscript, List.drop_left, hbrackets]

theorem Context.requested_eval {c : Context} (hmode : c.mode = .interactive) (e : Expr) :
    (c.eval e).2.script.requested = c.script.requested ++ (c.bracketsOf e).filterMap Bracket.request? := by
  obtain ⟨bs, hnotes, -⟩ := (runs_eval hmode e).fits
  rw [bracketsOf, hnotes.brackets_drop, hnotes.requested]

/-- Only what the store does not bind is asked for outside of other prompts. -/
theorem contains_of_mem_outerRequests {c : Context} (hmode : c.mode = .interactive) {e : Expr} {x : String}
    (h : x ∈ outerRequests 0 (c.bracketsOf e)) : c.store.contains x = false := by
  obtain ⟨bs, hnotes, -, -, more, hnested⟩ := (runs_eval hmode e).fits
  have hprefix := outerRequests_prefix 0 bs more
  have hall := (hnested.outerRequests_append []).1
  rw [List.append_nil] at hall
  rw [hall] at hprefix
  rw [Context.bracketsOf, hnotes.brackets_drop] at h
  have hmem := hprefix.mem h
  rw [outerRequests, List.append_nil, Store.missing, List.mem_eraseDups, List.mem_filter] at hmem
  simpa using hmem.2

/-! ## 2. Where an evaluation halts -/

/-- Under the bindings of the store, evaluation comes to a variable that is not bound, or to a division by zero. -/
inductive Expr.Halts (s : Store) : Expr → Option String → Prop where
  | unbound {x} : s.get? x = none → Halts s (.var x) (some x)
  | divides {op a b u v} : a.valueIn s = some u → b.valueIn s = some v → op.result? u v = none →
      Halts s (.binary op a b) none
  | left {op a b at?} : Halts s a at? → Halts s (.binary op a b) at?
  | right {op a b u at?} : a.valueIn s = some u → Halts s b at? → Halts s (.binary op a b) at?
  | argument {f a at?} : Halts s a at? → Halts s (.call f a) at?

/-- The variable that an evaluation failed at, whatever went wrong with the text typed for it. -/
def Error.variable? : Error → Option String
  | .invalid x _ => some x
  | .cancelled x => some x
  | .blank x => some x
  | .malformed _ => none
  | .divisionByZero => none

/-- With the bindings that it leaves, an evaluation halts where it failed. -/
theorem Runs.halts {e c cause after} (h : Runs e c (.error cause) after) : e.Halts after.store cause.variable? := by
  generalize hr : Except.error cause = r at h
  induction h generalizing cause with
  | cancelled hnone => cases hr; exact .unbound hnone
  | unreadable hnone => cases hr; exact .unbound hnone
  | blank hnone => cases hr; exact .unbound hnone
  | malformed htypes => cases hr; exact .unbound htypes.1
  | invalid htypes => cases hr; exact .unbound htypes.1
  | divided ha hb hresult =>
    cases hr
    -- the left operand can still be read from the store that the right one leaves
    exact .divides (Expr.valueIn_mono hb.keeps ha.valueIn) hb.valueIn hresult
  | left _ ih =>
    cases hr
    exact .left (ih rfl)
  | right ha hb _ ih =>
    cases hr
    exact .right (Expr.valueIn_mono hb.keeps ha.valueIn) (ih rfl)
  | argument _ ih =>
    cases hr
    exact .argument (ih rfl)
  | _ => cases hr

theorem Expr.Halts.get?_eq_none {s : Store} {e : Expr} {at? : Option String} {x : String} (h : e.Halts s at?)
    (hat : at? = some x) : s.get? x = none := by
  induction h with
  | unbound hnone =>
    cases hat
    exact hnone
  | divides => cases hat
  | left _ ih => exact ih hat
  | right _ _ ih => exact ih hat
  | argument _ ih => exact ih hat

/-- A run that fails at a variable has bound the variables to the left of one of its occurrences. -/
theorem Runs.bound_before {e c cause after x} (h : Runs e c (.error cause) after) (hx : cause.variable? = some x) :
    ∃ before behind, e.occurrences = before ++ x :: behind ∧
      ∀ y, after.store.contains y = true ↔ c.store.contains y = true ∨ y ∈ before := by
  have hvar : ∀ {s : Store} {x y : String}, cause.variable? = some y → cause.variable? = some x →
      ∃ before behind, (Expr.var y).occurrences = before ++ x :: behind ∧
        ∀ z, s.contains z = true ↔ s.contains z = true ∨ z ∈ before := by
    intro s x y hy hx
    rw [hy] at hx
    cases hx
    exact ⟨[], [], rfl, by simp⟩
  generalize hr : Except.error cause = r at h
  induction h with
  | cancelled => cases hr; exact hvar rfl hx
  | unreadable => cases hr; exact hvar rfl hx
  | blank => cases hr; exact hvar rfl hx
  | malformed => cases hr; exact hvar rfl hx
  | invalid => cases hr; exact hvar rfl hx
  | divided => cases hr; cases hx
  | @left _ a b _ _ _ _ ih =>
    cases hr
    obtain ⟨before, behind, hoccurrences, hbound⟩ := ih rfl
    refine ⟨before, behind ++ b.occurrences, ?_, hbound⟩
    rw [Expr.occurrences, hoccurrences, List.append_assoc, List.cons_append]
  | @right _ a b _ _ _ _ _ ha _ _ ih =>
    cases hr
    obtain ⟨before, behind, hoccurrences, hbound⟩ := ih rfl
    refine ⟨a.occurrences ++ before, behind, ?_, ?_⟩
    · rw [Expr.occurrences, hoccurrences, List.append_assoc]
    · intro y
      rw [hbound, ha.contains_iff, List.mem_append, or_assoc]
  | argument _ ih =>
    cases hr
    exact ih rfl
  | _ => cases hr

/-! ## 3. Trying again -/

/-- Nothing is asked for, told or bound. -/
structure Context.Quiet (c after : Context) : Prop where
  notes : Notes c after []
  script : after.script = c.script
  store : after.store = c.store

theorem Context.Quiet.rfl {c : Context} : c.Quiet c :=
  ⟨.rfl, .refl _, .refl _⟩

theorem Context.Quiet.trans {c mid after : Context} (h : c.Quiet mid) (h' : mid.Quiet after) : c.Quiet after :=
  ⟨h.notes.trans h'.notes, h'.script.trans h.script, h'.store.trans h.store⟩

/-- Where the store has a value for the expression, evaluation reads it from the store. -/
theorem Expr.runs_of_valueIn {e : Expr} {c : Context} {v : Number} (h : e.valueIn c.store = some v) :
    ∃ after, Runs e c (.ok v) after ∧ c.Quiet after := by
  induction e generalizing c v with
  | lit z =>
    cases h
    exact ⟨c, .lit, .rfl⟩
  | var x => exact ⟨_, .reused h, Notes.rfl.noting rfl rfl, rfl, rfl⟩
  | binary op a b iha ihb =>
    rw [valueIn, Option.bind_eq_some_iff] at h
    obtain ⟨u, ha, h⟩ := h
    rw [Option.bind_eq_some_iff] at h
    obtain ⟨w, hb, hresult⟩ := h
    obtain ⟨mid, hleft, hquiet⟩ := iha ha
    rw [← hquiet.store] at hb
    obtain ⟨after, hright, hquiet'⟩ := ihb hb
    exact ⟨after, .binary hleft hright hresult, hquiet.trans hquiet'⟩
  | call f a ih =>
    rw [valueIn, Option.map_eq_some_iff] at h
    obtain ⟨u, ha, rfl⟩ := h
    obtain ⟨after, hrun, hquiet⟩ := ih ha
    exact ⟨after, .call hrun, hquiet⟩

/-- Where evaluation under the store comes to a division by zero, it fails before anything is asked. -/
theorem Expr.Halts.runs {e : Expr} {at? : Option String} {c : Context} (h : e.Halts c.store at?) (hat : at? = none) :
    ∃ after, Runs e c (.error .divisionByZero) after ∧ c.Quiet after := by
  generalize hs : c.store = s at h
  induction h generalizing c with
  | unbound => cases hat
  | divides ha hb hresult =>
    rw [← hs] at ha hb
    obtain ⟨mid, hleft, hquiet⟩ := runs_of_valueIn ha
    rw [← hquiet.store] at hb
    obtain ⟨after, hright, hquiet'⟩ := runs_of_valueIn hb
    exact ⟨after, .divided hleft hright hresult, hquiet.trans hquiet'⟩
  | left _ ih =>
    obtain ⟨after, hrun, hquiet⟩ := ih hat hs
    exact ⟨after, .left hrun, hquiet⟩
  | right ha _ ih =>
    rw [← hs] at ha
    obtain ⟨mid, hleft, hquiet⟩ := runs_of_valueIn ha
    obtain ⟨after, hright, hquiet'⟩ := ih hat (hquiet.store.trans hs)
    exact ⟨after, .right hleft hright, hquiet.trans hquiet'⟩
  | argument _ ih =>
    obtain ⟨after, hrun, hquiet⟩ := ih hat hs
    exact ⟨after, .argument hrun, hquiet⟩

theorem Runs.requested_prefix {e c r after} (h : Runs e c r after) : c.script.requested <+: after.script.requested := by
  obtain ⟨bs, hnotes, -⟩ := h.fits
  rw [hnotes.requested]
  exact List.prefix_append _ _

/-- Where evaluation under the store comes to a variable that is not bound, this is the first one that is asked for. -/
theorem Expr.Halts.first_request {e : Expr} {at? : Option String} {c after : Context} {x : String}
    {r : Except Error Number} (h : e.Halts c.store at?) (hat : at? = some x) (hmode : c.mode = .interactive)
    (hrun : Runs e c r after) : c.script.requested ++ [x] <+: after.script.requested := by
  generalize hs : c.store = s at h
  induction h generalizing c r after with
  | unbound hnone =>
    cases hat
    rw [← hs] at hnone
    have hasked : c.script.requested ++ [x] <+: (c.asked x).script.requested := by
      simp only [Context.asked, Script.requested_request, List.prefix_rfl]
    cases hrun with
    | reused hbound =>
      rw [hnone] at hbound
      cases hbound
    | cancelled => exact hasked
    | unreadable => exact hasked
    | blank => exact hasked
    | malformed => exact hasked
    | invalid _ _ hinner => exact hasked.trans hinner.requested_prefix
    | bound _ _ hinner => exact hasked.trans hinner.requested_prefix
  | divides => cases hat
  | left _ ih =>
    cases hrun with
    | binary ha hb => exact (ih hat hmode ha hs).trans hb.requested_prefix
    | divided ha hb => exact (ih hat hmode ha hs).trans hb.requested_prefix
    | left ha => exact ih hat hmode ha hs
    | right ha hb => exact (ih hat hmode ha hs).trans hb.requested_prefix
  | @right op a b u _ ha _ ih =>
    rw [← hs] at ha
    obtain ⟨quiet, hleft, hquiet⟩ := runs_of_valueIn ha
    -- the left operand is read from the store, so its run changes nothing
    have hbehind : ∀ {w mid after} {r : Except Error Number}, Runs a c (.ok w) mid → Runs b mid r after →
        c.script.requested ++ [x] <+: after.script.requested := by
      intro w mid after r ha hb
      obtain ⟨-, rfl⟩ := hleft.unique ha hmode
      have hfirst := ih hat (hleft.mode_eq.trans hmode) hb (hquiet.store.trans hs)
      rwa [hquiet.script] at hfirst
    cases hrun with
    | binary ha hb => exact hbehind ha hb
    | divided ha hb => exact hbehind ha hb
    | right ha hb => exact hbehind ha hb
    | left ha =>
      obtain ⟨hr, -⟩ := hleft.unique ha hmode
      cases hr
  | argument _ ih =>
    cases hrun with
    | call ha => exact ih hat hmode ha hs
    | argument ha => exact ih hat hmode ha hs

/-! ## 4. Sessions -/

/-- The context after the expressions have been evaluated in it one after the other, whether with a value or not. -/
def Context.evalAll (c : Context) (es : List Expr) : Context :=
  es.foldl (fun c e => (c.eval e).2) c

theorem Context.mode_evalAll {c : Context} (hmode : c.mode = .interactive) (es : List Expr) :
    (c.evalAll es).mode = .interactive := by
  induction es generalizing c with
  | nil => exact hmode
  | cons e es ih => exact ih ((runs_eval hmode e).mode_eq.trans hmode)

theorem Context.keeps_evalAll {c : Context} (hmode : c.mode = .interactive) (es : List Expr) :
    c.store.Keeps (c.evalAll es).store := by
  induction es generalizing c with
  | nil => exact .rfl
  | cons e es ih =>
    have hrun := runs_eval hmode e
    exact hrun.keeps.trans (ih (hrun.mode_eq.trans hmode))

theorem idxOf_lt_iff {before behind : List String} {x : String} (hx : x ∉ before) (y : String) :
    (before ++ x :: behind).idxOf y < (before ++ x :: behind).idxOf x ↔ y ∈ before := by
  rw [List.idxOf_append, List.idxOf_append, if_neg hx, List.idxOf_cons_self]
  by_cases hy : y ∈ before
  · have hlt := List.idxOf_lt_length_of_mem hy
    rw [if_pos hy]
    exact ⟨fun _ => hy, fun _ => by omega⟩
  · rw [if_neg hy]
    exact ⟨fun h => by omega, fun h => absurd h hy⟩

/-- What an evaluation that fails leaves, and what trying it again does. -/
structure Context.Retries (c : Context) (e : Expr) : Prop where
  unbound : ∀ cause x, (c.eval e).1 = .error cause → cause.variable? = some x →
    (c.eval e).2.store.contains x = false
  /-- The names that become bound are those whose first occurrence is to the left of that of the variable where it
  failed. -/
  bound : ∀ cause x, (c.eval e).1 = .error cause → cause.variable? = some x →
    ∀ y, (c.eval e).2.store.contains y = true ∧ c.store.contains y = false ↔
      e.occurrences.idxOf y < e.occurrences.idxOf x ∧ c.store.contains y = false
  first : ∀ cause x, (c.eval e).1 = .error cause → cause.variable? = some x →
    (c.eval e).2.script.requested ++ [x] <+: ((c.eval e).2.eval e).2.script.requested
  divides : (c.eval e).1 = .error .divisionByZero →
    ((c.eval e).2.eval e).1 = .error .divisionByZero ∧ (c.eval e).2.Quiet ((c.eval e).2.eval e).2

theorem Context.retries {c : Context} (hmode : c.mode = .interactive) (e : Expr) : c.Retries e := by
  have hrun := runs_eval hmode e
  have hmode' := hrun.mode_eq.trans hmode
  constructor
  · intro cause x hcause hx
    rw [hcause] at hrun
    rw [Store.contains, hrun.halts.get?_eq_none hx]
    rfl
  · intro cause x hcause hx y
    rw [hcause] at hrun
    obtain ⟨before, behind, hoccurrences, hbound⟩ := hrun.bound_before hx
    -- it is not bound, and the variables in front of it are, so this is its first occurrence
    have hbefore : x ∉ before := by
      intro hmem
      have hcontains := (hbound x).mpr (.inr hmem)
      rw [Store.contains, hrun.halts.get?_eq_none hx] at hcontains
      cases hcontains
    rw [hoccurrences, idxOf_lt_iff hbefore, hbound]
    constructor
    · rintro ⟨hy | hy, hnot⟩
      · rw [hnot] at hy
        cases hy
      · exact ⟨hy, hnot⟩
    · rintro ⟨hy, hnot⟩
      exact ⟨.inr hy, hnot⟩
  · intro cause x hcause hx
    rw [hcause] at hrun
    exact hrun.halts.first_request hx hmode' (runs_eval hmode' e)
  · intro hcause
    rw [hcause] at hrun
    obtain ⟨after, hagain, hquiet⟩ := hrun.halts.runs rfl
    rw [(runs_iff_eval hmode').mp hagain]
    exact ⟨rfl, hquiet⟩

/-- In a session, a binding never changes, and a name that is bound is not asked for again outside of other prompts.
An evaluation that fails can be tried again, and then goes on where it failed. -/
theorem session_keeps_and_retries (c : Context) (hmode : c.mode = .interactive) (es later : List Expr) (e : Expr) :
    (∀ x z, (c.evalAll es).store.get? x = some z → ((c.evalAll es).evalAll later).store.get? x = some z) ∧
      ((c.evalAll es).eval e).2.script.requested =
        (c.evalAll es).script.requested ++ ((c.evalAll es).bracketsOf e).filterMap Bracket.request? ∧
      (∀ x, (c.evalAll es).store.contains x = true →
        x ∉ outerRequests 0 (((c.evalAll es).evalAll later).bracketsOf e)) ∧
      (c.evalAll es).Retries e := by
  have hmode := c.mode_evalAll hmode es
  have hkeeps := Context.keeps_evalAll hmode later
  refine ⟨hkeeps, Context.requested_eval hmode e, ?_, Context.retries hmode e⟩
  intro x hx hasked
  have hnot := contains_of_mem_outerRequests (Context.mode_evalAll hmode later) hasked
  rw [hkeeps.contains hx] at hnot
  cases hnot

/-- A second prompt is cancelled after the first one was answered. -/
theorem session_keeps_and_retries_sum :
    ((Context.interactive [.text "2", .cancelled, .text "3"]).evalAll [.var "x"]).Retries
      (.binary .add (.var "x") (.var "y")) :=
  (session_keeps_and_retries _ rfl _ [] _).2.2.2

end ComplexCalc
