import ComplexCalc.Evaluation

/-!
# Running — interactive evaluation as a relation

One rule for each way in which an interactive evaluation goes on or ends.  What is typed for a variable runs inside the
rule for that variable, so an induction on a run goes through the typed texts as well, to any depth of prompts.
-/

namespace ComplexCalc

/-! ## 1. Computations in a context -/

namespace Context

def noting (c : Context) (events : List Event) : Context :=
  { c with transcript := c.transcript ++ events }

def storing (c : Context) (s : Store) : Context :=
  { c with store := s }

/-- The context once a reply for the variable has been taken. -/
def asked (c : Context) (x : String) : Context :=
  { c with script := (c.script.request x).2, transcript := c.transcript ++ [.requested x] }

/-- What the reply for the variable is. -/
def reply (c : Context) (x : String) : Reply :=
  (c.script.request x).1

/-- The reply for the variable is a text with something in it, which is needed since the variable is not bound. -/
def Types (c : Context) (x typed : String) : Prop :=
  c.store.get? x = none ∧ c.reply x = .text typed ∧ Text.isBlank typed = false

end Context

/-- What is noted while a text is read as an expression. -/
def parseEvents (source : String) : List Event :=
  match tokenize source with
  | .error _ => []
  | .ok ts =>
    .tokenized (Text.strip source) ts.length ::
      match Expr.ofLexemes ts with
      | .error _ => []
      | .ok e => [.parsed source e]

/-- Where a text that was typed for the variable is evaluated: with no variable bound. -/
def Context.inside (c : Context) (x typed : String) : Context :=
  ((c.asked x).storing .empty).noting (parseEvents typed)

namespace Evaluation

variable {α β : Type} {act : Evaluation α} {f : α → Evaluation β} {c c' : Context}

theorem bind_of_ok {a} (h : act c = (.ok a, c')) : (act >>= f) c = f a c' := by
  show (ExceptT.bind act f) c = _
  simp only [ExceptT.bind, ExceptT.mk, bind, StateT.bind]
  rw [h]
  rfl

theorem bind_of_error {x} (h : act c = (.error x, c')) : (act >>= f) c = (.error x, c') := by
  show (ExceptT.bind act f) c = _
  simp only [ExceptT.bind, ExceptT.mk, bind, StateT.bind]
  rw [h]
  rfl

theorem bind_cases {r after} (h : (act >>= f) c = (r, after)) :
    (∃ a mid, act c = (.ok a, mid) ∧ f a mid = (r, after)) ∨ ∃ x, act c = (.error x, after) ∧ r = .error x := by
  cases hact : act c with
  | mk result mid =>
    cases result with
    | ok a =>
      rw [bind_of_ok hact] at h
      exact .inl ⟨a, mid, rfl, h⟩
    | error x =>
      rw [bind_of_error hact] at h
      cases h
      exact .inr ⟨x, rfl, rfl⟩

theorem get_apply (c : Context) : (get : Evaluation Context) c = (.ok c, c) := rfl

theorem record_apply (event : Event) (c : Context) : record event c = (.ok (), c.noting [event]) := rfl

theorem parse_apply (source : String) (c : Context) :
    parse source c = ((Expr.parse source).mapError .malformed, c.noting (parseEvents source)) := by
  rw [Expr.parse, parseEvents]
  cases htokens : tokenize source with
  | error cause =>
    have hlexed : ofExcept (tokenize source) c = (.error (.malformed cause), c) := by rw [htokens]; rfl
    rw [parse, bind_of_error hlexed, Context.noting, List.append_nil]
    rfl
  | ok ts =>
    have hlexed : ofExcept (tokenize source) c = (.ok ts, c) := by rw [htokens]; rfl
    rw [parse, bind_of_ok hlexed, bind_of_ok (record_apply ..)]
    show _ = ((Expr.ofLexemes ts).mapError _, _)
    dsimp only
    -- the count of tokens is noted even where they spell no expression
    cases Expr.ofLexemes ts with
    | error cause => exact bind_of_error rfl
    | ok e =>
      have hparsed (c : Context) : ofExcept (.ok e) c = (.ok e, c) := rfl
      rw [bind_of_ok (hparsed _), bind_of_ok (record_apply ..), Context.noting, Context.noting, List.append_assoc]
      rfl

theorem request_apply (x : String) (c : Context) :
    request x c =
      match c.reply x with
      | .text typed => (.ok typed, c.asked x)
      | .cancelled => (.error (.cancelled x), c.asked x)
      | .unreadable => (.error (.cancelled x), (c.asked x).noting [.unreadable x]) := by
  have hreply : nextReply x (c.noting [.requested x]) = (.ok (c.reply x), c.asked x) := rfl
  rw [request, bind_of_ok (record_apply ..), bind_of_ok hreply]
  cases c.reply x <;> rfl

theorem isolated_apply {r after} (h : act (c.storing .empty) = (r, after)) :
    isolated act c = (r, after.storing c.store) := by
  rw [Context.storing] at h
  simp only [isolated]
  rw [h]
  rfl

theorem adapt_apply {r after} (wrap : Error → Error) (h : act c = (r, after)) :
    (ExceptT.adapt wrap act : Evaluation α) c = (r.mapError wrap, after) := by
  show (ExceptT.mk (Except.mapError wrap <$> act.run) : Evaluation α) c = _
  simp only [ExceptT.mk, Functor.map, StateT.map]
  rw [show act.run c = _ from h]
  rfl

/-- Binds the variable to its value. -/
def bindTo (x : String) (z : Number) : Evaluation Number := do
  insert x z
  record (.bound x z)
  return z

theorem bindTo_apply (x : String) (z : Number) (c : Context) :
    bindTo x z c = (.ok z, (c.storing (c.store.insert x z)).noting [.bound x z]) := rfl

theorem resolveWith_apply (typedValue : String → String → Evaluation Number) (x : String)
    (hmode : c.mode = .interactive) :
    resolveWith typedValue x c =
      match c.store.get? x with
      | some z => (.ok z, c.noting [.reused x z])
      | none =>
        match c.reply x with
        | .cancelled => (.error (.cancelled x), c.asked x)
        | .unreadable => (.error (.cancelled x), (c.asked x).noting [.unreadable x])
        | .text typed =>
          if Text.isBlank typed then (.error (.blank x), c.asked x)
          else (typedValue x typed >>= bindTo x) (c.asked x) := by
  rw [resolveWith, bind_of_ok (get_apply c), hmode]
  cases c.store.get? x with
  | some z => exact bind_of_ok (record_apply ..)
  | none =>
    have hrequest := request_apply x c
    cases hreply : c.reply x with
    | cancelled => rw [hreply] at hrequest; exact bind_of_error hrequest
    | unreadable => rw [hreply] at hrequest; exact bind_of_error hrequest
    | text typed =>
      rw [hreply] at hrequest
      refine (bind_of_ok hrequest).trans ?_
      dsimp only
      split <;> rfl

/-- The value of what is typed for a variable. -/
def typedValue (depth : Nat) (x typed : String) : Evaluation Number :=
  ExceptT.adapt (.invalid x) (isolated (parse typed >>= Expr.evalM (resolve depth)))

theorem typedValue_of_error {depth x typed cause} (hread : Expr.parse typed = .error cause) :
    typedValue depth x typed (c.asked x) =
      (.error (.invalid x (.malformed cause)), (c.asked x).noting (parseEvents typed)) := by
  have hparse := parse_apply typed ((c.asked x).storing .empty)
  rw [hread] at hparse
  exact adapt_apply _ (isolated_apply (bind_of_error hparse))

theorem typedValue_of_ok {depth x typed e r after} (hread : Expr.parse typed = .ok e)
    (hrun : e.evalM (resolve depth) (c.inside x typed) = (r, after)) :
    typedValue depth x typed (c.asked x) = (r.mapError (.invalid x), after.storing c.store) := by
  have hparse := parse_apply typed ((c.asked x).storing .empty)
  rw [hread] at hparse
  exact adapt_apply _ (isolated_apply ((bind_of_ok hparse).trans hrun))

theorem resolve_eq_resolveWith (depth : Nat) : ∃ value, resolve depth = resolveWith value := by
  cases depth with
  | zero => exact ⟨_, by rw [resolve]⟩
  | succ depth => exact ⟨_, by rw [resolve]⟩

/-- While there are replies, a text that is typed is evaluated with one level less. -/
theorem resolve_of_types {depth x typed} (hmode : c.mode = .interactive) (htypes : c.Types x typed)
    (hreplies : c.script.replies.length ≤ depth) :
    ∃ below, (c.asked x).script.replies.length ≤ below ∧ below < depth ∧
      resolve depth x c = (typedValue below x typed >>= bindTo x) (c.asked x) := by
  obtain ⟨hbound, hreply, hblank⟩ := htypes
  cases depth with
  | zero =>
    -- without a reply nothing is typed
    rw [Context.reply, Script.request, List.length_eq_zero_iff.mp (Nat.le_zero.mp hreplies)] at hreply
    cases hreply
  | succ depth =>
    refine ⟨depth, ?_, Nat.lt_succ_self depth, ?_⟩
    · rw [Context.asked, Script.replies_request, List.length_tail]
      omega
    · rw [resolve, resolveWith_apply _ x hmode, hbound, hreply]
      dsimp only
      rw [hblank]
      rfl

end Evaluation

/-! ## 2. Runs -/

/-- Evaluating the expression in a context ends with the result and leaves the other context. -/
inductive Runs : Expr → Context → Except Error Number → Context → Prop where
  | lit {z c} : Runs (.lit z) c (.ok z) c
  | reused {x z c} : c.store.get? x = some z → Runs (.var x) c (.ok z) (c.noting [.reused x z])
  | cancelled {x c} : c.store.get? x = none → c.reply x = .cancelled →
      Runs (.var x) c (.error (.cancelled x)) (c.asked x)
  | unreadable {x c} : c.store.get? x = none → c.reply x = .unreadable →
      Runs (.var x) c (.error (.cancelled x)) ((c.asked x).noting [.unreadable x])
  | blank {x typed c} : c.store.get? x = none → c.reply x = .text typed → Text.isBlank typed = true →
      Runs (.var x) c (.error (.blank x)) (c.asked x)
  | malformed {x typed cause c} : c.Types x typed → Expr.parse typed = .error cause →
      Runs (.var x) c (.error (.invalid x (.malformed cause))) ((c.asked x).noting (parseEvents typed))
  | invalid {x typed e cause c after} : c.Types x typed → Expr.parse typed = .ok e →
      Runs e (c.inside x typed) (.error cause) after →
      Runs (.var x) c (.error (.invalid x cause)) (after.storing c.store)
  | bound {x typed e z c after} : c.Types x typed → Expr.parse typed = .ok e →
      Runs e (c.inside x typed) (.ok z) after →
      Runs (.var x) c (.ok z) ((after.storing (c.store.insert x z)).noting [.bound x z])
  | binary {op a b u v z c mid after} : Runs a c (.ok u) mid → Runs b mid (.ok v) after →
      op.result? u v = some z → Runs (.binary op a b) c (.ok z) after
  | divided {op a b u v c mid after} : Runs a c (.ok u) mid → Runs b mid (.ok v) after →
      op.result? u v = none → Runs (.binary op a b) c (.error .divisionByZero) after
  | left {op a b x c after} : Runs a c (.error x) after → Runs (.binary op a b) c (.error x) after
  | right {op a b u x c mid after} : Runs a c (.ok u) mid → Runs b mid (.error x) after →
      Runs (.binary op a b) c (.error x) after
  | call {f a u c after} : Runs a c (.ok u) after → Runs (.call f a) c (.ok (f.result u)) after
  | argument {f a x c after} : Runs a c (.error x) after → Runs (.call f a) c (.error x) after

theorem Runs.mode_eq {e c r after} (h : Runs e c r after) : after.mode = c.mode := by
  induction h with
  | invalid _ _ _ ih => exact ih
  | bound _ _ _ ih => exact ih
  | binary _ _ _ iha ihb => exact ihb.trans iha
  | divided _ _ _ iha ihb => exact ihb.trans iha
  | right _ _ iha ihb => exact ihb.trans iha
  | left _ ih => exact ih
  | call _ ih => exact ih
  | argument _ ih => exact ih
  | _ => rfl

/-- The evaluation of an expression without variables leaves the context as it is. -/
theorem Runs.eq_of_closed {e c r after} (h : Runs e c r after) (hclosed : e.occurrences = []) : after = c := by
  induction h with
  | lit => rfl
  | binary _ _ _ iha ihb =>
    obtain ⟨ha, hb⟩ := List.append_eq_nil_iff.mp hclosed
    rw [ihb hb, iha ha]
  | divided _ _ _ iha ihb =>
    obtain ⟨ha, hb⟩ := List.append_eq_nil_iff.mp hclosed
    rw [ihb hb, iha ha]
  | right _ _ iha ihb =>
    obtain ⟨ha, hb⟩ := List.append_eq_nil_iff.mp hclosed
    rw [ihb hb, iha ha]
  | left _ ih => exact ih (List.append_eq_nil_iff.mp hclosed).1
  | call _ ih => exact ih hclosed
  | argument _ ih => exact ih hclosed
  -- the other runs are those of a variable
  | _ => cases hclosed

theorem Context.replies_asked (c : Context) (x : String) : (c.asked x).script.replies = c.script.replies.tail :=
  Script.replies_request c.script x

/-- Replies are taken from the front. -/
theorem Runs.replies_suffix {e c r after} (h : Runs e c r after) : after.script.replies <:+ c.script.replies := by
  have htail : ∀ {c : Context} {x}, (c.asked x).script.replies <:+ c.script.replies := by
    intro c x
    rw [Context.replies_asked]
    exact List.tail_suffix _
  induction h with
  | lit => exact List.suffix_rfl
  | reused => exact List.suffix_rfl
  | cancelled => exact htail
  | unreadable => exact htail
  | blank => exact htail
  | malformed => exact htail
  | invalid _ _ _ ih => exact ih.trans htail
  | bound _ _ _ ih => exact ih.trans htail
  | binary _ _ _ iha ihb => exact ihb.trans iha
  | divided _ _ _ iha ihb => exact ihb.trans iha
  | right _ _ iha ihb => exact ihb.trans iha
  | left _ ih => exact ih
  | call _ ih => exact ih
  | argument _ ih => exact ih

/-! ## 3. The evaluator runs -/

/-- With at most so many replies, the computation is a run of the expression. -/
def Evaluation.RunsAs (act : Evaluation Number) (n : Nat) (e : Expr) : Prop :=
  ∀ c r after, c.mode = .interactive → c.script.replies.length ≤ n → act c = (r, after) → Runs e c r after

open Evaluation

theorem runsAs_evalM {lookup : String → Evaluation Number} {n : Nat} (hlookup : ∀ x, (lookup x).RunsAs n (.var x))
    (e : Expr) : (e.evalM lookup).RunsAs n e := by
  induction e with
  | lit z =>
    intro c r after _ _ h
    cases h
    exact .lit
  | var x => exact hlookup x
  | binary op a b iha ihb =>
    intro c r after hmode hreplies h
    rcases bind_cases h with ⟨u, mid, ha, h⟩ | ⟨x, ha, rfl⟩
    · have hleft := iha _ _ _ hmode hreplies ha
      have hmid : mid.script.replies.length ≤ n := Nat.le_trans hleft.replies_suffix.length_le hreplies
      rcases bind_cases h with ⟨v, after', hb, h⟩ | ⟨x, hb, rfl⟩
      · have hright := ihb _ _ _ (hleft.mode_eq.trans hmode) hmid hb
        cases hresult : op.result? u v with
        | some z =>
          rw [hresult] at h
          cases h
          exact .binary hleft hright hresult
        | none =>
          rw [hresult] at h
          cases h
          exact .divided hleft hright hresult
      · exact .right hleft (ihb _ _ _ (hleft.mode_eq.trans hmode) hmid hb)
    · exact .left (iha _ _ _ hmode hreplies ha)
  | call f a ih =>
    intro c r after hmode hreplies h
    rcases bind_cases h with ⟨u, mid, ha, h⟩ | ⟨x, ha, rfl⟩
    · cases h
      exact .call (ih _ _ _ hmode hreplies ha)
    · exact .argument (ih _ _ _ hmode hreplies ha)

theorem runs_of_typed {below x typed c r after} (hlookup : ∀ y, (resolve below y).RunsAs below (.var y))
    (hmode : c.mode = .interactive) (htypes : c.Types x typed) (hrest : (c.asked x).script.replies.length ≤ below)
    (h : (typedValue below x typed >>= bindTo x) (c.asked x) = (r, after)) : Runs (.var x) c r after := by
  cases hread : Expr.parse typed with
  | error cause =>
    rw [bind_of_error (typedValue_of_error hread)] at h
    cases h
    exact .malformed htypes hread
  | ok e =>
    cases hrun : e.evalM (resolve below) (c.inside x typed) with
    | mk result inner =>
      have hinner := runsAs_evalM hlookup e (c.inside x typed) _ _ hmode hrest hrun
      cases result with
      | ok z =>
        rw [bind_of_ok (typedValue_of_ok hread hrun), bindTo_apply] at h
        cases h
        have hdone := Runs.bound htypes hread hinner
        exact hdone
      | error cause =>
        rw [bind_of_error (typedValue_of_ok hread hrun)] at h
        cases h
        exact .invalid htypes hread hinner

/-- Without a text to evaluate, a variable runs in the same way at every depth. -/
theorem runs_of_not_types {value x c r after} (hmode : c.mode = .interactive) (hnone : ¬ ∃ typed, c.Types x typed)
    (h : resolveWith value x c = (r, after)) : Runs (.var x) c r after := by
  rw [resolveWith_apply _ x hmode] at h
  split at h
  · cases h
    exact .reused ‹_›
  · split at h
    · cases h
      exact .cancelled ‹_› ‹_›
    · cases h
      exact .unreadable ‹_› ‹_›
    · split at h
      · cases h
        exact .blank ‹_› ‹_› ‹_›
      · exact absurd ⟨_, ‹_›, ‹_›, Bool.eq_false_iff.mpr ‹_›⟩ hnone

/-- Each prompt that is open has taken a reply, so the prompts inside it need one level less. -/
theorem runsAs_resolve (depth : Nat) (x : String) : (resolve depth x).RunsAs depth (.var x) := by
  induction depth using Nat.strongRecOn generalizing x with
  | _ depth ih =>
    intro c r after hmode hreplies h
    by_cases htypes : ∃ typed, c.Types x typed
    · -- the induction goes through what was typed, where fewer prompts can still be opened
      obtain ⟨typed, htypes⟩ := htypes
      obtain ⟨below, hrest, hbelow, hresolve⟩ := resolve_of_types hmode htypes hreplies
      rw [hresolve] at h
      exact runs_of_typed (ih below hbelow) hmode htypes hrest h
    · obtain ⟨value, hresolve⟩ := resolve_eq_resolveWith depth
      rw [hresolve] at h
      exact runs_of_not_types hmode htypes h

/-- Evaluating an expression in an interactive context is a run of it. -/
theorem runs_eval {c : Context} (hmode : c.mode = .interactive) (e : Expr) : Runs e c (c.eval e).1 (c.eval e).2 :=
  runsAs_evalM (runsAs_resolve _) e c _ _ hmode (Nat.le_refl _) rfl

/-- A run is what evaluating the expression does, however deep prompts may be nested. -/
theorem Runs.evalM_eq {e c r after} (h : Runs e c r after) (hmode : c.mode = .interactive) {depth : Nat}
    (hreplies : c.script.replies.length ≤ depth) : e.evalM (resolve depth) c = (r, after) := by
  induction h generalizing depth with
  | lit => rfl
  | @reused x z c hbound =>
    obtain ⟨value, hresolve⟩ := resolve_eq_resolveWith depth
    rw [Expr.evalM, hresolve, resolveWith_apply _ x hmode, hbound]
  | @cancelled x c hbound hreply =>
    obtain ⟨value, hresolve⟩ := resolve_eq_resolveWith depth
    rw [Expr.evalM, hresolve, resolveWith_apply _ x hmode, hbound, hreply]
  | @unreadable x c hbound hreply =>
    obtain ⟨value, hresolve⟩ := resolve_eq_resolveWith depth
    rw [Expr.evalM, hresolve, resolveWith_apply _ x hmode, hbound, hreply]
  | @blank x typed c hbound hreply hblank =>
    obtain ⟨value, hresolve⟩ := resolve_eq_resolveWith depth
    rw [Expr.evalM, hresolve, resolveWith_apply _ x hmode, hbound, hreply]
    exact if_pos hblank
  | malformed htypes hread =>
    obtain ⟨below, -, -, hresolve⟩ := resolve_of_types hmode htypes hreplies
    rw [Expr.evalM, hresolve]
    exact bind_of_error (typedValue_of_error hread)
  | invalid htypes hread _ ih =>
    obtain ⟨below, hrest, -, hresolve⟩ := resolve_of_types hmode htypes hreplies
    rw [Expr.evalM, hresolve]
    exact bind_of_error (typedValue_of_ok hread (ih hmode hrest))
  | bound htypes hread _ ih =>
    obtain ⟨below, hrest, -, hresolve⟩ := resolve_of_types hmode htypes hreplies
    rw [Expr.evalM, hresolve]
    exact bind_of_ok (typedValue_of_ok hread (ih hmode hrest))
  | binary ha _ hresult iha ihb =>
    have hmid := Nat.le_trans ha.replies_suffix.length_le hreplies
    rw [Expr.evalM, bind_of_ok (iha hmode hreplies), bind_of_ok (ihb (ha.mode_eq.trans hmode) hmid), hresult]
    rfl
  | divided ha _ hresult iha ihb =>
    have hmid := Nat.le_trans ha.replies_suffix.length_le hreplies
    rw [Expr.evalM, bind_of_ok (iha hmode hreplies), bind_of_ok (ihb (ha.mode_eq.trans hmode) hmid), hresult]
    rfl
  | left _ iha =>
    rw [Expr.evalM]
    exact bind_of_error (iha hmode hreplies)
  | right ha _ iha ihb =>
    have hmid := Nat.le_trans ha.replies_suffix.length_le hreplies
    rw [Expr.evalM, bind_of_ok (iha hmode hreplies)]
    exact bind_of_error (ihb (ha.mode_eq.trans hmode) hmid)
  | call _ ih =>
    rw [Expr.evalM]
    exact bind_of_ok (ih hmode hreplies)
  | argument _ ih =>
    rw [Expr.evalM]
    exact bind_of_error (ih hmode hreplies)

theorem runs_iff_eval {c : Context} (hmode : c.mode = .interactive) {e r after} :
    Runs e c r after ↔ c.eval e = (r, after) := by
  constructor
  · intro h
    exact h.evalM_eq hmode (Nat.le_refl _)
  · intro h
    have hrun := runs_eval hmode e
    rwa [h] at hrun

/-- What a run ends with and leaves is determined. -/
theorem Runs.unique {e c r r' after after'} (h : Runs e c r after) (h' : Runs e c r' after')
    (hmode : c.mode = .interactive) : r = r' ∧ after = after' := by
  have hsame := ((runs_iff_eval hmode).mp h).symm.trans ((runs_iff_eval hmode).mp h')
  cases hsame
  exact ⟨rfl, rfl⟩

/-! ## 4. Source texts -/

/-- The context in which a source text is evaluated once it has been read. -/
def Context.started (source : String) (replies : List Reply) : Context :=
  (Context.interactive replies).noting (.started source :: parseEvents source)

theorem parse_started (source : String) (replies : List Reply) :
    parse source ((Context.interactive replies).noting [.started source]) =
      ((Expr.parse source).mapError .malformed, Context.started source replies) := by
  rw [parse_apply, Context.started]
  simp [Context.noting]

section
variable {source : String} {replies : List Reply} {e : Expr} {after : Context}

theorem evaluate_of_parse_error {cause} (hread : Expr.parse source = .error cause) :
    evaluate source replies = (.error (.malformed cause), .started source replies) := by
  have hparse := parse_started source replies
  rw [hread] at hparse
  unfold evaluate
  dsimp only
  rw [bind_of_ok (record_apply ..), bind_of_error hparse]

theorem evaluate_of_runs_error {x} (hread : Expr.parse source = .ok e)
    (hrun : Runs e (.started source replies) (.error x) after) : evaluate source replies = (.error x, after) := by
  have hparse := parse_started source replies
  have heval := hrun.evalM_eq rfl (Nat.le_refl replies.length)
  rw [hread] at hparse
  unfold evaluate
  dsimp only
  rw [bind_of_ok (record_apply ..), bind_of_ok hparse, bind_of_error heval]

theorem evaluate_of_runs_ok {z} (hread : Expr.parse source = .ok e)
    (hrun : Runs e (.started source replies) (.ok z) after) :
    evaluate source replies = (.ok (z, e), after.noting [.evaluated source z after.store.size]) := by
  have hparse := parse_started source replies
  have heval := hrun.evalM_eq rfl (Nat.le_refl replies.length)
  rw [hread] at hparse
  unfold evaluate
  dsimp only
  rw [bind_of_ok (record_apply ..), bind_of_ok hparse, bind_of_ok heval, bind_of_ok (get_apply _),
    bind_of_ok (record_apply ..)]
  rfl

end

/-- A source text is no expression, or its expression runs. -/
theorem evaluate_cases (source : String) (replies : List Reply) :
    (∃ cause, Expr.parse source = .error cause ∧
      evaluate source replies = (.error (.malformed cause), .started source replies)) ∨
    (∃ e x after, Expr.parse source = .ok e ∧ Runs e (.started source replies) (.error x) after ∧
      evaluate source replies = (.error x, after)) ∨
    ∃ e z after, Expr.parse source = .ok e ∧ Runs e (.started source replies) (.ok z) after ∧
      evaluate source replies = (.ok (z, e), after.noting [.evaluated source z after.store.size]) := by
  cases hread : Expr.parse source with
  | error cause => exact .inl ⟨cause, rfl, evaluate_of_parse_error hread⟩
  | ok e =>
    have hrun := runs_eval (c := .started source replies) rfl e
    cases hresult : ((Context.started source replies).eval e).1 with
    | error x =>
      rw [hresult] at hrun
      exact .inr (.inl ⟨e, x, _, rfl, hrun, evaluate_of_runs_error hread hrun⟩)
    | ok z =>
      rw [hresult] at hrun
      exact .inr (.inr ⟨e, z, _, rfl, hrun, evaluate_of_runs_ok hread hrun⟩)

end ComplexCalc
