import ComplexCalc.Comparison
import ComplexCalc.Proofs.Doubles
import ComplexCalc.Proofs.Substitution

/-!
# ComparisonMode — evaluation with the sentinel for every variable

A comparison context reads every variable as the sentinel and is left as it was (section 1).  An interactive context
whose prompts are all answered with the text of the sentinel binds every variable to it, so both come to the same result
(section 2).  The verdict on two values depends on the distance between them, which is no number where a part of both
is infinite (section 3).
-/

namespace ComplexCalc

open Evaluation

/-! ## 1. The sentinel as value -/

namespace Expr
variable {env : String → Number}

theorem value_binary_of_ok {op : Operator} {a b : Expr} {u v : Number} (ha : a.value env = .ok u)
    (hb : b.value env = .ok v) :
    (Expr.binary op a b).value env =
      match op.result? u v with
      | some z => .ok z
      | none => .error .divisionByZero := by
  show (a.value env >>= fun u => b.value env >>= fun v => _) = _
  rw [ha, hb]
  simp only [bind, Except.bind]
  cases op.result? u v <;> rfl

theorem value_binary_of_left {op : Operator} {a b : Expr} {x : Error} (ha : a.value env = .error x) :
    (Expr.binary op a b).value env = .error x := by
  show (a.value env >>= fun u => b.value env >>= fun v => _) = _
  rw [ha]
  rfl

theorem value_binary_of_right {op : Operator} {a b : Expr} {u : Number} {x : Error} (ha : a.value env = .ok u)
    (hb : b.value env = .error x) : (Expr.binary op a b).value env = .error x := by
  show (a.value env >>= fun u => b.value env >>= fun v => _) = _
  rw [ha, hb]
  rfl

theorem value_call (f : Builtin) (a : Expr) : (Expr.call f a).value env = (a.value env).map f.result := by
  show (a.value env >>= fun u => _) = _
  cases a.value env <;> rfl

/-- The only way in which an expression has no value under an assignment. -/
theorem eq_divisionByZero_of_value {e : Expr} {x : Error} (h : e.value env = .error x) : x = .divisionByZero := by
  induction e generalizing x with
  | lit z => cases h
  | var y => cases h
  | binary op a b iha ihb =>
    cases ha : a.value env with
    | error y =>
      rw [value_binary_of_left ha] at h
      cases h
      exact iha ha
    | ok u =>
      cases hb : b.value env with
      | error y =>
        rw [value_binary_of_right ha hb] at h
        cases h
        exact ihb hb
      | ok v =>
        rw [value_binary_of_ok ha hb] at h
        cases hresult : op.result? u v with
        | some z =>
          rw [hresult] at h
          cases h
        | none =>
          rw [hresult] at h
          cases h
          rfl
  | call f a ih =>
    rw [value_call] at h
    cases ha : a.value env with
    | error y =>
      rw [ha] at h
      cases h
      exact ih ha
    | ok u =>
      rw [ha] at h
      cases h

end Expr

/-- In a comparison, evaluation changes nothing and has the value under the sentinel. -/
theorem evalM_of_comparison {c : Context} (hmode : c.mode = .comparison) (depth : Nat) (e : Expr) :
    e.evalM (resolve depth) c = (e.value fun _ => .sentinel, c) := by
  induction e with
  | lit z => rfl
  | var x =>
    obtain ⟨value, hresolve⟩ := resolve_eq_resolveWith depth
    rw [Expr.evalM, hresolve, resolveWith, bind_of_ok (get_apply c), hmode]
    rfl
  | binary op a b iha ihb =>
    rw [Expr.evalM]
    cases ha : a.value fun _ => .sentinel with
    | error x =>
      rw [ha] at iha
      rw [bind_of_error iha, Expr.value_binary_of_left ha]
    | ok u =>
      rw [ha] at iha
      rw [bind_of_ok iha]
      cases hb : b.value fun _ => .sentinel with
      | error x =>
        rw [hb] at ihb
        rw [bind_of_error ihb, Expr.value_binary_of_right ha hb]
      | ok v =>
        rw [hb] at ihb
        rw [bind_of_ok ihb, Expr.value_binary_of_ok ha hb]
        cases op.result? u v <;> rfl
  | call f a ih =>
    rw [Expr.evalM, Expr.value_call]
    cases ha : a.value fun _ => .sentinel with
    | error x =>
      rw [ha] at ih
      exact bind_of_error ih
    | ok u =>
      rw [ha] at ih
      exact bind_of_ok ih

theorem eval_of_comparison {c : Context} (hmode : c.mode = .comparison) (e : Expr) :
    c.eval e = (e.value fun _ => .sentinel, c) :=
  evalM_of_comparison hmode _ e

theorem evalAll_of_comparison {c : Context} (hmode : c.mode = .comparison) (es : List Expr) : c.evalAll es = c := by
  induction es with
  | nil => rfl
  | cons e es ih =>
    rw [Context.evalAll, List.foldl_cons, eval_of_comparison hmode]
    exact ih

/-- The right text is read only if the left one is an expression. -/
theorem comparisonEvents_eq (left right : String) :
    comparisonEvents left right =
      parseEvents left ++ if (Expr.parse left).isOk then parseEvents right else [] := by
  show ((parse left >>= fun _ => parse right >>= fun _ => pure ()) Context.comparison).2.transcript = _
  have hleft := parse_apply left .comparison
  cases hread : Expr.parse left with
  | error cause =>
    rw [hread] at hleft
    rw [bind_of_error hleft]
    exact (List.append_nil _).symm
  | ok a =>
    rw [hread] at hleft
    rw [bind_of_ok hleft]
    have hright := parse_apply right (Context.comparison.noting (parseEvents left))
    cases hread' : Expr.parse right with
    | error cause =>
      rw [hread'] at hright
      rw [bind_of_error hright]
      rfl
    | ok b =>
      rw [hread'] at hright
      rw [bind_of_ok hright]
      rfl

/-- A comparison tells the user nothing but its verdict. -/
theorem notices_comparisonEvents (left right : String) : notices (comparisonEvents left right) = [] := by
  rw [comparisonEvents_eq, notices, List.filterMap_append, ← notices, (parseEvents_quiet left).2, List.nil_append]
  split
  · exact (parseEvents_quiet right).2
  · rfl

/-! ## 2. The sentinel as answer -/

/-- The text that is read as the sum which makes the sentinel. -/
def sentinelText : String := "1+i"

theorem parse_sentinelText :
    Expr.parse sentinelText = .ok (.binary .add (.lit ⟨1.0, 0.0⟩) (.lit ⟨0.0, 1.0⟩)) := by
  have hone : (⟨1, 0⟩ : Decimal).toFloat = 1.0 := by decide +kernel
  have hnumeral : Numeral ['1'] ⟨1, 0⟩ := .whole (by simp) (List.all_eq_true.mp (by decide))
  have hspelled : (Token.real (⟨1, 0⟩ : Decimal).toFloat).SpelledBy ['1'] :=
    .real hnumeral.numberRun hnumeral.longest
  rw [hone] at hspelled
  have hunit : Lexes ['i'] [.imaginary 1.0] := .cons .unit (by simp) .nil
  have hplus : Lexes ['+', 'i'] [.operator .add, .imaginary 1.0] :=
    .cons (.operator .add) (fun _ _ => not_spelling_symbol_cons (by decide) nofun) hunit
  have hlexes : Lexes (Text.strip sentinelText) [.real 1.0, .operator .add, .imaginary 1.0] := by
    refine .cons hspelled ?_ hplus
    rintro _ ⟨⟩
    exact not_spelling_snoc_symbol (by simp) (by decide) (by simp)
  have hsum : Derives .sum [⟨.real 1.0, 0⟩, ⟨.operator .add, 0⟩, ⟨.imaginary 1.0, 0⟩]
      (.binary .add (.lit ⟨1.0, 0.0⟩) (.lit ⟨0.0, 1.0⟩)) :=
    .additive rfl (.product (.power (.signed (.primary .real)))) (.power (.signed (.primary .imaginary)))
  exact hlexes.parse_eq hsum (by decide)

theorem sentinel_eq_sum : (⟨1.0, 0.0⟩ : Number) + ⟨0.0, 1.0⟩ = .sentinel := by
  decide +kernel

/-- The context binds nothing but the sentinel, and has its text as reply for each of the names that it does not bind,
and so many more. -/
structure Context.Supplied (c : Context) (names : List String) (more : Nat) : Prop where
  interactive : c.mode = .interactive
  sentinels : ∀ x z, c.store.get? x = some z → z = .sentinel
  replies : c.script.replies = List.replicate ((c.store.missing names).length + more) (.text sentinelText)

/-- Each name that was asked for has taken a reply. -/
def Context.Answers (c after : Context) : Prop :=
  after.script.requested.length + after.script.replies.length =
    c.script.requested.length + c.script.replies.length

namespace Context.Supplied
variable {c : Context} {x : String} {others : List String} {more : Nat}

theorem of_contains (h : c.Supplied ([x] ++ others) more) (hx : c.store.contains x = true) :
    c.Supplied others more := by
  have hsame : ∀ y, c.store.contains y = true ↔ c.store.contains y = true ∨ y ∈ [x] := by
    intro y
    rw [List.mem_singleton]
    exact ⟨.inl, fun h => h.elim id fun hy => hy ▸ hx⟩
  have hmissing : c.store.missing ([x] ++ others) = c.store.missing others := by
    rw [Store.missing_append others hsame, Store.missing_of_contains hx, List.nil_append]
  obtain ⟨hmode, hsentinels, hreplies⟩ := h
  rw [hmissing] at hreplies
  exact ⟨hmode, hsentinels, hreplies⟩

theorem types (h : c.Supplied ([x] ++ others) more) (hx : c.store.get? x = none) : c.Types x sentinelText := by
  refine ⟨hx, ?_, by decide⟩
  obtain ⟨rest, hrest⟩ := c.store.exists_missing_append [x] others
  have hreplies := h.replies
  rw [hrest, Store.missing_of_none hx, List.singleton_append, List.length_cons, Nat.add_right_comm,
    List.replicate_succ] at hreplies
  rw [Context.reply, Script.request, hreplies]

/-- A variable that is asked for is bound to the sentinel. -/
theorem prompted (h : c.Supplied ([x] ++ others) more) (hx : c.store.get? x = none) :
    ∃ after, Runs (.var x) c (.ok .sentinel) after ∧ c.Answers after ∧ after.Supplied others more := by
  have htypes := h.types hx
  have hsum : Runs (.binary .add (.lit ⟨1.0, 0.0⟩) (.lit ⟨0.0, 1.0⟩)) (c.inside x sentinelText) (.ok .sentinel) _ :=
    .binary .lit .lit (congrArg some sentinel_eq_sum)
  have hrun := Runs.bound htypes parse_sentinelText hsum
  have hreplies := htypes.replies_eq
  refine ⟨_, hrun, ?_, h.interactive, ?_, ?_⟩
  · have hrequested : (c.asked x).script.requested = c.script.requested ++ [x] := Script.requested_request ..
    show (c.asked x).script.requested.length + (c.asked x).script.replies.length = _
    rw [hreplies, hrequested, List.length_append, List.length_singleton, List.length_cons, Nat.add_assoc,
      Nat.add_comm 1]
  · intro y z hy
    change (c.store.insert x .sentinel).get? y = some z at hy
    rw [Store.get?_insert] at hy
    split at hy
    · exact (Option.some.inj hy).symm
    · exact h.sentinels y z hy
  · have hmissing : c.store.missing ([x] ++ others) = [x] ++ (c.store.insert x .sentinel).missing others := by
      have hsplit := Store.missing_append others hrun.contains_iff
      rwa [Expr.occurrences, Store.missing_of_none hx] at hsplit
    have hall := h.replies
    rw [hreplies, hmissing, List.singleton_append, List.length_cons, Nat.add_right_comm, List.replicate_succ] at hall
    exact (List.cons.inj hall).2

end Context.Supplied

/-- Where every prompt is answered with its text, the value is the one under the sentinel. -/
theorem Context.Supplied.runs {c : Context} {e : Expr} {others : List String} {more : Nat}
    (h : c.Supplied (e.occurrences ++ others) more) :
    ∃ after, Runs e c (e.value fun _ => .sentinel) after ∧ c.Answers after ∧
      ∀ v, (e.value fun _ => .sentinel) = .ok v → after.Supplied others more := by
  have hnone : ∀ {x : Error} {after : Context} {names} v,
      (.error x : Except Error Number) = .ok v → after.Supplied names more := by
    intro x after names v hv
    cases hv
  induction e generalizing c others with
  | lit z => exact ⟨c, .lit, rfl, fun _ _ => h⟩
  | var x =>
    cases hx : c.store.get? x with
    | none =>
      obtain ⟨after, hrun, hanswers, hafter⟩ := h.prompted hx
      exact ⟨after, hrun, hanswers, fun _ _ => hafter⟩
    | some z =>
      obtain rfl := h.sentinels x z hx
      obtain ⟨hmode, hsentinels, hreplies⟩ := h.of_contains (Store.contains_iff.mpr ⟨_, hx⟩)
      exact ⟨_, .reused hx, rfl, fun _ _ => ⟨hmode, hsentinels, hreplies⟩⟩
  | binary op a b iha ihb =>
    -- what the left operand leaves is enough for the names of the right one and for the others
    rw [Expr.occurrences, List.append_assoc] at h
    obtain ⟨mid, ha, hleft, hmid⟩ := iha h
    cases hu : a.value fun _ => .sentinel with
    | error x =>
      rw [hu] at ha
      rw [Expr.value_binary_of_left hu]
      exact ⟨mid, .left ha, hleft, hnone⟩
    | ok u =>
      rw [hu] at ha
      obtain ⟨after, hb, hright, hafter⟩ := ihb (hmid u hu)
      have hanswers := Eq.trans hright hleft
      cases hv : b.value fun _ => .sentinel with
      | error x =>
        rw [hv] at hb
        rw [Expr.value_binary_of_right hu hv]
        exact ⟨after, .right ha hb, hanswers, hnone⟩
      | ok v =>
        rw [hv] at hb
        rw [Expr.value_binary_of_ok hu hv]
        cases hresult : op.result? u v with
        | some z => exact ⟨after, .binary ha hb hresult, hanswers, fun _ _ => hafter v hv⟩
        | none => exact ⟨after, .divided ha hb hresult, hanswers, hnone⟩
  | call f a ih =>
    obtain ⟨after, ha, hanswers, hafter⟩ := ih h
    rw [Expr.value_call]
    cases hu : a.value fun _ => .sentinel with
    | error x =>
      rw [hu] at ha
      exact ⟨after, .argument ha, hanswers, hnone⟩
    | ok u =>
      rw [hu] at ha
      exact ⟨after, .call ha, hanswers, fun _ _ => hafter u hu⟩

/-- An interactive context with the sentinel's text as reply for each variable of the expression, and so many more. -/
def Context.answeringSentinel (e : Expr) (more : Nat) : Context :=
  .interactive (List.replicate (e.occurrences.eraseDups.length + more) (.text sentinelText))

theorem supplied_answeringSentinel (e : Expr) (more : Nat) :
    (Context.answeringSentinel e more).Supplied (e.occurrences ++ []) more where
  interactive := rfl
  sentinels _ _ h := nomatch h
  replies := by
    rw [List.append_nil]
    show _ = List.replicate ((Store.empty.missing e.occurrences).length + more) _
    rw [Store.missing_empty]
    rfl

/-- However many expressions have been evaluated in a comparison, nothing has been asked for, told or bound, and the next
one has the result that it has in an interactive context where each request gets the sentinel's text as reply.  It can
only fail because of a division by zero. -/
theorem comparison_agrees_with_answers (es : List Expr) (e : Expr) (more : Nat) :
    Context.comparison.evalAll es = .comparison ∧
      (Context.comparison.eval e).2 = .comparison ∧
      (Context.comparison.eval e).1 = ((Context.answeringSentinel e more).eval e).1 ∧
      (Context.answeringSentinel e more).Answers ((Context.answeringSentinel e more).eval e).2 ∧
      ∀ x, (Context.comparison.eval e).1 = .error x → x = .divisionByZero := by
  obtain ⟨after, hrun, hanswers, -⟩ := (supplied_answeringSentinel e more).runs
  have hvalue := eval_of_comparison (c := .comparison) rfl e
  rw [(runs_iff_eval rfl).mp hrun, hvalue]
  exact ⟨evalAll_of_comparison rfl es, rfl, rfl, hanswers, fun x hx => Expr.eq_divisionByZero_of_value hx⟩

/-! ## 3. The same expression on both sides -/

/-- A number is near itself unless a part of it is infinite. -/
theorem distance_self_lt_iff (v : Number) : v.distance v < tolerance ↔ v.re.isFinite ∧ v.im.isFinite := by
  rw [Number.distance]
  constructor
  · intro hnear
    refine ⟨?_, ?_⟩
    · by_contra hre
      exact Binary64.not_lt_of_isNaN (Binary64.isNaN_add_left (Binary64.isNaN_abs (Binary64.isNaN_sub_self hre))) hnear
    · by_contra him
      exact Binary64.not_lt_of_isNaN (Binary64.isNaN_add_right (Binary64.isNaN_abs (Binary64.isNaN_sub_self him))) hnear
  · rintro ⟨hre, him⟩
    rw [Binary64.sub_self_of_isFinite hre, Binary64.sub_self_of_isFinite him]
    decide +kernel

section
variable {source : String} {e : Expr} {v : Number}

theorem compareSources_self_eq (hread : Expr.parse source = .ok e) (hvalue : (Context.comparison.eval e).1 = .ok v) :
    compareSources source source = .ok (.of v v) := by
  rw [eval_of_comparison rfl] at hvalue
  rw [compareSources, hread]
  show (e.value _ >>= fun left => e.value _ >>= fun right => _) = _
  rw [show e.value _ = _ from hvalue]
  rfl

/-- Compared with itself, an expression is equivalent exactly if both parts of its value are finite. -/
theorem compareSources_self (hread : Expr.parse source = .ok e) (hvalue : (Context.comparison.eval e).1 = .ok v) :
    (compareSources source source = .ok (.equivalent v) ↔ v.re.isFinite ∧ v.im.isFinite) ∧
      (¬(v.re.isFinite ∧ v.im.isFinite) → compareSources source source = .ok (.different v v)) := by
  rw [compareSources_self_eq hread hvalue, Verdict.of, ← distance_self_lt_iff]
  by_cases hnear : v.distance v < tolerance
  · rw [if_pos hnear]
    exact ⟨iff_of_true rfl hnear, absurd hnear⟩
  · rw [if_neg hnear]
    exact ⟨iff_of_false nofun hnear, fun _ => rfl⟩

end

theorem compareSources_self_imaginaryUnit : compareSources "i" "i" = .ok (.equivalent ⟨0.0, 1.0⟩) :=
  (compareSources_self parse_imaginaryUnit rfl).1.mpr (by decide +kernel)

/-- A power of ten as a source text. -/
def powerOfTen (n : Nat) : String :=
  String.ofList ('1' :: List.replicate n '0')

theorem parse_powerOfTen (n : Nat) :
    Expr.parse (powerOfTen n) = .ok (.lit ⟨(⟨10 ^ n, 0⟩ : Decimal).toFloat, 0.0⟩) := by
  have hworth : Nat.ofDigitChars 10 ('1' :: List.replicate n '0') 0 = 10 ^ n := by
    rw [Nat.ofDigitChars_cons, Nat.ofDigitChars_replicate_zero]
    simp
  have hnumeral : Numeral ('1' :: List.replicate n '0') ⟨10 ^ n, 0⟩ := by
    rw [← hworth]
    refine .whole (by simp) fun c hc => ?_
    rcases List.mem_cons.mp hc with rfl | hc
    · decide
    · rw [List.eq_of_mem_replicate hc]
      decide
  have hspelled : (Token.real (⟨10 ^ n, 0⟩ : Decimal).toFloat).SpelledBy (powerOfTen n).toList := by
    rw [powerOfTen, String.toList_ofList]
    exact .real hnumeral.numberRun hnumeral.longest
  exact parse_of_spelledBy hspelled .real

/-- A literal that is too large for a double. -/
theorem powerOfTen_overflows : (⟨10 ^ 309, 0⟩ : Decimal).toFloat.isFinite = false := by
  decide +kernel

/-- An infinite part is at no distance from itself, so a literal that is too large differs from itself. -/
theorem overflow_differs_from_itself :
    ¬ ∀ source e v, Expr.parse source = .ok e → (Context.comparison.eval e).1 = .ok v →
      compareSources source source = .ok (.equivalent v) := by
  intro hall
  have hread := parse_powerOfTen 309
  -- only that the literal is not finite matters from here on, and not its digits
  have hoverflow := powerOfTen_overflows
  generalize (⟨10 ^ 309, 0⟩ : Decimal).toFloat = x at hread hoverflow
  have hequivalent := hall _ _ ⟨x, 0.0⟩ hread rfl
  have hfar : ¬(⟨x, 0.0⟩ : Number).distance ⟨x, 0.0⟩ < tolerance := by
    rw [distance_self_lt_iff, hoverflow]
    exact fun h => Bool.false_ne_true h.1
  rw [compareSources_self_eq hread rfl, Verdict.of, if_neg hfar] at hequivalent
  cases hequivalent

end ComplexCalc
