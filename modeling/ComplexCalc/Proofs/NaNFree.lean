import ComplexCalc.Proofs.ComparisonMode
import ComplexCalc.Proofs.ReadBack

/-!
# NaNFree — no part of a value is ever a NaN

Operations clear their results, a conjugate only changes a sign, and no text spells a NaN (section 1).  So an evaluation
that starts without a NaN in its store leaves none there and has none in its value (section 2).  The same holds of all
the evaluations that it comes to on its way, of its operands and of what is typed for its variables (section 3).
-/

namespace ComplexCalc

open Binary64

/-! ## 1. Numbers and expressions -/

namespace Number

/-- Neither part is a NaN. -/
structure NaNFree (z : Number) : Prop where
  re : z.re.isNaN = false
  im : z.im.isNaN = false

theorem isNaN_orZero (x : Float) : (orZero x).isNaN = false := by
  unfold orZero
  by_cases hx : x.isNaN = true
  · rw [if_pos hx]
    exact plain_zero.isNumber
  · rw [if_neg hx]
    exact Bool.eq_false_iff.mpr hx

theorem nanFree_cleared (re im : Float) : (cleared re im).NaNFree :=
  ⟨isNaN_orZero re, isNaN_orZero im⟩

theorem NaNFree.conj {z : Number} (h : z.NaNFree) : z.conj.NaNFree :=
  ⟨h.re, (isNaN_neg z.im).trans h.im⟩

theorem nanFree_sentinel : sentinel.NaNFree :=
  ⟨plain_one.isNumber, plain_one.isNumber⟩

end Number

/-- Whatever the operands are, the result of an operation is free of NaN. -/
theorem Operator.nanFree_of_result? {op : Operator} {a b z : Number} (h : op.result? a b = some z) : z.NaNFree := by
  cases op with
  | add => cases h; apply Number.nanFree_cleared
  | sub => cases h; apply Number.nanFree_cleared
  | mul => cases h; apply Number.nanFree_cleared
  | pow => cases h; apply Number.nanFree_cleared
  | div =>
    rw [result?, Number.div?] at h
    split at h
    · cases h
    · cases h; apply Number.nanFree_cleared

/-- The only function that does not clear its result is the conjugate. -/
theorem Builtin.nanFree_result {a : Number} (h : a.NaNFree) (f : Builtin) : (f.result a).NaNFree := by
  cases f with
  | conjugate => exact h.conj
  | root => apply Number.nanFree_cleared

/-- No literal of the expression has a NaN. -/
def Expr.NaNFree (e : Expr) : Prop :=
  ∀ z ∈ e.literals, z.NaNFree

namespace Expr.NaNFree
variable {op : Operator} {a b : Expr}

theorem left (h : (Expr.binary op a b).NaNFree) : a.NaNFree :=
  (List.forall_mem_append.mp h).1

theorem right (h : (Expr.binary op a b).NaNFree) : b.NaNFree :=
  (List.forall_mem_append.mp h).2

end Expr.NaNFree

theorem Expr.Readable.nanFree {e : Expr} (h : e.Readable) : e.NaNFree := by
  induction e with
  | lit z => exact List.forall_mem_singleton.mpr ⟨h.1.isNumber, h.2.isNumber⟩
  | var x => exact List.forall_mem_nil _
  | binary op a b iha ihb => exact List.forall_mem_append.mpr ⟨iha h.1, ihb h.2⟩
  | call f a ih => exact ih h

theorem nanFree_of_parse {source : String} {e : Expr} (h : Expr.parse source = .ok e) : e.NaNFree :=
  (readable_of_parse h).nanFree

/-! ## 2. Evaluations -/

/-- No value in the store has a NaN. -/
def Store.NaNFree (s : Store) : Prop :=
  ∀ x z, s.get? x = some z → z.NaNFree

theorem Store.nanFree_empty : Store.empty.NaNFree :=
  fun _ _ h => nomatch h

theorem Store.NaNFree.insert {s : Store} {z : Number} (h : s.NaNFree) (x : String) (hz : z.NaNFree) :
    (s.insert x z).NaNFree := by
  intro y w hy
  rw [get?_insert] at hy
  split at hy
  · cases hy
    exact hz
  · exact h y w hy

/-- A run keeps the store free of NaN, and so is its value. -/
theorem Runs.nanFree {e c r after} (h : Runs e c r after) (he : e.NaNFree) (hstore : c.store.NaNFree) :
    after.store.NaNFree ∧ ∀ v, r = .ok v → v.NaNFree := by
  induction h with
  | lit =>
    refine ⟨hstore, ?_⟩
    rintro v ⟨⟩
    exact he _ (List.mem_singleton.mpr rfl)
  | reused hbound =>
    refine ⟨hstore, ?_⟩
    rintro v ⟨⟩
    exact hstore _ _ hbound
  | bound htypes hread _ ih =>
    -- what was typed is evaluated with a store of its own, which is empty at first
    obtain ⟨-, hvalue⟩ := ih (nanFree_of_parse hread) Store.nanFree_empty
    refine ⟨hstore.insert _ (hvalue _ rfl), ?_⟩
    rintro v ⟨⟩
    exact hvalue _ rfl
  | binary _ _ hresult iha ihb =>
    refine ⟨(ihb he.right (iha he.left hstore).1).1, ?_⟩
    rintro v ⟨⟩
    exact Operator.nanFree_of_result? hresult
  | call _ ih =>
    obtain ⟨hafter, hvalue⟩ := ih he hstore
    refine ⟨hafter, ?_⟩
    rintro v ⟨⟩
    exact Builtin.nanFree_result (hvalue _ rfl) _
  | divided _ _ _ iha ihb => exact ⟨(ihb he.right (iha he.left hstore).1).1, nofun⟩
  | left _ ih => exact ⟨(ih he.left hstore).1, nofun⟩
  | right _ _ iha ihb => exact ⟨(ihb he.right (iha he.left hstore).1).1, nofun⟩
  | argument _ ih => exact ⟨(ih he hstore).1, nofun⟩
  | _ => exact ⟨hstore, nofun⟩

/-- A value under an assignment without NaN has none either. -/
theorem Expr.NaNFree.value {env : String → Number} (henv : ∀ x, (env x).NaNFree) {e : Expr} (he : e.NaNFree)
    {v : Number} (h : e.value env = .ok v) : v.NaNFree := by
  induction e generalizing v with
  | lit z =>
    cases h
    exact he _ (List.mem_singleton.mpr rfl)
  | var x =>
    cases h
    exact henv x
  | binary op a b iha ihb =>
    cases ha : a.value env with
    | error x =>
      rw [value_binary_of_left ha] at h
      cases h
    | ok u =>
      cases hb : b.value env with
      | error x =>
        rw [value_binary_of_right ha hb] at h
        cases h
      | ok w =>
        rw [value_binary_of_ok ha hb] at h
        cases hresult : op.result? u w with
        | none =>
          rw [hresult] at h
          cases h
        | some z =>
          rw [hresult] at h
          cases h
          exact Operator.nanFree_of_result? hresult
  | call f a ih =>
    rw [value_call] at h
    cases ha : a.value env with
    | error x =>
      rw [ha] at h
      cases h
    | ok u =>
      rw [ha] at h
      cases h
      exact Builtin.nanFree_result (ih he ha) f

/-- In a context of either mode, evaluation keeps the store free of NaN, and so is its value. -/
theorem Context.nanFree_eval {c : Context} {e : Expr} (he : e.NaNFree) (hstore : c.store.NaNFree) :
    (c.eval e).2.store.NaNFree ∧ ∀ v, (c.eval e).1 = .ok v → v.NaNFree := by
  cases hmode : c.mode with
  | interactive => exact (runs_eval hmode e).nanFree he hstore
  | comparison =>
    rw [eval_of_comparison hmode]
    exact ⟨hstore, fun v hv => he.value (fun _ => Number.nanFree_sentinel) hv⟩

theorem Context.nanFree_evalAll {c : Context} {es : List Expr} (hes : ∀ e ∈ es, e.NaNFree)
    (hstore : c.store.NaNFree) : (c.evalAll es).store.NaNFree := by
  induction es generalizing c with
  | nil => exact hstore
  | cons e es ih =>
    obtain ⟨he, hes⟩ := List.forall_mem_cons.mp hes
    exact ih hes (nanFree_eval he hstore).1

/-! ## 3. On the way -/

/-- While the first expression is evaluated in its context, it comes to the evaluation of the second one in its own. -/
inductive ComesTo : Expr → Context → Expr → Context → Prop where
  | here {e c} : ComesTo e c e c
  | left {op a b c e' c'} : ComesTo a c e' c' → ComesTo (.binary op a b) c e' c'
  | right {op a b u c mid e' c'} : c.eval a = (.ok u, mid) → ComesTo b mid e' c' → ComesTo (.binary op a b) c e' c'
  | argument {f a c e' c'} : ComesTo a c e' c' → ComesTo (.call f a) c e' c'
  | typed {x typed inner c e' c'} : c.mode = .interactive → c.Types x typed → Expr.parse typed = .ok inner →
      ComesTo inner (c.inside x typed) e' c' → ComesTo (.var x) c e' c'

theorem ComesTo.nanFree {e c e' c'} (h : ComesTo e c e' c') (he : e.NaNFree) (hstore : c.store.NaNFree) :
    e'.NaNFree ∧ c'.store.NaNFree := by
  induction h with
  | here => exact ⟨he, hstore⟩
  | left _ ih => exact ih he.left hstore
  | @right op a b u c mid _ _ ha _ ih =>
    have hmid := (Context.nanFree_eval he.left hstore).1
    rw [ha] at hmid
    exact ih he.right hmid
  | argument _ ih => exact ih he hstore
  | typed _ _ hread _ ih => exact ih (nanFree_of_parse hread) Store.nanFree_empty

theorem nanFree_evaluate (source : String) (replies : List Reply) :
    (evaluate source replies).2.store.NaNFree ∧
      ∀ v e, (evaluate source replies).1 = .ok (v, e) → v.NaNFree := by
  rcases evaluate_cases source replies with ⟨_, _, heval⟩ | ⟨e, x, after, hread, hrun, heval⟩ |
      ⟨e, z, after, hread, hrun, heval⟩
  · rw [heval]
    exact ⟨Store.nanFree_empty, nofun⟩
  · rw [heval]
    exact ⟨(hrun.nanFree (nanFree_of_parse hread) Store.nanFree_empty).1, nofun⟩
  · obtain ⟨hstore, hvalue⟩ := hrun.nanFree (nanFree_of_parse hread) Store.nanFree_empty
    rw [heval]
    refine ⟨hstore, ?_⟩
    rintro v _ ⟨⟩
    exact hvalue z rfl

/-- The expression is what some source text is read as. -/
def Expr.IsParsed (e : Expr) : Prop :=
  ∃ source, Expr.parse source = .ok e

theorem Expr.IsParsed.nanFree {e : Expr} (h : e.IsParsed) : e.NaNFree := by
  obtain ⟨source, hread⟩ := h
  exact nanFree_of_parse hread

/-- No result has a NaN, and neither has, however many expressions were evaluated in a context before, the store at the
start or at the end of any evaluation that the next one comes to, nor its value. -/
theorem evaluations_are_nanFree :
    (∀ source replies v e, (evaluate source replies).1 = .ok (v, e) → v.NaNFree) ∧
      ∀ (c : Context) (es : List Expr) (e : Expr), c.store = .empty → (∀ e ∈ es, e.IsParsed) → e.IsParsed →
        ∀ e' c', ComesTo e (c.evalAll es) e' c' →
          c'.store.NaNFree ∧ (c'.eval e').2.store.NaNFree ∧ ∀ v, (c'.eval e').1 = .ok v → v.NaNFree := by
  refine ⟨fun source replies v e => (nanFree_evaluate source replies).2 v e, ?_⟩
  intro c es e hempty hes he e' c' hcomes
  have hstart : c.store.NaNFree := by
    rw [hempty]
    exact Store.nanFree_empty
  have hbefore := Context.nanFree_evalAll (fun e he => (hes e he).nanFree) hstart
  obtain ⟨he', hstore⟩ := hcomes.nanFree he.nanFree hbefore
  exact ⟨hstore, Context.nanFree_eval he' hstore⟩

/-- What is typed for the argument of a conjugate is evaluated on the way. -/
theorem evaluations_are_nanFree_conjugate :
    let typed := (Context.interactive [.text "i"]).inside "x" "i"
    typed.store.NaNFree ∧ (typed.eval (.lit ⟨0.0, 1.0⟩)).2.store.NaNFree ∧
      ∀ v, (typed.eval (.lit ⟨0.0, 1.0⟩)).1 = .ok v → v.NaNFree := by
  have hread : Expr.parse "conjugate(x)" = .ok (.call .conjugate (.var "x")) := by cbv
  have htypes : (Context.interactive [.text "i"]).Types "x" "i" := ⟨rfl, rfl, by decide⟩
  have hcomes := ComesTo.argument (f := .conjugate) (.typed rfl htypes parse_imaginaryUnit .here)
  exact evaluations_are_nanFree.2 _ [] _ rfl (List.forall_mem_nil _) ⟨_, hread⟩ _ _ hcomes

end ComplexCalc
