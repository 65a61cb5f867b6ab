import ComplexCalc.Proofs.FinalStore

/-!
# Effects — an evaluation does the same wherever its variables are bound in the same way

What an evaluation does to a context is to take replies, to note events and to bind variables (section 2).  A run looks
at no replies but those that it takes, and at no bindings but those of the variables of its expression, and what is
typed for one of them runs in a store of its own.  So between contexts that agree on these the whole effect carries over
(section 3).
-/

namespace ComplexCalc

/-! ## 1. Several bindings -/

/-- The store with the bindings added one after the other. -/
def Store.insertAll (s : Store) (bindings : List (String × Number)) : Store :=
  bindings.foldl (fun s b => s.insert b.1 b.2) s

namespace Store
variable {s t : Store} {x : String} {bindings : List (String × Number)}

theorem insertAll_append (s : Store) (bindings more : List (String × Number)) :
    s.insertAll (bindings ++ more) = (s.insertAll bindings).insertAll more :=
  List.foldl_append

theorem get?_insertAll_congr (h : s.get? x = t.get? x) :
    (s.insertAll bindings).get? x = (t.insertAll bindings).get? x := by
  induction bindings generalizing s t with
  | nil => exact h
  | cons b bindings ih => exact ih (by rw [get?_insert, get?_insert, h])

theorem get?_insertAll_of_not_mem (h : x ∉ bindings.map (·.1)) : (s.insertAll bindings).get? x = s.get? x := by
  induction bindings generalizing s with
  | nil => rfl
  | cons b bindings ih =>
    rw [List.map_cons, List.mem_cons, not_or] at h
    rw [insertAll, List.foldl_cons, ← insertAll, ih h.2, get?_insert, if_neg (Ne.symm h.1)]

end Store

/-! ## 2. Effects -/

/-- What a computation does to a context: it asks for names and takes a reply for each, it notes events, and it binds
variables. -/
structure Effect where
  names : List String := []
  events : List Event := []
  bindings : List (String × Number) := []

namespace Effect

/-- The context after the effect. -/
def on (f : Effect) (c : Context) : Context where
  mode := c.mode
  store := c.store.insertAll f.bindings
  script := ⟨c.script.replies.drop f.names.length, c.script.requested ++ f.names⟩
  transcript := c.transcript ++ f.events

def andThen (f g : Effect) : Effect :=
  ⟨f.names ++ g.names, f.events ++ g.events, f.bindings ++ g.bindings⟩

def noting (events : List Event) : Effect :=
  { events }

def asking (x : String) : Effect :=
  { names := [x], events := [.requested x] }

/-- A text is typed for the variable and read as an expression. -/
def opening (x typed : String) : Effect :=
  (asking x).andThen (noting (parseEvents typed))

def binding (x : String) (z : Number) : Effect :=
  { events := [.bound x z], bindings := [(x, z)] }

/-- All of the effect but its bindings. -/
def forgetting (f : Effect) : Effect :=
  { f with bindings := [] }

variable (f g : Effect) (c : Context)

theorem on_andThen : (f.andThen g).on c = g.on (f.on c) := by
  simp only [on, andThen, Store.insertAll_append, List.drop_drop, List.length_append, List.append_assoc]

theorem length_names_andThen : (f.andThen g).names.length = f.names.length + g.names.length :=
  List.length_append

theorem on_noting (events : List Event) : (noting events).on c = c.noting events := by
  simp [on, noting, Context.noting, Store.insertAll]

theorem on_asking (x : String) : (asking x).on c = c.asked x := by
  obtain ⟨mode, store, ⟨replies, requested⟩, transcript⟩ := c
  cases replies <;> rfl

/-- What is typed is evaluated where it was read, but with no variable bound. -/
theorem inside_eq (x typed : String) : c.inside x typed = ((opening x typed).on c).storing .empty := by
  rw [opening, on_andThen, on_asking, on_noting]
  rfl

/-- The bindings of what was typed are gone behind the prompt. -/
theorem storing_on_inside (x typed : String) :
    (f.on (c.inside x typed)).storing c.store = ((opening x typed).andThen f.forgetting).on c := by
  rw [inside_eq, on_andThen]
  rfl

theorem binding_on_inside (x typed : String) (z : Number) :
    ((f.on (c.inside x typed)).storing (c.store.insert x z)).noting [.bound x z] =
      (((opening x typed).andThen f.forgetting).andThen (binding x z)).on c := by
  rw [on_andThen, ← storing_on_inside]
  simp [on, binding, Context.noting, Context.storing, Store.insertAll]

end Effect

/-! ## 3. Runs have their effect wherever they look the same -/

/-- The first replies of two lists are the same, where a missing one is a cancelled prompt. -/
def AgreeFor (n : Nat) (replies others : List Reply) : Prop :=
  ∀ i < n, replies[i]?.getD .cancelled = others[i]?.getD .cancelled

theorem AgreeFor.split {n m : Nat} {replies others : List Reply} (h : AgreeFor (n + m) replies others) :
    AgreeFor n replies others ∧ AgreeFor m (replies.drop n) (others.drop n) := by
  constructor
  · exact fun i hi => h i (by omega)
  · intro i hi
    rw [List.getElem?_drop, List.getElem?_drop]
    exact h (n + i) (by omega)

/-- What an evaluation of the expression depends on is the same in both contexts: so many replies, and the values that
its variables are bound to. -/
structure Context.AgreesFor (c d : Context) (n : Nat) (e : Expr) : Prop where
  replies : AgreeFor n c.script.replies d.script.replies
  values : ∀ x ∈ e.occurrences, c.store.get? x = d.store.get? x

/-- The run has the effect, and has it as well from any context that agrees with its own as far as it takes replies. -/
structure HasEffect (e : Expr) (c : Context) (r : Except Error Number) (after : Context) (f : Effect) : Prop where
  after_eq : after = f.on c
  own : ∀ x ∈ f.bindings.map (·.1), x ∈ e.occurrences ∧ c.store.get? x = none
  carries : ∀ d, c.AgreesFor d f.names.length e → Runs e d r (f.on d)

theorem Context.reply_eq (c : Context) (x : String) : c.reply x = (c.script.replies.head?).getD .cancelled := by
  obtain ⟨mode, store, ⟨replies, requested⟩, transcript⟩ := c
  cases replies <;> rfl

section
variable {op : Operator} {a b e : Expr} {c d mid after : Context} {n : Nat} {x typed : String} {u : Number}
  {r r' : Except Error Number} {f g : Effect}

theorem Context.AgreesFor.mono (h : c.AgreesFor d n e) (hsub : a.occurrences ⊆ e.occurrences) : c.AgreesFor d n a :=
  ⟨h.replies, fun x hx => h.values x (hsub hx)⟩

theorem Context.AgreesFor.reply_eq (h : c.AgreesFor d (n + 1) e) (x : String) : d.reply x = c.reply x := by
  have hfirst := h.replies 0 (Nat.succ_pos n)
  rw [← List.head?_eq_getElem?, ← List.head?_eq_getElem?] at hfirst
  rw [Context.reply_eq, Context.reply_eq, hfirst]

theorem Context.AgreesFor.get?_eq (h : c.AgreesFor d n (.var x)) : d.store.get? x = c.store.get? x :=
  (h.values x (List.mem_singleton.mpr rfl)).symm

theorem Context.AgreesFor.types (h : c.AgreesFor d (n + 1) (.var x)) (htypes : c.Types x typed) : d.Types x typed := by
  obtain ⟨hnone, hreply, hblank⟩ := htypes
  exact ⟨by rw [h.get?_eq, hnone], by rw [h.reply_eq, hreply], hblank⟩

/-- The same effect on both sides leaves contexts that agree for the replies behind it. -/
theorem Context.AgreesFor.on (h : c.AgreesFor d (f.names.length + n) e) : (f.on c).AgreesFor (f.on d) n e :=
  ⟨h.replies.split.2, fun x hx => Store.get?_insertAll_congr (h.values x hx)⟩

/-- What is typed finds no bindings on either side, so it does not matter what they are. -/
theorem Context.AgreesFor.inside (h : AgreeFor (n + 1) c.script.replies d.script.replies) (x typed : String)
    (e : Expr) : (c.inside x typed).AgreesFor (d.inside x typed) n e := by
  rw [Effect.inside_eq, Effect.inside_eq]
  rw [Nat.add_comm] at h
  exact ⟨h.split.2, fun _ _ => rfl⟩

/-- An expression goes as its only operand goes, or as its left one where that is as far as it gets. -/
theorem HasEffect.through (h : HasEffect a c r after f) (hsub : a.occurrences ⊆ e.occurrences)
    (hrule : ∀ {d after'}, Runs a d r after' → Runs e d r' after') : HasEffect e c r' after f where
  after_eq := h.after_eq
  own x hx := ⟨hsub (h.own x hx).1, (h.own x hx).2⟩
  carries d hd := hrule (h.carries d (hd.mono hsub))

/-- The right operand starts from what the left one leaves. -/
theorem HasEffect.both (hleft : HasEffect a c (.ok u) mid f) (hright : HasEffect b mid r after g)
    (hkeeps : c.store.Keeps mid.store)
    (hrule : ∀ {d between after'}, Runs a d (.ok u) between → Runs b between r after' →
      Runs (.binary op a b) d r' after') : HasEffect (.binary op a b) c r' after (f.andThen g) := by
  obtain rfl := hleft.after_eq
  constructor
  · rw [Effect.on_andThen]
    exact hright.after_eq
  · intro x hx
    rw [Effect.andThen, List.map_append, List.mem_append] at hx
    rcases hx with hx | hx
    · obtain ⟨hown, hnone⟩ := hleft.own x hx
      exact ⟨List.mem_append_left _ hown, hnone⟩
    · obtain ⟨hown, hnone⟩ := hright.own x hx
      refine ⟨List.mem_append_right _ hown, Option.eq_none_iff_forall_ne_some.mpr fun z hz => ?_⟩
      -- what was bound at first is bound still
      rw [hkeeps x z hz] at hnone
      cases hnone
  · intro d hd
    rw [Effect.length_names_andThen] at hd
    have ha := hleft.carries d ⟨hd.replies.split.1, (hd.mono (List.subset_append_left _ _)).values⟩
    have hb := hright.carries _ (hd.mono (List.subset_append_right _ _)).on
    rw [Effect.on_andThen]
    exact hrule ha hb

end

/-- Every run has its effect from all contexts that agree with its own. -/
theorem Runs.hasEffect {e c r after} (h : Runs e c r after) : ∃ f, HasEffect e c r after f := by
  induction h with
  | @lit z c =>
    refine ⟨.noting [], ?_, List.forall_mem_nil _, fun d _ => ?_⟩
    · rw [Effect.on_noting, Context.noting, List.append_nil]
    · rw [Effect.on_noting, Context.noting, List.append_nil]
      exact .lit
  | @reused x z c hbound =>
    refine ⟨.noting [.reused x z], ?_, List.forall_mem_nil _, fun d hd => ?_⟩
    · rw [Effect.on_noting]
    · rw [Effect.on_noting]
      exact .reused (by rw [hd.get?_eq, hbound])
  | @cancelled x c hnone hreply =>
    refine ⟨.asking x, ?_, List.forall_mem_nil _, fun d hd => ?_⟩
    · rw [Effect.on_asking]
    · rw [Effect.on_asking]
      exact .cancelled (by rw [hd.get?_eq, hnone]) (by rw [hd.reply_eq, hreply])
  | @unreadable x c hnone hreply =>
    refine ⟨(Effect.asking x).andThen (.noting [.unreadable x]), ?_, List.forall_mem_nil _, fun d hd => ?_⟩
    · rw [Effect.on_andThen, Effect.on_asking, Effect.on_noting]
    · rw [Effect.on_andThen, Effect.on_asking, Effect.on_noting]
      exact .unreadable (by rw [hd.get?_eq, hnone]) (by rw [hd.reply_eq, hreply])
  | @blank x typed c hnone hreply hblank =>
    refine ⟨.asking x, ?_, List.forall_mem_nil _, fun d hd => ?_⟩
    · rw [Effect.on_asking]
    · rw [Effect.on_asking]
      exact .blank (by rw [hd.get?_eq, hnone]) (by rw [hd.reply_eq, hreply]) hblank
  | @malformed x typed cause c htypes hread =>
    refine ⟨.opening x typed, ?_, List.forall_mem_nil _, fun d hd => ?_⟩
    · rw [Effect.opening, Effect.on_andThen, Effect.on_asking, Effect.on_noting]
    · rw [Effect.opening, Effect.on_andThen, Effect.on_asking, Effect.on_noting]
      exact .malformed (hd.types htypes) hread
  | @invalid x typed inner cause c after htypes hread _ ih =>
    obtain ⟨f, rfl, -, hcarries⟩ := ih
    refine ⟨(Effect.opening x typed).andThen f.forgetting, Effect.storing_on_inside f c x typed, List.forall_mem_nil _,
      fun d hd => ?_⟩
    -- one reply is taken for the prompt, and the others for what was typed
    have hd : c.AgreesFor d (f.names.length + 1) (.var x) := hd
    rw [← Effect.storing_on_inside]
    exact .invalid (hd.types htypes) hread (hcarries _ (.inside hd.replies x typed inner))
  | @bound x typed inner z c after htypes hread _ ih =>
    obtain ⟨f, rfl, -, hcarries⟩ := ih
    refine ⟨((Effect.opening x typed).andThen f.forgetting).andThen (.binding x z),
      Effect.binding_on_inside f c x typed z, ?_, fun d hd => ?_⟩
    · -- of all that was bound on the way, only the variable itself is left
      intro y hy
      obtain rfl : y = x := List.mem_singleton.mp hy
      exact ⟨List.mem_singleton.mpr rfl, htypes.1⟩
    · rw [Effect.length_names_andThen] at hd
      have hd : c.AgreesFor d (f.names.length + 1) (.var x) := hd
      rw [← Effect.binding_on_inside]
      exact .bound (hd.types htypes) hread (hcarries _ (.inside hd.replies x typed inner))
  | binary ha _ hresult iha ihb =>
    obtain ⟨f, hf⟩ := iha
    obtain ⟨g, hg⟩ := ihb
    exact ⟨f.andThen g, hf.both hg ha.keeps fun hleft hright => .binary hleft hright hresult⟩
  | divided ha _ hresult iha ihb =>
    obtain ⟨f, hf⟩ := iha
    obtain ⟨g, hg⟩ := ihb
    exact ⟨f.andThen g, hf.both hg ha.keeps fun hleft hright => .divided hleft hright hresult⟩
  | left _ ih =>
    obtain ⟨f, hf⟩ := ih
    exact ⟨f, hf.through (List.subset_append_left _ _) .left⟩
  | right ha _ iha ihb =>
    obtain ⟨f, hf⟩ := iha
    obtain ⟨g, hg⟩ := ihb
    exact ⟨f.andThen g, hf.both hg ha.keeps .right⟩
  | call _ ih =>
    obtain ⟨f, hf⟩ := ih
    exact ⟨f, hf.through (List.Subset.refl _) .call⟩
  | argument _ ih =>
    obtain ⟨f, hf⟩ := ih
    exact ⟨f, hf.through (List.Subset.refl _) .argument⟩

/-! ## 4. Evaluations in two contexts -/

/-- Evaluating the expression ends with the same result in both contexts, and does the same to them. -/
def Context.SameEffect (c d : Context) (e : Expr) (f : Effect) : Prop :=
  ∃ r, c.eval e = (r, f.on c) ∧ d.eval e = (r, f.on d)

section
variable {c d : Context} {e : Expr}

theorem eval_sameEffect (hc : c.mode = .interactive) (hd : d.mode = .interactive)
    (hreplies : c.script.replies = d.script.replies)
    (hvalues : ∀ x ∈ e.occurrences, c.store.get? x = d.store.get? x) :
    ∃ f, c.SameEffect d e f ∧ ∀ x ∈ f.bindings.map (·.1), x ∈ e.occurrences ∧ c.store.get? x = none := by
  obtain ⟨f, hafter, hown, hcarries⟩ := (runs_eval hc e).hasEffect
  have hagree : AgreeFor f.names.length c.script.replies d.script.replies := by
    rw [hreplies]
    exact fun _ _ => rfl
  refine ⟨f, ⟨(c.eval e).1, ?_, ?_⟩, hown⟩
  · rw [← hafter]
  · exact (runs_iff_eval hd).mp (hcarries d ⟨hagree, hvalues⟩)

/-- Names that are no variables of the expression are left as they are. -/
theorem get?_eval_of_not_mem (hc : c.mode = .interactive) {x : String} (hx : x ∉ e.occurrences) :
    (c.eval e).2.store.get? x = c.store.get? x := by
  obtain ⟨f, hafter, hown, -⟩ := (runs_eval hc e).hasEffect
  rw [hafter]
  exact Store.get?_insertAll_of_not_mem fun hmem => hx (hown x hmem).1

/-- The store behind a prompt for the variable, where the text that was typed for it has the result. -/
def Store.afterPrompt (s : Store) (x : String) : Except Error Number → Store
  | .ok z => s.insert x z
  | .error _ => s

theorem store_eval_var {x text : String} {inner : Expr} (hc : c.mode = .interactive) (htypes : c.Types x text)
    (hread : Expr.parse text = .ok inner) :
    (c.eval (.var x)).2.store = c.store.afterPrompt x ((c.inside x text).eval inner).1 := by
  have hinner := runs_eval (c := c.inside x text) hc inner
  cases hresult : ((c.inside x text).eval inner).1 with
  | ok z =>
    rw [hresult] at hinner
    rw [(runs_iff_eval hc).mp (.bound htypes hread hinner)]
    rfl
  | error cause =>
    rw [hresult] at hinner
    rw [(runs_iff_eval hc).mp (.invalid htypes hread hinner)]
    rfl

end

/-- Evaluating the expression does the same in both contexts, and neither looks at a name besides its variables nor
changes it. -/
structure Context.Confined (c d : Context) (e : Expr) : Prop where
  /-- Requests, replies taken, events and bindings are all the same, and only unbound variables become bound. -/
  effect : ∃ f, c.SameEffect d e f ∧
    ∀ x ∈ f.bindings.map (·.1), x ∈ e.occurrences ∧ c.store.get? x = none ∧ d.store.get? x = none
  frame : ∀ x, x ∉ e.occurrences →
    (c.eval e).2.store.get? x = c.store.get? x ∧ (d.eval e).2.store.get? x = d.store.get? x
  /-- A text that is typed for a variable, and all that is asked for in it, goes the same way whatever is bound where
  the variable was asked for, and nothing but the value of the text becomes bound there. -/
  typed : ∀ x text inner, c.Types x text → d.Types x text → Expr.parse text = .ok inner →
    (∃ f, (c.inside x text).SameEffect (d.inside x text) inner f) ∧
      (c.eval (.var x)).2.store = c.store.afterPrompt x ((c.inside x text).eval inner).1 ∧
      (d.eval (.var x)).2.store = d.store.afterPrompt x ((d.inside x text).eval inner).1

/-- In two contexts with the same replies that bind the variables of an expression in the same way, whatever else they
bind, its evaluation has the same result and the same effect, which does not go beyond these variables. -/
theorem eval_confined (e : Expr) (c d : Context) (hc : c.mode = .interactive) (hd : d.mode = .interactive)
    (hreplies : c.script.replies = d.script.replies)
    (hvalues : ∀ x ∈ e.occurrences, c.store.get? x = d.store.get? x) : c.Confined d e where
  effect := by
    obtain ⟨f, hsame, hown⟩ := eval_sameEffect hc hd hreplies hvalues
    refine ⟨f, hsame, fun x hx => ?_⟩
    obtain ⟨hmem, hnone⟩ := hown x hx
    exact ⟨hmem, hnone, by rw [← hvalues x hmem, hnone]⟩
  frame x hx := ⟨get?_eval_of_not_mem hc hx, get?_eval_of_not_mem hd hx⟩
  typed x text inner htypes htypes' hread := by
    have hinside : (c.inside x text).script.replies = (d.inside x text).script.replies := by
      rw [Effect.inside_eq, Effect.inside_eq]
      exact congrArg (List.drop 1) hreplies
    obtain ⟨f, hsame, -⟩ := eval_sameEffect (e := inner) (c := c.inside x text) (d := d.inside x text) hc hd hinside
      fun _ _ => rfl
    exact ⟨⟨f, hsame⟩, store_eval_var hc htypes hread, store_eval_var hd htypes' hread⟩

/-- The text that is typed for `x` asks for `z`, which only the second context binds. -/
theorem eval_confined_typed_name :
    ((Context.interactive [.text "z", .text "3"]).storing (Store.empty.insert "y" .zero)).Confined
      ((Context.interactive [.text "z", .text "3"]).storing ((Store.empty.insert "z" .sentinel).insert "y" .zero))
      (.binary .add (.var "x") (.var "y")) := by
  refine eval_confined _ _ _ rfl rfl rfl ?_
  intro x hx
  rcases List.mem_cons.mp hx with rfl | hx
  · rfl
  · obtain rfl := List.mem_singleton.mp hx
    rfl

end ComplexCalc
