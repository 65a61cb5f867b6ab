import ComplexCalc.Proofs.Running

/-!
# FinalStore — an evaluation is pure evaluation under the store that it leaves

Bindings are only added, so a value that was read from the store on the way can still be read at the end.
-/

namespace ComplexCalc

/-! ## 1. Stores -/

theorem Store.contains_iff {s : Store} {x : String} : s.contains x = true ↔ ∃ z, s.get? x = some z :=
  Option.isSome_iff_exists

/-- Every binding of the one store is also in the other. -/
def Store.Keeps (s t : Store) : Prop :=
  ∀ x z, s.get? x = some z → t.get? x = some z

theorem Store.Keeps.rfl {s : Store} : s.Keeps s := fun _ _ h => h

theorem Store.Keeps.trans {s t u : Store} (h : s.Keeps t) (h' : t.Keeps u) : s.Keeps u :=
  fun x z hx => h' x z (h x z hx)

theorem Store.Keeps.contains {s t : Store} (h : s.Keeps t) {x : String} (hx : s.contains x = true) :
    t.contains x = true := by
  obtain ⟨z, hz⟩ := contains_iff.mp hx
  exact contains_iff.mpr ⟨z, h x z hz⟩

theorem Store.keeps_insert {s : Store} {x : String} (h : s.get? x = none) (z : Number) : s.Keeps (s.insert x z) := by
  intro y w hy
  rw [get?_insert, if_neg]
  · exact hy
  · rintro rfl
    rw [h] at hy
    cases hy

/-- What the second store binds and the first does not is among the names. -/
def Store.Adds (names : List String) (s t : Store) : Prop :=
  ∀ x, t.contains x = true → s.contains x = true ∨ x ∈ names

theorem Store.Adds.rfl {names : List String} {s : Store} : Adds names s s := fun _ h => .inl h

theorem Store.Adds.trans {xs ys : List String} {s t u : Store} (h : Adds xs s t) (h' : Adds ys t u) :
    Adds (xs ++ ys) s u := by
  intro x hx
  rw [List.mem_append]
  rcases h' x hx with ht | hy
  · exact (h x ht).imp_right .inl
  · exact .inr (.inr hy)

theorem Store.Adds.append {xs ys : List String} {s t : Store} (h : Adds xs s t) : Adds (xs ++ ys) s t :=
  h.trans .rfl

theorem Store.adds_insert (s : Store) (x : String) (z : Number) : Adds [x] s (s.insert x z) := by
  intro y hy
  rw [contains, get?_insert] at hy
  split at hy
  · rename_i hxy
    exact .inr (List.mem_singleton.mpr hxy.symm)
  · exact .inl hy

/-! ## 2. Pure evaluation -/

/-- The value when every variable is read from the store, if each has a value there and no division is by zero. -/
def Expr.valueIn (s : Store) : Expr → Option Number
  | .lit z => some z
  | .var x => s.get? x
  | .binary op left right =>
    (left.valueIn s).bind fun a => (right.valueIn s).bind fun b => op.result? a b
  | .call f argument => (argument.valueIn s).map f.result

theorem Expr.valueIn_mono {s t : Store} (hkeeps : s.Keeps t) {e : Expr} {v : Number} (h : e.valueIn s = some v) :
    e.valueIn t = some v := by
  induction e generalizing v with
  | lit z => exact h
  | var x => exact hkeeps x v h
  | binary op a b iha ihb =>
    rw [valueIn, Option.bind_eq_some_iff] at h
    obtain ⟨u, ha, h⟩ := h
    rw [Option.bind_eq_some_iff] at h
    obtain ⟨w, hb, h⟩ := h
    rw [valueIn, iha ha, Option.bind_some, ihb hb, Option.bind_some, h]
  | call f a ih =>
    rw [valueIn, Option.map_eq_some_iff] at h
    obtain ⟨u, ha, rfl⟩ := h
    rw [valueIn, ih ha, Option.map_some]

theorem Expr.contains_of_valueIn {s : Store} {e : Expr} {v : Number} (h : e.valueIn s = some v) :
    ∀ x ∈ e.occurrences, s.contains x = true := by
  induction e generalizing v with
  | lit z =>
    intro x hx
    cases hx
  | var x =>
    intro y hy
    rw [occurrences, List.mem_singleton] at hy
    subst hy
    exact Store.contains_iff.mpr ⟨v, h⟩
  | binary op a b iha ihb =>
    rw [valueIn, Option.bind_eq_some_iff] at h
    obtain ⟨u, ha, h⟩ := h
    rw [Option.bind_eq_some_iff] at h
    obtain ⟨w, hb, -⟩ := h
    intro x hx
    rcases List.mem_append.mp hx with hx | hx
    · exact iha ha x hx
    · exact ihb hb x hx
  | call f a ih =>
    rw [valueIn, Option.map_eq_some_iff] at h
    obtain ⟨u, ha, -⟩ := h
    exact ih ha

/-! ## 3. Runs fill the store -/

theorem Runs.keeps {e c r after} (h : Runs e c r after) : c.store.Keeps after.store := by
  -- what a typed text binds is in a store of its own, so its run needs no induction hypothesis
  induction h with
  | bound htypes => exact Store.keeps_insert htypes.1 _
  | binary _ _ _ iha ihb => exact iha.trans ihb
  | divided _ _ _ iha ihb => exact iha.trans ihb
  | right _ _ iha ihb => exact iha.trans ihb
  | left _ ih => exact ih
  | call _ ih => exact ih
  | argument _ ih => exact ih
  | _ => exact .rfl

/-- Only variables of the expression itself are bound. -/
theorem Runs.adds {e c r after} (h : Runs e c r after) : Store.Adds e.occurrences c.store after.store := by
  induction h with
  | bound => exact Store.adds_insert _ _ _
  | binary _ _ _ iha ihb => exact iha.trans ihb
  | divided _ _ _ iha ihb => exact iha.trans ihb
  | right _ _ iha ihb => exact iha.trans ihb
  | left _ ih => exact ih.append
  | call _ ih => exact ih
  | argument _ ih => exact ih
  | _ => exact .rfl

theorem Runs.valueIn {e c v after} (h : Runs e c (.ok v) after) : e.valueIn after.store = some v := by
  generalize hr : Except.ok v = r at h
  induction h generalizing v with
  | lit => cases hr; rfl
  | reused hbound => cases hr; exact hbound
  | bound =>
    cases hr
    show (Store.insert _ _ _).get? _ = _
    rw [Store.get?_insert, if_pos rfl]
  | binary ha hb hresult iha ihb =>
    cases hr
    -- the left operand was evaluated before the right one added to the store
    rw [Expr.valueIn, Expr.valueIn_mono hb.keeps (iha rfl), Option.bind_some, ihb rfl, Option.bind_some, hresult]
  | call _ ih =>
    cases hr
    rw [Expr.valueIn, ih rfl, Option.map_some]
  | _ => cases hr

/-- A variable is bound to its value, or nothing is. -/
theorem Runs.store_of_var {x c r after} (h : Runs (.var x) c r after) :
    after.store = c.store ∨ ∃ v, r = .ok v ∧ after.store = c.store.insert x v := by
  cases h with
  | bound => exact .inr ⟨_, rfl, rfl⟩
  | _ => exact .inl rfl

/-! ## 4. The store after an evaluation -/

/-- What evaluating the expression makes of the store of the context. -/
structure Context.Fills (c : Context) (e : Expr) : Prop where
  kept : ∀ x z, c.store.get? x = some z → (c.eval e).2.store.get? x = some z
  names : ∀ v, (c.eval e).1 = .ok v →
    ∀ x, (c.eval e).2.store.contains x = true ↔ c.store.contains x = true ∨ x ∈ e.occurrences
  value : ∀ v, (c.eval e).1 = .ok v → e.valueIn (c.eval e).2.store = some v
  added : ∀ cause, (c.eval e).1 = .error cause →
    ∀ x, (c.eval e).2.store.contains x = true → c.store.contains x = true ∨ x ∈ e.occurrences
  /-- Whatever is typed for a variable, and for the variables in what is typed, only it can become bound. -/
  var : ∀ x, (c.eval (.var x)).2.store = c.store ∨
    ∃ v, (c.eval (.var x)).1 = .ok v ∧ (c.eval (.var x)).2.store = c.store.insert x v
  /-- What a typed text binds, under the same names or others, stays in the store that it is evaluated with. -/
  typed : ∀ x text inner, c.Types x text → Expr.parse text = .ok inner →
    (∀ v, ((c.inside x text).eval inner).1 = .ok v → (c.eval (.var x)).2.store = c.store.insert x v) ∧
      ∀ cause, ((c.inside x text).eval inner).1 = .error cause → (c.eval (.var x)).2.store = c.store

/-- Interactive evaluation is pure evaluation under the final store, which has the bindings from before and, unless the
evaluation failed on the way, all variables of the expression. -/
theorem eval_fills_store (e : Expr) (c : Context) (hmode : c.mode = .interactive) : c.Fills e where
  kept := (runs_eval hmode e).keeps
  names v hv x := by
    have hrun := runs_eval hmode e
    constructor
    · exact hrun.adds x
    · rintro (hx | hx)
      · exact hrun.keeps.contains hx
      · rw [hv] at hrun
        exact Expr.contains_of_valueIn hrun.valueIn x hx
  value v hv := by
    have hrun := runs_eval hmode e
    rw [hv] at hrun
    exact hrun.valueIn
  added _ _ := (runs_eval hmode e).adds
  var x := (runs_eval hmode (.var x)).store_of_var
  typed x text inner htypes hread := by
    have hinner := runs_eval (c := c.inside x text) hmode inner
    constructor
    · intro v hv
      rw [hv] at hinner
      rw [(runs_iff_eval hmode).mp (.bound htypes hread hinner)]
      rfl
    · intro cause hcause
      rw [hcause] at hinner
      rw [(runs_iff_eval hmode).mp (.invalid htypes hread hinner)]
      rfl

/-- The text typed for `x` has variables of the same names, which have other values. -/
theorem eval_fills_store_sum :
    let c := Context.interactive [.text "x + y", .text "2", .text "3", .text "7"]
    let e := Expr.binary .add (.var "x") (.var "y")
    c.Fills e ∧ (c.eval e).1.toOption = some ⟨12.0, 0.0⟩ :=
  ⟨eval_fills_store _ _ rfl, by decide +kernel⟩

end ComplexCalc
