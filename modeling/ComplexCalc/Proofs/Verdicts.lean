import ComplexCalc.Proofs.ComparisonMode
import ComplexCalc.Proofs.DoubleArithmetic

/-!
# Verdicts — comparing two texts in either order

The distance between two numbers is the same from either side (section 1).  A comparison fails with its first step that
fails, and otherwise its verdict is on the values of the two texts (section 2).  So with the texts exchanged it comes to
the mirrored verdict, or fails as well, but maybe with another of its steps first (section 3).
-/

namespace ComplexCalc

/-! ## 1. Distance -/

theorem Number.distance_comm (a b : Number) : a.distance b = b.distance a := by
  rw [distance, distance, Binary64.abs_sub_comm a.re, Binary64.abs_sub_comm a.im]

/-! ## 2. Steps -/

/-- The text is an expression with the value in a comparison. -/
def ComparesAs (source : String) (v : Number) : Prop :=
  ∃ e, Expr.parse source = .ok e ∧ (Context.comparison.eval e).1 = .ok v

/-- The error of the first step that fails: the left text is read, then the right one, and then the left expression is
evaluated, and at last the right one. -/
inductive FirstFailure (left right : String) : Error → Prop where
  | readLeft {cause} : Expr.parse left = .error cause → FirstFailure left right (.malformed cause)
  | readRight {a cause} : Expr.parse left = .ok a → Expr.parse right = .error cause →
      FirstFailure left right (.malformed cause)
  | evalLeft {a b x} : Expr.parse left = .ok a → Expr.parse right = .ok b →
      (Context.comparison.eval a).1 = .error x → FirstFailure left right x
  | evalRight {a b u x} : Expr.parse left = .ok a → Expr.parse right = .ok b →
      (Context.comparison.eval a).1 = .ok u → (Context.comparison.eval b).1 = .error x → FirstFailure left right x

section
variable {left right : String} {u v w : Number} {x : Error}

/-- What is left to do once both texts are read. -/
theorem compareSources_of_read {a b : Expr} (hread : Expr.parse left = .ok a) (hread' : Expr.parse right = .ok b) :
    compareSources left right =
      ((Context.comparison.eval a).1 >>= fun u => (Context.comparison.eval b).1 >>= fun v => .ok (.of u v)) := by
  rw [compareSources, hread, hread', eval_of_comparison rfl, eval_of_comparison rfl]
  rfl

theorem compareSources_of_values (hleft : ComparesAs left u) (hright : ComparesAs right v) :
    compareSources left right = .ok (.of u v) := by
  obtain ⟨a, hread, hvalue⟩ := hleft
  obtain ⟨b, hread', hvalue'⟩ := hright
  rw [compareSources_of_read hread hread', hvalue, hvalue']
  rfl

theorem FirstFailure.compareSources_eq (h : FirstFailure left right x) : compareSources left right = .error x := by
  cases h with
  | readLeft hread =>
    rw [compareSources, hread]
    rfl
  | readRight hread hread' =>
    rw [compareSources, hread, hread']
    rfl
  | evalLeft hread hread' hvalue =>
    rw [compareSources_of_read hread hread', hvalue]
    rfl
  | evalRight hread hread' hvalue hvalue' =>
    rw [compareSources_of_read hread hread', hvalue, hvalue']
    rfl

/-- Both texts have a value, or there is a first step that fails. -/
theorem values_or_firstFailure (left right : String) :
    (∃ u v, ComparesAs left u ∧ ComparesAs right v) ∨ ∃ x, FirstFailure left right x := by
  -- the cases are the four steps, in the order in which they are made
  cases hread : Expr.parse left with
  | error cause => exact .inr ⟨_, .readLeft hread⟩
  | ok a =>
    cases hread' : Expr.parse right with
    | error cause => exact .inr ⟨_, .readRight hread hread'⟩
    | ok b =>
      cases hvalue : (Context.comparison.eval a).1 with
      | error x => exact .inr ⟨_, .evalLeft hread hread' hvalue⟩
      | ok u =>
        cases hvalue' : (Context.comparison.eval b).1 with
        | error x => exact .inr ⟨_, .evalRight hread hread' hvalue hvalue'⟩
        | ok v => exact .inl ⟨u, v, ⟨a, hread, hvalue⟩, b, hread', hvalue'⟩

theorem compareSources_error_iff : compareSources left right = .error x ↔ FirstFailure left right x := by
  constructor
  · intro h
    rcases values_or_firstFailure left right with ⟨u, v, hleft, hright⟩ | ⟨y, hfails⟩
    · rw [compareSources_of_values hleft hright] at h
      cases h
    · rw [hfails.compareSources_eq] at h
      cases h
      exact hfails
  · exact FirstFailure.compareSources_eq

theorem compareSources_ok_iff {verdict : Verdict} :
    compareSources left right = .ok verdict ↔
      ∃ u v, ComparesAs left u ∧ ComparesAs right v ∧ verdict = .of u v := by
  constructor
  · intro h
    rcases values_or_firstFailure left right with ⟨u, v, hleft, hright⟩ | ⟨y, hfails⟩
    · rw [compareSources_of_values hleft hright] at h
      cases h
      exact ⟨u, v, hleft, hright, rfl⟩
    · rw [hfails.compareSources_eq] at h
      cases h
  · rintro ⟨u, v, hleft, hright, rfl⟩
    exact compareSources_of_values hleft hright

/-! ## 3. Verdicts -/

namespace Verdict

theorem of_eq_equivalent_iff : of u v = .equivalent w ↔ u.distance v < tolerance ∧ u = w := by
  rw [of]
  split
  · rename_i hnear
    rw [equivalent.injEq]
    exact ⟨fun h => ⟨hnear, h⟩, fun h => h.2⟩
  · rename_i hfar
    refine iff_of_false ?_ fun h => hfar h.1
    intro h
    cases h

theorem of_eq_different_iff {a b : Number} :
    of u v = .different a b ↔ ¬u.distance v < tolerance ∧ u = a ∧ v = b := by
  rw [of]
  split
  · rename_i hnear
    refine iff_of_false ?_ fun h => h.1 hnear
    intro h
    cases h
  · rename_i hfar
    rw [different.injEq]
    exact ⟨fun h => ⟨hfar, h⟩, fun h => h.2⟩

end Verdict

end

/-- The comparisons of two texts in both orders. -/
structure Mirrored (left right : String) : Prop where
  ok : (∃ verdict, compareSources left right = .ok verdict) ↔ ∃ verdict, compareSources right left = .ok verdict
  /-- Each of two equivalent texts is shown by its own value where it stands on the left. -/
  equivalent : ∀ u, compareSources left right = .ok (.equivalent u) ↔
    ComparesAs left u ∧ ∃ v, ComparesAs right v ∧ compareSources right left = .ok (.equivalent v)
  different : ∀ a b, compareSources left right = .ok (.different a b) ↔
    compareSources right left = .ok (.different b a)
  failed : ∀ x, compareSources left right = .error x ↔ FirstFailure left right x

theorem compareSources_mirrored (left right : String) : Mirrored left right where
  ok := by
    have hmirror : ∀ {l r : String}, (∃ verdict, compareSources l r = .ok verdict) →
        ∃ verdict, compareSources r l = .ok verdict := by
      rintro l r ⟨verdict, h⟩
      obtain ⟨u, v, hl, hr, -⟩ := compareSources_ok_iff.mp h
      exact ⟨_, compareSources_of_values hr hl⟩
    exact ⟨hmirror, hmirror⟩
  equivalent u := by
    constructor
    · intro h
      obtain ⟨u', v, hleft, hright, hverdict⟩ := compareSources_ok_iff.mp h
      obtain ⟨hnear, rfl⟩ := Verdict.of_eq_equivalent_iff.mp hverdict.symm
      refine ⟨hleft, v, hright, ?_⟩
      -- the other order shows the value of the other text
      rw [Number.distance_comm] at hnear
      rw [compareSources_of_values hright hleft, Verdict.of_eq_equivalent_iff.mpr ⟨hnear, rfl⟩]
    · rintro ⟨hleft, v, hright, h⟩
      rw [compareSources_of_values hright hleft, Except.ok.injEq] at h
      obtain ⟨hnear, -⟩ := Verdict.of_eq_equivalent_iff.mp h
      rw [Number.distance_comm] at hnear
      rw [compareSources_of_values hleft hright, Verdict.of_eq_equivalent_iff.mpr ⟨hnear, rfl⟩]
  different a b := by
    have hmirror : ∀ {l r : String} {a b : Number}, compareSources l r = .ok (.different a b) →
        compareSources r l = .ok (.different b a) := by
      intro l r a b h
      obtain ⟨u, v, hl, hr, hverdict⟩ := compareSources_ok_iff.mp h
      obtain ⟨hfar, rfl, rfl⟩ := Verdict.of_eq_different_iff.mp hverdict.symm
      rw [Number.distance_comm] at hfar
      rw [compareSources_of_values hr hl, Verdict.of_eq_different_iff.mpr ⟨hfar, rfl, rfl⟩]
    exact ⟨hmirror, hmirror⟩
  failed x := compareSources_error_iff

end ComplexCalc
