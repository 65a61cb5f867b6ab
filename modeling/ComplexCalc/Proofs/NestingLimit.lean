import ComplexCalc.Proofs.Viability

/-!
# NestingLimit — an expression is nested too deeply where the count of its levels passes the limit

The scan counts levels in one pass from the left.  The first token that can stand where it does and raises a counter
above the limit is the one the parser refuses (section 2), since all it has read before is scanned within the limit
(section 1).
-/

namespace ComplexCalc

/-! ## 1. Counters within a limit -/

/-- The counters of a frame go up from the loosest operators to the tightest. -/
def Levels.Ascends (f : Levels) : Prop :=
  f.sum ≤ f.product ∧ f.product ≤ f.power ∧ f.power ≤ f.sign

def Scan.Ascends (s : Scan Levels Unit) : Prop :=
  s.frame.Ascends ∧ ∀ q ∈ s.enclosing, q.2.Ascends

theorem Levels.ascends_all (n : Nat) : Levels.Ascends (.all n) :=
  ⟨Nat.le_refl n, Nat.le_refl n, Nat.le_refl n⟩

theorem Levels.Ascends.binary {f : Levels} (h : f.Ascends) (op : Operator) : (f.binary op).Ascends := by
  obtain ⟨hproduct, hpower, hsign⟩ := h
  cases op <;> simp only [Levels.Ascends, Levels.binary, Levels.all] <;> omega

theorem Levels.Ascends.atMost {f : Levels} {n : Nat} (h : f.Ascends) (hsign : f.sign ≤ n) : f.AtMost n := by
  obtain ⟨hproduct, hpower, hlast⟩ := h
  exact ⟨by omega, by omega, by omega, hsign⟩

section
variable {limit : Nat} {s s' s'' : Scan Levels Unit} {t : Lexeme} {us vs : List Lexeme}

theorem Scan.Ascends.step (h : s.Ascends) (hstep : levels.step s t = some s') : s'.Ascends := by
  obtain ⟨hframe, henclosing⟩ := h
  cases Gauge.steps_of_step hstep with
  | atom _ => exact ⟨hframe, henclosing⟩
  | function => exact ⟨hframe, henclosing⟩
  | sign _ => exact ⟨⟨hframe.1, hframe.2.1, Nat.le_succ_of_le hframe.2.2⟩, henclosing⟩
  | grouping => exact ⟨Levels.ascends_all _, List.forall_mem_cons.mpr ⟨hframe, henclosing⟩⟩
  | argument => exact ⟨Levels.ascends_all _, List.forall_mem_cons.mpr ⟨hframe, henclosing⟩⟩
  | binary => exact ⟨hframe.binary _, henclosing⟩
  | closing => exact List.forall_mem_cons.mp henclosing

/-- The frames around the innermost one were there before, or it was one of them. -/
theorem Scan.AtMost.of_sign_le (h : s.AtMost limit) (hstep : levels.step s t = some s') (hascends : s'.Ascends)
    (hsign : s'.frame.sign ≤ limit) : s'.AtMost limit := by
  refine ⟨hascends.1.atMost hsign, ?_⟩
  obtain ⟨hframe, henclosing⟩ := h
  cases Gauge.steps_of_step hstep with
  | grouping => exact List.forall_mem_cons.mpr ⟨hframe, henclosing⟩
  | argument => exact List.forall_mem_cons.mpr ⟨hframe, henclosing⟩
  | closing => exact (List.forall_mem_cons.mp henclosing).2
  | _ => exact henclosing

/-- On a scan within the limit, no counter of any frame passes it. -/
theorem ScansWithin.atMost (h : ScansWithin limit s us s') (hascends : s.Ascends) (hs : s.AtMost limit)
    (hvs : vs <+: us) (hrun : levels.run s vs = some s'') : s''.AtMost limit := by
  induction h generalizing vs with
  | nil =>
    obtain rfl := List.prefix_nil.mp hvs
    cases hrun
    exact hs
  | cons hstep hsign _ ih =>
    cases vs with
    | nil =>
      cases hrun
      exact hs
    | cons t vs =>
      obtain ⟨rfl, hrest⟩ := List.cons_prefix_cons.mp hvs
      rw [Gauge.run, hstep] at hrun
      have hnext := hascends.step hstep
      exact ih hnext (hs.of_sign_le hstep hnext hsign) hrest hrun

end

theorem Scan.ascends_start : Scan.Ascends .start :=
  ⟨Levels.ascends_all 0, List.forall_mem_nil _⟩

theorem Scan.AtMost.of_le {n m : Nat} {s : Scan Levels Unit} (h : s.AtMost n) (hle : n ≤ m) : s.AtMost m :=
  ⟨h.1.mono hle, fun q hq => (h.2 q hq).mono hle⟩

/-! ## 2. The first token above the limit -/

/-- The scan of the tokens ends with a counter above the limit. -/
def Exceeds (limit : Nat) (ts : List Lexeme) : Prop :=
  ∃ s, levels.run .start ts = some s ∧ ¬ s.AtMost limit

/-- The token at the index can stand where it does, and it is the first to raise a counter above the limit. -/
structure FirstExceeding (limit : Nat) (ts : List Lexeme) (k : Nat) : Prop where
  viable : Viable (ts.take (k + 1))
  exceeds : Exceeds limit (ts.take (k + 1))
  before : ∀ j ≤ k, ¬ Exceeds limit (ts.take j)

section
variable {limit : Nat} {s s' : Scan Levels Unit} {ts us rest : List Lexeme}

theorem ScansWithin.not_exceeds (h : ScansWithin limit .start us s) {vs : List Lexeme} (hvs : vs <+: us) :
    ¬ Exceeds limit vs := by
  rintro ⟨s', hrun, hexceeds⟩
  exact hexceeds (h.atMost Scan.ascends_start (Scan.atMost_start.of_le (Nat.zero_le limit)) hvs hrun)

theorem ScansWithin.not_exceeds_take (h : ScansWithin limit .start us s) {j : Nat} (hj : j ≤ us.length) :
    ¬ Exceeds limit ((us ++ rest).take j) := by
  rw [List.take_append_of_le_length hj]
  exact h.not_exceeds (List.take_prefix j us)

theorem exceeds_of_sign {t : Lexeme} (hrun : levels.run .start us = some s) (hstep : levels.step s t = some s')
    (hsign : s'.frame.sign = limit + 1) : Exceeds limit (us ++ [t]) := by
  refine ⟨s', ?_, ?_⟩
  · rw [Gauge.run_append, hrun, Option.bind_some, Gauge.run_singleton, hstep]
  · intro hmost
    have hle : s'.frame.sign ≤ limit := hmost.1.2.2.2
    omega

theorem Viable.of_append {vs : List Lexeme} (h : Viable (us ++ vs)) : Viable us := by
  obtain ⟨ws, e, h⟩ := h
  exact ⟨vs ++ ws, e, by rwa [← List.append_assoc]⟩

theorem Viable.take_of_le {j k : Nat} (h : Viable (ts.take k)) (hle : j ≤ k) : Viable (ts.take j) := by
  obtain ⟨vs, hvs⟩ := List.take_prefix_take_left hle (l := ts)
  rw [← hvs] at h
  exact h.of_append

/-- What is accepted is scanned within the limit. -/
theorem ofLexemes_within {e : Expr} (h : Expr.ofLexemes ts = .ok e) : ∃ s, ScansWithin levelLimit .start ts s := by
  obtain ⟨us, f, hts, hus⟩ :=
    read_within levelLimit .sum levelLimit (.all 0) [] (Levels.leaves_start levelLimit) (Expr.ofLexemes_ok_iff.mp h)
  rw [List.append_nil] at hts
  exact ⟨_, hts ▸ hus⟩

/-- Where the parser runs out of levels, the scan passes the limit for the first time. -/
theorem firstExceeding_of_tooDeep {p : Nat} (h : Expr.ofLexemes ts = .error (.tooDeep p)) :
    ∃ k t, ts[k]? = some t ∧ t.position = p ∧ FirstExceeding levelLimit ts k := by
  obtain ⟨us, rest, s, rfl, hus, hblames⟩ := ofLexemes_fails_within h
  cases hblames with
  | @tooDeep _ _ t _ rest hstep hsign =>
    have htake : (us ++ ⟨t, p⟩ :: rest).take (us.length + 1) = us ++ [⟨t, p⟩] := by
      rw [List.take_length_add_append]
      rfl
    refine ⟨us.length, ⟨t, p⟩, by simp, rfl, ?_, ?_, fun j hj => hus.not_exceeds_take hj⟩
    · rw [htake]
      exact (viable_snoc_iff hus.run_eq).mpr ⟨_, hstep⟩
    · rw [htake]
      exact exceeds_of_sign hus.run_eq hstep hsign

/-- The parser stops at the first token above the limit: it cannot have read it, and no token before it is refused. -/
theorem FirstExceeding.tooDeep {k : Nat} {t : Lexeme} (h : FirstExceeding levelLimit ts k) (ht : ts[k]? = some t) :
    Expr.ofLexemes ts = .error (.tooDeep t.position) := by
  cases hresult : Expr.ofLexemes ts with
  | ok e =>
    obtain ⟨s, hts⟩ := ofLexemes_within hresult
    exact absurd h.exceeds (hts.not_exceeds (List.take_prefix _ ts))
  | error x =>
    obtain ⟨us, rest, s, rfl, hus, hblames⟩ := ofLexemes_fails_within hresult
    have hread : us.length ≤ k := by
      apply Nat.le_of_not_lt
      intro hlt
      exact hus.not_exceeds_take hlt h.exceeds
    cases rest with
    | nil =>
      rw [List.append_nil, List.getElem?_eq_none hread] at ht
      cases ht
    | cons u rest =>
      have htake : (us ++ u :: rest).take (us.length + 1) = us ++ [u] := by
        rw [List.take_length_add_append]
        rfl
      have hviable := h.viable.take_of_le (Nat.succ_le_succ hread)
      rw [htake, viable_snoc_iff hus.run_eq] at hviable
      obtain ⟨s', hstep⟩ := hviable
      by_cases hdepth : ∃ p, x = .tooDeep p
      · obtain ⟨p, rfl⟩ := hdepth
        cases hblames with
        | tooDeep hraised hsign =>
          -- the token that is refused is above the limit, so it is not one of those before the first
          have hexceeds := exceeds_of_sign hus.run_eq hraised hsign
          rw [← htake] at hexceeds
          have hlast : us.length = k := by
            have hnot : ¬ us.length + 1 ≤ k := fun hle => h.before _ hle hexceeds
            omega
          rw [← hlast, List.getElem?_append_right (Nat.le_refl _), Nat.sub_self] at ht
          cases ht
          rfl
      · rw [hblames.stuck (fun p hp => hdepth ⟨p, hp⟩) u rfl] at hstep
        cases hstep

end

/-- What a syntax error says about the count of levels: it is met behind so many tokens, where no continuation makes an
expression any more, and no token before it is above the limit. -/
structure MetWithinLimit (ts : List Lexeme) (k : Nat) : Prop where
  le_length : k ≤ ts.length
  viable : Viable (ts.take k)
  not_viable : k < ts.length → ¬ Viable (ts.take (k + 1))
  not_derived : ¬ ∃ e, Derives .sum ts e
  within : ∀ j ≤ k, ¬ Exceeds levelLimit (ts.take j)

theorem metWithinLimit_of_error {ts : List Lexeme} {x : SyntaxError} (h : Expr.ofLexemes ts = .error x)
    (hdepth : ∀ p, x ≠ .tooDeep p) : ∃ k, MetWithinLimit ts k := by
  have hnone : ¬ ∃ e, Derives .sum ts e := by
    rintro ⟨e, he⟩
    rcases he.ofLexemes_eq with hok | ⟨p, herror⟩
    · rw [hok] at h
      cases h
    · rw [herror] at h
      cases h
      exact hdepth p rfl
  obtain ⟨us, rest, s, rfl, hus, hblames⟩ := ofLexemes_fails_within h
  have htake : (us ++ rest).take us.length = us := List.take_left
  refine ⟨us.length, by simp, ?_, ?_, hnone, fun j hj => hus.not_exceeds_take hj⟩
  · rw [htake]
    exact viable_iff_run.mpr ⟨s, hus.run_eq⟩
  · intro hlt
    cases rest with
    | nil => simp at hlt
    | cons t rest =>
      rw [List.take_length_add_append, List.take_succ_cons, List.take_zero, viable_snoc_iff hus.run_eq,
        hblames.stuck hdepth t rfl]
      rintro ⟨s', hs'⟩
      cases hs'

/-- The limit is reached exactly where a count of levels from left to right passes it: the parser refuses the first
token that can stand where it does and raises a counter above the limit, and it reports a syntax error only where no
token up to there has done so. -/
theorem tooDeep_iff_firstExceeding (ts : List Lexeme) :
    (∀ p, Expr.ofLexemes ts = .error (.tooDeep p) ↔
      ∃ k t, ts[k]? = some t ∧ t.position = p ∧ FirstExceeding levelLimit ts k) ∧
    ∀ x, Expr.ofLexemes ts = .error x → (∀ p, x ≠ .tooDeep p) → ∃ k, MetWithinLimit ts k := by
  refine ⟨fun p => ⟨firstExceeding_of_tooDeep, ?_⟩, fun x => metWithinLimit_of_error⟩
  rintro ⟨k, t, ht, rfl, hfirst⟩
  exact hfirst.tooDeep ht

end ComplexCalc
