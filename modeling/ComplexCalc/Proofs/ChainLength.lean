import ComplexCalc.Proofs.NestingLimit
import ComplexCalc.Proofs.SyntaxErrors
import ComplexCalc.Proofs.TreeHeight

/-!
# ChainLength — how many operands a sum or a product can have

A chain spends a level on each of its operators, and not on each operand.  Its counter never goes down before its end,
and it starts with a level for each parenthesis that is open around it (section 2).  So no part of what is accepted is a
chain of more operands than there are levels and one more, less the parentheses around it (section 3).  Where no other
level is spent, a sum of that many terms is accepted (section 4).
-/

namespace ComplexCalc

open ComplexCalc.Parser

/-! ## 1. Chains -/

/-- The tokens are so many operands in a row, with operators of the given kind between them. -/
inductive Linked (links : Operator → Bool) (operand : Phrase) : Nat → List Lexeme → Prop where
  | one {us e} : Derives operand us e → Linked links operand 1 us
  | link {n ts us op p e} : links op = true → Linked links operand n ts → Derives operand us e →
      Linked links operand (n + 1) (ts ++ ⟨.operator op, p⟩ :: us)

/-- So many products, with `+` or `-` between them. -/
def SumOf : Nat → List Lexeme → Prop :=
  Linked Operator.isAdditive .product

/-- So many powers, with `*` or `/` between them. -/
def ProductOf : Nat → List Lexeme → Prop :=
  Linked Operator.isMultiplicative .power

theorem Derives.sumOf {ts e} (h : Derives .sum ts e) : ∃ n, SumOf n ts := by
  generalize hph : Phrase.sum = ph at h
  induction h with
  | product h => exact ⟨1, .one h⟩
  | additive hop _ hb ih _ =>
    obtain ⟨n, hn⟩ := ih rfl
    exact ⟨n + 1, .link hop hn hb⟩
  | _ => cases hph

theorem Derives.productOf {ts e} (h : Derives .product ts e) : ∃ n, ProductOf n ts := by
  generalize hph : Phrase.product = ph at h
  induction h with
  | power h => exact ⟨1, .one h⟩
  | multiplicative hop _ hb ih _ =>
    obtain ⟨n, hn⟩ := ih rfl
    exact ⟨n + 1, .link hop hn hb⟩
  | _ => cases hph

/-! ## 2. Levels of open parentheses -/

/-- In each frame a level is spent for every parenthesis that is open around it. -/
def Levels.CountsOpen : Levels → List (Nat × Levels) → Prop
  | _, [] => True
  | f, (_, outer) :: q => q.length + 1 ≤ f.sum ∧ outer.CountsOpen q

/-- What holds at each step of a scan within the limit. -/
structure Scan.Counted (limit : Nat) (s : Scan Levels Unit) : Prop where
  ascends : s.Ascends
  atMost : s.AtMost limit
  open_le : s.frame.CountsOpen s.enclosing

section
variable {limit : Nat} {s s' : Scan Levels Unit} {ts us vs : List Lexeme} {ph : Phrase} {e : Expr}

theorem Levels.CountsOpen.length_le {f : Levels} {q : List (Nat × Levels)} (h : f.CountsOpen q) :
    q.length ≤ f.sum := by
  cases q with
  | nil => exact Nat.zero_le _
  | cons outer q => exact h.1

/-- A frame that has spent no fewer levels counts the same parentheses. -/
theorem Levels.CountsOpen.mono {f f' : Levels} {q : List (Nat × Levels)} (h : f.CountsOpen q) (hle : f.sum ≤ f'.sum) :
    f'.CountsOpen q := by
  cases q with
  | nil => trivial
  | cons outer q => exact ⟨Nat.le_trans h.1 hle, h.2⟩

/-- The counter lies between those of the sum and of the signs. -/
def Levels.Between (counter : Levels → Nat) : Prop :=
  ∀ f : Levels, f.Ascends → f.sum ≤ counter f ∧ counter f ≤ f.sign

theorem Levels.between_sum : Levels.Between Levels.sum :=
  fun _ ⟨hsum, hproduct, hpower⟩ => ⟨Nat.le_refl _, Nat.le_trans hsum (Nat.le_trans hproduct hpower)⟩

theorem Levels.between_product : Levels.Between Levels.product :=
  fun _ ⟨hsum, hproduct, hpower⟩ => ⟨hsum, Nat.le_trans hproduct hpower⟩

theorem Levels.sum_le_binary (f : Levels) (op : Operator) : f.sum ≤ (f.binary op).sum := by
  cases op with
  | add => exact Nat.le_succ f.sum
  | sub => exact Nat.le_succ f.sum
  | _ => exact Nat.le_refl f.sum

theorem Scan.Counted.step {t : Lexeme} (h : s.Counted limit) (hstep : levels.step s t = some s')
    (hsign : s'.frame.sign ≤ limit) : s'.Counted limit := by
  have hascends := h.ascends.step hstep
  refine ⟨hascends, h.atMost.of_sign_le hstep hascends hsign, ?_⟩
  obtain ⟨⟨⟨hsum, hproduct, hpower⟩, -⟩, -, hopen⟩ := h
  have hsum_le : s.frame.sum ≤ s.frame.sign := Nat.le_trans hsum (Nat.le_trans hproduct hpower)
  cases Gauge.steps_of_step hstep with
  | atom _ => exact hopen
  | function => exact hopen
  | sign _ => exact hopen.mono (Nat.le_refl _)
  | grouping => exact ⟨Nat.succ_le_succ (Nat.le_trans hopen.length_le hsum_le), hopen⟩
  | argument => exact ⟨Nat.succ_le_succ (Nat.le_trans hopen.length_le hsum_le), hopen⟩
  | binary => exact hopen.mono (Levels.sum_le_binary _ _)
  | closing => exact hopen.2

theorem ScansWithin.counted (h : ScansWithin limit s us s') (hs : s.Counted limit) : s'.Counted limit := by
  induction h with
  | nil => exact hs
  | cons hstep hsign _ ih => exact ih (hs.step hstep hsign)

theorem Scan.counted_start : Scan.start.Counted limit :=
  ⟨Scan.ascends_start, Scan.atMost_start.of_le (Nat.zero_le limit), trivial⟩

theorem ScansWithin.cases_append (h : ScansWithin limit s (us ++ vs) s') :
    ∃ mid, ScansWithin limit s us mid ∧ ScansWithin limit mid vs s' := by
  induction us generalizing s with
  | nil => exact ⟨s, .nil, h⟩
  | cons t us ih =>
    cases h with
    | cons hstep hsign h =>
      obtain ⟨mid, hus, hvs⟩ := ih h
      exact ⟨mid, .cons hstep hsign hus, hvs⟩

/-! ## 3. No more operators than levels -/

/-- A phrase ends with an operand, in whatever state the scan comes to it. -/
theorem Derives.due_eq (h : Derives ph us e) (hrun : levels.run s us = some s') : s'.due = .operator () := by
  obtain ⟨f, hstart, -⟩ := h.run_levels (.all 0) []
  rcases List.eq_nil_or_concat us with rfl | ⟨ws, t, rfl⟩
  · cases hstart
  · rw [List.concat_eq_append] at hrun hstart
    rw [due_of_run_snoc hrun, ← due_of_run_snoc hstart]

/-- A phrase closes the parentheses that it opens, and no others. -/
theorem Derives.noteParenthesis_eq (h : Derives ph us e) (opened : List Nat) :
    us.foldl noteParenthesis opened = opened := by
  obtain ⟨f, hrun, -⟩ := h.run_levels (.all 0) (opened.map fun p => (p, .all 0))
  have hopened := opened_of_run hrun
  have hfst : (opened.map fun p => (p, Levels.all 0)).map Prod.fst = opened := by
    rw [List.map_map]
    exact List.map_id opened
  rw [Scan.opened, Scan.opened, hfst] at hopened
  exact hopened.symm

/-- Behind a chain its counter stands no lower than its operators and the open parentheses together. -/
theorem Linked.counter_le {links operand counter n} (h : Linked links operand n us)
    (hcounts : Levels.Counts links operand counter) (hbetween : Levels.Between counter)
    (hscan : ScansWithin limit s us s') (hs : s.Counted limit) :
    n + s'.enclosing.length ≤ counter s'.frame + 1 ∧ n + s'.enclosing.length ≤ limit + 1 ∧
      s'.due = .operator () := by
  induction h generalizing s' with
  | one h =>
    obtain ⟨⟨hascends, -⟩, ⟨⟨-, -, -, hsign⟩, -⟩, hopen⟩ := hscan.counted hs
    have hlength := hopen.length_le
    obtain ⟨hsum, hcounter⟩ := hbetween _ hascends
    exact ⟨by omega, by omega, h.due_eq hscan.run_eq⟩
  | @link n ts us op p e hop _ hus ih =>
    obtain ⟨mid, hts, hlink⟩ := hscan.cases_append
    obtain ⟨hcounter, -, hdue⟩ := ih hts
    obtain ⟨due, f, q⟩ := mid
    obtain rfl : due = .operator () := hdue
    cases hlink with
    | cons hstep hsign hrest =>
      cases hstep
      -- the operator raises the counter, and the operand behind it leaves the counter as it is
      obtain ⟨f', hrun, hkeeps⟩ := hus.run_levels (f.binary op) q
      obtain rfl : s' = ⟨.operator (), f', q⟩ := Option.some.inj (hrest.run_eq.symm.trans hrun)
      have hraised : (f.binary op).sign = counter f + 1 := hcounts.sign op f hop
      have hkept : counter f' = counter f + 1 := hcounts.keeps op f f' hop hkeeps
      change n + q.length ≤ counter f + 1 at hcounter
      change (f.binary op).sign ≤ limit at hsign
      show n + 1 + q.length ≤ counter f' + 1 ∧ n + 1 + q.length ≤ limit + 1 ∧ _
      exact ⟨by omega, by omega, rfl⟩

theorem Linked.noteParenthesis_eq {links operand n} (h : Linked links operand n us) (opened : List Nat) :
    us.foldl noteParenthesis opened = opened := by
  induction h with
  | one h => exact h.noteParenthesis_eq opened
  | link _ _ hus ih =>
    rw [List.foldl_append, ih, List.foldl_cons]
    exact hus.noteParenthesis_eq opened

theorem Linked.length_le {links operand counter n} {before behind : List Lexeme} (h : Linked links operand n us)
    (hcounts : Levels.Counts links operand counter) (hbetween : Levels.Between counter)
    (hscan : ScansWithin limit .start (before ++ us ++ behind) s') :
    n + (openParentheses before).length ≤ limit + 1 := by
  obtain ⟨mid, hfront, -⟩ := hscan.cases_append
  obtain ⟨s, hbefore, hus⟩ := hfront.cases_append
  have hcounter := (h.counter_le hcounts hbetween hus (hbefore.counted Scan.counted_start)).2.1
  -- the same parentheses are open at the end of the chain
  have hopened : mid.opened = openParentheses before := by
    rw [opened_of_run hus.run_eq, h.noteParenthesis_eq, opened_eq_openParentheses hbefore.run_eq]
  rwa [← hopened, Scan.opened, List.length_map]

end

/-- Of what is accepted, no part is a sum or a product of more operands than there are levels and one more, less the
parentheses that are open around it.  Every sum and every product in it is a chain of so many operands. -/
theorem chains_are_short (before us behind : List Lexeme) (e : Expr)
    (h : Expr.ofLexemes (before ++ us ++ behind) = .ok e) :
    (∀ n, SumOf n us → n + (openParentheses before).length ≤ levelLimit + 1) ∧
      (∀ n, ProductOf n us → n + (openParentheses before).length ≤ levelLimit + 1) ∧
      (∀ a, Derives .sum us a → ∃ n, SumOf n us) ∧ ∀ a, Derives .product us a → ∃ n, ProductOf n us := by
  obtain ⟨s, hscan⟩ := ofLexemes_within h
  refine ⟨fun n hn => ?_, fun n hn => ?_, fun a ha => ha.sumOf, fun a ha => ha.productOf⟩
  · exact Linked.length_le hn Levels.counts_sum Levels.between_sum hscan
  · exact Linked.length_le hn Levels.counts_product Levels.between_product hscan

/-! ## 4. The longest sum -/

/-- So many names from the position on, each behind a plus sign. -/
def addedNames (p : Nat) : Nat → List Lexeme
  | 0 => []
  | n + 1 => ⟨.operator .add, p⟩ :: ⟨.name "x", p + 1⟩ :: addedNames (p + 2) n

/-- A sum of names with so many plus signs. -/
def nameSum (n : Nat) : List Lexeme :=
  ⟨.name "x", 0⟩ :: addedNames 1 n

def Expr.plusNames (e : Expr) : Nat → Expr
  | 0 => e
  | n + 1 => (Expr.binary .add e (.var "x")).plusNames n

theorem read_product_name (room p q n : Nat) :
    read .product room (⟨.name "x", p⟩ :: addedNames q n) = .ok (.var "x", addedNames q n) := by
  have hstops : Stops Operator.isPower (addedNames q n) ∧ Stops Operator.isMultiplicative (addedNames q n) := by
    cases n with
    | zero => exact ⟨trivial, trivial⟩
    | succ n => exact ⟨rfl, rfl⟩
  rw [read_product, read_power, read_name]
  simp only [bind, Except.bind, exponent_of_stops hstops.1, chain_of_stops hstops.2]

theorem chain_addedNames (room p n : Nat) (left : Expr) :
    chain Operator.isAdditive .product (room + n) left (addedNames p n) = .ok (left.plusNames n, []) := by
  induction n generalizing left p with
  | zero => exact chain_of_stops trivial
  | succ n ih =>
    rw [addedNames, ← Nat.add_assoc, chain_succ rfl, read_product_name]
    exact ih (p + 2) (.binary .add left (.var "x"))

theorem ofLexemes_nameSum {n : Nat} (hn : n ≤ levelLimit) :
    Expr.ofLexemes (nameSum n) = .ok ((Expr.var "x").plusNames n) := by
  obtain ⟨free, hfree⟩ := Nat.exists_eq_add_of_le' hn
  rw [Expr.ofLexemes_ok_iff, nameSum, read_sum, read_product_name, hfree]
  exact chain_addedNames free 1 n (.var "x")

theorem SumOf.addedNames {n : Nat} {ts : List Lexeme} (h : SumOf n ts) (p k : Nat) :
    SumOf (n + k) (ts ++ addedNames p k) := by
  induction k generalizing n ts p with
  | zero => rwa [ComplexCalc.addedNames, List.append_nil]
  | succ k ih =>
    have hname : Derives .product [⟨.name "x", p + 1⟩] (.var "x") := .power (.signed (.primary .name))
    have hlonger : SumOf (n + 1) (ts ++ [⟨.operator .add, p⟩, ⟨.name "x", p + 1⟩]) := .link rfl h hname
    have hmore := ih hlonger (p + 2)
    rw [Nat.add_assoc, Nat.add_comm 1 k, List.append_assoc] at hmore
    exact hmore

theorem sumOf_nameSum (n : Nat) : SumOf (n + 1) (nameSum n) := by
  have hfirst : SumOf 1 [⟨.name "x", 0⟩] := .one (.power (.signed (.primary .name)))
  rw [Nat.add_comm]
  exact hfirst.addedNames 1 n

/-- The bound is met at the top, where no parenthesis is open. -/
theorem chains_are_short_nameSum :
    SumOf (levelLimit + 1) (nameSum levelLimit) ∧ ∀ n, SumOf n (nameSum levelLimit) → n ≤ levelLimit + 1 := by
  have haccepted := ofLexemes_nameSum (Nat.le_refl levelLimit)
  rw [← List.append_nil (nameSum levelLimit)] at haccepted
  exact ⟨sumOf_nameSum levelLimit, (chains_are_short [] _ [] _ haccepted).1⟩

/-- A sum of one term more than there are levels is accepted: it has as many operators as levels. -/
theorem sum_exceeds_levelLimit : ¬ ∀ ts e, Expr.ofLexemes ts = .ok e → ∀ n, SumOf n ts → n ≤ levelLimit := by
  intro hall
  have hle := hall _ _ (ofLexemes_nameSum (Nat.le_refl levelLimit)) _ (sumOf_nameSum levelLimit)
  omega

end ComplexCalc
