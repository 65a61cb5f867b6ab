import ComplexCalc.Proofs.Scan

/-!
# TreeHeight — how high a parsed tree is

The parser counts levels down on the way to the right operand of a chain, and gives them back when it returns.  The
height of the tree also grows on the left: every operator of a chain is put on top of all that the chain has read before
it.  So the limit on levels is no limit on the height.  The height is read off the tokens by a scan of its own.
-/

namespace ComplexCalc

open ComplexCalc.Parser

/-! ## 1. Height -/

/-- The most operations on a path from the root to a leaf. -/
def Expr.height : Expr → Nat
  | .lit _ => 0
  | .var _ => 0
  | .binary _ left right => max left.height right.height + 1
  | .call _ argument => argument.height + 1

/-! ## 2. The height as a scan counts it -/

/-- What waits for the operand that is due: the heights of a sum and of a product to the left of it, the heights of the
bases that it is an exponent to, the last first, and how many minus signs and functions stand in front of it. -/
structure Pending where
  sum : Option Nat
  product : Option Nat
  bases : List Nat
  fronts : Nat

namespace Pending

def fresh : Pending :=
  ⟨none, none, [], 0⟩

/-- The height of an operation on what is read before, if anything is, and on the rest. -/
def join : Option Nat → Nat → Nat
  | none, h => h
  | some left, h => max left h + 1

/-- The height of the operand with what stands in front of it. -/
def signed (f : Pending) (h : Nat) : Nat :=
  h + f.fronts

def raised (f : Pending) (h : Nat) : Nat :=
  f.bases.foldl (fun h base => max base h + 1) (f.signed h)

def multiplied (f : Pending) (h : Nat) : Nat :=
  join f.product (f.raised h)

/-- The height of everything that waits, once the operand is complete. -/
def added (f : Pending) (h : Nat) : Nat :=
  join f.sum (f.multiplied h)

/-- An operator completes what binds tighter than it does. -/
def binary (f : Pending) (op : Operator) (h : Nat) : Pending :=
  if op.isAdditive then ⟨some (f.added h), none, [], 0⟩
  else if op.isMultiplicative then ⟨f.sum, some (f.multiplied h), [], 0⟩
  else ⟨f.sum, f.product, f.signed h :: f.bases, 0⟩

end Pending

/-- Computes heights.  A plus sign and parentheses add nothing. -/
def heights : Gauge Pending Nat where
  operand := 0
  sign op f := if op = .sub then { f with fronts := f.fronts + 1 } else f
  call f := { f with fronts := f.fronts + 1 }
  binary op f h := f.binary op h
  enter _ := .fresh
  leave f h := f.added h

/-- The height of the tree that the tokens spell, without building it. -/
def scannedHeight (ts : List Lexeme) : Option Nat :=
  match heights.run ⟨.operand, .fresh, []⟩ ts with
  | some ⟨.operator h, f, []⟩ => some (f.added h)
  | _ => none

/-- Where a phrase of the given kind starts, nothing waits that would bind tighter than it does. -/
def Pending.Awaits : Phrase → Pending → Prop
  | .sum, f => f = .fresh
  | .product, f => f = ⟨f.sum, none, [], 0⟩
  | .power, f => f.fronts = 0
  | .signed, _ => True
  | .primary, _ => True

/-- Behind a phrase of the given height: what was there before still waits, and the phrase has its height. -/
def Pending.Completes (n : Nat) : Phrase → Pending → Pending → Nat → Prop
  | .sum, _, f', h => f'.added h = n
  | .product, f, f', h => f'.sum = f.sum ∧ f'.multiplied h = n
  | .power, f, f', h => f'.sum = f.sum ∧ f'.product = f.product ∧
      f'.raised h = f.bases.foldl (fun h base => max base h + 1) n
  | .signed, f, f', h => f'.sum = f.sum ∧ f'.product = f.product ∧ f'.bases = f.bases ∧ f'.signed h = n + f.fronts
  | .primary, f, f', h => f'.sum = f.sum ∧ f'.product = f.product ∧ f'.bases = f.bases ∧ f'.signed h = n + f.fronts

theorem Derives.run_heights {ph us e} (h : Derives ph us e) (f : Pending) (q : List (Nat × Pending))
    (hf : Pending.Awaits ph f) :
    ∃ f' n, heights.run ⟨.operand, f, q⟩ us = some ⟨.operator n, f', q⟩ ∧ Pending.Completes e.height ph f f' n := by
  induction h generalizing f q with
  | product _ ih =>
    obtain rfl := hf
    obtain ⟨f', n, hrun, hsum, hmultiplied⟩ := ih .fresh q rfl
    refine ⟨f', n, hrun, ?_⟩
    rw [Pending.Completes, Pending.added, hsum, hmultiplied]
    rfl
  | @additive _ _ _ _ op _ hop _ _ iha ihb =>
    -- at the operator all that was read becomes the left operand
    obtain ⟨f', n, ha, hadded⟩ := iha f q hf
    have hbinary : f'.binary op n = ⟨some (f'.added n), none, [], 0⟩ := if_pos hop
    obtain ⟨f'', m, hb, hsum, hmultiplied⟩ := ihb (f'.binary op n) q (by rw [hbinary]; rfl)
    refine ⟨f'', m, (Gauge.run_binary ha).trans hb, ?_⟩
    rw [Pending.Completes, Pending.added, hsum, hmultiplied, hbinary, hadded]
    rfl
  | power _ ih =>
    rw [Pending.Awaits] at hf
    obtain ⟨f', n, hrun, hsum, hproduct, hraised⟩ := ih f q (by rw [hf]; rfl)
    refine ⟨f', n, hrun, hsum, ?_⟩
    rw [Pending.multiplied, hproduct, hraised, hf]
    rfl
  | @multiplicative _ _ _ _ op _ hop _ _ iha ihb =>
    obtain ⟨f', n, ha, hsum, hmultiplied⟩ := iha f q hf
    have hbinary : f'.binary op n = ⟨f'.sum, some (f'.multiplied n), [], 0⟩ := by
      cases op <;> first | rfl | cases hop
    obtain ⟨f'', m, hb, hsum', hproduct, hraised⟩ := ihb (f'.binary op n) q (by rw [hbinary]; rfl)
    refine ⟨f'', m, (Gauge.run_binary ha).trans hb, ?_, ?_⟩
    · rw [hsum', hbinary, hsum]
    · rw [Pending.multiplied, hproduct, hraised, hbinary, hmultiplied]
      rfl
  | signed _ ih =>
    obtain ⟨f', n, hrun, hsum, hproduct, hbases, hsigned⟩ := ih f q trivial
    refine ⟨f', n, hrun, hsum, hproduct, ?_⟩
    rw [Pending.raised, hbases, hsigned, show f.fronts = 0 from hf]
    rfl
  | raised _ _ iha ihb =>
    -- the base joins the bases that wait, and the exponent completes them all
    obtain ⟨f', n, ha, hsum, hproduct, hbases, hsigned⟩ := iha f q trivial
    obtain ⟨f'', m, hb, hsum', hproduct', hraised⟩ := ihb (f'.binary .pow n) q rfl
    refine ⟨f'', m, (Gauge.run_binary ha).trans hb, hsum'.trans hsum, hproduct'.trans hproduct, ?_⟩
    rw [hraised]
    show List.foldl _ _ (f'.signed n :: f'.bases) = _
    rw [hsigned, hbases, show f.fronts = 0 from hf]
    rfl
  | primary _ ih => exact ih f q trivial
  | minus _ ih =>
    obtain ⟨f', n, hrun, hsum, hproduct, hbases, hsigned⟩ := ih { f with fronts := f.fronts + 1 } q trivial
    refine ⟨f', n, hrun, hsum, hproduct, hbases, ?_⟩
    rw [hsigned, Expr.height, Expr.height, Nat.zero_max]
    show _ + (f.fronts + 1) = _
    omega
  | plus _ ih => exact ih f q trivial
  | real => exact ⟨f, 0, rfl, rfl, rfl, rfl, rfl⟩
  | imaginary => exact ⟨f, 0, rfl, rfl, rfl, rfl, rfl⟩
  | name => exact ⟨f, 0, rfl, rfl, rfl, rfl, rfl⟩
  | @call _ _ _ _ opened _ _ ih =>
    obtain ⟨f', n, hrun, hadded⟩ := ih .fresh ((opened, { f with fronts := f.fronts + 1 }) :: q) rfl
    refine ⟨_, _, Gauge.run_call hrun, rfl, rfl, rfl, ?_⟩
    show f'.added n + (f.fronts + 1) = _
    rw [hadded, Expr.height]
    omega
  | @enclosed _ _ opened _ _ ih =>
    obtain ⟨f', n, hrun, hadded⟩ := ih .fresh ((opened, f) :: q) rfl
    refine ⟨_, _, Gauge.run_enclosed hrun, rfl, rfl, rfl, ?_⟩
    show f'.added n + f.fronts = _
    rw [hadded]

theorem Derives.scannedHeight_eq {ts e} (h : Derives .sum ts e) : scannedHeight ts = some e.height := by
  obtain ⟨f, n, hrun, hadded⟩ := h.run_heights .fresh [] rfl
  rw [scannedHeight, hrun, ← hadded]

/-! ## 3. How high the levels let a tree grow -/

/-- The height that a phrase cannot pass.  With one level more, a sum can start with a product that starts with a power
of a call of a sum, and every further level allows one more operator in the sum and one in the product. -/
def heightBound : Phrase → Nat → Nat
  | .sum, room => room * (room + 3)
  | .product, room => room * (room + 2)
  | .power, room => room * (room + 1)
  | .signed, room => room * (room + 1) - 1
  | .primary, room => room * (room + 1) - 1

def HeightBounded (ph : Phrase) (room : Nat) : Prop :=
  ∀ {ts e rest}, read ph room ts = .ok (e, rest) → e.height ≤ heightBound ph room

/-- Every link of a chain is put on top of what the chain has so far. -/
theorem Parser.Chains.height_le {links operand room left ts e rest n} (h : Chains links operand room left ts e rest)
    (hread : ∀ below ≤ room, ∀ {ts e rest}, read operand below ts = .ok (e, rest) → e.height ≤ n) :
    e.height ≤ max left.height n + room := by
  induction h with
  | stop _ => omega
  | @link room left op _ _ right _ e _ _ hright _ ih =>
    have hoperand := hread room (Nat.le_succ room) hright
    have hwhole := ih fun below hb => hread below (Nat.le_succ_of_le hb)
    rw [Expr.height] at hwhole
    omega

theorem heightBound_mono (ph : Phrase) {below room : Nat} (h : below ≤ room) :
    heightBound ph below ≤ heightBound ph room := by
  have hmul : ∀ k, below * (below + k) ≤ room * (room + k) := fun k => Nat.mul_le_mul h (by omega)
  cases ph with
  | sum => exact hmul 3
  | product => exact hmul 2
  | power => exact hmul 1
  | signed => exact Nat.sub_le_sub_right (hmul 1) 1
  | primary => exact Nat.sub_le_sub_right (hmul 1) 1

theorem heightBound_signed_succ (room : Nat) : heightBound .signed room + 1 ≤ heightBound .signed (room + 1) := by
  simp only [heightBound, Nat.mul_add, Nat.add_mul]
  omega

/-- One level more than a sum has is what an operation on it needs. -/
theorem heightBound_succ (room : Nat) : heightBound .sum room + 1 ≤ heightBound .primary (room + 1) := by
  simp only [heightBound, Nat.mul_add, Nat.add_mul]
  omega

theorem enclosed_height {room opened ts e rest} (sum : ∀ below < room, HeightBounded .sum below)
    (h : enclosed room opened ts = .ok (e, rest)) : e.height + 1 ≤ heightBound .primary room := by
  obtain ⟨below, p, rfl, hinner⟩ := enclosed_ok_cases h
  have hbound := sum below (Nat.lt_succ_self below) hinner
  exact Nat.le_trans (Nat.succ_le_succ hbound) (heightBound_succ below)

theorem primary_height {room} (sum : ∀ below < room, HeightBounded .sum below) : HeightBounded .primary room := by
  intro ts e rest h
  cases readsPrimary_of_ok h with
  | real => exact Nat.zero_le _
  | imaginary => exact Nat.zero_le _
  | name => exact Nat.zero_le _
  | enclosed hinner => exact Nat.le_of_succ_le (enclosed_height sum hinner)
  | call hargument => exact enclosed_height sum hargument

theorem signed_height {room} (signed : ∀ below < room, HeightBounded .signed below)
    (primary : HeightBounded .primary room) : HeightBounded .signed room := by
  intro ts e rest h
  cases readsSigned_of_ok h with
  | minus hoperand =>
    have hbound := signed _ (Nat.lt_succ_self _) hoperand
    rw [Expr.height, Expr.height, Nat.zero_max]
    exact Nat.le_trans (Nat.succ_le_succ hbound) (heightBound_signed_succ _)
  | plus hoperand =>
    have hbound := signed _ (Nat.lt_succ_self _) hoperand
    exact Nat.le_trans hbound (heightBound_mono .signed (Nat.le_succ _))
  | primary hprimary => exact primary hprimary

theorem read_height (ph : Phrase) (room : Nat) : HeightBounded ph room := by
  induction ph, room using read_induction with
  | primary room sum => exact primary_height sum
  | signed room signed primary => exact signed_height signed primary
  | power room power signed =>
    intro ts e rest h
    obtain ⟨base, mid, hbase, hexponent⟩ := power_of_ok h
    have hleft := signed hbase
    rcases exponent_ok_cases hexponent with ⟨rfl, rfl, -⟩ | ⟨below, p, tail, raised, rfl, rfl, hraised, rfl⟩
    · exact Nat.le_trans hleft (Nat.sub_le _ 1)
    · have hright := power below (Nat.lt_succ_self below) hraised
      rw [Expr.height]
      simp only [heightBound, Nat.mul_add, Nat.add_mul] at *
      omega
  | product room power =>
    intro ts e rest h
    obtain ⟨left, mid, hleft, hchain⟩ := product_of_ok h
    have hfirst := power room (Nat.le_refl _) hleft
    have hlinked := hchain.height_le
      fun below hb _ _ _ h => Nat.le_trans (power below hb h) (heightBound_mono .power hb)
    simp only [heightBound, Nat.mul_add] at *
    omega
  | sum room product =>
    intro ts e rest h
    obtain ⟨left, mid, hleft, hchain⟩ := sum_of_ok h
    have hfirst := product room (Nat.le_refl _) hleft
    have hlinked := hchain.height_le
      fun below hb _ _ _ h => Nat.le_trans (product below hb h) (heightBound_mono .product hb)
    simp only [heightBound, Nat.mul_add] at *
    omega

/-- What the limit on levels does bound. -/
theorem ofLexemes_height_le {ts e} (h : Expr.ofLexemes ts = .ok e) : e.height ≤ levelLimit * (levelLimit + 3) :=
  read_height .sum levelLimit (Expr.ofLexemes_ok_iff.mp h)

/-! ## 4. Higher than there are levels -/

/-- So many minus signs, from the position on. -/
def minuses (p : Nat) : Nat → List Lexeme
  | 0 => []
  | n + 1 => ⟨.operator .sub, p⟩ :: minuses (p + 1) n

def Expr.negated (e : Expr) : Nat → Expr
  | 0 => e
  | n + 1 => .binary .sub (.lit .zero) (e.negated n)

theorem Expr.height_negated (e : Expr) (n : Nat) : (e.negated n).height = e.height + n := by
  induction n with
  | zero => rfl
  | succ n ih => rw [Expr.negated, Expr.height, Expr.height, ih, Nat.zero_max, Nat.add_assoc]

theorem read_minus (room p : Nat) (ts : List Lexeme) :
    read .signed (room + 1) (⟨.operator .sub, p⟩ :: ts) =
      read .signed room ts >>= fun r => .ok (.binary .sub (.lit .zero) r.1, r.2) := by
  rw [read_signed]

theorem read_name (room p : Nat) (x : String) (ts : List Lexeme) :
    read .signed room (⟨.name x, p⟩ :: ts) = .ok (.var x, ts) := by
  have hprimary := (Derives.name (x := x) (p := p)).read_signed_eq room ts
  rw [List.singleton_append] at hprimary
  rw [hprimary, read_primary]

theorem read_minuses {room ts e rest} (p n : Nat) (h : read .signed room ts = .ok (e, rest)) :
    read .signed (room + n) (minuses p n ++ ts) = .ok (e.negated n, rest) := by
  induction n generalizing p with
  | zero => exact h
  | succ n ih =>
    rw [minuses, List.cons_append, ← Nat.add_assoc, read_minus, ih]
    rfl

/-- A sum whose first operand has `n` minus signs. -/
def negatedSum (n : Nat) : List Lexeme :=
  minuses 0 n ++ [⟨.name "x", n⟩, ⟨.operator .add, n + 1⟩, ⟨.name "x", n + 2⟩]

/-- The levels of the signs are free again where the sum goes on. -/
theorem ofLexemes_negatedSum {n : Nat} (hn : n ≤ levelLimit) :
    Expr.ofLexemes (negatedSum n) = .ok (.binary .add ((Expr.var "x").negated n) (.var "x")) := by
  obtain ⟨free, hfree⟩ := Nat.exists_eq_add_of_le' hn
  -- one level is spent on the operator
  have hright : read .product 255 [⟨.name "x", n + 2⟩] = .ok (.var "x", []) := by
    rw [read_product, read_power, read_name]
    rfl
  have hleft : read .signed levelLimit (negatedSum n) =
      .ok ((Expr.var "x").negated n, [⟨.operator .add, n + 1⟩, ⟨.name "x", n + 2⟩]) := by
    rw [negatedSum, hfree, read_minuses 0 n (read_name free n "x" _)]
  have hsum : read .sum levelLimit (negatedSum n) =
      .ok (.binary .add ((Expr.var "x").negated n) (.var "x"), []) := by
    rw [read_sum, read_product, read_power, hleft]
    show chain Operator.isAdditive .product 256 _ _ = _
    rw [chain_succ rfl, hright]
    rfl
  exact Expr.ofLexemes_ok_iff.mpr hsum

/-- The limit bounds the height of the trees of exactly those token lists whose height, as scanned, it bounds. No tree
is higher than a few hundred times the limit. -/
theorem height_le_levelLimit_iff (ts : List Lexeme) (e : Expr) (h : Expr.ofLexemes ts = .ok e) :
    (e.height ≤ levelLimit ↔ ∃ n ≤ levelLimit, scannedHeight ts = some n) ∧
      e.height ≤ levelLimit * (levelLimit + 3) := by
  refine ⟨?_, ofLexemes_height_le h⟩
  rw [(ofLexemes_sound h).scannedHeight_eq]
  simp

theorem negatedSum_height_le_iff :
    let e := Expr.binary .add ((Expr.var "x").negated levelLimit) (.var "x")
    (e.height ≤ levelLimit ↔ ∃ n ≤ levelLimit, scannedHeight (negatedSum levelLimit) = some n) ∧
      e.height ≤ levelLimit * (levelLimit + 3) :=
  height_le_levelLimit_iff _ _ (ofLexemes_negatedSum (Nat.le_refl levelLimit))

/-- With as many signs as there are levels, one more operator makes the tree higher than the limit. -/
theorem height_exceeds_levelLimit : ¬ ∀ ts e, Expr.ofLexemes ts = .ok e → e.height ≤ levelLimit := by
  intro hall
  have hheight := hall _ _ (ofLexemes_negatedSum (Nat.le_refl levelLimit))
  rw [Expr.height, Expr.height_negated] at hheight
  simp only [Expr.height] at hheight
  omega

end ComplexCalc
