import ComplexCalc.Proofs.DoubleArithmetic
import ComplexCalc.Proofs.Numerals
import ComplexCalc.Proofs.Effects

/-!
# Bindings — a store holds for each name the number it was bound to last

Two doubles are equal if they stand for the same number, which leaves a zero without its sign, or if neither stands for
one (section 1).  What a store makes of a sequence of bindings are the last ones of each name (section 2).  Stores are
compared by their names and by these numbers, so it does not matter how the bindings got there (section 3).
-/

namespace ComplexCalc

open Binary64

/-! ## 1. Doubles as numbers -/

namespace Binary64

open Float.Model Float.Model.UnpackedFloat

/-- The number that a double stands for, in units of `2 ^ -1074`, if it is no NaN.  An infinite one stands for
`2 ^ 1024`, which no finite one reaches. -/
def number? (x : Float) : Option Int :=
  if x.isNaN then none else some ((sign x).apply (units x))

section
variable {x y : Float}

theorem units_eq_zero_iff (x : Float) : units x = 0 ↔ magnitude x = 0 := by
  obtain ⟨significand, hunits, hmagnitude⟩ := units_eq x
  constructor
  · intro h
    rw [h] at hunits hmagnitude
    have hzero : 0 = significand := by simpa using hunits
    rw [← hmagnitude, ← hzero]
    rfl
  · intro h
    have hzero : significand = 0 := by omega
    rw [hunits, hzero, Nat.zero_mul]

theorem magnitude_eq_of_units_eq (h : units x = units y) : magnitude x = magnitude y := by
  obtain ⟨m, hunits, hmagnitude⟩ := units_eq x
  obtain ⟨n, hunits', hmagnitude'⟩ := units_eq y
  rw [← h] at hunits' hmagnitude'
  have hsame : m = n := Nat.eq_of_mul_eq_mul_right (Nat.two_pow_pos _) (hunits.symm.trans hunits')
  rw [← hmagnitude, ← hmagnitude', hsame]

theorem unpacked_beq_iff (u v : UnpackedFloat) :
    u.beq v = true ↔ (u = v ∧ u ≠ .notANumber) ∨ ∃ s t, u = .zero s ∧ v = .zero t := by
  cases u with
  | notANumber => cases v <;> simp [UnpackedFloat.beq, UnpackedFloat.compare]
  | zero s => cases v with
    | infinity t => cases t <;> simp [UnpackedFloat.beq, UnpackedFloat.compare]
    | finite t => cases t <;> simp [UnpackedFloat.beq, UnpackedFloat.compare]
    | _ => simp [UnpackedFloat.beq, UnpackedFloat.compare]
  | infinity s => cases v with
    | infinity t => cases s <;> cases t <;> simp [UnpackedFloat.beq, UnpackedFloat.compare] <;> decide
    | _ => cases s <;> simp [UnpackedFloat.beq, UnpackedFloat.compare]
  | finite s => cases v with
    | infinity t => cases t <;> simp [UnpackedFloat.beq, UnpackedFloat.compare]
    | finite t =>
      -- exponents are compared before significands
      cases s <;> cases t <;> simp [UnpackedFloat.beq, UnpackedFloat.compare, Ordering.then_eq_eq, and_comm]
    | _ => cases s <;> simp [UnpackedFloat.beq, UnpackedFloat.compare]

theorem unpack_inj (h : x.toModel.unpack = y.toModel.unpack) : x = y := by
  rw [← ofModel_pack_unpack x, h, ofModel_pack_unpack]

theorem unpack_eq_zero_iff (x : Float) : (∃ s, x.toModel.unpack = .zero s) ↔ magnitude x = 0 := by
  constructor
  · rintro ⟨s, h⟩
    rcases unpack_cases x with ⟨-, hx⟩ | ⟨-, hx⟩ | ⟨hzero, -⟩ | ⟨_, -, hx⟩ | ⟨_, -, -, hx⟩
    case inr.inr.inl => exact hzero
    all_goals
      rw [h] at hx
      cases hx
  · exact fun h => ⟨sign x, unpack_of_magnitude_eq_zero h⟩

theorem beq_iff (x y : Float) :
    (x == y) = true ↔ (x = y ∧ x.isNaN = false) ∨ (magnitude x = 0 ∧ magnitude y = 0) := by
  have hnan : x.isNaN = false ↔ x.toModel.unpack ≠ .notANumber := by
    rw [Bool.eq_false_iff]
    exact not_congr (unpacked_isNaN_iff _)
  have hsame : x.toModel.unpack = y.toModel.unpack ↔ x = y := ⟨unpack_inj, fun h => by rw [h]⟩
  show UnpackedFloat.beq x.toModel.unpack y.toModel.unpack = true ↔ _
  rw [unpacked_beq_iff, hsame, hnan, ← unpack_eq_zero_iff x, ← unpack_eq_zero_iff y]
  simp only [exists_and_left, exists_and_right]

theorem eq_of_isNaN (hx : x.isNaN) (hy : y.isNaN) : x = y :=
  unpack_inj (by rw [unpack_of_isNaN hx, unpack_of_isNaN hy])

theorem apply_eq_iff (s t : Sign) (m n : Nat) : s.apply m = t.apply n ↔ m = n ∧ (s = t ∨ m = 0) := by
  cases s <;> cases t <;> simp [Sign.apply] <;> omega

/-- Doubles stand for the same number only if they are the same, or zeros. -/
theorem number?_eq_iff (x y : Float) : number? x = number? y ↔ x = y ∨ (magnitude x = 0 ∧ magnitude y = 0) := by
  unfold number?
  by_cases hx : x.isNaN
  · have hnonzero : magnitude x ≠ 0 := Nat.ne_of_gt (Nat.zero_lt_of_lt ((isNaN_iff x).mp hx))
    rw [if_pos hx]
    constructor
    · intro h
      by_cases hy : y.isNaN
      · exact .inl (eq_of_isNaN hx hy)
      · rw [if_neg hy] at h
        cases h
    · rintro (rfl | ⟨hzero, -⟩)
      · rw [if_pos hx]
      · exact absurd hzero hnonzero
  · rw [if_neg hx]
    by_cases hy : y.isNaN
    · have hnonzero : magnitude y ≠ 0 := Nat.ne_of_gt (Nat.zero_lt_of_lt ((isNaN_iff y).mp hy))
      rw [if_pos hy]
      refine iff_of_false nofun ?_
      rintro (rfl | ⟨-, hzero⟩)
      · exact hx hy
      · exact hnonzero hzero
    · rw [if_neg hy, Option.some.injEq, apply_eq_iff]
      constructor
      · rintro ⟨hunits, hsign | hzero⟩
        · exact .inl (eq_of_sign_of_magnitude hsign (magnitude_eq_of_units_eq hunits))
        · exact .inr ⟨(units_eq_zero_iff x).mp hzero, (units_eq_zero_iff y).mp (hunits ▸ hzero)⟩
      · rintro (rfl | ⟨hzero, hzero'⟩)
        · exact ⟨rfl, .inl rfl⟩
        · rw [← units_eq_zero_iff] at hzero hzero'
          exact ⟨hzero.trans hzero'.symm, .inr hzero⟩

end

end Binary64

namespace Number

theorem sameFloat_iff (x y : Float) : sameFloat x y = true ↔ number? x = number? y := by
  rw [sameFloat, Bool.or_eq_true, Bool.and_eq_true, beq_iff, number?_eq_iff]
  constructor
  · rintro ((⟨hsame, -⟩ | hzeros) | ⟨hx, hy⟩)
    · exact .inl hsame
    · exact .inr hzeros
    · exact .inl (eq_of_isNaN hx hy)
  · rintro (rfl | hzeros)
    · cases hnan : x.isNaN with
      | true => exact .inr ⟨rfl, rfl⟩
      | false => exact .inl (.inl ⟨rfl, rfl⟩)
    · exact .inl (.inr hzeros)

/-- What both parts stand for. -/
def parts (z : Number) : Option Int × Option Int :=
  (number? z.re, number? z.im)

theorem same_iff (z w : Number) : z.same w = true ↔ z.parts = w.parts := by
  rw [same, Bool.and_eq_true, sameFloat_iff, sameFloat_iff, parts, parts, Prod.mk.injEq]

end Number

/-! ## 2. What was bound last -/

/-- The number in the last binding of the name. -/
def lastBound? (bindings : List (String × Number)) (x : String) : Option Number :=
  (bindings.filter (·.1 = x)).getLast?.map (·.2)

theorem isSome_lastBound?_iff (bindings : List (String × Number)) (x : String) :
    (lastBound? bindings x).isSome = true ↔ x ∈ bindings.map (·.1) := by
  simp [lastBound?]

namespace Store

/-- A fresh store after the bindings, one after the other. -/
def ofBindings (bindings : List (String × Number)) : Store :=
  empty.insertAll bindings

theorem get?_ofBindings (bindings : List (String × Number)) (x : String) :
    (ofBindings bindings).get? x = lastBound? bindings x := by
  -- the induction is on the last binding, which is the first to be looked at
  induction bindings using List.reverseRecOn with
  | nil => rfl
  | append_singleton bindings b ih =>
    rw [ofBindings, insertAll_append]
    show ((ofBindings bindings).insert b.1 b.2).get? x = _
    rw [get?_insert, ih, lastBound?, lastBound?, List.filter_append]
    by_cases h : b.1 = x
    · simp [h]
    · simp [h]

theorem mem_names_iff {s : Store} {x : String} : x ∈ s.names ↔ s.contains x = true := by
  rw [contains, get?, Option.isSome_map, List.find?_isSome, names, List.mem_map]
  simp only [decide_eq_true_iff]

theorem size_eq_length {s : Store} {names : List String} (hnames : names.Nodup)
    (h : ∀ x, s.contains x = true ↔ x ∈ names) : s.size = names.length := by
  have hperm : s.names.Perm names :=
    (List.perm_ext_iff_of_nodup s.distinct hnames).mpr fun x => mem_names_iff.trans (h x)
  rw [← hperm.length_eq, Store.names, List.length_map, size]

theorem mem_entries_iff {s : Store} {x : String} {z : Number} : (x, z) ∈ s.entries ↔ s.get? x = some z := by
  rw [get?, Option.map_eq_some_iff]
  constructor
  · intro h
    obtain ⟨entry, hfind⟩ := Option.isSome_iff_exists.mp
      (List.find?_isSome.mpr ⟨(x, z), h, decide_eq_true_iff.mpr rfl⟩ : (s.entries.find? (·.1 = x)).isSome = true)
    have hname : entry.1 = x := by simpa using List.find?_some hfind
    -- no other entry has the name
    have hentry : entry = (x, z) := List.inj_on_of_nodup_map s.distinct (List.mem_of_find?_eq_some hfind) h hname
    exact ⟨entry, hfind, by rw [hentry]⟩
  · rintro ⟨⟨y, w⟩, hfind, rfl⟩
    obtain rfl : y = x := by simpa using List.find?_some hfind
    exact List.mem_of_find?_eq_some hfind

end Store

/-- The store knows of the bindings just the last one of each name. -/
structure HoldsLast (bindings : List (String × Number)) (s : Store) : Prop where
  get? : ∀ x, s.get? x = lastBound? bindings x
  contains : ∀ x, s.contains x = true ↔ ∃ z, s.get? x = some z
  bound : ∀ x, s.contains x = true ↔ x ∈ bindings.map (·.1)
  size : s.size = (bindings.map (·.1)).dedup.length
  isEmpty : s.isEmpty = true ↔ s.size = 0

theorem holdsLast_ofBindings (bindings : List (String × Number)) : HoldsLast bindings (.ofBindings bindings) := by
  have hbound : ∀ x, (Store.ofBindings bindings).contains x = true ↔ x ∈ bindings.map (·.1) := by
    intro x
    rw [Store.contains, Store.get?_ofBindings, isSome_lastBound?_iff]
  constructor
  · exact Store.get?_ofBindings bindings
  · exact fun x => Store.contains_iff
  · exact hbound
  · apply Store.size_eq_length (List.nodup_dedup _)
    intro x
    rw [hbound, List.mem_dedup]
  · rw [Store.isEmpty, Store.size, List.isEmpty_iff, List.length_eq_zero_iff]

/-! ## 3. Equality of stores -/

namespace Store
variable {s t u : Store}

theorem isSome_eq_of_parts_eq {a b : Option Number} (h : a.map Number.parts = b.map Number.parts) :
    a.isSome = b.isSome := by
  rw [← Option.isSome_map (f := Number.parts), h, Option.isSome_map]

theorem all_entries_iff (s t : Store) :
    (s.entries.all fun (x, z) => (t.get? x).any (z.same ·)) = true ↔
      ∀ x z, s.get? x = some z → ∃ w, t.get? x = some w ∧ z.parts = w.parts := by
  simp only [List.all_eq_true, Prod.forall, mem_entries_iff, Option.any_eq_true, Number.same_iff]

/-- Stores are the same if they bind the same names, and to the same numbers. -/
theorem same_iff (s t : Store) :
    s.same t = true ↔ ∀ x, (s.get? x).map Number.parts = (t.get? x).map Number.parts := by
  rw [same, Bool.and_eq_true, decide_eq_true_iff, all_entries_iff]
  constructor
  · rintro ⟨hsize, hentries⟩ x
    have hsubset : s.names ⊆ t.names := by
      intro y hy
      obtain ⟨z, hz⟩ := contains_iff.mp (mem_names_iff.mp hy)
      obtain ⟨w, hw, -⟩ := hentries y z hz
      exact mem_names_iff.mpr (contains_iff.mpr ⟨w, hw⟩)
    -- with as many names in both stores there is none in the second one alone
    have hle : t.names.length ≤ s.names.length := by
      rw [names, names, List.length_map, List.length_map]
      exact Nat.le_of_eq hsize.symm
    have hperm : s.names.Perm t.names := (List.subperm_of_subset s.distinct hsubset).perm_of_length_le hle
    cases hs : s.get? x with
    | some z =>
      obtain ⟨w, hw, hparts⟩ := hentries x z hs
      rw [hw, Option.map_some, Option.map_some, hparts]
    | none =>
      have hmissing : ¬ t.contains x = true := by
        rw [← mem_names_iff, ← hperm.mem_iff, mem_names_iff, contains, hs]
        exact Bool.false_ne_true
      rw [contains, Option.not_isSome_iff_eq_none] at hmissing
      rw [hmissing]
  · intro h
    refine ⟨?_, fun x z hz => ?_⟩
    · have hsize : s.size = t.names.length := size_eq_length t.distinct fun x => by
        rw [mem_names_iff, contains, contains, isSome_eq_of_parts_eq (h x)]
      rw [hsize, names, List.length_map, size]
    · have hx := h x
      rw [hz, Option.map_some] at hx
      obtain ⟨w, hw, hparts⟩ := Option.map_eq_some_iff.mp hx.symm
      exact ⟨w, hw, hparts.symm⟩

theorem same_equivalence : Equivalence fun s t : Store => s.same t = true where
  refl s := (same_iff s s).mpr fun _ => rfl
  symm h := (same_iff _ _).mpr fun x => ((same_iff _ _).mp h x).symm
  trans h h' := (same_iff _ _).mpr fun x => ((same_iff _ _).mp h x).trans ((same_iff _ _).mp h' x)

end Store

/-- The last bindings are of the same names, and each name has numbers with equal parts. -/
structure BindAlike (bindings others : List (String × Number)) : Prop where
  names : ∀ x, x ∈ bindings.map (·.1) ↔ x ∈ others.map (·.1)
  values : ∀ x z w, lastBound? bindings x = some z → lastBound? others x = some w →
    number? z.re = number? w.re ∧ number? z.im = number? w.im

theorem same_ofBindings_iff (bindings others : List (String × Number)) :
    (Store.ofBindings bindings).same (.ofBindings others) = true ↔ BindAlike bindings others := by
  rw [Store.same_iff]
  simp only [Store.get?_ofBindings]
  constructor
  · intro h
    constructor
    · intro x
      rw [← isSome_lastBound?_iff, ← isSome_lastBound?_iff, Store.isSome_eq_of_parts_eq (h x)]
    · intro x z w hz hw
      have hx := h x
      rw [hz, hw] at hx
      exact Prod.mk.inj (Option.some.inj hx)
  · rintro ⟨hnames, hvalues⟩ x
    have hbound := hnames x
    rw [← isSome_lastBound?_iff, ← isSome_lastBound?_iff] at hbound
    cases hz : lastBound? bindings x with
    | none =>
      rw [hz, Option.isSome_none] at hbound
      rw [Option.not_isSome_iff_eq_none.mp (mt hbound.mpr Bool.false_ne_true)]
    | some z =>
      rw [hz] at hbound
      obtain ⟨w, hw⟩ := Option.isSome_iff_exists.mp (hbound.mp rfl)
      obtain ⟨hre, him⟩ := hvalues x z w hz hw
      rw [hw, Option.map_some, Option.map_some, Number.parts, Number.parts, hre, him]

/-- A fresh store after some bindings holds the last one of each name.  Two of them are the same if they bind the same
names, and to numbers that are equal part by part.  So this is an equivalence, and it does not matter in which order or
how often names were bound before they were bound for the last time. -/
theorem stores_hold_last_bindings (bindings others : List (String × Number)) :
    HoldsLast bindings (.ofBindings bindings) ∧
      ((Store.ofBindings bindings).same (.ofBindings others) = true ↔ BindAlike bindings others) ∧
      (Equivalence fun s t : Store => s.same t = true) ∧
      ∀ rebound, (∀ x, lastBound? rebound x = lastBound? bindings x) →
        (Store.ofBindings rebound).same (.ofBindings others) = (Store.ofBindings bindings).same (.ofBindings others) := by
  refine ⟨holdsLast_ofBindings bindings, same_ofBindings_iff bindings others, Store.same_equivalence, ?_⟩
  intro rebound h
  rw [Bool.eq_iff_iff, Store.same_iff, Store.same_iff]
  simp only [Store.get?_ofBindings, h]

/-- The sign of a zero does not count, nor does what `x` was bound to at first. -/
example : (Store.ofBindings [("x", ⟨1.0, 0.0⟩), ("y", ⟨0.0, 2.0⟩), ("x", ⟨-0.0, Float.ofBits 0x7ff8000000000000⟩)]).same
    (.ofBindings [("x", ⟨0.0, Float.ofBits 0x7ff8000000000000⟩), ("y", ⟨0.0, 2.0⟩)]) = true := by decide +kernel

end ComplexCalc
