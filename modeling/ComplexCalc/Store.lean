import ComplexCalc.Number

/-!
Bindings of names to numbers: a finite map in which the last insertion of a name counts.
-/

namespace ComplexCalc

/-- Names with their values, the latest first, each name once. -/
structure Store where
  entries : List (String × Number)
  distinct : (entries.map (·.1)).Nodup

namespace Store

def empty : Store :=
  ⟨[], List.nodup_nil⟩

def get? (s : Store) (x : String) : Option Number :=
  (s.entries.find? (·.1 = x)).map (·.2)

def contains (s : Store) (x : String) : Bool :=
  (s.get? x).isSome

def names (s : Store) : List String :=
  s.entries.map (·.1)

def size (s : Store) : Nat :=
  s.entries.length

def isEmpty (s : Store) : Bool :=
  s.entries.isEmpty

/-- Binds a name, in place of what it was bound to before. -/
def insert (s : Store) (x : String) (z : Number) : Store where
  entries := (x, z) :: s.entries.filter (·.1 ≠ x)
  distinct := by
    rw [List.map_cons, List.nodup_cons]
    refine ⟨?_, s.distinct.sublist (List.filter_sublist.map _)⟩
    simp

/-- Whether two stores bind the same names to the same numbers, in whatever order they were bound. -/
def same (s t : Store) : Bool :=
  s.size = t.size && s.entries.all fun (x, z) => (t.get? x).any (z.same ·)

@[simp] theorem get?_empty (x : String) : empty.get? x = none := rfl

@[simp] theorem get?_insert (s : Store) (x y : String) (z : Number) :
    (s.insert x z).get? y = if x = y then some z else s.get? y := by
  by_cases h : x = y
  · simp [get?, insert, h]
  · have kept : ∀ e : String × Number, (!decide (e.1 = x) && decide (e.1 = y)) = decide (e.1 = y) := by
      intro e
      by_cases he : e.1 = y
      · simp [he, Ne.symm h]
      · simp [he]
    simp [get?, insert, h, List.find?_filter, kept]

end Store

end ComplexCalc
