import ComplexCalc.Text.Printable

/-!
Texts in double quotes, as log records show them.
-/

namespace ComplexCalc.Text

/-- How one character is written between the quotes: quotes and backslashes are escaped, and so is everything that is
not printable, by its code point where it has no letter of its own. -/
def quotedChar (c : Char) : List Char :=
  match c with
  | '"' => ['\\', '"']
  | '\\' => ['\\', '\\']
  | '\n' => ['\\', 'n']
  | '\r' => ['\\', 'r']
  | '\t' => ['\\', 't']
  | '\x00' => ['\\', '0']
  | c => if isPrintable c then [c] else ['\\', 'u', '\x7b'] ++ Nat.toDigits 16 c.toNat ++ ['\x7d']

def quoted (cs : List Char) : String :=
  String.ofList ('"' :: cs.flatMap quotedChar ++ ['"'])

/-- The quoted texts between braces, with commas between them. -/
def quotedSet (names : List String) : String :=
  "\x7b" ++ ", ".intercalate (names.map fun x => quoted x.toList) ++ "\x7d"

theorem isPrintable_of_mem_toDigits {n : Nat} {c : Char} (h : c ∈ Nat.toDigits 16 n) : isPrintable c = true := by
  have hdigit : ∀ d < 16, isPrintable d.digitChar = true := by decide
  induction n using Nat.strongRecOn with
  | ind n ih =>
    rw [Nat.toDigits_eq_if (by decide)] at h
    split at h
    · rw [List.mem_singleton.mp h]
      exact hdigit n (by assumption)
    · rcases List.mem_append.mp h with hbefore | hlast
      · exact ih (n / 16) (by omega) hbefore
      · rw [List.mem_singleton.mp hlast]
        exact hdigit _ (Nat.mod_lt _ (by decide))

theorem isPrintable_of_mem_quotedChar {c d : Char} (h : d ∈ quotedChar c) : isPrintable d = true := by
  unfold quotedChar at h
  split at h
  case h_7 =>
    split at h
    · rwa [List.mem_singleton.mp h]
    · -- the digits stand between signs that are printable
      have hsigns : ∀ d ∈ ['\\', 'u', '\x7b', '\x7d'], isPrintable d = true := List.all_eq_true.mp (by decide)
      rcases List.mem_append.mp h with h | h
      · rcases List.mem_append.mp h with h | h
        · exact hsigns d (List.mem_append_left ['\x7d'] h)
        · exact isPrintable_of_mem_toDigits h
      · exact hsigns d (List.mem_append_right ['\\', 'u', '\x7b'] h)
  -- the other characters have an escape of their own
  all_goals exact List.all_eq_true.mp (by decide) _ h

/-- A quoted text is printable from end to end. -/
theorem isPrintable_of_mem_quoted {cs : List Char} {c : Char} (h : c ∈ (quoted cs).toList) : isPrintable c = true := by
  rw [quoted, String.toList_ofList, List.mem_append, List.mem_cons, List.mem_flatMap, List.mem_singleton] at h
  rcases h with (rfl | ⟨d, -, hd⟩) | rfl
  · decide
  · exact isPrintable_of_mem_quotedChar hd
  · decide

/-- A quoted text stays on its line, whatever white space the text holds. -/
theorem eq_space_of_mem_quoted {cs : List Char} {c : Char} (h : c ∈ (quoted cs).toList) (hblank : isBlankChar c) :
    c = ' ' := by
  by_cases hc : c = ' '
  · exact hc
  · have hshown := isPrintable_of_mem_quoted h
    rw [isPrintable_eq_false_of_isBlankChar hblank hc] at hshown
    cases hshown

example : quoted "1\u00a0+\t'1'".toList = "\"1\\u\x7ba0\x7d+\\t'1'\"" := by decide

end ComplexCalc.Text
