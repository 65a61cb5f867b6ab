import ComplexCalc.Error
import ComplexCalc.Text.Blank

/-!
From a text to its tokens: white space is removed first, and then the longest slice that spells a token is cut off
again and again.
-/

namespace ComplexCalc

namespace Token

/-- The longest slice at the front of a text that can spell a token, and what follows it. A character that starts no
token is a slice of its own. -/
def cut : List Char → List Char × List Char
  | [] => ([], [])
  | '*' :: '*' :: rest => (['*', '*'], rest)
  | c :: cs =>
    if c.isDigit then
      let run := c :: cs.takeWhile isNumberChar
      match cs.dropWhile isNumberChar with
      | 'i' :: rest => (run ++ ['i'], rest)
      | rest => (run, rest)
    else if c.isAlpha then (c :: cs.takeWhile Char.isAlphanum, cs.dropWhile Char.isAlphanum)
    else ([c], cs)

theorem cut_append (text : List Char) : (cut text).1 ++ (cut text).2 = text := by
  unfold cut
  split
  · rfl
  · rfl
  · split
    · dsimp only
      split
      · rename_i rest h
        simp only [List.cons_append, List.append_assoc, List.nil_append]
        rw [← h, List.takeWhile_append_dropWhile]
      · simp [List.takeWhile_append_dropWhile]
    · split <;> simp [List.takeWhile_append_dropWhile]

theorem cut_fst_ne_nil (c : Char) (cs : List Char) : (cut (c :: cs)).1 ≠ [] := by
  unfold cut
  split
  · contradiction
  · simp
  · split
    · dsimp only
      split <;> simp
    · split <;> simp

theorem length_cut_lt (c : Char) (cs : List Char) : (cut (c :: cs)).2.length < (c :: cs).length := by
  have whole := congrArg List.length (cut_append (c :: cs))
  have some_cut := List.length_pos_iff.2 (cut_fst_ne_nil c cs)
  rw [List.length_append] at whole
  omega

/-- The tokens of a text without white space that starts at the given byte offset. Slices before the first error are
ASCII, so their characters count as bytes. -/
def scan (position : Nat) (text : List Char) : Except SyntaxError (List Lexeme) :=
  match text with
  | [] => .ok []
  | c :: cs =>
    match ofSpelling? (cut (c :: cs)).1 with
    | none => .error (.invalidCharacter c position)
    | some token => do
      let following ← scan (position + (cut (c :: cs)).1.length) (cut (c :: cs)).2
      return ⟨token, position⟩ :: following
termination_by text.length
decreasing_by exact length_cut_lt c cs

end Token

/-- The tokens of a source text with their positions. -/
def tokenize (source : String) : Except SyntaxError (List Lexeme) :=
  Token.scan 0 (Text.strip source)

end ComplexCalc
