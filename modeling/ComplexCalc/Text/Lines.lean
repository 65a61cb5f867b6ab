/-!
Lines of a text or of a byte stream: each ends at a line feed, and a carriage return in front of it belongs to the
line end.
-/

namespace ComplexCalc.Text

/-- A line without the carriage return at its end. -/
def dropReturn [DecidableEq α] (carriageReturn : α) (line : List α) : List α :=
  if line.getLast? = some carriageReturn then line.dropLast else line

theorem length_lt_of_dropWhile {p : α → Bool} {text rest : List α} {c : α}
    (h : text.dropWhile p = c :: rest) : rest.length < text.length := by
  have shorter := (List.dropWhile_suffix p (l := text)).length_le
  rw [h, List.length_cons] at shorter
  omega

/-- The lines of `text`. What follows the last line feed is a line only if it is not empty, and keeps its carriage
return. -/
def lines [DecidableEq α] (lineFeed carriageReturn : α) (text : List α) : List (List α) :=
  match _ : text.dropWhile (· ≠ lineFeed) with
  | [] => if text.isEmpty then [] else [text]
  | _ :: rest =>
    dropReturn carriageReturn (text.takeWhile (· ≠ lineFeed)) :: lines lineFeed carriageReturn rest
termination_by text.length
decreasing_by exact length_lt_of_dropWhile (by assumption)

end ComplexCalc.Text
