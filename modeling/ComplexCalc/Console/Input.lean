import ComplexCalc.Script
import ComplexCalc.Text.Blank
import ComplexCalc.Text.Lines

/-!
Input of the console: the lines of a byte stream, each a text if it is UTF-8, and the lines of a file.
-/

namespace ComplexCalc.Console

/-- One line of bytes as a reply. -/
def replyOfBytes (line : List UInt8) : Reply :=
  match String.fromUTF8? ⟨line.toArray⟩ with
  | some typed => .text typed
  | none => .unreadable

/-- The lines of the standard input. What stands behind the last line feed keeps its carriage return. -/
def replies (bytes : List UInt8) : List Reply :=
  (Text.lines 0x0A 0x0D bytes).map replyOfBytes

/-- The lines of a file that are not blank. -/
def expressionLines (text : String) : List String :=
  ((Text.lines '\n' '\r' text.toList).map String.ofList).filter fun line => !Text.isBlank line

end ComplexCalc.Console
