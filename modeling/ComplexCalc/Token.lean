import ComplexCalc.Operation

/-!
Tokens of expressions, how each is spelled in a source text, and how it is shown in messages.
-/

namespace ComplexCalc

inductive Token where
  | real (value : Float)
  | imaginary (value : Float)
  | builtin (f : Builtin)
  | name (x : String)
  | operator (op : Operator)
  | opening
  | closing
deriving DecidableEq

/-- A token and the byte offset at which it starts in the text without white space. -/
structure Lexeme where
  token : Token
  position : Nat
deriving DecidableEq

namespace Token

def text : Token → String
  | .real value => Binary64.text value
  | .imaginary value => Binary64.text value ++ "i"
  | .builtin f => f.name
  | .name x => x
  | .operator op => "'" ++ op.symbol ++ "'"
  | .opening => "'('"
  | .closing => "')'"

def operator? : Token → Option Operator
  | .operator op => some op
  | _ => none

/-! ## Spelling -/

/-- The characters a number may go on with after its first digit. -/
def isNumberChar (c : Char) : Bool :=
  c.isDigit || c = '.'

/-- The word for the imaginary unit, for a built-in function, or else a name. -/
def ofWord (word : String) : Token :=
  if word = "i" then .imaginary 1.0
  else match Builtin.ofName? word with
    | some f => .builtin f
    | none => .name word

/-- A number that starts with a digit: a run of digits and points, with `i` behind it if it is imaginary. -/
def ofNumber? (slice : List Char) : Option Token :=
  let number := Decimal.ofRun? (slice.takeWhile isNumberChar)
  match slice.dropWhile isNumberChar with
  | [] => number.map fun d => .real d.toFloat
  | ['i'] => number.map fun d => .imaginary d.toFloat
  | _ => none

/-- The token that a whole slice of text spells, if it spells one. -/
def ofSpelling? : List Char → Option Token
  | ['+'] => some (.operator .add)
  | ['-'] => some (.operator .sub)
  | ['*'] => some (.operator .mul)
  | ['/'] => some (.operator .div)
  | ['*', '*'] => some (.operator .pow)
  | ['('] => some .opening
  | [')'] => some .closing
  | [] => none
  | c :: cs =>
    if c.isDigit then ofNumber? (c :: cs)
    else if c.isAlpha ∧ cs.all Char.isAlphanum then some (ofWord (String.ofList (c :: cs)))
    else none

end Token

end ComplexCalc
