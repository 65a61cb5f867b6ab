import ComplexCalc.Token

/-!
What can go wrong with a text as an expression and with its evaluation, as causes, and the wording of each.
-/

namespace ComplexCalc

/-- Why a text is no expression. Positions are byte offsets into the text without white space. -/
inductive SyntaxError where
  /-- The character starts no token. -/
  | invalidCharacter (c : Char) (position : Nat)
  /-- The token stands where an operand is due. -/
  | unexpected (token : Token) (position : Nat)
  /-- The token stands where the parenthesis after a built-in function is due. -/
  | noArgument (token : Token) (callee : Builtin) (position : Nat)
  /-- The text ends where an operand or the parenthesis after a function is due. -/
  | unexpectedEnd
  /-- The parenthesis at the position is not closed where its contents end. -/
  | unclosed (position : Nat)
  /-- The token follows a complete expression. -/
  | trailing (token : Token) (position : Nat)
  /-- The token needs one more level than there are. -/
  | tooDeep (position : Nat)
deriving DecidableEq

namespace SyntaxError

/-- A token together with what was due in its place. -/
def withoutArgument (token : Token) (callee : Builtin) : String :=
  s!"{token.text} (expected '(' after {callee.name})"

def message : SyntaxError → String
  | .invalidCharacter c position => s!"Error at {position}: Invalid character '{c}'."
  | .unexpected token position => s!"Error at {position}: Unexpected token: {token.text}."
  | .noArgument token callee position =>
    s!"Error at {position}: Unexpected token: {withoutArgument token callee}."
  | .unexpectedEnd => "Unexpected end of expression."
  | .unclosed position => s!"Error at {position}: Parenthesis opened here is never closed."
  | .trailing token position =>
    s!"Error at {position}: Incomplete expression, extra tokens starting at: {token.text}"
  | .tooDeep position => s!"Error at {position}: Expression is nested too deeply."

/-- The position an error points at, if it points at one. -/
def position? : SyntaxError → Option Nat
  | .invalidCharacter _ position => some position
  | .unexpected _ position => some position
  | .noArgument _ _ position => some position
  | .unexpectedEnd => none
  | .unclosed position => some position
  | .trailing _ position => some position
  | .tooDeep position => some position

end SyntaxError

/-- Why an expression has no value. -/
inductive Error where
  /-- The text is no expression. -/
  | malformed (cause : SyntaxError)
  | divisionByZero
  /-- The prompt for the variable got no text. -/
  | cancelled (x : String)
  /-- The prompt for the variable got nothing but white space. -/
  | blank (x : String)
  /-- The text typed for the variable has no value itself. -/
  | invalid (x : String) (cause : Error)
deriving DecidableEq

namespace Error

def message : Error → String
  | .malformed cause => cause.message
  | .divisionByZero => "Math error: Division by zero."
  | .cancelled x => s!"Evaluation cancelled while asking for '{x}'."
  | .blank x => s!"Empty value for variable '{x}'."
  | .invalid x cause => s!"Invalid value typed for '{x}': {cause.message}"

/-- Whether the text itself could not be cut into tokens. What is wrong with a typed value does not count. -/
def isLexical : Error → Bool
  | .malformed (.invalidCharacter _ _) => true
  | _ => false

/-- An error and what it wraps, from the outermost to the innermost. -/
def chain : Error → List Error
  | .invalid x cause => .invalid x cause :: cause.chain
  | e => [e]

/-- The messages of the wrapped errors, from the outside in. -/
def sources (e : Error) : List String :=
  e.chain.tail.map message

/-- The last error of the chain. -/
def root : Error → Error
  | .invalid _ cause => cause.root
  | e => e

end Error

end ComplexCalc
