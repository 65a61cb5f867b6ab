import ComplexCalc.Expr.Parser
import ComplexCalc.Script
import ComplexCalc.Store
import ComplexCalc.Transcript

/-!
Values of expressions. One traversal, from left to right, serves both the value under a given assignment and the
evaluation in a context, where a variable without a value is asked for and what is typed is an expression with
variables of its own.
-/

namespace ComplexCalc

/-- The value that every variable has when expressions are compared. -/
def Number.sentinel : Number := ⟨1.0, 1.0⟩

namespace Expr

/-- Evaluates operands before operations and left before right, with the given meaning of variables. -/
def evalM {m : Type → Type} [Monad m] [MonadExceptOf Error m] (lookup : String → m Number) :
    Expr → m Number
  | .lit z => pure z
  | .var x => lookup x
  | .binary op left right => do
    let a ← left.evalM lookup
    let b ← right.evalM lookup
    match op.result? a b with
    | some z => pure z
    | none => throw .divisionByZero
  | .call f argument => do
    let a ← argument.evalM lookup
    pure (f.result a)

/-- The value when each variable has the number that `env` assigns to it. -/
def value (env : String → Number) (e : Expr) : Except Error Number :=
  e.evalM fun x => .ok (env x)

end Expr

/-- How a variable gets its value. -/
inductive Mode where
  /-- Every variable is the sentinel. -/
  | comparison
  /-- A variable that is not bound is asked for. -/
  | interactive
deriving DecidableEq, Repr

/-- All that an evaluation reads and changes. -/
structure Context where
  mode : Mode
  store : Store
  script : Script
  transcript : List Event

namespace Context

def interactive (replies : List Reply) : Context :=
  ⟨.interactive, .empty, .ofReplies replies, []⟩

def comparison : Context :=
  ⟨.comparison, .empty, .ofReplies [], []⟩

end Context

/-- A computation in a context. What it did before a failure stays done. -/
abbrev Evaluation := ExceptT Error (StateM Context)

namespace Evaluation

def record (event : Event) : Evaluation Unit := fun c =>
  (.ok (), { c with transcript := c.transcript ++ [event] })

def ofExcept (r : Except SyntaxError α) : Evaluation α := fun c =>
  (r.mapError .malformed, c)

/-- Takes the next reply for a variable. -/
def nextReply (x : String) : Evaluation Reply := fun c =>
  let (reply, script) := c.script.request x
  (.ok reply, { c with script })

/-- Asks for the text of a variable. -/
def request (x : String) : Evaluation String := do
  record (.requested x)
  match ← nextReply x with
  | .text typed => return typed
  | .cancelled => throw (.cancelled x)
  | .unreadable => do
    record (.unreadable x)
    throw (.cancelled x)

def insert (x : String) (z : Number) : Evaluation Unit := fun c =>
  (.ok (), { c with store := c.store.insert x z })

/-- Runs `act` with no variable bound, and afterwards has the bindings from before again. -/
def isolated (act : Evaluation α) : Evaluation α := fun c =>
  let (result, after) := act { c with store := .empty }
  (result, { after with store := c.store })

/-- Reads a source text as an expression. -/
def parse (source : String) : Evaluation Expr := do
  let ts ← ofExcept (tokenize source)
  record (.tokenized (Text.strip source) ts.length)
  let e ← ofExcept (Expr.ofLexemes ts)
  record (.parsed source e)
  return e

/-- The value of a variable: the sentinel in a comparison, the number it is bound to, or else the number that
`typedValue` makes of the text that is typed for it, to which it is bound from then on. -/
def resolveWith (typedValue : String → String → Evaluation Number) (x : String) : Evaluation Number := do
  let c ← get
  match c.mode, c.store.get? x with
  | .comparison, _ => return .sentinel
  | .interactive, some z => do
    record (.reused x z)
    return z
  | .interactive, none => do
    let typed ← request x
    if Text.isBlank typed then throw (.blank x)
    else do
      let z ← typedValue x typed
      insert x z
      record (.bound x z)
      return z

/-- The value of a variable, for which the typed text is evaluated with no variable bound.

At most `depth` prompts are open at once. Each has taken a reply before the next one opens, so as many as there are
replies are enough, and at depth zero no reply is left. -/
def resolve : Nat → String → Evaluation Number
  | 0 => resolveWith fun x _ => throw (.cancelled x)
  | depth + 1 => resolveWith fun x typed =>
    ExceptT.adapt (.invalid x) (isolated (parse typed >>= Expr.evalM (resolve depth)))

end Evaluation

/-- Evaluates an expression in a context. -/
def Context.eval (e : Expr) (c : Context) : Except Error Number × Context :=
  e.evalM (Evaluation.resolve c.script.replies.length) c

/-- Evaluates a source text in a context of its own, with replies for the variables it needs. -/
def evaluate (source : String) (replies : List Reply) : Except Error (Number × Expr) × Context :=
  let act : Evaluation (Number × Expr) := do
    Evaluation.record (.started source)
    let e ← Evaluation.parse source
    let z ← e.evalM (Evaluation.resolve replies.length)
    let c ← get
    Evaluation.record (.evaluated source z c.store.size)
    return (z, e)
  act (.interactive replies)

end ComplexCalc
