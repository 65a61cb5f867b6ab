import ComplexCalc.Expr.Basic
import ComplexCalc.Text.Quoted

/-!
What happens during an evaluation, event by event, and the two views of it: notices for the user and records for the
log.
-/

namespace ComplexCalc

inductive Event where
  /-- The evaluation of a source text begins. -/
  | started (source : String)
  /-- A text, here without white space, was cut into so many tokens. -/
  | tokenized (stripped : List Char) (count : Nat)
  | parsed (source : String) (e : Expr)
  /-- A variable that has a value already was used again. -/
  | reused (x : String) (z : Number)
  | requested (x : String)
  /-- The reply to a request could not be read. -/
  | unreadable (x : String)
  | bound (x : String) (z : Number)
  /-- The evaluation ended with a value and so many bound variables. -/
  | evaluated (source : String) (z : Number) (count : Nat)
deriving DecidableEq

/-- A message to the user. -/
structure Notice where
  text : String
  isError : Bool := false
deriving DecidableEq, Repr

/-- The line in which a notice is shown. -/
def Notice.line (n : Notice) : String :=
  if n.isError then "> ERROR: " ++ n.text else "> " ++ n.text

inductive LogLevel where
  | warn
  | info
  | debug
  | trace
deriving DecidableEq, Repr

def LogLevel.name : LogLevel → String
  | .warn => "WARN"
  | .info => "INFO"
  | .debug => "DEBUG"
  | .trace => "TRACE"

/-- The part of the program that notes a record. -/
inductive LogOrigin where
  | root
  | lexer
  | variables
deriving DecidableEq, Repr

def LogOrigin.path : LogOrigin → String
  | .root => "cplx"
  | .lexer => "cplx::interpreter::lexer"
  | .variables => "cplx::interpreter::evaluator::variable"

structure LogRecord where
  level : LogLevel
  origin : LogOrigin
  text : String
deriving DecidableEq, Repr

/-- The line in which a record is shown. -/
def LogRecord.line (r : LogRecord) : String :=
  "[" ++ r.level.name.pushn ' ' (5 - r.level.name.length) ++ " " ++ r.origin.path ++ "] " ++ r.text

namespace Event

/-- The notice that an event gives to the user. None of them is an error. -/
def notice? : Event → Option Notice
  | .started source => some { text := s!"starting parse: {source}" }
  | .bound x z => some { text := s!"variable bound: {x} = {z.text}" }
  | _ => none

/-- The log record of an event. -/
def record? : Event → Option LogRecord
  | .tokenized stripped count =>
    some ⟨.trace, .lexer, s!"tokenized {Text.quoted stripped} into {count} tokens"⟩
  | .parsed source e => some ⟨.debug, .root, s!"parsed {Text.quoted source.toList} as {e.text}"⟩
  | .reused x z => some ⟨.debug, .variables, s!"variable {x} already bound to {z.text}"⟩
  | .requested x => some ⟨.debug, .variables, s!"requesting a value for {x}"⟩
  | .evaluated source z count =>
    some ⟨.debug, .root, s!"evaluated {Text.quoted source.toList} to {z.text} with {count} variable(s) bound"⟩
  | _ => none

end Event

def notices (events : List Event) : List Notice :=
  events.filterMap Event.notice?

def logRecords (events : List Event) : List LogRecord :=
  events.filterMap Event.record?

end ComplexCalc
