import ComplexCalc.Comparison
import ComplexCalc.Console.Command
import ComplexCalc.Console.Input
import ComplexCalc.Expr.Drawing

/-!
Runs of the console as functions from their input to what they write. Results go to the standard output; notices,
errors and log lines go to the standard error.
-/

namespace ComplexCalc.Console

/-- One piece of output. -/
inductive Write where
  | out (text : String)
  | err (text : String)
deriving DecidableEq, Repr

namespace Write

def outText : Write → String
  | .out text => text
  | .err _ => ""

def errText : Write → String
  | .out _ => ""
  | .err text => text

/-- A notice on a line of its own. -/
def notice (n : Notice) : Write :=
  .err (n.line ++ "\n")

/-- A failure on a line of its own. -/
def failure (message : String) : Write :=
  notice { text := message, isError := true }

end Write

/-- All that goes to the standard output. -/
def output (ws : List Write) : String :=
  String.join (ws.map Write.outText)

/-- All that goes to the standard error. -/
def errors (ws : List Write) : String :=
  String.join (ws.map Write.errText)

/-- How much of its log the console shows. -/
inductive Verbosity where
  | off
  | warn
  | info
  | debug
  | trace
deriving DecidableEq, Repr

namespace Verbosity

/-- A verbosity by its name. No record is an error, so `error` shows as little as `off`. -/
def ofName (name : String) : Verbosity :=
  match name.toLower with
  | "warn" => .warn
  | "info" => .info
  | "debug" => .debug
  | "trace" => .trace
  | _ => .off

/-- The levels of the records that are shown. -/
def levels : Verbosity → List LogLevel
  | .off => []
  | .warn => [.warn]
  | .info => [.warn, .info]
  | .debug => [.warn, .info, .debug]
  | .trace => [.warn, .info, .debug, .trace]

end Verbosity

/-- What does not change during a run. -/
structure Settings where
  verbosity : Verbosity := .off
  /-- Whether the tree of each evaluated expression is drawn. -/
  drawn : Bool := false
deriving DecidableEq, Repr

/-- A record on a line of its own, if its level is shown. -/
def writeOfRecord? (s : Settings) (r : LogRecord) : Option Write :=
  if r.level ∈ s.verbosity.levels then some (.err (r.line ++ "\n")) else none

/-- The record of an event in the log of the console, which asks for the replies and notes what it cannot read. -/
def recordOfEvent? : Event → Option LogRecord
  | .unreadable x =>
    some ⟨.warn, .root, s!"could not read a value for {x}: stream did not contain valid UTF-8"⟩
  | event => event.record?

/-- What is written for an event: its notice, or else its record. -/
def writeOfEvent? (s : Settings) (event : Event) : Option Write :=
  match event.notice? with
  | some n => some (.notice n)
  | none => (recordOfEvent? event).bind (writeOfRecord? s)

/-- No event has both a notice and a record, so neither hides the other. -/
theorem writeOfEvent?_cases (s : Settings) (event : Event) :
    (∀ n, event.notice? = some n → writeOfEvent? s event = some (.notice n)) ∧
      ∀ r, event.record? = some r → writeOfEvent? s event = writeOfRecord? s r := by
  constructor
  · intro n hnotice
    rw [writeOfEvent?, hnotice]
  · intro r hrecord
    cases event with
    | started | unreadable | bound => cases hrecord
    | tokenized | parsed | reused | requested | evaluated =>
      cases hrecord
      rfl

/-- What is noted about the variables of an expression that has a value. -/
def usedRecord (names : List String) : LogRecord :=
  ⟨.info, .root, s!"variables used: {Text.quotedSet names}"⟩

/-- What is written for a value. -/
def writesOfValue (s : Settings) (z : Number) (e : Expr) : List Write :=
  let names := e.variableNames
  (if names = [] then [] else (writeOfRecord? s (usedRecord names)).toList) ++
  (if s.drawn then [.out e.drawing] else []) ++ [.out (z.text ++ "\n")]

/-- The output of one evaluation with the given lines for its prompts, and how many of them it has used. -/
def runExpression (s : Settings) (source : String) (input : List Reply) : List Write × Nat :=
  let (result, c) := evaluate source input
  let ending := match result with
    | .ok (z, e) => writesOfValue s z e
    | .error e => [.failure e.message]
  (c.transcript.filterMap (writeOfEvent? s) ++ ending, c.script.requested.length)

def runComparison (s : Settings) (left right : String) : List Write :=
  let ending := match compareSources left right with
    | .ok verdict => .out (verdict.text ++ "\n")
    | .error e => .failure s!"Comparison failed: {e.message}"
  (comparisonEvents left right).filterMap (writeOfEvent? s) ++ [ending]

/-- Evaluates expressions in order; each starts at the first line that those before it have left. -/
def runLines (s : Settings) : List String → List Reply → List Write
  | [], _ => []
  | source :: rest, input =>
    let (writes, used) := runExpression s source input
    writes ++ runLines s rest (input.drop used)

/-- A comparison in a session: it takes two lines, and does nothing unless both hold a text that is not blank. -/
def runOperands (s : Settings) (input : List Reply) : List Write :=
  match input with
  | .text left :: .text right :: _ =>
    if Text.isBlank left || Text.isBlank right then [] else runComparison s left right
  | _ => []

/-- A session over the lines of its input, which also answer its prompts. -/
def runSession (s : Settings) : List Reply → List Write
  | [] => []
  | .cancelled :: _ => []
  | .unreadable :: _ => [.err "Error: stream did not contain valid UTF-8\n"]
  | .text line :: rest =>
    match Text.trim line with
    | "" => runSession s rest
    | ":quit" => []
    | ":q" => []
    | ":clear" => runSession s rest
    | ":compare" => runOperands s rest ++ runSession s (rest.drop 2)
    | source =>
      let ran := runExpression s source rest
      ran.1 ++ runSession s (rest.drop ran.2)
termination_by input => input.length
decreasing_by all_goals simp only [List.length_cons, List.length_drop]; omega

def banner : Write :=
  .out "Type an expression, :compare, :clear or :quit.\n"

def usage : String :=
  "Usage: cplx [-t] [EXPRESSION]\n       cplx [-t] -f FILE\n       cplx -c LEFT RIGHT\n       cplx -V | -h\n"

/-- What surrounds a run. -/
structure Surroundings where
  verbosity : Verbosity
  /-- The text of a file, if it can be read. -/
  file : String → Option String
  input : List Reply

structure Outcome where
  exit : Nat
  writes : List Write
deriving DecidableEq, Repr

/-- Whether a text asks for the value of a variable when it is evaluated. -/
def asksFor (source : String) : Bool :=
  !(evaluate source []).2.script.requested.isEmpty

/-- Whether a command looks at its input at all. -/
def readsInput (file : String → Option String) : Command → Bool
  | .file path _ => (file path).any fun text => (expressionLines text).any asksFor
  | .expression source _ => asksFor source
  | .session _ => true
  | _ => false

/-- Carries out a command. -/
def runCommand (w : Surroundings) : Command → Outcome
  | .version => ⟨0, [.out "cplx 0.1.0\n"]⟩
  | .help => ⟨0, [.out usage]⟩
  | .compare left right => ⟨0, runComparison ⟨w.verbosity, false⟩ left right⟩
  | .file path drawn =>
    match w.file path with
    | some text => ⟨0, runLines ⟨w.verbosity, drawn⟩ (expressionLines text) w.input⟩
    | none =>
      ⟨1, [.err s!"Failed to read the input file '{path}'. Perhaps this file does not exist?\n"]⟩
  | .expression source drawn => ⟨0, (runExpression ⟨w.verbosity, drawn⟩ source w.input).1⟩
  | .session drawn => ⟨0, banner :: runSession ⟨w.verbosity, drawn⟩ w.input⟩

/-- A whole run. Arguments that ask for no command are refused. -/
def run (w : Surroundings) (arguments : List String) : Outcome :=
  match Command.ofArguments? arguments with
  | some command => runCommand w command
  | none => ⟨2, [.err usage]⟩

end ComplexCalc.Console
