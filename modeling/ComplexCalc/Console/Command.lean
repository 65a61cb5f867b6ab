/-!
The command line: the arguments of a run, read from left to right into the command they ask for.
-/

namespace ComplexCalc.Console

/-- What a run does. -/
inductive Command where
  | version
  | help
  | compare (left right : String)
  /-- Evaluates each line of the file at `path`. -/
  | file (path : String) (drawn : Bool)
  | expression (source : String) (drawn : Bool)
  /-- Evaluates the lines of the standard input. -/
  | session (drawn : Bool)
deriving DecidableEq, Repr

/-- What the arguments so far have set. -/
structure Options where
  tree : Bool := false
  file : Bool := false
  pair : Option (String × String) := none
  expression : Option String := none
deriving DecidableEq, Repr

/-- How reading goes on after one argument. -/
inductive Step where
  | next (o : Options)
  /-- The two texts to be compared follow. -/
  | operands (o : Options)
  | done (c : Command)

namespace Options

/-- A switch can be set once. -/
def setTree (o : Options) : Option Options :=
  if o.tree then none else some { o with tree := true }

def setFile (o : Options) : Option Options :=
  if o.file then none else some { o with file := true }

/-- There is place for one expression. -/
def setExpression (o : Options) (source : String) : Option Options :=
  if o.expression.isSome then none else some { o with expression := some source }

/-- Of several pairs to compare, the first counts. -/
def setPair (o : Options) (left right : String) : Options :=
  { o with pair := o.pair.or (some (left, right)) }

/-- Switches joined behind one dash. -/
def readSwitches (o : Options) : List Char → Option Step
  | [] => some (.next o)
  | ['c'] => some (.operands o)
  | 't' :: cs => do readSwitches (← o.setTree) cs
  | 'f' :: cs => do readSwitches (← o.setFile) cs
  | 'V' :: _ => some (.done .version)
  | 'h' :: _ => some (.done .help)
  | _ => none

/-- An option by its long name. -/
def readLong (o : Options) : String → Option Step
  | "tree" => o.setTree.map .next
  | "file" => o.setFile.map .next
  | "compare" => some (.operands o)
  | "version" => some (.done .version)
  | "help" => some (.done .help)
  | _ => none

def readArgument (o : Options) (argument : String) : Option Step :=
  match argument.toList with
  | '-' :: '-' :: name => o.readLong (String.ofList name)
  | ['-'] => (o.setExpression argument).map .next
  | '-' :: switches => o.readSwitches switches
  | _ => (o.setExpression argument).map .next

/-- The command of a finished list of options: a pair excludes an expression, and a file needs one, which is its
path. -/
def command? (o : Options) : Option Command :=
  match o.pair, o.expression with
  | some (left, right), none => some (.compare left right)
  | some _, some _ => none
  | none, some path => some (if o.file then .file path o.tree else .expression path o.tree)
  | none, none => if o.file then none else some (.session o.tree)

end Options

/-- Whether an argument can stand where a value is due. A lone dash is a value. -/
def isValue (argument : String) : Bool :=
  match argument.toList with
  | '-' :: _ :: _ => false
  | _ => true

namespace Command

/-- Reads the arguments that follow those behind `o`; there is no command if they are refused. -/
def readFrom (o : Options) : List String → Option Command
  | [] => o.command?
  | "--" :: rest => do (← rest.foldlM Options.setExpression o).command?
  | argument :: rest =>
    match o.readArgument argument with
    | none => none
    | some (.done c) => some c
    | some (.next o) => readFrom o rest
    | some (.operands o) =>
      match rest with
      | left :: right :: rest =>
        if isValue left && isValue right then readFrom (o.setPair left right) rest else none
      | _ => none

def ofArguments? (arguments : List String) : Option Command :=
  readFrom {} arguments

end Command

end ComplexCalc.Console
