import ComplexCalc.Proofs.SessionInput

/-!
# FileLines — a file is run as its lines, one after the other

An evaluation takes a line of the input for each of its requests, and what stands behind these lines is left for the
evaluations that follow (section 1).  Nothing else is handed on from one line of a file to the next, whatever comes of
it, so running the file writes what the runs with its lines as expressions write (section 2).
-/

namespace ComplexCalc

/-! ## 1. What is left of the input -/

namespace Text

/-- What stands behind so many lines. -/
def behindLines {α : Type} [DecidableEq α] (lineFeed : α) : Nat → List α → List α
  | 0, text => text
  | n + 1, text => behindLines lineFeed n (text.dropWhile (· ≠ lineFeed)).tail

section
variable {α : Type} [DecidableEq α] {lineFeed carriageReturn : α}

theorem lines_behindLine (text : List α) :
    lines lineFeed carriageReturn (text.dropWhile (· ≠ lineFeed)).tail = (lines lineFeed carriageReturn text).tail := by
  conv => rhs; rw [lines]
  split
  · rename_i hnil
    rw [hnil, List.tail_nil, lines_nil]
    split <;> rfl
  · rename_i hcons
    rw [hcons]
    rfl

theorem lines_behindLines (n : Nat) (text : List α) :
    lines lineFeed carriageReturn (behindLines lineFeed n text) = (lines lineFeed carriageReturn text).drop n := by
  induction n generalizing text with
  | zero => rfl
  | succ n ih => rw [behindLines, ih, lines_behindLine, ← List.drop_one, List.drop_drop, Nat.add_comm]

end

end Text

namespace Console

/-- What the evaluation of a text leaves of the input: it takes a line for each of its requests. -/
def unread (source : String) (input : List UInt8) : List UInt8 :=
  Text.behindLines 0x0A (evaluate source (replies input)).2.script.requested.length input

/-- What the evaluations of the texts leave, one after the other. -/
def unreadBy (sources : List String) (input : List UInt8) : List UInt8 :=
  sources.foldl (fun left source => unread source left) input

/-- The arguments of a run with the text as its single expression, even if it starts with a dash. -/
def expressionArguments (drawn : Bool) (source : String) : List String :=
  if drawn then ["-t", "--", source] else ["--", source]

/-- The runs with each of the texts as the single expression, on the input that those before it have left. -/
def expressionRuns (verbosity : Verbosity) (file : String → Option String) (drawn : Bool) :
    List String → List UInt8 → List Outcome
  | [], _ => []
  | source :: sources, input =>
    run ⟨verbosity, file, replies input⟩ (expressionArguments drawn source) ::
      expressionRuns verbosity file drawn sources (unread source input)

theorem drop_replies (source : String) (input : List UInt8) :
    replies (unread source input) =
      (replies input).drop (evaluate source (replies input)).2.script.requested.length := by
  rw [unread, replies, Text.lines_behindLines, List.map_drop, replies]

/-- The lines that are left are those that the evaluation has not read. -/
theorem replies_unread (source : String) (input : List UInt8) :
    replies (unread source input) = (evaluate source (replies input)).2.script.replies := by
  have hagree : AgreeFor (evaluate source (replies input)).2.script.requested.length (replies input) (replies input) :=
    fun _ _ => rfl
  rw [drop_replies, evaluate_withReplies source hagree]
  rfl

theorem unread_of_parse_error {source : String} {cause} (h : Expr.parse source = .error cause)
    (input : List UInt8) : unread source input = input := by
  rw [unread, evaluate_of_parse_error h]
  rfl

theorem ofArguments?_expressionArguments (drawn : Bool) (source : String) :
    Command.ofArguments? (expressionArguments drawn source) = some (.expression source drawn) := by
  cases drawn <;> rfl

/-! ## 2. Lines of a file -/

section
variable (verbosity : Verbosity) (file : String → Option String) (drawn : Bool)

theorem run_expressionArguments (source : String) (input : List UInt8) :
    run ⟨verbosity, file, replies input⟩ (expressionArguments drawn source) =
      ⟨0, (runExpression ⟨verbosity, drawn⟩ source (replies input)).1⟩ := by
  rw [run, ofArguments?_expressionArguments]
  rfl

theorem runLines_replies (sources : List String) (input : List UInt8) :
    runLines ⟨verbosity, drawn⟩ sources (replies input) =
      (expressionRuns verbosity file drawn sources input).flatMap (·.writes) := by
  induction sources generalizing input with
  | nil => rfl
  | cons source sources ih =>
    rw [runLines, expressionRuns, List.flatMap_cons, ← ih, drop_replies, run_expressionArguments]
    rfl

theorem expressionRuns_append (sources more : List String) (input : List UInt8) :
    expressionRuns verbosity file drawn (sources ++ more) input =
      expressionRuns verbosity file drawn sources input ++
        expressionRuns verbosity file drawn more (unreadBy sources input) := by
  induction sources generalizing input with
  | nil => rfl
  | cons source sources ih =>
    rw [List.cons_append, expressionRuns, ih, expressionRuns, List.cons_append]
    rfl

/-- A run with an expression opens no file. -/
theorem expressionRuns_file (other : String → Option String) (sources : List String) (input : List UInt8) :
    expressionRuns verbosity other drawn sources input = expressionRuns verbosity file drawn sources input := by
  induction sources generalizing input with
  | nil => rfl
  | cons source sources ih =>
    rw [expressionRuns, ih, run_expressionArguments, expressionRuns, run_expressionArguments]

theorem output_flatMap (runs : List Outcome) :
    output (runs.flatMap (·.writes)) = String.join (runs.map fun r => output r.writes) := by
  induction runs with
  | nil => rfl
  | cons r runs ih => rw [List.flatMap_cons, output_append, ih, List.map_cons, String.join_cons]

theorem errors_flatMap (runs : List Outcome) :
    errors (runs.flatMap (·.writes)) = String.join (runs.map fun r => errors r.writes) := by
  induction runs with
  | nil => rfl
  | cons r runs ih => rw [List.flatMap_cons, errors_append, ih, List.map_cons, String.join_cons]

/-- A run succeeds and writes what the others write, one after the other. -/
structure RunsInTurn (whole : Outcome) (runs : List Outcome) : Prop where
  exit : whole.exit = 0
  writes : whole.writes = runs.flatMap (·.writes)
  output : output whole.writes = String.join (runs.map fun r => output r.writes)
  errors : errors whole.writes = String.join (runs.map fun r => errors r.writes)

theorem runsInTurn {path text : String} {arguments : List String} {drawn : Bool}
    (harguments : Command.ofArguments? arguments = some (.file path drawn)) (htext : file path = some text)
    (input : List UInt8) : RunsInTurn (run ⟨verbosity, file, replies input⟩ arguments)
      (expressionRuns verbosity file drawn (expressionLines text) input) := by
  have hrun : run ⟨verbosity, file, replies input⟩ arguments =
      ⟨0, runLines ⟨verbosity, drawn⟩ (expressionLines text) (replies input)⟩ := by
    simp only [run, harguments, runCommand, htext]
  have hwrites := runLines_replies verbosity file drawn (expressionLines text) input
  rw [hrun]
  refine ⟨rfl, hwrites, ?_, ?_⟩
  · rw [← output_flatMap, ← hwrites]
  · rw [← errors_flatMap, ← hwrites]

section
variable {ls : List String} {ending last : String} (hending : ending = "\n" ∨ ending = "\r\n")
  (hls : ∀ line ∈ ls, '\n' ∉ line.toList ∧ '\r' ∉ line.toList) (hlast : '\n' ∉ last.toList)
include hending hls hlast

/-- The last line of a file may have no line end. -/
theorem expressionLines_join :
    expressionLines (String.join (ls.map (· ++ ending)) ++ last) =
      (ls ++ [last]).filter fun line => !Text.isBlank line := by
  have hread : (ls.map String.toList).map String.ofList = ls := by
    rw [List.map_map]
    exact (List.map_congr_left fun line _ => String.ofList_toList).trans (List.map_id ls)
  rw [expressionLines, String.toList_append, Text.lines_join hending hls, List.map_append, hread, List.filter_append,
    List.filter_append]
  congr 1
  by_cases hempty : last.toList = []
  · have hblank : Text.isBlank last = true := by rw [Text.isBlank, hempty, List.all_nil]
    rw [hempty, Text.lines_nil, List.filter_cons_of_neg (by rw [hblank]; decide)]
    rfl
  · rw [Text.lines_of_not_mem hlast hempty, List.map_singleton, String.ofList_toList]

/-- A file that is given by its lines is run as those of them that are not blank. -/
theorem runsInTurn_join {path : String} {arguments : List String} {drawn : Bool}
    (harguments : Command.ofArguments? arguments = some (.file path drawn))
    (htext : file path = some (String.join (ls.map (· ++ ending)) ++ last)) (input : List UInt8) :
    RunsInTurn (run ⟨verbosity, file, replies input⟩ arguments)
      (expressionRuns verbosity file drawn ((ls ++ [last]).filter fun line => !Text.isBlank line) input) := by
  rw [← expressionLines_join hending hls hlast]
  exact runsInTurn verbosity file harguments htext input

end

end

/-- Running a file writes to both outputs what the runs with its lines as expressions write, each on the input that the
lines before it have left.  Whatever comes of a line, the lines behind it go as a file of their own on the input that it
leaves, and a line that is no expression leaves the input as it is. -/
theorem file_runs_line_by_line (verbosity : Verbosity) (file : String → Option String) (path text : String)
    (drawn : Bool) (arguments : List String) (input : List UInt8)
    (harguments : Command.ofArguments? arguments = some (.file path drawn)) (htext : file path = some text) :
    let runs := expressionRuns verbosity file drawn
    RunsInTurn (run ⟨verbosity, file, replies input⟩ arguments) (runs (expressionLines text) input) ∧
      ∀ before line behind, expressionLines text = before ++ line :: behind →
        let reached := unreadBy before input
        let left := unread line reached
        runs (expressionLines text) input = runs before input ++
            run ⟨verbosity, file, replies reached⟩ (expressionArguments drawn line) :: runs behind left ∧
          (∀ other rest, other path = some rest → expressionLines rest = behind →
            RunsInTurn (run ⟨verbosity, other, replies left⟩ arguments) (runs behind left)) ∧
          ∀ cause, Expr.parse line = .error cause → left = reached := by
  intro runs
  refine ⟨runsInTurn verbosity file harguments htext input, ?_⟩
  intro before line behind hlines reached left
  refine ⟨?_, ?_, fun cause hcause => unread_of_parse_error hcause reached⟩
  · rw [hlines]
    exact expressionRuns_append verbosity file drawn before (line :: behind) input
  · rintro other rest hrest rfl
    -- the runs with single expressions are the same beside the other file
    have hother := runsInTurn verbosity other harguments hrest left
    rwa [expressionRuns_file verbosity file drawn other] at hother

/-- A division by zero and a line that is no expression do not show in the lines behind them. -/
theorem file_runs_line_by_line_failures :
    let file := fun path => if path = "lines" then some "x\n1/0\n\n2+\ny\n" else none
    let input := "i\ni\n".toUTF8.toList
    RunsInTurn (run ⟨.info, file, replies input⟩ ["-tf", "lines"])
        (expressionRuns .info file true ["x", "1/0", "2+", "y"] input) ∧
      replies (unreadBy ["x", "1/0", "2+"] input) = [.text "i"] := by
  intro file input
  have hlines : expressionLines "x\n1/0\n\n2+\ny\n" = ["x", "1/0", "2+", "y"] := by decide +kernel
  have harguments : Command.ofArguments? ["-tf", "lines"] = some (.file "lines" true) := by decide +kernel
  have hruns := (file_runs_line_by_line .info file "lines" _ true _ input harguments rfl).1
  rw [hlines] at hruns
  exact ⟨hruns, by decide +kernel⟩

end Console

end ComplexCalc
