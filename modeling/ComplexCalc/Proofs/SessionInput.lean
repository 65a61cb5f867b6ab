import ComplexCalc.Console.Run
import ComplexCalc.Proofs.Replies

/-!
# SessionInput — a session starts afresh at each of its own prompts

A session goes from one of its prompts to the next over the lines that a command takes, which are its own line, the
replies to its requests and the operands of a comparison (section 2).  What stands behind them is for the prompts that
follow, and nothing else is handed on, so a session over two inputs in a row writes what the two sessions write
(section 3).
-/

namespace ComplexCalc

/-! ## 1. Lines of two inputs -/

namespace Text

section
variable {α : Type} [DecidableEq α] {lineFeed carriageReturn : α}

theorem forall_ne_of_not_mem {text : List α} (h : lineFeed ∉ text) : ∀ c ∈ text, decide (c ≠ lineFeed) = true :=
  fun _ hc => decide_eq_true fun hsame => h (hsame ▸ hc)

theorem lines_nil : lines lineFeed carriageReturn [] = [] := by
  rw [lines]
  rfl

/-- Up to its line feed the first line is cut off. -/
theorem lines_line {line : List α} (rest : List α) (h : lineFeed ∉ line) :
    lines lineFeed carriageReturn (line ++ lineFeed :: rest) =
      dropReturn carriageReturn line :: lines lineFeed carriageReturn rest := by
  have hline := forall_ne_of_not_mem h
  have hdrop : (line ++ lineFeed :: rest).dropWhile (· ≠ lineFeed) = lineFeed :: rest := by
    rw [List.dropWhile_append_of_pos hline, List.dropWhile_cons_of_neg (by simp)]
  have htake : (line ++ lineFeed :: rest).takeWhile (· ≠ lineFeed) = line := by
    rw [List.takeWhile_append_of_pos hline, List.takeWhile_cons_of_neg (by simp), List.append_nil]
  rw [lines]
  split
  · rename_i hnil
    rw [hdrop] at hnil
    cases hnil
  · rename_i hcons
    rw [hdrop] at hcons
    cases hcons
    rw [htake]

theorem lines_of_not_mem {text : List α} (h : lineFeed ∉ text) (hne : text ≠ []) :
    lines lineFeed carriageReturn text = [text] := by
  have hall := forall_ne_of_not_mem h
  have hdrop : text.dropWhile (· ≠ lineFeed) = [] := by
    rw [← List.append_nil text, List.dropWhile_append_of_pos hall]
    rfl
  rw [lines]
  split
  · rw [if_neg (by simpa using hne)]
  · rename_i hcons
    rw [hdrop] at hcons
    cases hcons

/-- Where a line ends, the lines of what follows are lines of the whole. -/
theorem lines_append {first : List α} (second : List α) (h : first = [] ∨ first.getLast? = some lineFeed) :
    lines lineFeed carriageReturn (first ++ second) =
      lines lineFeed carriageReturn first ++ lines lineFeed carriageReturn second := by
  induction hlength : first.length using Nat.strongRecOn generalizing first with
  | ind n ih =>
    rcases h with rfl | hlast
    · rw [lines_nil, List.nil_append, List.nil_append]
    · obtain ⟨line, rest, rfl, hline⟩ := List.eq_append_cons_of_mem (List.mem_of_getLast? hlast)
      have hrest : rest = [] ∨ rest.getLast? = some lineFeed := by
        cases rest with
        | nil => exact .inl rfl
        | cons c rest =>
          rw [List.getLast?_append, List.getLast?_cons_cons] at hlast
          simpa using hlast
      rw [List.append_assoc, List.cons_append, lines_line _ hline, lines_line _ hline, List.cons_append]
      rw [ih rest.length (by simp [← hlength]; omega) hrest rfl]

theorem dropReturn_of_not_mem {line : List α} (h : carriageReturn ∉ line) : dropReturn carriageReturn line = line :=
  if_neg fun hlast => h (List.mem_of_getLast? hlast)

theorem dropReturn_concat (line : List α) : dropReturn carriageReturn (line ++ [carriageReturn]) = line := by
  rw [dropReturn, List.getLast?_concat, if_pos rfl, List.dropLast_concat]

end

/-- Texts that are joined with line ends are lines of what they make. -/
theorem lines_join {ls : List String} {ending : String} (hending : ending = "\n" ∨ ending = "\r\n")
    (h : ∀ line ∈ ls, '\n' ∉ line.toList ∧ '\r' ∉ line.toList) (last : List Char) :
    lines '\n' '\r' ((String.join (ls.map (· ++ ending))).toList ++ last) =
      ls.map String.toList ++ lines '\n' '\r' last := by
  induction ls with
  | nil => rfl
  | cons line ls ih =>
    obtain ⟨⟨hfeed, hreturn⟩, hls⟩ := List.forall_mem_cons.mp h
    rw [List.map_cons, String.join_cons, String.toList_append, String.toList_append, List.append_assoc,
      List.append_assoc, List.map_cons, List.cons_append, ← ih hls]
    generalize (String.join (ls.map (· ++ ending))).toList ++ last = rest
    rcases hending with rfl | rfl
    · show lines '\n' '\r' (line.toList ++ '\n' :: rest) = _
      rw [lines_line _ hfeed, dropReturn_of_not_mem hreturn]
    · have hfeed' : '\n' ∉ line.toList ++ ['\r'] := by
        rw [List.mem_append, not_or]
        exact ⟨hfeed, by decide⟩
      show lines '\n' '\r' (line.toList ++ (['\r'] ++ '\n' :: rest)) = _
      rw [← List.append_assoc, lines_line _ hfeed', dropReturn_concat]

end Text

namespace Console

/-- The lines of an input that ends with a line are lines of every longer one. -/
theorem replies_append {first : List UInt8} (second : List UInt8) (h : first = [] ∨ first.getLast? = some 0x0A) :
    replies (first ++ second) = replies first ++ replies second := by
  rw [replies, Text.lines_append second h, List.map_append, replies, replies]

/-! ## 2. From one prompt of a session to the next -/

/-- The lines that are no expressions for a session. -/
def sessionCommands : List String := [":quit", ":q", ":clear", ":compare"]

/-- A session comes from one of its prompts to the next over the lines in between, and writes this on the way. No prompt
on the way meets the end of the input: there is a line for each request and for both operands of a comparison. -/
inductive SessionStep (s : Settings) : List Reply → List Write → List Reply → Prop where
  | ignored {line rest} : Text.trim line = "" → SessionStep s (.text line :: rest) [] rest
  | cleared {line rest} : Text.trim line = ":clear" → SessionStep s (.text line :: rest) [] rest
  | compared {line left right rest} : Text.trim line = ":compare" →
      SessionStep s (.text line :: left :: right :: rest) (runOperands s [left, right]) rest
  | evaluated {line rest} : Text.trim line ≠ "" → Text.trim line ∉ sessionCommands →
      (runExpression s (Text.trim line) rest).2 ≤ rest.length →
      SessionStep s (.text line :: rest) (runExpression s (Text.trim line) rest).1
        (rest.drop (runExpression s (Text.trim line) rest).2)

/-- From a prompt of a session to a later one. -/
inductive SessionReaches (s : Settings) : List Reply → List Write → List Reply → Prop where
  | refl {input} : SessionReaches s input [] input
  | step {input ws mid vs rest} : SessionStep s input ws mid → SessionReaches s mid vs rest →
      SessionReaches s input (ws ++ vs) rest

/-- The session ends because the end of the input meets one of its own prompts. -/
def EndsAtPrompt (s : Settings) (input : List Reply) : Prop :=
  ∃ ws, SessionReaches s input ws []

section
variable {s : Settings} {source line : String} {left right : Reply} {input rest : List Reply} {ws : List Write}

/-- An evaluation with a line for each request is the same with more lines behind. -/
theorem runExpression_append (h : (runExpression s source input).2 ≤ input.length) (more : List Reply) :
    runExpression s source (input ++ more) = runExpression s source input := by
  have hagree : AgreeFor (evaluate source input).2.script.requested.length input (input ++ more) := .of_append h more
  unfold runExpression
  rw [evaluate_withReplies source hagree]
  rfl

theorem runOperands_cons (s : Settings) (left right : Reply) (rest : List Reply) :
    runOperands s (left :: right :: rest) = runOperands s [left, right] := by
  cases left <;> cases right <;> rfl

theorem SessionStep.append (h : SessionStep s input ws rest) (more : List Reply) :
    SessionStep s (input ++ more) ws (rest ++ more) := by
  cases h with
  | ignored hline => exact .ignored hline
  | cleared hline => exact .cleared hline
  | compared hline => exact .compared hline
  | @evaluated line rest hline hcommand hused =>
    -- the lines that it takes are all there before the input goes on
    have hsame := runExpression_append hused more
    have hstep : SessionStep s (.text line :: (rest ++ more)) _ _ := .evaluated hline hcommand (by
      rw [hsame, List.length_append]
      omega)
    rwa [hsame, List.drop_append_of_le_length hused] at hstep

theorem SessionStep.runSession_eq (h : SessionStep s input ws rest) :
    runSession s input = ws ++ runSession s rest := by
  cases h with
  | ignored hline =>
    rw [runSession, hline]
    rfl
  | cleared hline =>
    rw [runSession, hline]
    rfl
  | @compared line left right rest hline =>
    rw [runSession, hline]
    dsimp only
    rw [runOperands_cons]
    rfl
  | evaluated hline hcommand hused =>
    rw [runSession]
    -- the line is none of those that a session takes for itself
    split
    case h_6 => rfl
    case h_1 hblank => exact absurd hblank hline
    all_goals
      rename_i heq
      rw [heq] at hcommand
      exact absurd (by decide) hcommand

theorem SessionReaches.append (h : SessionReaches s input ws rest) (more : List Reply) :
    SessionReaches s (input ++ more) ws (rest ++ more) := by
  induction h with
  | refl => exact .refl
  | step hstep _ ih => exact .step (hstep.append more) ih

theorem SessionReaches.runSession_eq (h : SessionReaches s input ws rest) :
    runSession s input = ws ++ runSession s rest := by
  induction h with
  | refl => rfl
  | step hstep _ ih => rw [hstep.runSession_eq, ih, List.append_assoc]

/-- What comes behind an input that ends at a prompt of the session is an input of its own. -/
theorem runSession_append (h : EndsAtPrompt s input) (more : List Reply) :
    runSession s (input ++ more) = runSession s input ++ runSession s more := by
  obtain ⟨ws, hreaches⟩ := h
  rw [(hreaches.append more).runSession_eq, hreaches.runSession_eq, List.nil_append, runSession, List.append_nil]

end

/-! ## 3. Sessions over two inputs in a row -/

theorem output_append (ws vs : List Write) : output (ws ++ vs) = output ws ++ output vs := by
  rw [output, List.map_append, String.join_append]
  rfl

theorem errors_append (ws vs : List Write) : errors (ws ++ vs) = errors ws ++ errors vs := by
  rw [errors, List.map_append, String.join_append]
  rfl

/-- A session over an input that ends at one of its own prompts, and then over more input, writes what the two sessions
write, but for the banner of the second one. -/
theorem session_is_memoryless (verbosity : Verbosity) (file : String → Option String) (arguments : List String)
    (drawn : Bool) (first second : List UInt8) (hsession : Command.ofArguments? arguments = some (.session drawn))
    (hboundary : first = [] ∨ first.getLast? = some 0x0A ∨ second = [])
    (hends : EndsAtPrompt ⟨verbosity, drawn⟩ (replies first)) :
    ∃ more, (run ⟨verbosity, file, replies second⟩ arguments).writes = banner :: more ∧
      (run ⟨verbosity, file, replies (first ++ second)⟩ arguments).writes =
        (run ⟨verbosity, file, replies first⟩ arguments).writes ++ more ∧
      output (run ⟨verbosity, file, replies (first ++ second)⟩ arguments).writes =
        output (run ⟨verbosity, file, replies first⟩ arguments).writes ++ output more ∧
      errors (run ⟨verbosity, file, replies (first ++ second)⟩ arguments).writes =
        errors (run ⟨verbosity, file, replies first⟩ arguments).writes ++ errors more := by
  have hrun : ∀ input, (run ⟨verbosity, file, input⟩ arguments).writes =
      banner :: runSession ⟨verbosity, drawn⟩ input := by
    intro input
    rw [run, hsession]
    rfl
  have hreplies : replies (first ++ second) = replies first ++ replies second := by
    rcases hboundary with hnil | hlast | rfl
    · exact replies_append second (.inl hnil)
    · exact replies_append second (.inr hlast)
    · rw [List.append_nil, replies, replies, Text.lines_nil, List.map_nil, List.append_nil]
  have hwrites := hrun (replies (first ++ second))
  rw [hreplies, runSession_append hends, ← List.cons_append, ← hrun (replies first)] at hwrites
  refine ⟨runSession ⟨verbosity, drawn⟩ (replies second), hrun (replies second), ?_, ?_, ?_⟩
  · rw [hreplies, hwrites]
  · rw [hreplies, hwrites, output_append]
  · rw [hreplies, hwrites, errors_append]

/-- After `x` was given the value `i`, the second input asks for `x` again. -/
theorem session_is_memoryless_asks_again :
    EndsAtPrompt ⟨.info, true⟩ (replies ":clear\nx\ni\n".toUTF8.toList) ∧
      ∃ more, (run ⟨.info, fun _ => none, replies "x\n".toUTF8.toList⟩ ["-t"]).writes = banner :: more ∧
        (run ⟨.info, fun _ => none, replies (":clear\nx\ni\n".toUTF8.toList ++ "x\n".toUTF8.toList)⟩ ["-t"]).writes =
          (run ⟨.info, fun _ => none, replies ":clear\nx\ni\n".toUTF8.toList⟩ ["-t"]).writes ++ more := by
  have hreplies : replies ":clear\nx\ni\n".toUTF8.toList = [.text ":clear", .text "x", .text "i"] := by decide +kernel
  have hused : (runExpression ⟨.info, true⟩ (Text.trim "x") [.text "i"]).2 = 1 := by decide +kernel
  have hlast : SessionReaches ⟨.info, true⟩ [.text "x", .text "i"] _ [] :=
    .step (.evaluated (by decide +kernel) (by decide +kernel) (by rw [hused]; decide)) (by rw [hused]; exact .refl)
  have hends : EndsAtPrompt ⟨.info, true⟩ (replies ":clear\nx\ni\n".toUTF8.toList) := by
    rw [hreplies]
    exact ⟨_, .step (.cleared (by decide +kernel)) hlast⟩
  obtain ⟨more, hmore, hwrites, -⟩ := session_is_memoryless .info (fun _ => none) ["-t"] true _ "x\n".toUTF8.toList
    (by decide +kernel) (.inr (.inl (by decide +kernel))) hends
  exact ⟨hends, more, hmore, hwrites⟩

end Console

end ComplexCalc
