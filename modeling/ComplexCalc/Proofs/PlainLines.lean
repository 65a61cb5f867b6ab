import ComplexCalc.Proofs.FileLines
import ComplexCalc.Proofs.Names
import ComplexCalc.Proofs.WhiteSpace

/-!
# PlainLines — a session prints for plain lines what a file of them prints

The lines of a text are the lines of its bytes, read as UTF-8 one by one (section 1).  What an evaluation prints depends
on its result alone, and the result of a line without variables neither on the input nor on the white space around the
line (section 2).  So a session that has the lines for its input prints what the file prints (section 3).
-/

namespace ComplexCalc

/-! ## 1. Lines of encoded texts -/

namespace Text

/-- The item alone is written as the one mark, which is written for nothing else. -/
structure Marks {α β : Type} (encode : α → List β) (item : α) (mark : β) : Prop where
  alone : encode item = [mark]
  only : ∀ c, mark ∈ encode c → c = item

section
variable {α β : Type} {encode : α → List β}

theorem Marks.mem_flatMap_iff {item : α} {mark : β} (h : Marks encode item mark) (text : List α) :
    mark ∈ text.flatMap encode ↔ item ∈ text := by
  rw [List.mem_flatMap]
  constructor
  · rintro ⟨c, hc, hmark⟩
    rwa [← h.only c hmark]
  · intro hitem
    exact ⟨item, hitem, by rw [h.alone]; exact List.mem_singleton_self mark⟩

variable [DecidableEq α] [DecidableEq β] {lineFeed carriageReturn : α} {feed ending : β}

theorem dropReturn_flatMap (h : Marks encode carriageReturn ending) (hencode : ∀ c, encode c ≠ []) (line : List α) :
    dropReturn ending (line.flatMap encode) = (dropReturn carriageReturn line).flatMap encode := by
  rcases List.eq_nil_or_concat line with rfl | ⟨before, last, rfl⟩
  · rfl
  · rw [List.concat_eq_append, List.flatMap_append, List.flatMap_singleton, dropReturn, dropReturn,
      List.getLast?_append_of_ne_nil _ (hencode last), List.getLast?_concat]
    by_cases hlast : last = carriageReturn
    · rw [hlast, h.alone, List.getLast?_singleton, if_pos rfl, if_pos rfl, List.dropLast_concat, List.dropLast_concat]
    · have hother : (encode last).getLast? ≠ some ending := fun hreturn =>
        hlast (h.only last (List.mem_of_getLast? hreturn))
      rw [if_neg hother, if_neg (by simpa using hlast), List.flatMap_append, List.flatMap_singleton]

/-- Where line ends are written alone, the lines of what is written are the lines, each written. -/
theorem lines_flatMap (hfeed : Marks encode lineFeed feed) (hreturn : Marks encode carriageReturn ending)
    (hencode : ∀ c, encode c ≠ []) (text : List α) :
    lines feed ending (text.flatMap encode) = (lines lineFeed carriageReturn text).map (·.flatMap encode) := by
  induction hlength : text.length using Nat.strongRecOn generalizing text with
  | ind n ih =>
    by_cases hmem : lineFeed ∈ text
    · obtain ⟨line, rest, rfl, hline⟩ := List.eq_append_cons_of_mem hmem
      have hshorter : rest.length < n := by
        rw [← hlength, List.length_append, List.length_cons]
        omega
      rw [List.flatMap_append, List.flatMap_cons, hfeed.alone, List.singleton_append,
        lines_line _ (mt (hfeed.mem_flatMap_iff line).mp hline), lines_line _ hline, List.map_cons,
        dropReturn_flatMap hreturn hencode, ih rest.length hshorter rest rfl]
    · by_cases hne : text = []
      · rw [hne, List.flatMap_nil, lines_nil, lines_nil, List.map_nil]
      · have hwritten : text.flatMap encode ≠ [] := by
          intro hnil
          obtain ⟨c, hc⟩ := List.exists_mem_of_ne_nil text hne
          exact hencode c (List.flatMap_eq_nil_iff.mp hnil c hc)
        rw [lines_of_not_mem (mt (hfeed.mem_flatMap_iff text).mp hmem) hwritten, lines_of_not_mem hmem hne,
          List.map_singleton]

end

/-- A character of ASCII is one byte, and all bytes of other characters are greater than those. -/
theorem utf8EncodeChar_cases (c : Char) :
    (c.toNat < 128 ∧ String.utf8EncodeChar c = [UInt8.ofNat c.toNat]) ∨
      (128 ≤ c.toNat ∧ ∀ b ∈ String.utf8EncodeChar c, 128 ≤ b.toNat) := by
  have hsame : c.val.toNat = c.toNat := rfl
  unfold String.utf8EncodeChar
  dsimp only
  split
  · exact .inl ⟨by omega, rfl⟩
  · refine .inr ⟨by omega, ?_⟩
    -- two, three or four bytes
    split
    · simp
      omega
    · split
      · simp
        omega
      · simp
        omega

theorem marks_utf8EncodeChar {c : Char} (h : c.toNat < 128) :
    Marks String.utf8EncodeChar c (UInt8.ofNat c.toNat) := by
  have hbyte : ∀ d : Char, d.toNat < 128 → (UInt8.ofNat d.toNat).toNat = d.toNat := by
    intro d hd
    apply UInt8.toNat_ofNat_of_lt'
    rw [UInt8.size]
    omega
  constructor
  · rcases utf8EncodeChar_cases c with ⟨-, hc⟩ | ⟨hlarge, -⟩
    · exact hc
    · omega
  · intro d hd
    rcases utf8EncodeChar_cases d with ⟨hsmall, hone⟩ | ⟨-, hlarge⟩
    · rw [hone, List.mem_singleton] at hd
      have hsame := congrArg UInt8.toNat hd
      rw [hbyte c h, hbyte d hsmall] at hsame
      rw [← Char.ofNat_toNat d, ← hsame, Char.ofNat_toNat]
    · have hmark := hlarge _ hd
      rw [hbyte c h] at hmark
      omega

end Text

namespace Console

/-- The lines of a text, those that are blank included. -/
def textLines (text : String) : List String :=
  (Text.lines '\n' '\r' text.toList).map String.ofList

theorem replyOfBytes_utf8 (line : List Char) :
    replyOfBytes (line.flatMap String.utf8EncodeChar) = .text (String.ofList line) := by
  have hbytes : (⟨(line.flatMap String.utf8EncodeChar).toArray⟩ : ByteArray) = (String.ofList line).toByteArray := by
    rw [String.toByteArray_ofList, List.utf8Encode]
    exact ByteArray.ext List.data_toByteArray.symm
  rw [replyOfBytes, hbytes, String.fromUTF8?, dif_pos (String.ofList line).isValidUTF8]
  rfl

theorem replies_bytes (text : String) : replies (bytes text) = (textLines text).map .text := by
  have hfeed : Text.Marks String.utf8EncodeChar '\n' 0x0A := Text.marks_utf8EncodeChar (by decide)
  have hreturn : Text.Marks String.utf8EncodeChar '\r' 0x0D := Text.marks_utf8EncodeChar (by decide)
  rw [replies, bytes_eq_flatMap, Text.lines_flatMap hfeed hreturn (fun _ => String.utf8EncodeChar_ne_nil), textLines,
    List.map_map, List.map_map]
  apply List.map_congr_left
  intro line _
  exact replyOfBytes_utf8 line

end Console

/-! ## 2. Evaluations without variables -/

theorem Text.filter_dropWhile {α : Type} (p : α → Bool) (cs : List α) :
    (cs.dropWhile p).filter (fun c => !p c) = cs.filter fun c => !p c := by
  have hdropped : (cs.takeWhile p).filter (fun c => !p c) = [] := by
    rw [List.filter_eq_nil_iff]
    intro c hc
    rw [List.mem_takeWhile_imp hc]
    exact Bool.false_ne_true
  conv => rhs; rw [← List.takeWhile_append_dropWhile (p := p) (l := cs), List.filter_append, hdropped]
  rfl

/-- What is trimmed off is white space, so nothing else is missing. -/
theorem Text.strip_trim (s : String) : strip (trim s) = strip s := by
  rw [strip, trim, String.toList_ofList, List.filter_reverse, filter_dropWhile, List.filter_reverse,
    List.reverse_reverse, filter_dropWhile, strip]

/-- No variables are left in the text if it is read as an expression. -/
def HasNoVariables (source : String) : Prop :=
  ∀ e, Expr.parse source = .ok e → e.variableNames = []

theorem hasNoVariables_iff (source : String) :
    HasNoVariables source ↔ (Expr.parse source).toOption.all (·.variableNames.isEmpty) = true := by
  unfold HasNoVariables
  cases Expr.parse source with
  | error cause => exact iff_of_true nofun rfl
  | ok tree => simp [Except.toOption]

instance (source : String) : Decidable (HasNoVariables source) :=
  decidable_of_iff _ (hasNoVariables_iff source).symm

theorem HasNoVariables.requested_eq {source : String} (h : HasNoVariables source) (replies : List Reply) :
    (evaluate source replies).2.script.requested = [] := by
  have hclosed : ∀ {e}, Expr.parse source = .ok e → e.occurrences = [] := by
    intro e hread
    rw [List.eq_nil_iff_forall_not_mem]
    intro x hx
    rw [← Expr.mem_variableNames, h e hread] at hx
    cases hx
  rcases evaluate_cases source replies with ⟨cause, hread, heval⟩ | ⟨e, x, after, hread, hrun, heval⟩ |
      ⟨e, z, after, hread, hrun, heval⟩
  · rw [heval]
    rfl
  · rw [heval, hrun.eq_of_closed (hclosed hread)]
    rfl
  · rw [heval, hrun.eq_of_closed (hclosed hread)]
    rfl

/-- Without variables the result is that of every text with the same characters besides white space, whatever the
replies are. -/
theorem HasNoVariables.result_eq {source other : String} (h : HasNoVariables source)
    (hstrip : Text.strip source = Text.strip other) (replies others : List Reply) :
    (evaluate source replies).1 = (evaluate other others).1 := by
  have hagree : AgreeFor (evaluate source replies).2.script.requested.length replies others := by
    rw [h.requested_eq]
    exact fun _ hi => absurd hi (Nat.not_lt_zero _)
  rw [← (evaluate_alike hstrip rfl).1, evaluate_withReplies source hagree]

theorem HasNoVariables.congr {source other : String} (h : HasNoVariables source)
    (hstrip : Text.strip source = Text.strip other) : HasNoVariables other := by
  intro e hread
  rw [← parse_congr hstrip] at hread
  exact h e hread

/-! ## 3. Sessions and files -/

namespace Console

theorem output_cons (w : Write) (ws : List Write) : output (w :: ws) = w.outText ++ output ws := by
  rw [output, List.map_cons, String.join_cons]
  rfl

section
variable {s t : Settings} {source other : String} {input others : List Reply}

theorem output_of_quiet {ws : List Write} (h : ∀ w ∈ ws, w.outText = "") : output ws = "" := by
  induction ws with
  | nil => rfl
  | cons w ws ih =>
    obtain ⟨hw, hws⟩ := List.forall_mem_cons.mp h
    rw [output_cons, hw, ih hws]
    rfl

theorem outText_writeOfRecord? {r : LogRecord} {w : Write} (h : writeOfRecord? s r = some w) : w.outText = "" := by
  unfold writeOfRecord? at h
  split at h
  · cases h
    rfl
  · cases h

/-- Nothing that happens during an evaluation is told on the standard output. -/
theorem output_events (s : Settings) (events : List Event) : output (events.filterMap (writeOfEvent? s)) = "" := by
  apply output_of_quiet
  intro w hw
  obtain ⟨event, -, hwrite⟩ := List.mem_filterMap.mp hw
  unfold writeOfEvent? at hwrite
  split at hwrite
  · cases hwrite
    rfl
  · obtain ⟨r, -, hrecord⟩ := Option.bind_eq_some_iff.mp hwrite
    exact outText_writeOfRecord? hrecord

theorem output_writesOfValue (s : Settings) (z : Number) (e : Expr) :
    output (writesOfValue s z e) = (if s.drawn then e.drawing else "") ++ (z.text ++ "\n") := by
  have hused : output (if e.variableNames = [] then []
      else (writeOfRecord? s (usedRecord e.variableNames)).toList) = "" := by
    split
    · rfl
    · exact output_of_quiet fun w hw => outText_writeOfRecord? (Option.mem_toList.mp hw)
  rw [writesOfValue, output_append, output_append, hused]
  split <;> simp [output, Write.outText]

/-- The same result is printed in the same way, however much of the log is shown. -/
theorem output_runExpression_congr (hdrawn : s.drawn = t.drawn)
    (hresult : (evaluate source input).1 = (evaluate other others).1) :
    output (runExpression s source input).1 = output (runExpression t other others).1 := by
  unfold runExpression
  dsimp only
  rw [output_append, output_append, output_events, output_events, hresult]
  congr 1
  cases (evaluate other others).1 with
  | ok value =>
    obtain ⟨z, e⟩ := value
    show output (writesOfValue s z e) = output (writesOfValue t z e)
    rw [output_writesOfValue, output_writesOfValue, hdrawn]
  | error cause => rfl

end

/-- A line that a session takes for an expression, and one without variables if it is read as such. -/
structure PlainLine (line : String) : Prop where
  command : Text.trim line ∉ sessionCommands
  hasNoVariables : HasNoVariables line

instance (line : String) : Decidable (PlainLine line) :=
  decidable_of_iff (Text.trim line ∉ sessionCommands ∧ HasNoVariables line)
    ⟨fun h => ⟨h.1, h.2⟩, fun h => ⟨h.command, h.hasNoVariables⟩⟩

section
variable {s t : Settings} {line : String}

theorem used_eq_zero (h : HasNoVariables line) (s : Settings) (input : List Reply) :
    (runExpression s line input).2 = 0 := by
  show (evaluate line input).2.script.requested.length = 0
  rw [h.requested_eq]
  rfl

/-- The line takes none of those behind it for a reply. -/
theorem PlainLine.runSession_cons (h : PlainLine line) (hblank : ¬ Text.isBlank line) (rest : List Reply) :
    runSession s (.text line :: rest) = (runExpression s (Text.trim line) rest).1 ++ runSession s rest := by
  have htrim : Text.trim line ≠ "" := mt (Text.trim_eq_empty_iff line).mp hblank
  have hused : (runExpression s (Text.trim line) rest).2 = 0 :=
    used_eq_zero (h.hasNoVariables.congr (Text.strip_trim line).symm) s rest
  have hstep : SessionStep s (.text line :: rest) _ _ :=
    .evaluated htrim h.command (by rw [hused]; exact Nat.zero_le _)
  rw [hstep.runSession_eq, hused, List.drop_zero]

theorem PlainLine.runLines_cons (h : PlainLine line) (sources : List String) (input : List Reply) :
    runLines t (line :: sources) input = (runExpression t line input).1 ++ runLines t sources input := by
  have hused := used_eq_zero h.hasNoVariables t input
  rw [runLines]
  dsimp only
  rw [hused, List.drop_zero]

theorem output_runSession (hdrawn : s.drawn = t.drawn) {lines : List String} (h : ∀ line ∈ lines, PlainLine line)
    (input : List Reply) :
    output (runSession s (lines.map .text)) =
      output (runLines t (lines.filter fun line => !Text.isBlank line) input) := by
  induction lines with
  | nil =>
    rw [List.map_nil, runSession]
    rfl
  | cons line rest ih =>
    obtain ⟨hline, hrest⟩ := List.forall_mem_cons.mp h
    rw [List.map_cons]
    by_cases hblank : Text.isBlank line
    · -- one of the runs skips the line, the other does not come to it
      have hstep : SessionStep s (.text line :: rest.map .text) [] (rest.map .text) :=
        .ignored ((Text.trim_eq_empty_iff line).mpr hblank)
      rw [hstep.runSession_eq, List.nil_append, List.filter_cons_of_neg (by simp [hblank]), ih hrest]
    · have hresult := hline.hasNoVariables.result_eq (Text.strip_trim line).symm input (rest.map .text)
      rw [hline.runSession_cons hblank, List.filter_cons_of_pos (by simp [hblank]), hline.runLines_cons, output_append,
        output_append, ih hrest, output_runExpression_congr hdrawn hresult.symm]

end

end Console

end ComplexCalc
