import Mathlib.Data.List.TakeWhile
import ComplexCalc.Proofs.Effects
import ComplexCalc.Proofs.Prompts

/-!
# WhiteSpace — evaluation does not look at white space

A text is blank if nothing is left of it when it is trimmed, or without its white space, or as tokens (section 1).
Texts that differ only in white space are read as the same expression, so a run goes the same way whichever of them are
typed for its variables, and for the variables of what is typed (section 2).  Two evaluations then differ in nothing but
the texts that they quote (section 3).
-/

namespace ComplexCalc

/-! ## 1. Blank texts -/

theorem Text.all_dropWhile_iff {α : Type} {p : α → Bool} (cs : List α) :
    (∀ c ∈ cs.dropWhile p, p c = true) ↔ ∀ c ∈ cs, p c = true := by
  constructor
  · intro h c hc
    rw [← List.takeWhile_append_dropWhile (p := p) (l := cs), List.mem_append] at hc
    exact hc.elim List.mem_takeWhile_imp (h c)
  · exact fun h c hc => h c ((List.dropWhile_suffix p).subset hc)

/-- What is cut off at the second end is all that was left at the first one only if the text is blank. -/
theorem Text.trim_eq_empty_iff (s : String) : trim s = "" ↔ isBlank s := by
  rw [trim, String.ofList_eq_empty_iff, List.reverse_eq_nil_iff, List.dropWhile_eq_nil_iff, isBlank, List.all_eq_true,
    ← all_dropWhile_iff s.toList]
  simp only [List.mem_reverse]

theorem tokenize_eq_nil_iff (s : String) : tokenize s = .ok [] ↔ Text.isBlank s := by
  rw [tokenize, Text.isBlank_iff_strip]
  cases Text.strip s with
  | nil => exact iff_of_true (by rw [Token.scan]) rfl
  | cons c cs =>
    refine iff_of_false ?_ (List.cons_ne_nil c cs)
    rw [Token.scan]
    intro h
    split at h
    · cases h
    · -- whatever comes of the rest, the first token is there
      generalize Token.scan (0 + (Token.cut (c :: cs)).1.length) (Token.cut (c :: cs)).2 = rest at h
      cases rest <;> cases h

section
variable {s t : String} (h : Text.strip s = Text.strip t)
include h

theorem isBlank_congr : Text.isBlank s = Text.isBlank t := by
  rw [Bool.eq_iff_iff, Text.isBlank_iff_strip, Text.isBlank_iff_strip, h]

theorem tokenize_congr : tokenize s = tokenize t := by
  rw [tokenize, tokenize, h]

theorem parse_congr : Expr.parse s = Expr.parse t := by
  rw [Expr.parse, Expr.parse, tokenize_congr h]

end

/-! ## 2. Runs whose texts differ in white space -/

/-- The text of a reply without its white space.  A reply that cannot be read has none, like a cancelled one. -/
def Reply.stripped? (r : Reply) : Option (List Char) :=
  r.text?.map Text.strip

/-- What happens, but for the white space of the texts that are quoted, and for what kept a reply from being a text. -/
def Event.stripped? : Event → Option Event
  | .started source => some (.started (String.ofList (Text.strip source)))
  | .parsed source e => some (.parsed (String.ofList (Text.strip source)) e)
  | .evaluated source z count => some (.evaluated (String.ofList (Text.strip source)) z count)
  | .unreadable _ => none
  | event => some event

def strippedEvents (events : List Event) : List Event :=
  events.filterMap Event.stripped?

/-- The contexts are the same but for white space in replies and in the texts of events. -/
structure Context.Alike (c d : Context) : Prop where
  mode : c.mode = d.mode
  store : c.store = d.store
  replies : c.script.replies.map Reply.stripped? = d.script.replies.map Reply.stripped?
  requested : c.script.requested = d.script.requested
  transcript : strippedEvents c.transcript = strippedEvents d.transcript

theorem strippedEvents_append (events more : List Event) :
    strippedEvents (events ++ more) = strippedEvents events ++ strippedEvents more :=
  List.filterMap_append

theorem strippedEvents_parseEvents {s t : String} (h : Text.strip s = Text.strip t) :
    strippedEvents (parseEvents s) = strippedEvents (parseEvents t) := by
  rw [parseEvents, parseEvents, tokenize_congr h, h]
  cases tokenize t with
  | error cause => rfl
  | ok ts =>
    dsimp only
    cases Expr.ofLexemes ts with
    | error cause => rfl
    | ok e =>
      show [_, Event.parsed (String.ofList (Text.strip s)) e] = [_, .parsed (String.ofList (Text.strip t)) e]
      rw [h]

/-- Where no reply is left, the prompt is cancelled, which is no text either. -/
theorem Context.stripped?_reply (c : Context) (x : String) :
    (c.reply x).stripped? = ((c.script.replies.map Reply.stripped?).head?).getD none := by
  rw [Context.reply_eq]
  cases c.script.replies <;> rfl

namespace Context.Alike
variable {c d : Context} {x typed : String}

theorem noting (h : c.Alike d) {events others : List Event} (hevents : strippedEvents events = strippedEvents others) :
    (c.noting events).Alike (d.noting others) where
  mode := h.mode
  store := h.store
  replies := h.replies
  requested := h.requested
  transcript := by
    show strippedEvents (c.transcript ++ events) = strippedEvents (d.transcript ++ others)
    rw [strippedEvents_append, strippedEvents_append, h.transcript, hevents]

theorem storing (h : c.Alike d) {s t : Store} (hst : s = t) : (c.storing s).Alike (d.storing t) :=
  ⟨h.mode, hst, h.replies, h.requested, h.transcript⟩

theorem asked (h : c.Alike d) (x : String) : (c.asked x).Alike (d.asked x) where
  mode := h.mode
  store := h.store
  replies := by
    rw [Context.replies_asked, Context.replies_asked, List.map_tail, List.map_tail, h.replies]
  requested := by
    show (c.script.request x).2.requested = (d.script.request x).2.requested
    rw [Script.requested_request, Script.requested_request, h.requested]
  transcript := by
    show strippedEvents (c.transcript ++ [.requested x]) = strippedEvents (d.transcript ++ [.requested x])
    rw [strippedEvents_append, strippedEvents_append, h.transcript]

theorem reply (h : c.Alike d) (x : String) : (c.reply x).stripped? = (d.reply x).stripped? := by
  rw [stripped?_reply, stripped?_reply, h.replies]

theorem get?_eq (h : c.Alike d) (x : String) : d.store.get? x = c.store.get? x := by
  rw [h.store]

theorem inside (h : c.Alike d) (x : String) {typed typed' : String} (htext : Text.strip typed = Text.strip typed') :
    (c.inside x typed).Alike (d.inside x typed') :=
  ((h.asked x).storing rfl).noting (strippedEvents_parseEvents htext)

/-- The reply on the other side is a text as well, with the same characters besides white space. -/
theorem text (h : c.Alike d) (hreply : c.reply x = .text typed) :
    ∃ typed', d.reply x = .text typed' ∧ Text.strip typed = Text.strip typed' := by
  have hsame := h.reply x
  rw [hreply] at hsame
  cases hother : d.reply x with
  | text typed' =>
    rw [hother] at hsame
    exact ⟨typed', rfl, Option.some.inj hsame⟩
  | cancelled =>
    rw [hother] at hsame
    cases hsame
  | unreadable =>
    rw [hother] at hsame
    cases hsame

theorem types (h : c.Alike d) (htypes : c.Types x typed) :
    ∃ typed', d.Types x typed' ∧ Text.strip typed = Text.strip typed' := by
  obtain ⟨hnone, hreply, hblank⟩ := htypes
  obtain ⟨typed', hother, htext⟩ := h.text hreply
  exact ⟨typed', ⟨by rw [h.get?_eq, hnone], hother, by rw [← isBlank_congr htext, hblank]⟩, htext⟩

/-- Without a text the prompt is cancelled on the other side too, be it that the reply cannot be read. -/
theorem cancels (h : c.Alike d) (hnone : c.store.get? x = none) (hreply : (c.reply x).stripped? = none) :
    ∃ after, Runs (.var x) d (.error (.cancelled x)) after ∧ (c.asked x).Alike after := by
  rw [h.reply] at hreply
  rw [← h.get?_eq] at hnone
  have hasked := h.asked x
  cases hother : d.reply x with
  | text typed =>
    rw [hother] at hreply
    cases hreply
  | cancelled => exact ⟨_, .cancelled hnone hother, hasked⟩
  | unreadable =>
    -- there is one more event on that side, and it is not compared
    have hnoting : ((c.asked x).noting []).Alike ((d.asked x).noting [.unreadable x]) := hasked.noting rfl
    rw [Context.noting, List.append_nil] at hnoting
    exact ⟨_, .unreadable hnone hother, hnoting⟩

end Context.Alike

/-- A run goes the same way in a context that differs only in white space. -/
theorem Runs.alike {e c r after} (h : Runs e c r after) {d : Context} (hd : c.Alike d) :
    ∃ after', Runs e d r after' ∧ after.Alike after' := by
  -- the other run takes the same rule at each step, but for replies that cannot be read
  induction h generalizing d with
  | lit => exact ⟨d, .lit, hd⟩
  | reused hbound => exact ⟨_, .reused (by rw [hd.get?_eq, hbound]), hd.noting rfl⟩
  | cancelled hnone hreply => exact hd.cancels hnone (by rw [hreply]; rfl)
  | @unreadable x c hnone hreply =>
    obtain ⟨after, hrun, hafter⟩ := hd.cancels hnone (by rw [hreply]; rfl)
    have hnoting : ((c.asked x).noting [.unreadable x]).Alike (after.noting []) := hafter.noting rfl
    rw [Context.noting, Context.noting, List.append_nil] at hnoting
    exact ⟨after, hrun, hnoting⟩
  | @blank x typed c hnone hreply hblank =>
    obtain ⟨typed', hother, htext⟩ := hd.text hreply
    exact ⟨_, .blank (by rw [hd.get?_eq, hnone]) hother (by rw [← isBlank_congr htext, hblank]), hd.asked x⟩
  | @malformed x typed cause c htypes hread =>
    obtain ⟨typed', htypes', htext⟩ := hd.types htypes
    exact ⟨_, .malformed htypes' (by rw [← parse_congr htext, hread]),
      (hd.asked x).noting (strippedEvents_parseEvents htext)⟩
  | @invalid x typed e cause c after htypes hread _ ih =>
    -- what was typed on the other side is read as the same expression
    obtain ⟨typed', htypes', htext⟩ := hd.types htypes
    obtain ⟨after', hrun, hafter⟩ := ih (hd.inside x htext)
    exact ⟨_, .invalid htypes' (by rw [← parse_congr htext, hread]) hrun, hafter.storing hd.store⟩
  | @bound x typed e z c after htypes hread _ ih =>
    obtain ⟨typed', htypes', htext⟩ := hd.types htypes
    obtain ⟨after', hrun, hafter⟩ := ih (hd.inside x htext)
    have hstore : c.store.insert x z = d.store.insert x z := by rw [hd.store]
    exact ⟨_, .bound htypes' (by rw [← parse_congr htext, hread]) hrun, (hafter.storing hstore).noting rfl⟩
  | binary _ _ hresult iha ihb =>
    obtain ⟨mid, ha, hmid⟩ := iha hd
    obtain ⟨after', hb, hafter⟩ := ihb hmid
    exact ⟨after', .binary ha hb hresult, hafter⟩
  | divided _ _ hresult iha ihb =>
    obtain ⟨mid, ha, hmid⟩ := iha hd
    obtain ⟨after', hb, hafter⟩ := ihb hmid
    exact ⟨after', .divided ha hb hresult, hafter⟩
  | left _ ih =>
    obtain ⟨after', ha, hafter⟩ := ih hd
    exact ⟨after', .left ha, hafter⟩
  | right _ _ iha ihb =>
    obtain ⟨mid, ha, hmid⟩ := iha hd
    obtain ⟨after', hb, hafter⟩ := ihb hmid
    exact ⟨after', .right ha hb, hafter⟩
  | call _ ih =>
    obtain ⟨after', ha, hafter⟩ := ih hd
    exact ⟨after', .call ha, hafter⟩
  | argument _ ih =>
    obtain ⟨after', ha, hafter⟩ := ih hd
    exact ⟨after', .argument ha, hafter⟩

/-! ## 3. Evaluations whose texts differ in white space -/

section
variable {source other : String} {replies others : List Reply}

theorem started_alike (hsource : Text.strip source = Text.strip other)
    (hreplies : replies.map Reply.stripped? = others.map Reply.stripped?) :
    (Context.started source replies).Alike (.started other others) := by
  have hstart : (Context.interactive replies).Alike (.interactive others) := ⟨rfl, rfl, hreplies, rfl, rfl⟩
  apply hstart.noting
  show Event.started (String.ofList (Text.strip source)) :: strippedEvents (parseEvents source) =
    .started (String.ofList (Text.strip other)) :: strippedEvents (parseEvents other)
  rw [hsource, strippedEvents_parseEvents hsource]

theorem evaluate_alike (hsource : Text.strip source = Text.strip other)
    (hreplies : replies.map Reply.stripped? = others.map Reply.stripped?) :
    (evaluate source replies).1 = (evaluate other others).1 ∧
      (evaluate source replies).2.Alike (evaluate other others).2 := by
  have hstarted := started_alike hsource hreplies
  rcases evaluate_cases source replies with ⟨cause, hread, heval⟩ | ⟨e, x, after, hread, hrun, heval⟩ |
      ⟨e, z, after, hread, hrun, heval⟩
  · rw [parse_congr hsource] at hread
    rw [heval, evaluate_of_parse_error hread]
    exact ⟨rfl, hstarted⟩
  · obtain ⟨after', hrun', hafter⟩ := hrun.alike hstarted
    rw [parse_congr hsource] at hread
    rw [heval, evaluate_of_runs_error hread hrun']
    exact ⟨rfl, hafter⟩
  · obtain ⟨after', hrun', hafter⟩ := hrun.alike hstarted
    rw [parse_congr hsource] at hread
    rw [heval, evaluate_of_runs_ok hread hrun']
    refine ⟨rfl, hafter.noting ?_⟩
    show [Event.evaluated (String.ofList (Text.strip source)) z after.store.size] =
      [.evaluated (String.ofList (Text.strip other)) z after'.store.size]
    rw [hsource, hafter.store]

end

theorem brackets_strippedEvents (events : List Event) : brackets (strippedEvents events) = brackets events := by
  have hkept : (fun event : Event => event.stripped?.bind Event.bracket?) = Event.bracket? := by
    funext event
    cases event <;> rfl
  rw [brackets, strippedEvents, List.filterMap_filterMap, hkept, brackets]

/-- All that is told after the start of an evaluation are its bindings. -/
theorem notices_evaluate (source : String) (replies : List Reply) :
    notices (evaluate source replies).2.transcript =
      startNotice source :: (brackets (evaluate source replies).2.transcript).filterMap Bracket.notice? := by
  obtain ⟨bs, ⟨⟨events, htranscript, hbrackets, hnotices⟩, -⟩, -⟩ := evaluate_fits source replies
  obtain ⟨hbefore, hstart⟩ := started_quiet source replies
  -- nothing is bound before the run starts
  have hall : brackets (evaluate source replies).2.transcript = bs := by
    rw [htranscript, brackets, List.filterMap_append, ← brackets, ← brackets, hbefore, hbrackets, List.nil_append]
  rw [hall, htranscript, notices, List.filterMap_append, ← notices, ← notices, hstart, hnotices,
    List.singleton_append]

/-- Both evaluations come to the same, ask for the same names and bind them to the same values, in the same order, and
tell the same about it. -/
structure SameButForWhiteSpace (source other : String) (replies others : List Reply) : Prop where
  result : (evaluate source replies).1 = (evaluate other others).1
  requested : (evaluate source replies).2.script.requested = (evaluate other others).2.script.requested
  bound : brackets (evaluate source replies).2.transcript = brackets (evaluate other others).2.transcript
  messages : ∃ told, notices (evaluate source replies).2.transcript = startNotice source :: told ∧
    notices (evaluate other others).2.transcript = startNotice other :: told

/-- White space makes no difference, neither in the source text nor in replies, and every text that is blank once it is
trimmed is one that has no tokens. -/
theorem evaluate_ignores_white_space :
    (∀ source other replies others, Text.strip source = Text.strip other →
      replies.map Reply.stripped? = others.map Reply.stripped? → SameButForWhiteSpace source other replies others) ∧
      ∀ text, (Text.trim text = "" ↔ Text.isBlank text) ∧ (Text.isBlank text ↔ tokenize text = .ok []) := by
  refine ⟨fun source other replies others hsource hreplies => ?_, fun text => ?_⟩
  · obtain ⟨hresult, halike⟩ := evaluate_alike hsource hreplies
    have hbound : brackets (evaluate source replies).2.transcript = brackets (evaluate other others).2.transcript := by
      rw [← brackets_strippedEvents, halike.transcript, brackets_strippedEvents]
    refine ⟨hresult, halike.requested, hbound, _, notices_evaluate source replies, ?_⟩
    rw [hbound]
    exact notices_evaluate other others
  · exact ⟨Text.trim_eq_empty_iff text, (tokenize_eq_nil_iff text).symm⟩

/-- What is typed for `x` asks for a variable whose prompt gets no text. -/
theorem evaluate_ignores_white_space_nested :
    SameButForWhiteSpace "x*y" " x *\ty" [.text "a b", .cancelled] [.text "ab\n", .unreadable] :=
  evaluate_ignores_white_space.1 _ _ _ _ (by decide +kernel) (by decide +kernel)

end ComplexCalc
