import ComplexCalc.Proofs.Effects

/-!
# Replies — an evaluation takes one reply for each request and stops at the first that gives no expression

A run drops from the replies as many as it asks for, and looks at no others (sections 1 and 4).  Every reply before the
last one was a text that is an expression (section 2), so a finite list of replies ends every evaluation, and unless it
ends with a division by zero, a failure has the last reply for its cause (section 3).
-/

namespace ComplexCalc

/-! ## 1. One reply for each request -/

/-- On the way from the one context to the other a reply was taken for each of the names. -/
structure Asks (c after : Context) (names : List String) : Prop where
  requested : after.script.requested = c.script.requested ++ names
  replies : after.script.replies = c.script.replies.drop names.length

section
variable {c mid after : Context} {names others : List String}

theorem Asks.rfl : Asks c c [] :=
  ⟨(List.append_nil _).symm, List.drop_zero.symm⟩

theorem Asks.trans (h : Asks c mid names) (h' : Asks mid after others) : Asks c after (names ++ others) := by
  constructor
  · rw [h'.requested, h.requested, List.append_assoc]
  · rw [h'.replies, h.replies, List.drop_drop, List.length_append]

theorem Asks.storing (h : Asks c after names) (s : Store) : Asks c (after.storing s) names :=
  ⟨h.requested, h.replies⟩

theorem Asks.noting (h : Asks c after names) (events : List Event) : Asks c (after.noting events) names :=
  ⟨h.requested, h.replies⟩

theorem asks_asked (c : Context) (x : String) : Asks c (c.asked x) [x] := by
  constructor
  · exact Script.requested_request c.script x
  · rw [Context.replies_asked, List.length_singleton, List.drop_one]

/-- What is typed for a variable is evaluated behind the request for it. -/
theorem asks_inside (c : Context) (x typed : String) : Asks c (c.inside x typed) [x] :=
  ((asks_asked c x).storing .empty).noting (parseEvents typed)

end

/-! ## 2. What ends a run -/

/-- So many replies are there from the first one on, and each is a text that is an expression. -/
def AllRead (n : Nat) (replies : List Reply) : Prop :=
  ∀ i < n, ∃ typed e, replies[i]? = some (.text typed) ∧ Text.isBlank typed = false ∧ Expr.parse typed = .ok e

/-- What goes wrong with the reply for a name, which is `none` where no reply is left. -/
inductive Trouble (x : String) : Option Reply → Error → Prop where
  | missing : Trouble x none (.cancelled x)
  | cancelled : Trouble x (some .cancelled) (.cancelled x)
  | unreadable : Trouble x (some .unreadable) (.cancelled x)
  | blank {typed} : Text.isBlank typed = true → Trouble x (some (.text typed)) (.blank x)
  | malformed {typed cause} : Text.isBlank typed = false → Expr.parse typed = .error cause →
      Trouble x (some (.text typed)) (.malformed cause)

/-- How the replies decide what comes of the requests: all of them are read, and there is a value or a division by zero,
or there is trouble with the last one. -/
inductive EndsBy (replies : List Reply) : List String → Except Error Number → Prop where
  | value {names z} : AllRead names.length replies → EndsBy replies names (.ok z)
  | division {names x} : AllRead names.length replies → x.root = .divisionByZero → EndsBy replies names (.error x)
  | trouble {names name x} : AllRead names.length replies → Trouble name replies[names.length]? x.root →
      EndsBy replies (names ++ [name]) (.error x)

section
variable {n m : Nat} {replies : List Reply} {names others : List String} {r : Except Error Number} {x : Error}

theorem allRead_zero (replies : List Reply) : AllRead 0 replies :=
  fun _ hi => absurd hi (Nat.not_lt_zero _)

theorem AllRead.append (h : AllRead n replies) (h' : AllRead m (replies.drop n)) : AllRead (n + m) replies := by
  intro i hi
  by_cases hfirst : i < n
  · exact h i hfirst
  · obtain ⟨typed, e, hreply, hread⟩ := h' (i - n) (by omega)
    rw [List.getElem?_drop, Nat.add_sub_of_le (by omega)] at hreply
    exact ⟨typed, e, hreply, hread⟩

theorem AllRead.le_length (h : AllRead n replies) : n ≤ replies.length := by
  apply Nat.le_of_not_lt
  intro hmore
  obtain ⟨typed, e, hreply, -⟩ := h replies.length hmore
  rw [List.getElem?_eq_none (Nat.le_refl _)] at hreply
  cases hreply

/-- What comes behind requests with replies that were read. -/
theorem EndsBy.behind (hread : AllRead names.length replies) (h : EndsBy (replies.drop names.length) others r) :
    EndsBy replies (names ++ others) r := by
  cases h with
  | value hothers =>
    apply EndsBy.value
    rw [List.length_append]
    exact hread.append hothers
  | division hothers hroot =>
    refine .division ?_ hroot
    rw [List.length_append]
    exact hread.append hothers
  | trouble hothers htrouble =>
    rw [← List.append_assoc]
    rw [List.getElem?_drop, ← List.length_append] at htrouble
    refine .trouble ?_ htrouble
    rw [List.length_append]
    exact hread.append hothers

/-- An error has the same root in the prompts that it goes through. -/
theorem EndsBy.of_root {y : Error} (h : EndsBy replies names (.error x)) (hroot : y.root = x.root) :
    EndsBy replies names (.error y) := by
  cases h with
  | division hread hdivision => exact .division hread (hroot.trans hdivision)
  | trouble hread htrouble =>
    rw [← hroot] at htrouble
    exact .trouble hread htrouble

theorem EndsBy.allRead_of_value {z : Number} (h : EndsBy replies names (.ok z)) : AllRead names.length replies := by
  cases h with
  | value hread => exact hread

end

/-- A text is typed only where a reply is left. -/
theorem Context.head?_of_reply {c : Context} {x : String} {reply : Reply} (h : c.reply x = reply)
    (hreply : reply ≠ .cancelled) : c.script.replies[0]? = some reply := by
  rw [reply_eq] at h
  rw [← List.head?_eq_getElem?]
  cases hhead : c.script.replies.head? with
  | none =>
    rw [hhead] at h
    exact absurd h.symm hreply
  | some first =>
    rw [hhead] at h
    exact congrArg some h

/-- One request whose reply is no good. -/
theorem endsBy_trouble {c : Context} {x : String} {y : Error} (h : Trouble x c.script.replies[0]? y.root) :
    EndsBy c.script.replies [x] (.error y) :=
  @EndsBy.trouble _ [] _ _ (allRead_zero _) h

theorem Context.Types.allRead {c : Context} {x typed : String} {e : Expr} (h : c.Types x typed)
    (hread : Expr.parse typed = .ok e) : AllRead 1 c.script.replies := by
  obtain ⟨-, hreply, hblank⟩ := h
  intro i hi
  obtain rfl : i = 0 := by omega
  exact ⟨typed, e, Context.head?_of_reply hreply (by simp), hblank, hread⟩

/-- The right operand starts with the replies that the left one leaves, and the left one read all that it took. -/
theorem EndsBy.both {c mid : Context} {names others : List String} {u : Number} {r : Except Error Number}
    (hasks : Asks c mid names) (hleft : EndsBy c.script.replies names (.ok u))
    (hright : EndsBy mid.script.replies others r) : EndsBy c.script.replies (names ++ others) r := by
  rw [hasks.replies] at hright
  exact hright.behind hleft.allRead_of_value

/-- No step goes on behind a request that failed, so only the last reply can be one that gives no expression. -/
theorem Runs.endsBy {e c r after} (h : Runs e c r after) :
    ∃ names, Asks c after names ∧ EndsBy c.script.replies names r := by
  induction h with
  | lit => exact ⟨[], .rfl, .value (allRead_zero _)⟩
  | reused => exact ⟨[], Asks.rfl.noting _, .value (allRead_zero _)⟩
  | @cancelled x c hnone hreply =>
    refine ⟨[x], asks_asked c x, endsBy_trouble ?_⟩
    rw [Context.reply_eq] at hreply
    -- a prompt is cancelled by its reply, or because there is none
    cases hreplies : c.script.replies with
    | nil => exact .missing
    | cons first rest =>
      rw [hreplies] at hreply
      obtain rfl : first = .cancelled := hreply
      exact .cancelled
  | @unreadable x c hnone hreply =>
    refine ⟨[x], (asks_asked c x).noting _, endsBy_trouble ?_⟩
    rw [Context.head?_of_reply hreply (by simp)]
    exact .unreadable
  | @blank x typed c hnone hreply hblank =>
    refine ⟨[x], asks_asked c x, endsBy_trouble ?_⟩
    rw [Context.head?_of_reply hreply (by simp)]
    exact .blank hblank
  | @malformed x typed cause c htypes hread =>
    obtain ⟨-, hreply, hblank⟩ := htypes
    refine ⟨[x], (asks_asked c x).noting _, endsBy_trouble ?_⟩
    rw [Context.head?_of_reply hreply (by simp)]
    exact .malformed hblank hread
  | @invalid x typed e cause c after htypes hread _ ih =>
    obtain ⟨names, hasks, hends⟩ := ih
    -- the root of the error is what it was inside of the prompt
    rw [(asks_inside c x typed).replies] at hends
    have hinvalid : EndsBy _ names (.error (.invalid x cause)) := hends.of_root rfl
    exact ⟨_, ((asks_inside c x typed).trans hasks).storing _, hinvalid.behind (htypes.allRead hread)⟩
  | @bound x typed e z c after htypes hread _ ih =>
    obtain ⟨names, hasks, hends⟩ := ih
    rw [(asks_inside c x typed).replies] at hends
    exact ⟨_, (((asks_inside c x typed).trans hasks).storing _).noting _, hends.behind (htypes.allRead hread)⟩
  | binary _ _ _ iha ihb =>
    obtain ⟨names, hasks, hends⟩ := iha
    obtain ⟨others, hasks', hends'⟩ := ihb
    exact ⟨_, hasks.trans hasks', EndsBy.both hasks hends (.value hends'.allRead_of_value)⟩
  | divided _ _ _ iha ihb =>
    obtain ⟨names, hasks, hends⟩ := iha
    obtain ⟨others, hasks', hends'⟩ := ihb
    exact ⟨_, hasks.trans hasks', EndsBy.both hasks hends (.division hends'.allRead_of_value rfl)⟩
  | left _ ih => exact ih
  | right _ _ iha ihb =>
    obtain ⟨names, hasks, hends⟩ := iha
    obtain ⟨others, hasks', hends'⟩ := ihb
    exact ⟨_, hasks.trans hasks', EndsBy.both hasks hends hends'⟩
  | call _ ih =>
    obtain ⟨names, hasks, hends⟩ := ih
    exact ⟨names, hasks, .value hends.allRead_of_value⟩
  | argument _ ih => exact ih

/-! ## 3. Evaluations with finitely many replies -/

/-- An evaluation of a source text with the given replies ends with the result after the requests. -/
structure EndsWithReplies (source : String) (replies : List Reply) (r : Except Error (Number × Expr))
    (requested : List String) : Prop where
  /-- The expression of the source has a run that no count of open prompts bounds, and it has the same outcome. -/
  runs : ∀ e, Expr.parse source = .ok e → ∃ v after, Runs e (.started source replies) v after ∧
    r = v.map (fun z => (z, e)) ∧ requested = after.script.requested
  bound : requested.length ≤ replies.length + 1
  /-- All replies that were taken before the last one. -/
  read : AllRead (requested.length - 1) replies
  readAll : ∀ result, r = .ok result → AllRead requested.length replies
  cause : ∀ x name, r = .error x → requested.getLast? = some name → x.root ≠ .divisionByZero →
    Trouble name replies[requested.length - 1]? x.root

theorem EndsBy.endsWithReplies {source : String} {replies : List Reply} {names : List String} {e : Expr}
    {v : Except Error Number} {after : Context} (hread : Expr.parse source = .ok e)
    (hrun : Runs e (.started source replies) v after) (hasks : after.script.requested = names)
    (h : EndsBy replies names v) :
    EndsWithReplies source replies (v.map fun z => (z, e)) names := by
  have hruns : ∀ e', Expr.parse source = .ok e' → ∃ v' after', Runs e' (.started source replies) v' after' ∧
      v.map (fun z => (z, e)) = v'.map (fun z => (z, e')) ∧ names = after'.script.requested := by
    intro e' hread'
    rw [hread] at hread'
    cases hread'
    exact ⟨v, after, hrun, rfl, hasks.symm⟩
  cases h with
  | value hall =>
    refine ⟨hruns, ?_, ?_, fun _ _ => hall, nofun⟩
    · have hle := hall.le_length
      omega
    · exact fun i hi => hall i (by omega)
  | division hall hroot =>
    refine ⟨hruns, ?_, ?_, nofun, ?_⟩
    · have hle := hall.le_length
      omega
    · exact fun i hi => hall i (by omega)
    · intro x name hx _ hcause
      cases hx
      exact absurd hroot hcause
  | @trouble names name x hall htrouble =>
    -- the replies that were read are those before the last request, which may be one more than there are
    have hlength : (names ++ [name]).length - 1 = names.length := by simp
    refine ⟨hruns, ?_, ?_, nofun, ?_⟩
    · have hle := hall.le_length
      rw [List.length_append, List.length_singleton]
      omega
    · rw [hlength]
      exact hall
    · intro y last hy hlast _
      cases hy
      rw [List.getLast?_concat] at hlast
      cases hlast
      rw [hlength]
      exact htrouble

/-- With finitely many replies every evaluation ends, after at most one request more than there are replies.  Of the
replies it took, all but the last were expressions, and the last one too if there is a value.  A failure behind a
request, other than a division by zero, has for its innermost cause what went wrong with the last reply. -/
theorem evaluate_endsWithReplies (source : String) (replies : List Reply) :
    EndsWithReplies source replies (evaluate source replies).1 (evaluate source replies).2.script.requested := by
  rcases evaluate_cases source replies with ⟨cause, hread, heval⟩ | ⟨e, x, after, hread, hrun, heval⟩ |
      ⟨e, z, after, hread, hrun, heval⟩
  · rw [heval]
    constructor
    · intro e he
      rw [hread] at he
      cases he
    · exact Nat.zero_le _
    · exact allRead_zero replies
    · exact nofun
    · exact nofun
  · obtain ⟨names, hasks, hends⟩ := hrun.endsBy
    rw [heval]
    rw [show after.script.requested = names from hasks.requested]
    exact hends.endsWithReplies hread hrun hasks.requested
  · obtain ⟨names, hasks, hends⟩ := hrun.endsBy
    rw [heval]
    show EndsWithReplies source replies _ after.script.requested
    rw [show after.script.requested = names from hasks.requested]
    exact hends.endsWithReplies hread hrun hasks.requested

/-- A variable whose value is typed as its own name is asked for once more than there are replies. -/
example : (evaluate "x" [.text "x", .text "x"]).2.script.requested = ["x", "x", "x"] := by decide +kernel

/-! ## 4. Replies that were not taken -/

theorem AgreeFor.of_append {n : Nat} {replies : List Reply} (h : n ≤ replies.length) (more : List Reply) :
    AgreeFor n replies (replies ++ more) := by
  intro i hi
  rw [List.getElem?_append_left (by omega)]

/-- The context with other replies still unread. -/
def Context.withReplies (c : Context) (replies : List Reply) : Context :=
  { c with script := { c.script with replies } }

/-- A run takes so many replies that with others it would go the same way, if they start with the same ones. -/
theorem Runs.takesFromFront {e c r after} (h : Runs e c r after) :
    ∃ names, Asks c after names ∧ ∀ replies, AgreeFor names.length c.script.replies replies →
      Runs e (c.withReplies replies) r (after.withReplies (replies.drop names.length)) := by
  obtain ⟨f, rfl, -, hcarries⟩ := h.hasEffect
  refine ⟨f.names, ⟨rfl, rfl⟩, fun replies hagree => ?_⟩
  exact hcarries (c.withReplies replies) ⟨hagree, fun _ _ => rfl⟩

/-- An evaluation looks only at the replies that it takes, and leaves the others. -/
theorem evaluate_withReplies (source : String) {replies others : List Reply}
    (h : AgreeFor (evaluate source replies).2.script.requested.length replies others) :
    evaluate source others = ((evaluate source replies).1,
      (evaluate source replies).2.withReplies
        (others.drop (evaluate source replies).2.script.requested.length)) := by
  rcases evaluate_cases source replies with ⟨cause, hread, heval⟩ | ⟨e, x, after, hread, hrun, heval⟩ |
      ⟨e, z, after, hread, hrun, heval⟩
  · rw [heval, evaluate_of_parse_error hread]
    rfl
  · obtain ⟨names, hasks, hothers⟩ := hrun.takesFromFront
    have hrequested : after.script.requested = names := hasks.requested
    rw [heval, hrequested] at h
    rw [heval, hrequested]
    exact evaluate_of_runs_error hread (hothers others h)
  · obtain ⟨names, hasks, hothers⟩ := hrun.takesFromFront
    have hrequested : (after.noting [.evaluated source z after.store.size]).script.requested = names := hasks.requested
    rw [heval, hrequested] at h
    rw [heval, hrequested]
    exact evaluate_of_runs_ok hread (hothers others h)

/-- With the other replies the source text is evaluated as with the first ones: what comes of it, what is asked for, all
events and so all messages are the same, and what is behind the replies that were asked for is still unread. -/
structure EvaluatesAlike (source : String) (replies others : List Reply) : Prop where
  result : (evaluate source others).1 = (evaluate source replies).1
  requested : (evaluate source others).2.script.requested = (evaluate source replies).2.script.requested
  transcript : (evaluate source others).2.transcript = (evaluate source replies).2.transcript
  store : (evaluate source others).2.store = (evaluate source replies).2.store
  unread : (evaluate source others).2.script.replies =
    others.drop (evaluate source replies).2.script.requested.length

/-- Two evaluations of a source text go alike if their replies agree as far as the first one asks for replies. -/
theorem evaluate_alike_of_agreeFor (source : String) (replies others : List Reply)
    (h : AgreeFor (evaluate source replies).2.script.requested.length replies others) :
    EvaluatesAlike source replies others := by
  have heval := evaluate_withReplies source h
  constructor
  · rw [heval]
  · rw [heval]
    rfl
  · rw [heval]
    rfl
  · rw [heval]
    rfl
  · rw [heval]
    rfl

/-- A prompt for which there is no reply goes as a cancelled one, and the reply behind it is not taken. -/
theorem evaluate_alike_cancelled : EvaluatesAlike "x" [.text "y"] [.text "y", .cancelled, .text "5"] := by
  have hrequested : (evaluate "x" [.text "y"]).2.script.requested = ["x", "y"] := by decide +kernel
  apply evaluate_alike_of_agreeFor
  rw [hrequested]
  intro i hi
  match i, hi with
  | 0, _ => rfl
  | 1, _ => rfl

end ComplexCalc
