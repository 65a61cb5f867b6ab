/-!
What comes back from prompts: replies used up in order, one for each name that is asked for.
-/

namespace ComplexCalc

/-- One reply to a prompt, or one line of input. -/
inductive Reply where
  | text (typed : String)
  | cancelled
  /-- The line is no UTF-8 text. It is used up all the same. -/
  | unreadable
deriving DecidableEq, Repr

/-- The text of a reply that has one. -/
def Reply.text? : Reply → Option String
  | .text typed => some typed
  | .cancelled => none
  | .unreadable => none

/-- The replies still unread and the names asked for so far. -/
structure Script where
  replies : List Reply
  requested : List String := []
deriving DecidableEq, Repr

namespace Script

def ofReplies (replies : List Reply) : Script :=
  ⟨replies, []⟩

/-- One more cancelled prompt after the replies there are. -/
def thenCancel (s : Script) : Script :=
  { s with replies := s.replies ++ [.cancelled] }

/-- Asks for a name. When no reply is left the prompt is cancelled. -/
def request (s : Script) (x : String) : Reply × Script :=
  match s.replies with
  | [] => (.cancelled, ⟨[], s.requested ++ [x]⟩)
  | reply :: rest => (reply, ⟨rest, s.requested ++ [x]⟩)

@[simp] theorem requested_request (s : Script) (x : String) :
    (s.request x).2.requested = s.requested ++ [x] := by
  unfold request
  split <;> rfl

@[simp] theorem replies_request (s : Script) (x : String) : (s.request x).2.replies = s.replies.tail := by
  unfold request
  split <;> rename_i h <;> simp [h]

end Script

end ComplexCalc
