import DeferredLog.Logger

/-!
# Sessions

A logger in use: the state of its handlers, the actions that its calls have given so far, and what
has been written. Calls add actions and write nothing; running an action writes and adds none.

* `Session.transcript_keep`: a call leaves the transcript as it is.
* `Session.actions_run`: running an action leaves the actions as they are.
-/

namespace DeferredLog

/-- A logger in use. -/
structure Session (σ : Type) where
  /-- The logger. -/
  logger : Logger σ
  /-- The state that its handlers share. -/
  state : σ
  /-- The actions of its calls, the first one first. -/
  actions : List Action
  /-- What has been written. -/
  transcript : Transcript

namespace Session

variable {σ : Type}

/-- The start of a session. -/
def new (logger : Logger σ) (state : σ) : Session σ :=
  ⟨logger, state, [], .empty⟩

/-- The session after a call with the given outcome. -/
def keep (session : Session σ) (outcome : Except LoggerFault Action × σ) : Session σ :=
  { session with
    state := outcome.2
    actions := session.actions ++ outcome.1.toOption.toList }

/-- The session after a call of the logger by names. -/
def call (session : Session σ) (selector : Selector) (arguments : List Json) : Session σ :=
  session.keep (session.logger.call selector arguments session.state)

/-- The session after a call that does not ask whether the names are known. -/
def evaluate (session : Session σ) (selector : Selector) (arguments : List Json) : Session σ :=
  session.keep (session.logger.evaluate selector arguments session.state)

/-- The session with another state of the handlers. -/
def change (session : Session σ) (f : σ → σ) : Session σ :=
  { session with state := f session.state }

/-- The session after running the action of a number, as many times as given. -/
def run (session : Session σ) (slot times : Nat) : Session σ :=
  match session.actions[slot]? with
  | none => session
  | some action =>
    { session with
      transcript := action.runTimes session.logger.sink session.transcript times }

@[simp]
theorem transcript_keep (session : Session σ) (outcome : Except LoggerFault Action × σ) :
    (session.keep outcome).transcript = session.transcript := rfl

@[simp]
theorem transcript_change (session : Session σ) (f : σ → σ) :
    (session.change f).transcript = session.transcript := rfl

@[simp]
theorem actions_run (session : Session σ) (slot times : Nat) :
    (session.run slot times).actions = session.actions := by
  rw [run]
  split <;> rfl

end Session

end DeferredLog
