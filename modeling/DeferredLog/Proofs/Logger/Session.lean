import Mathlib.Data.List.Induction
import DeferredLog.Logger.Session
import DeferredLog.Proofs.Logger.Names

/-!
# What a session writes

Calls give actions and only running an action writes. So what a session has written can be told from its
steps: each step that runs an action which is a console call writes that call, and no other step writes
anything. The call is the one that the handlers had settled on when the action was made, whatever has
been called or changed since.

* `Session.Step`: what can happen in a session.
* `Session.made`: the actions that the calls among some steps give, each in the state of its time.
* `Session.transcript_after`: what has been written after any steps.
-/

namespace DeferredLog

namespace Session

variable {σ : Type}

/-- What can happen in a session. -/
inductive Step (σ : Type) where
  /-- A call by names. -/
  | call (selector : Selector) (arguments : List Json)
  /-- A call that does not ask whether the names are known. -/
  | evaluate (selector : Selector) (arguments : List Json)
  /-- A change of the state that the handlers share. -/
  | change (f : σ → σ)
  /-- Running the action of a number, or a function that runs it, as many times as given. -/
  | run (slot times : Nat)

/-- The session after a step. -/
def step (session : Session σ) : Step σ → Session σ
  | .call selector arguments => session.call selector arguments
  | .evaluate selector arguments => session.evaluate selector arguments
  | .change f => session.change f
  | .run slot times => session.run slot times

/-- The session after some steps. -/
def after (session : Session σ) (steps : List (Step σ)) : Session σ :=
  steps.foldl step session

/-! ## What steps do -/

namespace Step

/-- What a step that is a call gives in a state, and the state behind any step. -/
def outcome (logger : Logger σ) (state : σ) : Step σ → Option (Except LoggerFault Action) × σ
  | .call selector arguments =>
    let (outcome, state) := logger.call selector arguments state
    (some outcome, state)
  | .evaluate selector arguments =>
    let (outcome, state) := logger.evaluate selector arguments state
    (some outcome, state)
  | .change f => (none, f state)
  | .run _ _ => (none, state)

/-- The action that a step gives: that of a call which does not fail. -/
def gives (logger : Logger σ) (state : σ) (step : Step σ) : List Action :=
  ((step.outcome logger state).1.bind Except.toOption).toList

/-- The console calls that a step makes, told the actions that there are. -/
def writes (actions : List Action) : Step σ → List Entry
  | .call _ _ | .evaluate _ _ | .change _ => []
  | .run slot times =>
    match actions[slot]? with
    | some (.emit entry) => List.replicate times entry
    | some .noop | none => []

end Step

/-- The state behind some steps. -/
def stateAfter (logger : Logger σ) (state : σ) (steps : List (Step σ)) : σ :=
  steps.foldl (fun state step => (step.outcome logger state).2) state

/-- The actions that the calls among some steps give, each in the state of its time. -/
def made (logger : Logger σ) (state : σ) : List (Step σ) → List Action
  | [] => []
  | step :: steps => step.gives logger state ++ made logger (step.outcome logger state).2 steps

/-- The console calls that some steps make, each step told the actions that were made before it. -/
def written (logger : Logger σ) (state : σ) (steps : List (Step σ)) : List Entry :=
  steps.zipIdx.flatMap fun (step, i) => step.writes (made logger state (steps.take i))

variable {logger : Logger σ} {state : σ}

theorem made_append (first second : List (Step σ)) :
    made logger state (first ++ second) =
      made logger state first ++ made logger (stateAfter logger state first) second := by
  induction first generalizing state with
  | nil => rfl
  | cons step first ih =>
    rw [List.cons_append, made, made, ih, List.append_assoc]
    rfl

theorem written_concat (steps : List (Step σ)) (step : Step σ) :
    written logger state (steps ++ [step]) =
      written logger state steps ++ step.writes (made logger state steps) := by
  rw [written, List.zipIdx_append, List.flatMap_append, written]
  congr 1
  · rw [List.flatMap_def, List.flatMap_def]
    refine congrArg List.flatten (List.map_congr_left fun (step, i) hi => ?_)
    have hlt : i < steps.length := by simpa using (List.mem_zipIdx hi).2.1
    show step.writes (made logger state ((steps ++ [_]).take i)) = _
    rw [List.take_append_of_le_length (Nat.le_of_lt hlt)]
  · simp

/-- What a call gives is what the handlers settle on. -/
theorem Step.exists_of_gives {step : Step σ} {action : Action}
    (h : action ∈ step.gives logger state) : ∃ selector arguments,
      (step = .call selector arguments ∧ logger.Knows selector ∨
        step = .evaluate selector arguments) ∧
      step.gives logger state = [action] ∧
      (logger.chain.evaluate logger.sink selector arguments state).1.action = .ok action := by
  have given : ∀ outcome : Except LoggerFault Action, action ∈ outcome.toOption.toList →
      outcome = .ok action := by
    intro outcome h
    cases outcome with
    | error => cases h
    | ok other =>
      obtain rfl := List.mem_singleton.mp h
      rfl
  cases step with
  | call selector arguments =>
    have hok : (logger.call selector arguments state).1 = .ok action := given _ h
    have hknows := Logger.knows_of_call hok
    have hgives : (Step.call selector arguments).gives logger state =
        (logger.call selector arguments state).1.toOption.toList := rfl
    refine ⟨selector, arguments, .inl ⟨rfl, hknows⟩, by rw [hgives, hok]; rfl, ?_⟩
    rwa [Logger.call_of_knows hknows] at hok
  | evaluate selector arguments =>
    have hok : (logger.evaluate selector arguments state).1 = .ok action := given _ h
    have hgives : (Step.evaluate selector arguments).gives logger state =
        (logger.evaluate selector arguments state).1.toOption.toList := rfl
    exact ⟨selector, arguments, .inr rfl, by rw [hgives, hok]; rfl, hok⟩
  | change | run => cases h

/-- Each of the actions that were made is what the handlers settled on in a call, in the state of its
time. -/
theorem exists_of_made {steps : List (Step σ)} {slot : Nat} {action : Action}
    (h : (made logger state steps)[slot]? = some action) :
    ∃ before step later selector arguments, steps = before ++ step :: later ∧
      (made logger state before).length = slot ∧
      (step = .call selector arguments ∧ logger.Knows selector ∨
        step = .evaluate selector arguments) ∧
      (logger.chain.evaluate logger.sink selector arguments (stateAfter logger state before)).1.action =
        .ok action := by
  induction steps generalizing state slot with
  | nil => cases h
  | cons step steps ih =>
    rw [made] at h
    by_cases hlt : slot < (step.gives logger state).length
    · rw [List.getElem?_append_left hlt] at h
      obtain ⟨selector, arguments, hstep, hgives, haction⟩ :=
        Step.exists_of_gives (List.mem_of_getElem? h)
      refine ⟨[], step, steps, selector, arguments, rfl, ?_, hstep, haction⟩
      rw [hgives, List.length_singleton] at hlt
      exact (Nat.lt_one_iff.mp hlt).symm
    · have hle := Nat.le_of_not_lt hlt
      rw [List.getElem?_append_right hle] at h
      obtain ⟨before, step', later, selector, arguments, rfl, hlength, hstep, haction⟩ := ih h
      refine ⟨step :: before, step', later, selector, arguments, rfl, ?_, hstep, haction⟩
      rw [made, List.length_append, hlength]
      omega

/-! ## Runs -/

theorem runTimes_emit (entry : Entry) (methods : List String) (transcript : Transcript)
    (times : Nat) :
    (Action.emit entry).runTimes (.memory methods) transcript times =
      { transcript with entries := transcript.entries ++ List.replicate times entry } := by
  induction times generalizing transcript with
  | zero => simp [Action.runTimes]
  | succ n ih =>
    rw [Action.runTimes, ih, List.replicate_succ]
    simp [Action.run, Sink.emit]

theorem runTimes_noop (sink : Sink) (transcript : Transcript) (times : Nat) :
    Action.noop.runTimes sink transcript times = transcript := by
  induction times with
  | zero => rfl
  | succ n ih => exact ih

/-- What a session is, told by the steps behind it. -/
structure Tells (logger : Logger σ) (state : σ) (steps : List (Step σ)) (session : Session σ) : Prop where
  /-- The logger stays the same. -/
  same : session.logger = logger
  /-- The state is that behind the steps. -/
  stands : session.state = stateAfter logger state steps
  /-- The actions are those that the calls have given. -/
  keeps : session.actions = made logger state steps
  /-- What has been written is recorded, and nothing else has been written. -/
  records : session.transcript = { Transcript.empty with entries := written logger state steps }

theorem tells_new (logger : Logger σ) (state : σ) : Tells logger state [] (new logger state) :=
  ⟨rfl, rfl, rfl, rfl⟩

/-- Running an action adds what the step says. -/
theorem transcript_run {methods : List String} {session : Session σ}
    (hsink : session.logger.sink = .memory methods) (slot times : Nat) :
    (session.run slot times).transcript = { session.transcript with
      entries := session.transcript.entries ++
        (Step.run slot times : Step σ).writes session.actions } := by
  rw [run, Step.writes]
  cases session.actions[slot]? with
  | none => simp
  | some action =>
    cases action with
    | emit entry => exact hsink ▸ runTimes_emit entry methods session.transcript times
    | noop => simp [runTimes_noop]

/-- A step does what is told of it. -/
theorem Tells.step {methods : List String} {steps : List (Step σ)} {session : Session σ}
    (hsink : logger.sink = .memory methods) (h : Tells logger state steps session) (step : Step σ) :
    Tells logger state (steps ++ [step]) (session.step step) := by
  obtain ⟨rfl, hstate, hactions, htranscript⟩ := h
  have state_concat : stateAfter session.logger state (steps ++ [step]) =
      (step.outcome session.logger session.state).2 := by
    simp [stateAfter, hstate]
  have made_concat : made session.logger state (steps ++ [step]) =
      session.actions ++ step.gives session.logger session.state := by
    simp [made_append, made, hactions, hstate]
  cases step with
  | call selector arguments | evaluate selector arguments =>
    refine ⟨rfl, state_concat.symm, made_concat.symm, ?_⟩
    rw [written_concat, Step.writes, List.append_nil]
    exact htranscript
  | change f =>
    refine ⟨rfl, state_concat.symm, by rw [made_concat]; exact (List.append_nil _).symm, ?_⟩
    rw [written_concat, Step.writes, List.append_nil]
    exact htranscript
  | run slot times =>
    have hlogger : (session.run slot times).logger = session.logger := by
      rw [run]
      split <;> rfl
    have hrun : (session.run slot times).state = session.state := by
      rw [run]
      split <;> rfl
    refine ⟨hlogger, hrun.trans state_concat.symm, ?_, ?_⟩
    · rw [made_concat]
      exact (actions_run session slot times).trans (List.append_nil _).symm
    · rw [written_concat, ← hactions]
      refine (transcript_run hsink slot times).trans ?_
      rw [htranscript]

theorem tells_after {methods : List String} (hsink : logger.sink = .memory methods)
    (steps : List (Step σ)) : Tells logger state steps ((new logger state).after steps) := by
  induction steps using List.reverseRecOn with
  | nil => exact tells_new logger state
  | append_singleton steps step ih =>
    rw [after, List.foldl_append]
    exact ih.step hsink step

/-- **Output happens only when an action is run.** After any steps of a session with a record, what has
been written is, step by step, the console call of each action that has been run, as often as it was run;
calls, changes and actions that do nothing write nothing. Each action is what the handlers settled on in
the call that gave it, in the state of that time, and no later step alters it. -/
theorem transcript_after (chain : Chain σ) (methods : List String) (state : σ)
    (steps : List (Step σ)) :
    let logger : Logger σ := ⟨chain, .memory methods⟩
    let session := (new logger state).after steps
    session.transcript = { Transcript.empty with entries := written logger state steps } ∧
      session.actions = made logger state steps ∧
      (∀ more, session.actions <+: (session.after more).actions) ∧
      ∀ slot action, session.actions[slot]? = some action →
        ∃ before step later selector arguments, steps = before ++ step :: later ∧
          (made logger state before).length = slot ∧
          (step = .call selector arguments ∧ logger.Knows selector ∨
            step = .evaluate selector arguments) ∧
          match (chain.evaluate (.memory methods) selector arguments
            (stateAfter logger state before)).1 with
          | .pass entry => action = .emit entry
          | .suppress => action = .noop
          | .fail _ => False := by
  intro logger session
  have htells : ∀ steps, Tells logger state steps ((new logger state).after steps) :=
    tells_after rfl
  refine ⟨(htells steps).records, (htells steps).keeps, fun more => ?_, fun slot action h => ?_⟩
  · have hafter : session.after more = (new logger state).after (steps ++ more) :=
      List.foldl_append.symm
    rw [hafter, (htells steps).keeps, (htells _).keeps, made_append]
    exact List.prefix_append ..
  · rw [(htells steps).keeps] at h
    obtain ⟨before, step, later, selector, arguments, hsteps, hlength, hstep, haction⟩ :=
      exists_of_made h
    refine ⟨before, step, later, selector, arguments, hsteps, hlength, hstep, ?_⟩
    change (chain.evaluate (.memory methods) selector arguments _).1.action = _ at haction
    cases hverdict : (chain.evaluate (.memory methods) selector arguments
        (stateAfter logger state before)).1 with
    | pass entry | suppress =>
      rw [hverdict] at haction
      exact (Except.ok.inj haction).symm
    | fail message =>
      rw [hverdict] at haction
      cases haction

end Session

end DeferredLog
