import DeferredLog.Console.Format
import DeferredLog.Console.Method

/-!
# Sinks

Where console calls go: to the two output streams, to the notices, or into a record. What has come
of the calls so far is a transcript.

* `Sink.supports` says which methods a sink has.
* `Sink.emit` adds a call to a transcript. A sink takes calls of methods that it does not have, too.
-/

namespace DeferredLog

/-- A call of a console. -/
structure Entry where
  /-- The name of the method. -/
  method : String
  /-- The arguments. -/
  arguments : List Json
  deriving Repr

/-- What sinks have been given. -/
structure Transcript where
  /-- The text of the output stream. -/
  output : String
  /-- The text of the error stream. -/
  diagnostics : String
  /-- The notices, the last one at the end. -/
  notices : List Notice
  /-- The recorded calls, the last one at the end. -/
  entries : List Entry
  deriving Repr

/-- The transcript before any call. -/
def Transcript.empty : Transcript :=
  ⟨"", "", [], []⟩

/-- Where console calls go. -/
inductive Sink where
  /-- The output streams. -/
  | stdio
  /-- The notices. -/
  | log
  /-- A record, told the methods that it has. -/
  | memory (methods : List String)
  deriving DecidableEq, Repr

namespace Sink

/-- A record with the methods of a console. -/
def recorder : Sink :=
  .memory (ConsoleMethod.all.map (·.name))

/-- The sink with a name. -/
def ofName? (name : String) : Option Sink :=
  if name = "stdio" then some .stdio
  else if name = "log" then some .log
  else if name = "memory" then some recorder
  else none

/-- Whether a sink has a method. -/
def supports (sink : Sink) (method : String) : Bool :=
  match sink with
  | .stdio | .log => (ConsoleMethod.ofName? method).isSome
  | .memory methods => methods.contains method

/-- The notice of a call. An unknown method counts as the fallback. -/
def notice (entry : Entry) : Notice :=
  ⟨((ConsoleMethod.ofName? entry.method).getD .fallback).severity, Format.text entry.arguments⟩

/-- The transcript with the line of a call. Only known methods are for diagnostics. -/
def write (entry : Entry) (transcript : Transcript) : Transcript :=
  let line := Format.text entry.arguments ++ "\n"
  if (ConsoleMethod.ofName? entry.method).any (·.isDiagnostic) then
    { transcript with diagnostics := transcript.diagnostics ++ line }
  else { transcript with output := transcript.output ++ line }

/-- The transcript with a call given to a sink. -/
def emit (sink : Sink) (entry : Entry) (transcript : Transcript) : Transcript :=
  match sink with
  | .stdio => write entry transcript
  | .log => { transcript with notices := transcript.notices ++ [notice entry] }
  | .memory _ => { transcript with entries := transcript.entries ++ [entry] }

end Sink

end DeferredLog
