import DeferredLog.Token.Lexer
import DeferredLog.Tree

/-!
# From tokens to trees

`Tree.ofTokens` pairs up the delimiters of a list of tokens. The groups that are still open wait on
a stack; a closing token takes the innermost one. It fails at a closing token that closes nothing
or another kind of group, at a middle piece of a template literal outside of one, and at the end at
the innermost group still open.

* `Tree.ofTokens_flatten`: the trees hold exactly the tokens they were made of, in order.
-/

namespace DeferredLog

namespace Tree

/-- The delimiter that a token opens. -/
def opened? : TokenKind → Option Delimiter
  | .openParen => some .paren
  | .openBracket => some .bracket
  | .openBrace => some .brace
  | .templateHead => some .template
  | _ => none

/-- The delimiter that a token closes. -/
def closed? : TokenKind → Option Delimiter
  | .closeParen => some .paren
  | .closeBracket => some .bracket
  | .closeBrace => some .brace
  | .templateTail => some .template
  | _ => none

/-- A group that is still open. -/
structure Frame where
  /-- Its delimiter. -/
  delimiter : Delimiter
  /-- Its opening token. -/
  opening : Token
  /-- The trees before it, the last one first. -/
  before : List Tree

/-- The open groups, the innermost first, and the trees inside the innermost one or outside of all
of them, the last one first. -/
structure Pending where
  /-- The open groups. -/
  frames : List Frame
  /-- The trees since the last of them opened. -/
  current : List Tree

/-- One more token. -/
def Pending.push (pending : Pending) (token : Token) : Except Fault Pending :=
  match opened? token.kind, closed? token.kind with
  | some delimiter, _ => .ok ⟨⟨delimiter, token, pending.current⟩ :: pending.frames, []⟩
  | none, some closing =>
    match pending.frames with
    | [] => .error ⟨.unexpectedClose closing, token.start⟩
    | frame :: frames =>
      if frame.delimiter = closing then
        .ok ⟨frames,
          .group frame.delimiter frame.opening token pending.current.reverse :: frame.before⟩
      else .error ⟨.mismatchedClose frame.delimiter closing, token.start⟩
  | none, none =>
    if token.kind = .templateMiddle && pending.frames.head?.map (·.delimiter) != some .template then
      .error ⟨.unexpectedClose .brace, token.start⟩
    else .ok ⟨pending.frames, .leaf token :: pending.current⟩

/-- The trees of all tokens, once every group is closed. -/
def Pending.finish (pending : Pending) : Except Fault (List Tree) :=
  match pending.frames with
  | [] => .ok pending.current.reverse
  | frame :: _ => .error ⟨.unclosed frame.delimiter, frame.opening.start⟩

/-- The trees of a list of tokens behind the pending ones. -/
def Pending.run (pending : Pending) : List Token → Except Fault (List Tree)
  | [] => pending.finish
  | token :: tokens =>
    match pending.push token with
    | .error fault => .error fault
    | .ok pending => pending.run tokens

/-- The trees of a list of tokens. -/
def ofTokens (tokens : List Token) : Except Fault (List Tree) :=
  Pending.run ⟨[], []⟩ tokens

/-- The trees of a program text. -/
def parse (source : List Char) : Except Fault (List Tree) :=
  match Token.scan source with
  | .error fault => .error fault
  | .ok tokens => ofTokens tokens

/-! ## Nothing is lost -/

/-- The tokens of the open groups in order. -/
def framesFlatten : List Frame → List Token
  | [] => []
  | frame :: frames =>
    framesFlatten frames ++ flattenAll frame.before.reverse ++ [frame.opening]

/-- The pending tokens in order. -/
def Pending.flatten (pending : Pending) : List Token :=
  framesFlatten pending.frames ++ flattenAll pending.current.reverse

theorem Pending.flatten_push {pending pending' : Pending} {token : Token}
    (h : pending.push token = .ok pending') : pending'.flatten = pending.flatten ++ [token] := by
  unfold Pending.push at h
  split at h
  · simp only [Except.ok.injEq] at h
    subst h
    simp [Pending.flatten, framesFlatten, flattenAll]
  · split at h
    · cases h
    · rename_i hf
      split at h
      · simp only [Except.ok.injEq] at h
        subst h
        simp [Pending.flatten, framesFlatten, flattenAll, Tree.flatten, hf]
      · cases h
  · split at h
    · cases h
    · simp only [Except.ok.injEq] at h
      subst h
      simp [Pending.flatten, flattenAll, Tree.flatten]

theorem Pending.flatten_run {pending : Pending} {tokens : List Token} {trees : List Tree}
    (h : pending.run tokens = .ok trees) : flattenAll trees = pending.flatten ++ tokens := by
  induction tokens generalizing pending with
  | nil =>
    simp only [Pending.run, Pending.finish] at h
    split at h
    · rename_i hf
      simp only [Except.ok.injEq] at h
      subst h
      simp [Pending.flatten, hf, framesFlatten]
    · cases h
  | cons token tokens ih =>
    rw [Pending.run] at h
    split at h
    · cases h
    · rename_i hp
      rw [ih h, Pending.flatten_push hp]
      simp

/-- The trees hold the tokens they were made of. -/
theorem ofTokens_flatten {tokens : List Token} {trees : List Tree}
    (h : ofTokens tokens = .ok trees) : flattenAll trees = tokens := by
  simpa [Pending.flatten, framesFlatten, flattenAll] using Pending.flatten_run h

end Tree

end DeferredLog
