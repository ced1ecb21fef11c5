import DeferredLog.Text.Size

/-!
# Tokens

A token is a piece of program text that belongs together: a name, a literal, a punctuator or a
delimiter. It knows its text, the byte offset at which it starts, and whether a line break stands
between it and the token before it. Its end follows from its text.
-/

namespace DeferredLog

/-- A range of byte offsets, the end excluded. -/
structure Span where
  /-- The offset of the first byte. -/
  start : Nat
  /-- The offset just behind the last byte. -/
  stop : Nat
  deriving DecidableEq, Repr

namespace Span

/-- Whether an offset lies in the range. -/
def contains (span : Span) (offset : Nat) : Bool :=
  span.start ≤ offset && offset < span.stop

/-- The number of bytes in the range. -/
def length (span : Span) : Nat :=
  span.stop - span.start

end Span

/-- The kinds of tokens. -/
inductive TokenKind where
  | ident
  | punct
  | number
  | string
  | regex
  /-- A template literal without substitutions. -/
  | template
  /-- The piece of a template literal up to its first substitution. -/
  | templateHead
  /-- The piece of a template literal between two substitutions. -/
  | templateMiddle
  /-- The piece of a template literal after its last substitution. -/
  | templateTail
  | openParen
  | closeParen
  | openBracket
  | closeBracket
  | openBrace
  | closeBrace
  deriving DecidableEq, Repr

/-- A token. -/
structure Token where
  /-- Its kind. -/
  kind : TokenKind
  /-- Its text. -/
  text : String
  /-- The byte offset of its first character. -/
  start : Nat
  /-- Whether a line break stands between it and the token before it. -/
  newlineBefore : Bool
  deriving DecidableEq, Repr

namespace Token

/-- The byte offset just behind the token. -/
def stop (token : Token) : Nat :=
  token.start + token.text.utf8ByteSize

/-- The bytes of the token. -/
def span (token : Token) : Span :=
  ⟨token.start, token.stop⟩

/-- Whether the token is the given punctuator. -/
def isPunct (text : String) (token : Token) : Bool :=
  token.kind = .punct && token.text = text

end Token

end DeferredLog
