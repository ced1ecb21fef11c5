import DeferredLog.Token.Gap
import DeferredLog.Token.Lexeme

/-!
# The tokens of a text

`Token.scan` reads a text token by token: a gap, then a lexeme, then the rest in the context that
the lexeme leaves behind. A first line that starts with `#!` is no part of the program.

* `Token.interpreterLine_append`: nothing is lost before the first gap.
* `Token.stop_ofLexeme`: a token ends as many bytes behind its start as its text has.
-/

namespace DeferredLog

namespace Token

/-- The token made of a lexeme, behind the gap that ends where it starts. -/
def ofLexeme (offset : Nat) (gap : List Char) (lexeme : Lexeme) : Token where
  kind := lexeme.kind
  text := String.ofList lexeme.text
  start := offset + Text.size gap
  newlineBefore := gap.any Text.isLineBreak

theorem stop_ofLexeme (offset : Nat) (gap : List Char) (lexeme : Lexeme) :
    (ofLexeme offset gap lexeme).stop = offset + Text.size gap + Text.size lexeme.text := by
  simp [ofLexeme, stop]

/-- Behind a gap and a lexeme the text is shorter. -/
theorem rest_shorter {context : Context} {offset : Nat} {cs gap rest : List Char} {c : Char}
    {lexeme : Lexeme} (hgap : Gap.skip .blank offset cs = .ok (gap, c :: rest))
    (hread : Lexeme.read context c rest = .ok lexeme) : lexeme.rest.length < cs.length := by
  have h₁ := congrArg List.length (Gap.skip_append hgap)
  have h₂ := congrArg List.length (Lexeme.read_append hread).1
  have h₃ := List.length_pos_iff.mpr (Lexeme.read_append hread).2
  simp only [List.length_append, List.length_cons] at h₁ h₂
  omega

/-- The tokens of a text that starts at `offset` in the given context. -/
def scanFrom (context : Context) (offset : Nat) (cs : List Char) : Except Fault (List Token) :=
  match hgap : Gap.skip .blank offset cs with
  | .error fault => .error fault
  | .ok (_, []) => .ok []
  | .ok (gap, c :: rest) =>
    match hread : Lexeme.read context c rest with
    | .error cause => .error ⟨cause, offset + Text.size gap⟩
    | .ok lexeme =>
      have : lexeme.rest.length < cs.length := rest_shorter hgap hread
      let token := ofLexeme offset gap lexeme
      match scanFrom (context.behind token.kind token.text) token.stop lexeme.rest with
      | .error fault => .error fault
      | .ok tokens => .ok (token :: tokens)
termination_by cs.length

/-- Splits off a first line that names an interpreter. -/
def interpreterLine : List Char → List Char × List Char
  | '#' :: '!' :: cs =>
    ('#' :: '!' :: cs.takeWhile (!Text.isLineBreak ·), cs.dropWhile (!Text.isLineBreak ·))
  | cs => ([], cs)

/-- The tokens of a program text. -/
def scan (source : List Char) : Except Fault (List Token) :=
  scanFrom .start (Text.size (interpreterLine source).1) (interpreterLine source).2

theorem interpreterLine_append (source : List Char) :
    (interpreterLine source).1 ++ (interpreterLine source).2 = source := by
  unfold interpreterLine
  split <;> simp

end Token

end DeferredLog
