import DeferredLog.Literal
import DeferredLog.Proofs.Token.Comment

/-!
# String literals

A string literal of the language stands between two equal quotes. It is made of characters that stand for
themselves, of escapes, and of continuations: a backslash behind which the line ends, with one of five line
ends. `Literal.unescape` knows all of them, and the reader of tokens all but one.

* `Literal.stringText_spell`: a string is read piece by piece up to its quote.
* `Literal.scan_spell`: a literal is one token, unless it goes on behind a carriage return with a line feed.
  There the backslash takes the carriage return along, and the line feed ends the line before the literal is
  closed.
* `Literal.not_forall_scan_spell`: so not every literal is a token.
-/

namespace DeferredLog

namespace Token

/-- Where no lexeme can be read, no text can be scanned. -/
theorem scanFrom_of_read {context : Context} {offset : Nat} {cs gap rest : List Char} {c : Char}
    {cause : Cause} (hgap : Gap.skip .blank offset cs = .ok (gap, c :: rest))
    (hread : Lexeme.read context c rest = .error cause) :
    scanFrom context offset cs = .error ⟨cause, offset + Text.size gap⟩ := by
  unfold scanFrom
  split
  · rename_i h
    cases hgap.symm.trans h
  · rename_i h
    cases hgap.symm.trans h
  · rename_i h
    cases hgap.symm.trans h
    split
    · rename_i h
      cases hread.symm.trans h
      rfl
    · rename_i h
      cases hread.symm.trans h

end Token

namespace Literal

open Lexeme (stringText)

/-- The ends of a line behind which a literal can go on. -/
inductive LineEnd where
  | lineFeed
  | carriageReturn
  /-- A carriage return with a line feed, which are one line end. -/
  | both
  | lineSeparator
  | paragraphSeparator
  deriving DecidableEq, Repr

/-- The characters of a line end. -/
def LineEnd.chars : LineEnd → List Char
  | lineFeed => ['\n']
  | carriageReturn => ['\r']
  | both => ['\r', '\n']
  | lineSeparator => ['\u2028']
  | paragraphSeparator => ['\u2029']

/-- A piece of a literal. -/
inductive Piece where
  /-- A character that stands for itself. -/
  | plain (c : Char)
  /-- A backslash with a character. -/
  | escape (c : Char)
  /-- A backslash at the end of a line. -/
  | continuation (lineEnd : LineEnd)
  deriving DecidableEq, Repr

namespace Piece

/-- How a piece is written. -/
def spell : Piece → List Char
  | plain c => [c]
  | escape c => ['\\', c]
  | continuation lineEnd => '\\' :: lineEnd.chars

/-- Whether a piece can stand in a literal with the given quotes. -/
def Fits (quote : Char) : Piece → Prop
  | plain c => c ≠ quote ∧ c ≠ '\\' ∧ c ≠ '\n' ∧ c ≠ '\r'
  | escape c => c ≠ '\r'
  | continuation _ => True

instance (quote : Char) (piece : Piece) : Decidable (piece.Fits quote) :=
  match piece with
  | plain c => inferInstanceAs (Decidable (c ≠ quote ∧ c ≠ '\\' ∧ c ≠ '\n' ∧ c ≠ '\r'))
  | escape c => inferInstanceAs (Decidable (c ≠ '\r'))
  | continuation _ => .isTrue trivial

end Piece

/-- How a literal is written. -/
def spell (quote : Char) (pieces : List Piece) : List Char :=
  quote :: (pieces.flatMap Piece.spell ++ [quote])

/-! ## Reading -/

/-- A backslash takes the next character along. -/
theorem stringText_escape (quote c : Char) (cs : List Char) :
    stringText quote ('\\' :: c :: cs) = (stringText quote cs).map fun r => ('\\' :: c :: r.1, r.2) := by
  rw [stringText]

variable {quote : Char} {piece : Piece} {pieces : List Piece}

/-- A piece is taken along with what follows it, if it is not the continuation that is missed. -/
theorem stringText_piece (hp : piece.Fits quote) (hboth : piece ≠ .continuation .both) (cs : List Char) :
    stringText quote (piece.spell ++ cs) =
      (stringText quote cs).map fun r => (piece.spell ++ r.1, r.2) := by
  cases piece with
  | plain c =>
    obtain ⟨hquote, hslash, hn, hr⟩ := hp
    rw [Piece.spell, List.singleton_append, stringText, if_neg hquote, if_neg (by simp [hn, hr])]
    · rfl
    · exact fun h => absurd h hslash
    · exact fun _ _ h => absurd h hslash
  | escape c => exact stringText_escape quote c cs
  | continuation lineEnd =>
    cases lineEnd with
    | both => exact absurd rfl hboth
    | _ => exact stringText_escape quote _ cs

/-- Behind a carriage return that a backslash took along, a line feed ends the line. -/
theorem stringText_both (hn : quote ≠ '\n') (cs : List Char) :
    stringText quote ((Piece.continuation .both).spell ++ cs) = none := by
  have hline : stringText quote ('\n' :: cs) = none := by
    rw [stringText, if_neg hn.symm, if_pos (by decide)]
    · exact fun h => absurd h (by decide)
    · exact fun _ _ h => absurd h (by decide)
  show stringText quote ('\\' :: '\r' :: '\n' :: cs) = none
  rw [stringText_escape, hline, Option.map_none]

/-- **A string is read piece by piece up to its quote**, if no piece is the continuation that is missed. -/
theorem stringText_spell (hquote : quote = '"' ∨ quote = '\'') (h : ∀ piece ∈ pieces, piece.Fits quote)
    (rest : List Char) :
    stringText quote (pieces.flatMap Piece.spell ++ quote :: rest) =
      if .continuation .both ∈ pieces then none
      else some (pieces.flatMap Piece.spell ++ [quote], rest) := by
  have hslash : quote ≠ '\\' := by rcases hquote with rfl | rfl <;> decide
  have hn : quote ≠ '\n' := by rcases hquote with rfl | rfl <;> decide
  induction pieces with
  | nil =>
    rw [List.flatMap_nil, List.nil_append, stringText, if_pos rfl, if_neg List.not_mem_nil]
    · rfl
    · exact fun h => absurd h hslash
    · exact fun _ _ h => absurd h hslash
  | cons piece pieces ih =>
    obtain ⟨hp, hpieces⟩ := List.forall_mem_cons.mp h
    rw [List.flatMap_cons, List.append_assoc]
    by_cases hboth : piece = .continuation .both
    · subst hboth
      rw [stringText_both hn, if_pos List.mem_cons_self]
    · have hmem : .continuation .both ∈ piece :: pieces ↔ .continuation .both ∈ pieces := by
        rw [List.mem_cons, or_iff_right (Ne.symm hboth)]
      rw [stringText_piece hp hboth, ih hpieces]
      simp only [hmem]
      split
      · rfl
      · rw [Option.map_some, List.append_assoc]

/-- A literal starts where it is read, behind no gap. -/
theorem skip_spell (hquote : quote = '"' ∨ quote = '\'') (pieces : List Piece) :
    Gap.skip .blank 0 (spell quote pieces) = .ok ([], spell quote pieces) := by
  have hspace : Gap.isSpace quote = false := by rcases hquote with rfl | rfl <;> decide +kernel
  have hslash : quote ≠ '/' := by rcases hquote with rfl | rfl <;> decide
  exact Gap.endsBefore_cons_iff.mpr ⟨hspace, fun h => absurd h hslash⟩ 0

/-- At its quote a literal is read. -/
theorem read_spell (hquote : quote = '"' ∨ quote = '\'') (h : ∀ piece ∈ pieces, piece.Fits quote) :
    Lexeme.read .start quote (pieces.flatMap Piece.spell ++ [quote]) =
      if .continuation .both ∈ pieces then .error .unterminatedString
      else .ok ⟨.string, spell quote pieces, []⟩ := by
  have hread : ∀ cs, Lexeme.read .start quote cs = Lexeme.string quote cs := by
    rcases hquote with rfl | rfl <;> exact fun _ => rfl
  rw [hread, Lexeme.string, stringText_spell hquote h]
  by_cases hboth : .continuation .both ∈ pieces
  · rw [if_pos hboth, if_pos hboth]
  · rw [if_neg hboth, if_neg hboth]
    rfl

/-- **A string literal is one token**, unless it goes on behind a carriage return with a line feed: then it
counts as not closed. -/
theorem scan_spell (hquote : quote = '"' ∨ quote = '\'') (h : ∀ piece ∈ pieces, piece.Fits quote) :
    Token.scan (spell quote pieces) =
      if .continuation .both ∈ pieces then .error ⟨.unterminatedString, 0⟩
      else .ok [⟨.string, String.ofList (spell quote pieces), 0, false⟩] := by
  have hline : Token.interpreterLine (spell quote pieces) = ([], spell quote pieces) := by
    rcases hquote with rfl | rfl <;> rfl
  have hgap := skip_spell hquote pieces
  have hread := read_spell hquote h
  rw [Token.scan, hline]
  by_cases hboth : .continuation .both ∈ pieces
  · rw [if_pos hboth] at hread ⊢
    exact Token.scanFrom_of_read hgap hread
  · rw [if_neg hboth] at hread ⊢
    rw [← List.append_nil (spell quote pieces)] at hgap
    have hscans : Token.Scans .start 0 ([] ++ (spell quote pieces ++ []))
        [.ofLexeme 0 [] ⟨.string, spell quote pieces, []⟩] :=
      .token hgap (by rwa [List.append_nil]) (.done rfl)
    rw [List.nil_append, List.append_nil] at hscans
    exact hscans.scanFrom

/-- Escaped quotes and backslashes and four of the five line ends, one behind the other. -/
def samplePieces : List Piece :=
  [.plain '"', .escape '\'', .continuation .lineFeed, .escape '\\', .continuation .carriageReturn,
    .continuation .lineSeparator, .plain 'é', .escape '\u2029', .escape '\\']

theorem scan_spell_sample : (∀ piece ∈ samplePieces, piece.Fits '\'') ∧
    Token.scan (spell '\'' samplePieces) =
      .ok [⟨.string, "'\"\\'\\\n\\\\\\\r\\\u2028é\\\u2029\\\\'", 0, false⟩] := by
  have hfits : ∀ piece ∈ samplePieces, piece.Fits '\'' := by decide
  have hspell : String.ofList (spell '\'' samplePieces) =
      "'\"\\'\\\n\\\\\\\r\\\u2028é\\\u2029\\\\'" := by
    decide +kernel
  have hboth : .continuation .both ∉ samplePieces := by decide
  have hscan := scan_spell (.inr rfl) hfits
  rw [if_neg hboth, hspell] at hscan
  exact ⟨hfits, hscan⟩

/-- **Not every string literal is a token.** The one that holds nothing but a backslash before a carriage
return with a line feed is refused as not closed. -/
theorem not_forall_scan_spell : ¬ ∀ (quote : Char) (pieces : List Piece), quote = '"' ∨ quote = '\'' →
    (∀ piece ∈ pieces, piece.Fits quote) →
      Token.scan (spell quote pieces) = .ok [⟨.string, String.ofList (spell quote pieces), 0, false⟩] := by
  intro hall
  have hscan := hall '\'' [.continuation .both] (.inr rfl) (by decide)
  have hrefused : Token.scan (spell '\'' [.continuation .both]) = .error ⟨.unterminatedString, 0⟩ := by
    decide +kernel
  rw [hrefused] at hscan
  cases hscan

/-! ## What a continuation stands for -/

/-- Every line end continues a literal, the one too behind which none can be read. -/
theorem unescape_continuation {lineEnd : LineEnd} {cs : List Char}
    (h : lineEnd = .carriageReturn → cs.head? ≠ some '\n') :
    unescape ((Piece.continuation lineEnd).spell ++ cs) = unescape cs := by
  cases lineEnd with
  | carriageReturn =>
    show unescape ('\\' :: '\r' :: cs) = unescape cs
    rw [unescape, if_pos (by decide)]
    · exact fun hx => absurd hx (by decide)
    · exact fun _ hu => absurd hu (by decide)
    · exact fun hu => absurd hu (by decide)
    · rintro more - rfl
      exact h rfl rfl
  | both =>
    show unescape ('\\' :: '\r' :: '\n' :: cs) = unescape cs
    rw [unescape]
  | _ =>
    simp [Piece.spell, LineEnd.chars, unescape, continues]

end Literal

end DeferredLog
