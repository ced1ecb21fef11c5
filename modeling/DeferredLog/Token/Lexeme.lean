import DeferredLog.Fault
import DeferredLog.Text.Blank
import DeferredLog.Text.Name
import DeferredLog.Token
import DeferredLog.Token.Keyword

/-!
# Lexemes

How far a token reaches. Where a slash or a closing brace stands, that depends on the tokens to the
left, and `Context` keeps what is needed of them:

* what stands directly to the left, since a slash behind an operand divides and elsewhere starts a
  regular expression;
* which open braces are substitutions of a template literal, since there a closing brace continues
  the literal;
* which open parentheses are heads of statements, since behind such a head an expression starts.

`Lexeme.read` takes one lexeme off the front of a text. `Lexeme.readAs_of_read` tells the ways in which it
can have been read, and `Lexeme.read_append` that it is not empty and that nothing is lost.
-/

namespace DeferredLog

/-! ## What stands to the left -/

/-- What stands directly to the left of a place in the text. -/
inductive Left where
  /-- The start of the text, or a token behind which an expression starts. -/
  | operator
  /-- A dot, behind which a word is a member name. -/
  | dot
  /-- A word that is no member name. -/
  | word (text : String)
  /-- A token that ends an operand. -/
  | operand
  deriving DecidableEq, Repr

/-- An open brace. -/
inductive Brace where
  | block
  /-- A substitution in a template literal. -/
  | substitution
  deriving DecidableEq, Repr

/-- What the reading of a token depends on. -/
structure Context where
  /-- What stands to the left. -/
  left : Left
  /-- The open braces, the innermost first. -/
  braces : List Brace
  /-- For each open parenthesis, the innermost first, whether it is the head of a statement. -/
  heads : List Bool
  deriving DecidableEq, Repr

namespace Context

/-- The context at the start of a text. -/
def start : Context := ⟨.operator, [], []⟩

/-- Whether a slash starts a regular expression here. -/
def regexAllowed (context : Context) : Bool :=
  match context.left with
  | .operator | .dot => true
  | .word w => expressionKeywords.contains w
  | .operand => false

/-- Whether a closing brace continues a template literal here. -/
def inSubstitution (context : Context) : Bool :=
  context.braces.head? = some .substitution

/-- Whether a parenthesis that opens here is the head of a statement. -/
def opensHead (context : Context) : Bool :=
  match context.left with
  | .word w => conditionKeywords.contains w
  | _ => false

/-- What a token leaves to its right. -/
def leftOf (context : Context) (kind : TokenKind) (text : String) : Left :=
  match kind with
  | .ident => if context.left = .dot then .operand else .word text
  | .punct =>
    if text = "." || text = "?." then .dot
    else if text = "++" || text = "--" then .operand
    else .operator
  | .closeParen => if context.heads.head? = some true then .operator else .operand
  | .number | .string | .regex | .template | .templateTail | .closeBracket => .operand
  | .closeBrace | .templateHead | .templateMiddle | .openParen | .openBracket | .openBrace =>
    .operator

/-- The open braces behind a token. -/
def bracesBehind (context : Context) (kind : TokenKind) : List Brace :=
  match kind with
  | .openBrace => .block :: context.braces
  | .templateHead => .substitution :: context.braces
  | .closeBrace | .templateTail => context.braces.tail
  | _ => context.braces

/-- The open parentheses behind a token. -/
def headsBehind (context : Context) (kind : TokenKind) : List Bool :=
  match kind with
  | .openParen => context.opensHead :: context.heads
  | .closeParen => context.heads.tail
  | _ => context.heads

/-- The context behind a token. -/
def behind (context : Context) (kind : TokenKind) (text : String) : Context :=
  ⟨context.leftOf kind text, context.bracesBehind kind, context.headsBehind kind⟩

end Context

/-! ## Literals -/

namespace Lexeme

/-- The rest of a string literal, with its closing quote. A backslash takes the next character
along; a line feed or carriage return ends the line before the string is closed. -/
def stringText (quote : Char) : List Char → Option (List Char × List Char)
  | [] => none
  | ['\\'] => none
  | '\\' :: c :: cs => (stringText quote cs).map fun r => ('\\' :: c :: r.1, r.2)
  | c :: cs =>
    if c = quote then some ([c], cs)
    else if c = '\n' || c = '\r' then none
    else (stringText quote cs).map fun r => (c :: r.1, r.2)

/-- The rest of a piece of a template literal, with the mark that ends it, and whether that mark
opens a substitution. -/
def templateText : List Char → Option (Bool × List Char × List Char)
  | [] => none
  | ['\\'] => none
  | '\\' :: c :: cs => (templateText cs).map fun r => (r.1, '\\' :: c :: r.2.1, r.2.2)
  | '\x60' :: cs => some (false, ['\x60'], cs)
  | '$' :: '\x7b' :: cs => some (true, ['$', '\x7b'], cs)
  | c :: cs => (templateText cs).map fun r => (r.1, c :: r.2.1, r.2.2)

/-- The rest of a regular expression, with its closing slash. A slash inside brackets does not
close it; a backslash takes the next character along. -/
def regexText : Bool → List Char → Option (List Char × List Char)
  | _, [] => none
  | _, ['\\'] => none
  | inClass, '\\' :: c :: cs => (regexText inClass cs).map fun r => ('\\' :: c :: r.1, r.2)
  | inClass, c :: cs =>
    if Text.isLineBreak c then none
    else if c = '/' && !inClass then some ([c], cs)
    else
      (regexText (if c = '[' then true else if c = ']' then false else inClass) cs).map
        fun r => (c :: r.1, r.2)

/-- Whether a number starts with a mark of its radix. -/
def hasRadix : List Char → Bool
  | '0' :: c :: _ => c = 'x' || c = 'X' || c = 'b' || c = 'B' || c = 'o' || c = 'O'
  | _ => false

/-- Whether a character continues a number. -/
def isNumeral (c : Char) : Bool :=
  c.isAlphanum || c = '_' || c = '.'

/-- Whether a sign behind this character of a number belongs to the number. -/
def isExponent (c : Char) : Bool :=
  c = 'e' || c = 'E'

/-- A number. Without a radix, a sign behind the letter of an exponent belongs to it. -/
def numberText (radix : Bool) : List Char → List Char × List Char
  | [] => ([], [])
  | [c] => if isNumeral c then ([c], []) else ([], [c])
  | c :: d :: cs =>
    if isNumeral c then
      if !radix && isExponent c && (d = '+' || d = '-') then
        (c :: d :: (numberText radix cs).1, (numberText radix cs).2)
      else (c :: (numberText radix (d :: cs)).1, (numberText radix (d :: cs)).2)
    else ([], c :: d :: cs)

/-! ## Punctuators -/

/-- The punctuators, each before its own beginnings. -/
def punctuators : List (List Char) :=
  [">>>=", "...", "===", "!==", "**=", "<<=", ">>=", ">>>", "&&=", "||=", "??=", "=>", "==",
    "!=", "<=", ">=", "&&", "||", "??", "?.", "++", "--", "+=", "-=", "*=", "/=", "%=", "&=",
    "|=", "^=", "**", "<<", ">>", ";", ",", "<", ">", "+", "-", "*", "/", "%", "&", "|", "^",
    "!", "~", "?", ":", "=", ".", "@", "#"].map String.toList

/-- Whether a punctuator stands at the front of a text. A question mark and a dot before a digit
are a conditional and a number. -/
def standsAt (cs p : List Char) : Bool :=
  p.isPrefixOf cs && !(p = ['?', '.'] && (cs[2]?.map Char.isDigit).getD false)

/-- The punctuator at the front of a text. -/
def punctText (cs : List Char) : Option (List Char) :=
  punctuators.find? (standsAt cs)

/-- The kind of a delimiter. -/
def delimiterKind (c : Char) : Option TokenKind :=
  if c = '(' then some .openParen
  else if c = ')' then some .closeParen
  else if c = '[' then some .openBracket
  else if c = ']' then some .closeBracket
  else if c = '\x7b' then some .openBrace
  else if c = '\x7d' then some .closeBrace
  else none

end Lexeme

/-! ## Reading a lexeme -/

/-- A lexeme at the front of a text, and the text behind it. -/
structure Lexeme where
  /-- The kind of the token it makes. -/
  kind : TokenKind
  /-- Its characters. -/
  text : List Char
  /-- The text behind it. -/
  rest : List Char
  deriving DecidableEq, Repr

namespace Lexeme

/-- A piece of a template literal that starts with `c`, which either opens the literal or closes a
substitution. -/
def template (opening : Bool) (c : Char) (cs : List Char) : Except Cause Lexeme :=
  match templateText cs with
  | none => .error .unterminatedTemplate
  | some (substitution, text, rest) =>
    let kind := match opening, substitution with
      | true, true => .templateHead
      | true, false => .template
      | false, true => .templateMiddle
      | false, false => .templateTail
    .ok ⟨kind, c :: text, rest⟩

/-- A string literal that starts with the quote `c`. -/
def string (c : Char) (cs : List Char) : Except Cause Lexeme :=
  match stringText c cs with
  | none => .error .unterminatedString
  | some (text, rest) => .ok ⟨.string, c :: text, rest⟩

/-- A regular expression that starts with the slash `c`, with its flags. -/
def regex (c : Char) (cs : List Char) : Except Cause Lexeme :=
  match regexText false cs with
  | none => .error .unterminatedRegex
  | some (text, rest) =>
    .ok ⟨.regex, c :: (text ++ rest.takeWhile Text.isNamePart), rest.dropWhile Text.isNamePart⟩

/-- A number. -/
def number (cs : List Char) : Lexeme :=
  ⟨.number, (numberText (hasRadix cs) cs).1, (numberText (hasRadix cs) cs).2⟩

/-- A name that starts with `c`. -/
def ident (c : Char) (cs : List Char) : Lexeme :=
  ⟨.ident, c :: cs.takeWhile Text.isNamePart, cs.dropWhile Text.isNamePart⟩

/-- A punctuator. -/
def punct (c : Char) (cs : List Char) : Except Cause Lexeme :=
  match punctText (c :: cs) with
  | none => .error (.unexpectedChar c)
  | some p => .ok ⟨.punct, p, (c :: cs).drop p.length⟩

/-- The lexeme at the front of the text `c :: cs`, which is no gap. -/
def read (context : Context) (c : Char) (cs : List Char) : Except Cause Lexeme :=
  if c = '\x60' then template true c cs
  else if c = '\x7d' && context.inSubstitution then template false c cs
  else if c = '"' || c = '\'' then string c cs
  else if c = '/' && context.regexAllowed then regex c cs
  else if c = '.' && (cs.head?.map Char.isDigit).getD false then .ok (number (c :: cs))
  else if c.isDigit then .ok (number (c :: cs))
  else if Text.isNameStart c then .ok (ident c cs)
  else
    match delimiterKind c with
    | some kind => .ok ⟨kind, [c], cs⟩
    | none => punct c cs

/-! ## What can be read -/

/-- `ReadAs context c cs lexeme`: what the text `c :: cs` starts with, if that is `lexeme`. -/
inductive ReadAs (context : Context) (c : Char) (cs : List Char) : Lexeme → Prop
  /-- A piece that opens a template literal. -/
  | opening {substitution text rest} : c = '\x60' → templateText cs = some (substitution, text, rest) →
      ReadAs context c cs ⟨if substitution then .templateHead else .template, c :: text, rest⟩
  /-- A piece that goes on with a template literal behind a substitution. -/
  | piece {substitution text rest} : c = '\x7d' → context.inSubstitution = true →
      templateText cs = some (substitution, text, rest) →
      ReadAs context c cs ⟨if substitution then .templateMiddle else .templateTail, c :: text, rest⟩
  | string {text rest} : c = '"' ∨ c = '\'' → stringText c cs = some (text, rest) →
      ReadAs context c cs ⟨.string, c :: text, rest⟩
  | regex {text rest} : c = '/' → context.regexAllowed = true → regexText false cs = some (text, rest) →
      ReadAs context c cs
        ⟨.regex, c :: (text ++ rest.takeWhile Text.isNamePart), rest.dropWhile Text.isNamePart⟩
  | number : c = '.' ∨ c.isDigit = true → ReadAs context c cs (number (c :: cs))
  | ident : Text.isNameStart c = true → ReadAs context c cs (ident c cs)
  | delimiter {kind} : (c = '\x7d' → context.inSubstitution = false) → delimiterKind c = some kind →
      ReadAs context c cs ⟨kind, [c], cs⟩
  | punct {p} : (c = '/' → context.regexAllowed = false) → delimiterKind c = none →
      punctText (c :: cs) = some p → ReadAs context c cs ⟨.punct, p, (c :: cs).drop p.length⟩

/-- **A lexeme is read in one of these ways.** -/
theorem readAs_of_read {context : Context} {c : Char} {cs : List Char} {lexeme : Lexeme}
    (h : read context c cs = .ok lexeme) : ReadAs context c cs lexeme := by
  unfold read at h
  split at h
  · rename_i hc
    unfold template at h
    split at h <;> cases h
    rename_i substitution _ _ ht
    cases substitution <;> exact .opening hc ht
  split at h
  · rename_i hc
    rw [Bool.and_eq_true, decide_eq_true_eq] at hc
    unfold template at h
    split at h <;> cases h
    rename_i substitution _ _ ht
    cases substitution <;> exact .piece hc.1 hc.2 ht
  rename_i hbrace
  split at h
  · rename_i hc
    unfold string at h
    split at h <;> cases h
    exact .string (by simpa using hc) ‹_›
  split at h
  · rename_i hc
    rw [Bool.and_eq_true, decide_eq_true_eq] at hc
    unfold regex at h
    split at h <;> cases h
    exact .regex hc.1 hc.2 ‹_›
  rename_i hslash
  split at h
  · rename_i hc
    rw [Bool.and_eq_true, decide_eq_true_eq] at hc
    cases h
    exact .number (.inl hc.1)
  split at h
  · rename_i hc
    cases h
    exact .number (.inr hc)
  split at h
  · rename_i hc
    cases h
    exact .ident hc
  split at h
  · rename_i hk
    cases h
    exact .delimiter (fun hc => by simpa [hc] using hbrace) hk
  · rename_i hk
    unfold punct at h
    split at h <;> cases h
    exact .punct (fun hc => by simpa [hc] using hslash) hk ‹_›

/-! ## Nothing is lost -/

theorem stringText_append {quote : Char} {cs text rest : List Char}
    (h : stringText quote cs = some (text, rest)) : text ++ rest = cs := by
  fun_induction stringText quote cs generalizing text rest with
  | case1 => simp at h
  | case2 => simp at h
  | case3 c cs ih =>
    obtain ⟨⟨a, b⟩, hr, he⟩ := Option.map_eq_some_iff.mp h
    simp only [Prod.mk.injEq] at he
    obtain ⟨rfl, rfl⟩ := he
    simp [ih hr]
  | case4 =>
    simp only [Option.some.injEq, Prod.mk.injEq] at h
    obtain ⟨rfl, rfl⟩ := h
    rfl
  | case5 => simp at h
  | case6 c cs _ _ _ _ ih =>
    obtain ⟨⟨a, b⟩, hr, he⟩ := Option.map_eq_some_iff.mp h
    simp only [Prod.mk.injEq] at he
    obtain ⟨rfl, rfl⟩ := he
    simp [ih hr]

theorem templateText_append {cs text rest : List Char} {substitution : Bool}
    (h : templateText cs = some (substitution, text, rest)) : text ++ rest = cs := by
  fun_induction templateText cs generalizing text rest with
  | case1 => simp at h
  | case2 => simp at h
  | case3 c cs ih =>
    obtain ⟨⟨a, b, d⟩, hr, he⟩ := Option.map_eq_some_iff.mp h
    simp only [Prod.mk.injEq] at he
    obtain ⟨rfl, rfl, rfl⟩ := he
    simp [ih hr]
  | case4 cs =>
    simp only [Option.some.injEq, Prod.mk.injEq] at h
    obtain ⟨-, rfl, rfl⟩ := h
    rfl
  | case5 cs =>
    simp only [Option.some.injEq, Prod.mk.injEq] at h
    obtain ⟨-, rfl, rfl⟩ := h
    rfl
  | case6 c cs _ _ _ _ ih =>
    obtain ⟨⟨a, b, d⟩, hr, he⟩ := Option.map_eq_some_iff.mp h
    simp only [Prod.mk.injEq] at he
    obtain ⟨rfl, rfl, rfl⟩ := he
    simp [ih hr]

theorem regexText_append {inClass : Bool} {cs text rest : List Char}
    (h : regexText inClass cs = some (text, rest)) : text ++ rest = cs := by
  fun_induction regexText inClass cs generalizing text rest with
  | case1 => simp at h
  | case2 => simp at h
  | case3 inClass c cs ih =>
    obtain ⟨⟨a, b⟩, hr, he⟩ := Option.map_eq_some_iff.mp h
    simp only [Prod.mk.injEq] at he
    obtain ⟨rfl, rfl⟩ := he
    simp [ih hr]
  | case4 => simp at h
  | case5 =>
    simp only [Option.some.injEq, Prod.mk.injEq] at h
    obtain ⟨rfl, rfl⟩ := h
    rfl
  | case6 inClass c cs _ _ _ _ ih =>
    obtain ⟨⟨a, b⟩, hr, he⟩ := Option.map_eq_some_iff.mp h
    simp only [Prod.mk.injEq] at he
    obtain ⟨rfl, rfl⟩ := he
    simp [ih hr]

theorem numberText_append (radix : Bool) (cs : List Char) :
    (numberText radix cs).1 ++ (numberText radix cs).2 = cs := by
  fun_induction numberText radix cs <;> simp_all

/-- A number takes at least its first character. -/
theorem numberText_ne_nil {radix : Bool} {c : Char} {cs : List Char} (h : isNumeral c = true) :
    (numberText radix (c :: cs)).1 ≠ [] := by
  cases cs with
  | nil => simp [numberText, h]
  | cons d cs =>
    rw [numberText, if_pos h]
    split <;> simp

theorem punctText_append {cs p : List Char} (h : punctText cs = some p) :
    p ++ cs.drop p.length = cs ∧ p ≠ [] := by
  have hp := List.find?_some h
  have hm := List.mem_of_find?_eq_some h
  simp only [standsAt, Bool.and_eq_true] at hp
  obtain ⟨t, rfl⟩ := List.isPrefixOf_iff_prefix.mp hp.1
  refine ⟨by simp, ?_⟩
  revert hm
  have : ∀ q ∈ punctuators, q ≠ [] := by decide +kernel
  exact this p

/-- A lexeme is not empty, and with the text behind it makes up the text it was read from. -/
theorem read_append {context : Context} {c : Char} {cs : List Char} {lexeme : Lexeme}
    (h : read context c cs = .ok lexeme) :
    lexeme.text ++ lexeme.rest = c :: cs ∧ lexeme.text ≠ [] := by
  cases readAs_of_read h with
  | opening _ ht => simp [templateText_append ht]
  | piece _ _ ht => simp [templateText_append ht]
  | string _ ht => simp [stringText_append ht]
  | regex _ _ ht => simp [← regexText_append ht]
  | number hc =>
    have hnumeral : isNumeral c = true := by
      rcases hc with rfl | hc
      · decide
      · simp [isNumeral, Char.isAlphanum, hc]
    exact ⟨numberText_append _ _, numberText_ne_nil hnumeral⟩
  | ident => simp [ident]
  | delimiter => simp
  | punct _ _ hp => exact punctText_append hp

end Lexeme

end DeferredLog
