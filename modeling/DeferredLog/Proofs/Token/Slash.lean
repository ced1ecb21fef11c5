import Mathlib.Data.List.Induction
import DeferredLog.Proofs.Token.Edit
import DeferredLog.Proofs.Tree.Run

/-!
# Slashes

A slash divides behind an operand, and starts a regular expression elsewhere. What stands to its left is
told from the tokens before it (`Context.after`): a word is a keyword unless a dot stands before it, and a
closing parenthesis ends an operand unless it closes the head of a statement. That the reader of tokens
knows from a stack of its own, which is in step with the groups of the trees.

* `Token.regex_iff`: a slash is read as the tokens before it say.
* `Context.left_eq_word_iff`: where a keyword stands.
* `Tree.regex_behind_parenthesis_iff`: behind a closing parenthesis it is the word before the opening one
  that decides.
-/

namespace DeferredLog

namespace Lexeme

/-- A slash starts a regular expression where one is allowed, and is an operator elsewhere. -/
theorem kind_of_slash {context : Context} {cs : List Char} {lexeme : Lexeme}
    (h : read context '/' cs = .ok lexeme) :
    lexeme.kind = if context.regexAllowed then .regex else .punct := by
  cases readAs_of_read h with
  | opening hc => exact absurd hc (by decide)
  | piece hc => exact absurd hc (by decide)
  | string hc => exact absurd hc (by decide)
  | regex _ hallowed => rw [if_pos hallowed]
  | number hc => exact absurd hc (by decide)
  | ident hc => exact absurd hc (by decide +kernel)
  | delimiter _ hk => cases hk
  | punct hallowed => simp [hallowed rfl]

end Lexeme

namespace Token

/-- Whether some tokens end in a dot, behind which a word is a member name. -/
def EndsInDot (tokens : List Token) : Prop :=
  ∃ last ∈ tokens.getLast?, Tree.isDot (.leaf last) = true

/-- Whether some tokens end in a word that is no member name. -/
def EndsInWord (word : String) (tokens : List Token) : Prop :=
  ∃ front last, tokens = front ++ [last] ∧ last.kind = .ident ∧ last.text = word ∧ ¬ EndsInDot front

theorem not_endsInDot_nil : ¬ EndsInDot [] := by
  rintro ⟨_, h, -⟩
  cases h

theorem endsInDot_concat {tokens : List Token} {token : Token} :
    EndsInDot (tokens ++ [token]) ↔ Tree.isDot (.leaf token) = true := by
  simp [EndsInDot]

theorem endsInWord_concat {tokens : List Token} {token : Token} {word : String} :
    EndsInWord word (tokens ++ [token]) ↔
      token.kind = .ident ∧ token.text = word ∧ ¬ EndsInDot tokens := by
  constructor
  · rintro ⟨front, last, heq, hrest⟩
    obtain ⟨rfl, hlast⟩ := List.append_inj' heq rfl
    obtain rfl : token = last := by simpa using hlast
    exact hrest
  · exact fun h => ⟨tokens, token, rfl, h⟩

/-- A token is read in the context behind those before it. -/
theorem read_at {source : List Char} {a b : List Token} {token : Token}
    (h : scan source = .ok (a ++ token :: b)) : ∃ c more rest, token.text = String.ofList (c :: more) ∧
      Lexeme.read (Context.start.after a) c (more ++ rest) = .ok ⟨token.kind, c :: more, rest⟩ := by
  obtain ⟨_, _, -, -, hscans, -⟩ := scan_split h
  cases hscans with
  | token _ hread => exact ⟨_, _, _, rfl, hread⟩

/-- **A slash is read as the tokens before it say.** -/
theorem regex_iff {source : List Char} {a b : List Token} {token : Token}
    (h : scan source = .ok (a ++ token :: b)) (hslash : token.text.toList.head? = some '/') :
    token.kind = if (Context.start.after a).regexAllowed then .regex else .punct := by
  obtain ⟨c, more, rest, htext, hread⟩ := read_at h
  obtain rfl : c = '/' := by simpa [htext] using hslash
  exact Lexeme.kind_of_slash hread

end Token

namespace Context

open Token (EndsInDot EndsInWord)

/-! ## What stands to the left -/

theorem left_after_concat (context : Context) (tokens : List Token) (token : Token) :
    (context.after (tokens ++ [token])).left = (context.after tokens).leftOf token.kind token.text := by
  rw [after_append]
  rfl

/-- A dot stands to the left behind tokens that end in one. -/
theorem left_eq_dot_iff {tokens : List Token} :
    (start.after tokens).left = .dot ↔ EndsInDot tokens := by
  induction tokens using List.reverseRecOn with
  | nil => exact iff_of_false nofun Token.not_endsInDot_nil
  | append_singleton tokens token _ =>
    rw [Token.endsInDot_concat, left_after_concat]
    simp only [Tree.isDot, Tree.isPunct, Token.isPunct, leftOf]
    cases token.kind <;> simp only [reduceCtorEq] <;> (repeat' split) <;> simp_all

/-- A word stands to the left behind tokens that end in one. -/
theorem left_eq_word_iff {tokens : List Token} {word : String} :
    (start.after tokens).left = .word word ↔ EndsInWord word tokens := by
  induction tokens using List.reverseRecOn with
  | nil =>
    refine iff_of_false nofun ?_
    rintro ⟨front, last, h, -⟩
    simp at h
  | append_singleton tokens token _ =>
    rw [Token.endsInWord_concat, left_after_concat, ← left_eq_dot_iff]
    simp only [leftOf]
    cases token.kind <;> simp <;> (repeat' split) <;> simp_all

/-- A parenthesis opens the head of a statement behind a keyword that has one. -/
theorem opensHead_iff {tokens : List Token} : (start.after tokens).opensHead = true ↔
    ∃ word ∈ conditionKeywords, EndsInWord word tokens := by
  simp only [← left_eq_word_iff, opensHead]
  split <;> simp_all

/-! ## Parentheses -/

/-- Behind a group in parentheses an expression starts exactly if it is the head of a statement. -/
theorem regexAllowed_behind_parentheses (context : Context) {opening closing : Token}
    {inside : List Tree} {around : Option Delimiter}
    (h : (Tree.group .paren opening closing inside).Paired around) :
    (context.after (Tree.flatten (.group .paren opening closing inside))).regexAllowed =
      context.opensHead := by
  obtain ⟨hopen, hclose, hinside⟩ := h
  have hopening : opening.kind = .openParen := by
    revert hopen
    cases opening.kind <;> simp [Tree.opened?]
  have hclosing : closing.kind = .closeParen := by
    revert hclose
    cases closing.kind <;> simp [Tree.closed?]
  have hheads := (Tree.context_flattenAll (context.behind opening.kind opening.text) inside hinside).2
  rw [hopening] at hheads
  rw [Tree.flatten, after_cons, ← List.append_nil [closing], ← List.append_assoc, List.append_nil,
    regexAllowed, left_after_concat, hopening, hclosing, leftOf, hheads]
  simp only [behind, headsBehind, List.head?_cons, Option.some.injEq]
  cases h : context.opensHead <;> simp

end Context

namespace Token

/-! ## Where expressions begin -/

/-- Whether an expression begins behind some tokens, as far as the reader of tokens can tell. -/
def Begins (tokens : List Token) : Prop :=
  (Context.start.after tokens).regexAllowed = true

section Begins

variable {a : List Token} {token : Token}

theorem begins_nil : Begins [] := rfl

/-- Behind a sign an expression begins, unless it counts up or down. -/
theorem begins_punct (hk : token.kind = .punct) :
    Begins (a ++ [token]) ↔ token.text ∉ ["++", "--"] := by
  rw [Begins, Context.regexAllowed, Context.left_after_concat, hk]
  simp only [Context.leftOf, List.mem_cons, List.not_mem_nil, or_false, not_or]
  by_cases hdot : token.text = "." ∨ token.text = "?."
  · rcases hdot with h | h <;> simp [h]
  · by_cases hcount : token.text = "++" ∨ token.text = "--"
    · rcases hcount with h | h <;> simp [h]
    · simp [not_or.mp hdot, not_or.mp hcount]

/-- Behind a word an expression begins if it is a keyword that has one behind it. -/
theorem begins_ident (hk : token.kind = .ident) :
    Begins (a ++ [token]) ↔ ¬ EndsInDot a ∧ token.text ∈ expressionKeywords := by
  rw [Begins, Context.regexAllowed, Context.left_after_concat, hk, ← Context.left_eq_dot_iff]
  by_cases hdot : (Context.start.after a).left = .dot <;> simp [Context.leftOf, hdot]

/-- Behind a brace an expression begins. -/
theorem begins_brace (hk : token.kind = .openBrace ∨ token.kind = .closeBrace) : Begins (a ++ [token]) := by
  rw [Begins, Context.regexAllowed, Context.left_after_concat]
  rcases hk with hk | hk <;> rw [hk] <;> rfl

theorem not_begins_string (hk : token.kind = .string) : ¬ Begins (a ++ [token]) := by
  rw [Begins, Context.regexAllowed, Context.left_after_concat, hk]
  simp [Context.leftOf]

variable {around : Option Delimiter} {opening closing : Token} {inside : List Tree}

/-- Inside of a group in braces an expression begins. -/
theorem begins_opening (h : (Tree.group .brace opening closing inside).Paired around) :
    Begins (a ++ [opening]) := by
  refine begins_brace (.inl ?_)
  have := h.1
  revert this
  cases opening.kind <;> simp [Tree.opened?]

/-- Behind a group in braces an expression begins. -/
theorem begins_braces (h : (Tree.group .brace opening closing inside).Paired around) :
    Begins (a ++ Tree.flatten (.group .brace opening closing inside)) := by
  have hclosing : closing.kind = .closeBrace := by
    have := h.2.1
    revert this
    cases closing.kind <;> simp [Tree.closed?]
  rw [Tree.flatten, ← List.cons_append, ← List.append_assoc]
  exact begins_brace (.inr hclosing)

/-- Behind a group in parentheses an expression begins if it is the head of a statement. -/
theorem begins_parentheses (h : (Tree.group .paren opening closing inside).Paired around) :
    Begins (a ++ Tree.flatten (.group .paren opening closing inside)) ↔
      ∃ word ∈ conditionKeywords, EndsInWord word a := by
  rw [Begins, Context.after_append, Context.regexAllowed_behind_parentheses _ h, Context.opensHead_iff]

end Begins

end Token

namespace Tree

open Token (EndsInWord)

/-- **A slash behind a closing parenthesis** starts a regular expression exactly if the word before the
opening one is a keyword with a head. -/
theorem regex_behind_parenthesis_iff {source : List Char} {trees : List Tree} {front back : List Token}
    {closing slash : Token} (htrees : parse source = .ok trees)
    (htokens : flattenAll trees = front ++ closing :: slash :: back) (hclosing : closing.kind = .closeParen)
    (hslash : slash.text.toList.head? = some '/') :
    (∃ before opening inside, Run trees before [.group .paren opening closing inside] (slash :: back)) ∧
      ∀ before opening inside,
        Run trees before [.group .paren opening closing inside] (slash :: back) →
          (slash.kind = .regex ↔ ∃ word ∈ ["if", "while", "for", "with"], EndsInWord word before) := by
  obtain ⟨tokens, hscan, hbuilt⟩ : ∃ tokens, Token.scan source = .ok tokens ∧
      ofTokens tokens = .ok trees := by
    unfold parse at htrees
    split at htrees
    · cases htrees
    · exact ⟨_, ‹_›, htrees⟩
  have hpaired := pairedAll_of_ofTokens hbuilt
  rw [← ofTokens_flatten hbuilt] at hscan
  refine ⟨exists_run_of_closed (by rw [hclosing]; rfl) trees hpaired htokens, ?_⟩
  intro before opening inside hrun
  obtain ⟨around, hgroup, -⟩ := hrun.paired hpaired
  rw [hrun.flatten] at hscan
  have hkind := Token.regex_iff (by rwa [← List.append_assoc] at hscan) hslash
  rw [hkind, Context.after_append]
  simp only [flattenAll, List.append_nil]
  rw [Context.regexAllowed_behind_parentheses _ hgroup]
  have hhead := @Context.opensHead_iff before
  split <;> simp_all [conditionKeywords]

/-- Behind `if (a)` a slash starts a regular expression. -/
theorem regex_behind_parenthesis_if : ∃ trees opening closing slash inside,
    parse "if (a) /b/".toList = .ok trees ∧
      Run trees [⟨.ident, "if", 0, false⟩] [.group .paren opening closing inside] [slash] ∧
        (slash.kind = .regex ↔
          ∃ word ∈ ["if", "while", "for", "with"], EndsInWord word [⟨.ident, "if", 0, false⟩]) := by
  have htrees : parse "if (a) /b/".toList = .ok [.leaf ⟨.ident, "if", 0, false⟩,
      .group .paren ⟨.openParen, "(", 3, false⟩ ⟨.closeParen, ")", 5, false⟩
        [.leaf ⟨.ident, "a", 4, false⟩], .leaf ⟨.regex, "/b/", 7, false⟩] := by
    have hscan : Token.scan "if (a) /b/".toList = .ok [⟨.ident, "if", 0, false⟩,
        ⟨.openParen, "(", 3, false⟩, ⟨.ident, "a", 4, false⟩, ⟨.closeParen, ")", 5, false⟩,
        ⟨.regex, "/b/", 7, false⟩] := by
      decide +kernel
    rw [parse, hscan]
    rfl
  have hrun := Run.here [.leaf ⟨.ident, "if", 0, false⟩] [.group .paren ⟨.openParen, "(", 3, false⟩
    ⟨.closeParen, ")", 5, false⟩ [.leaf ⟨.ident, "a", 4, false⟩]] [.leaf ⟨.regex, "/b/", 7, false⟩]
  exact ⟨_, _, _, _, _, htrees, hrun, (regex_behind_parenthesis_iff htrees
    (show flattenAll _ = [⟨.ident, "if", 0, false⟩, ⟨.openParen, "(", 3, false⟩,
      ⟨.ident, "a", 4, false⟩] ++ ⟨.closeParen, ")", 5, false⟩ :: _ :: [] from rfl)
    rfl (by decide +kernel)).2 _ _ _ hrun⟩

end Tree

end DeferredLog
