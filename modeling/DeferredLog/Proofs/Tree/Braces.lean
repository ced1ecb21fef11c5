import Mathlib.Data.List.Basic
import DeferredLog.Proofs.Token.Slash
import DeferredLog.Proofs.Tree.Grammar

/-!
# Two stacks of braces

The reader of tokens keeps a stack of the open braces and of the substitutions of template literals, and knows
from it what a closing brace is. The groups that wait for their end are another stack, with parentheses and
brackets between. On the tokens of a text the two agree: what the reader took for the end of a substitution is
one, unless a parenthesis or a bracket is open in it.

* `Tree.Opens.braces_after`: the one stack is a part of the other.
* `Tree.encloses_of_scan`: where parentheses and brackets do not fit, braces and templates still do.
* `Tree.ofTokens_scanned`: which faults the tokens of a text never have, and when a closing brace goes on with
  a template literal.
-/

namespace DeferredLog

/-! ## Reading a closing brace -/

namespace Lexeme

variable {context : Context} {c : Char} {cs : List Char} {lexeme : Lexeme}

/-- **A closing brace goes on with a template literal** exactly inside of a substitution. -/
theorem kind_of_brace (h : read context '\x7d' cs = .ok lexeme) :
    if context.inSubstitution then lexeme.kind = .templateMiddle ∨ lexeme.kind = .templateTail
    else lexeme.kind = .closeBrace := by
  cases readAs_of_read h with
  | opening hc => exact absurd hc (by decide)
  | @piece substitution _ _ _ hin =>
    rw [if_pos hin]
    cases substitution <;> simp
  | string hc => exact absurd hc (by decide)
  | regex hc => exact absurd hc (by decide)
  | number hc => exact absurd hc (by decide)
  | ident hc => exact absurd hc (by decide +kernel)
  | delimiter hin hk =>
    rw [hin rfl, if_neg (by decide)]
    exact (Option.some.inj hk).symm
  | punct _ hk => cases hk

/-- No other token is of these kinds. -/
theorem eq_brace_of_read (h : read context c cs = .ok lexeme)
    (hk : lexeme.kind = .closeBrace ∨ lexeme.kind = .templateMiddle ∨ lexeme.kind = .templateTail) :
    c = '\x7d' := by
  cases readAs_of_read h with
  | @opening substitution => cases substitution <;> simp at hk
  | piece hc => exact hc
  | string => simp at hk
  | regex => simp at hk
  | number => simp [number] at hk
  | ident => simp [ident] at hk
  | delimiter _ hd =>
    rcases delimiterKind_eq_some hd with h | h | h | h | h | h <;> obtain ⟨rfl, rfl⟩ := h <;> simp at hk ⊢
  | punct => simp at hk

end Lexeme

/-! ## The stacks -/

namespace Delimiter

/-- What an open delimiter is for the reader of tokens. -/
def brace? : Delimiter → Option Brace
  | brace => some .block
  | template => some .substitution
  | _ => none

end Delimiter

/-- The delimiter that an open brace belongs to. -/
def Brace.delimiter : Brace → Delimiter
  | block => .brace
  | substitution => .template

namespace Tree

section Stacks

variable {stack : List (Delimiter × Token)} {front tokens : List Token} {around : Option Delimiter}

/-- Behind well nested tokens the same braces are open as before. -/
theorem Nested.braces_after (h : Nested around tokens) (context : Context) :
    (context.after tokens).braces = context.braces := by
  obtain ⟨trees, hpaired, rfl⟩ := nested_iff.mp h
  exact (context_flattenAll context trees hpaired).1

theorem braces_behind_opening (context : Context) {delimiter : Delimiter} {opening : Token}
    (h : opening.kind = delimiter.opening) :
    (context.behind opening.kind opening.text).braces = delimiter.brace?.toList ++ context.braces := by
  cases delimiter <;> simp [Context.behind, Context.bracesBehind, h, Delimiter.opening, Delimiter.brace?]

/-- The braces among open delimiters, with the substitutions of template literals. -/
def bracesOf (stack : List (Delimiter × Token)) : List Brace :=
  stack.filterMap fun entry => entry.1.brace?

theorem bracesOf_cons (entry : Delimiter × Token) (stack : List (Delimiter × Token)) :
    bracesOf (entry :: stack) = entry.1.brace?.toList ++ bracesOf stack := by
  rw [bracesOf, List.filterMap_cons]
  cases entry.1.brace? <;> rfl

/-- A brace that is the innermost open delimiter is the innermost open brace. -/
theorem head?_bracesOf {delimiter : Delimiter} {brace : Brace} (h : innermost stack = some delimiter)
    (hb : delimiter.brace? = some brace) : (bracesOf stack).head? = some brace := by
  obtain ⟨entry, hentry, rfl⟩ := Option.map_eq_some_iff.mp h
  obtain ⟨more, rfl⟩ := List.head?_eq_some_iff.mp hentry
  rw [bracesOf_cons, hb]
  rfl

/-- **The braces that the reader of tokens knows of** are those among the open delimiters. -/
theorem Opens.braces_after (h : Opens stack front) : (Context.start.after front).braces = bracesOf stack := by
  induction h with
  | outside h => exact h.braces_after .start
  | @inside stack before delimiter opening tokens _ hopen hinside ih =>
    rw [Context.after_append, Context.after_cons, hinside.braces_after, braces_behind_opening _ hopen, ih,
      bracesOf_cons]

end Stacks

/-! ## Braces without parentheses and brackets -/

/-- Whether a token belongs to a brace or to a template literal with substitutions. -/
def isCurly (token : Token) : Bool :=
  match token.kind with
  | .openBrace | .closeBrace | .templateHead | .templateMiddle | .templateTail => true
  | _ => false

/-- Whether, parentheses and brackets aside, the innermost open delimiter behind some tokens is the given one:
the braces and templates behind the token that opened it are well nested. -/
def InsideOf (delimiter : Delimiter) (front : List Token) : Prop :=
  ∃ before opening inside, front = before ++ opening :: inside ∧ opening.kind = delimiter.opening ∧
    Nested (some delimiter) (inside.filter isCurly)

/-- `Encloses braces front`: parentheses and brackets aside, the braces and templates that are open behind
some tokens, the innermost first. A closing brace that closes nothing is passed over. -/
inductive Encloses : List Brace → List Token → Prop
  | outside (front) : Encloses [] front
  | inside {braces before brace opening tokens} : Encloses braces before →
      opening.kind = (Brace.delimiter brace).opening →
      Nested (some (Brace.delimiter brace)) (tokens.filter isCurly) →
      Encloses (brace :: braces) (before ++ opening :: tokens)

variable {context : Context} {braces : List Brace} {brace : Brace} {front tokens : List Token} {token : Token}

theorem isCurly_iff : isCurly token = true ↔ token.kind = .openBrace ∨ token.kind = .templateHead ∨
    token.kind = .closeBrace ∨ token.kind = .templateMiddle ∨ token.kind = .templateTail := by
  unfold isCurly
  cases token.kind <;> simp

theorem inSubstitution_iff : context.inSubstitution = true ↔ ∃ more, context.braces = .substitution :: more := by
  rw [Context.inSubstitution, decide_eq_true_eq, List.head?_eq_some_iff]

theorem isCurly_opening (h : token.kind = brace.delimiter.opening) : isCurly token = true := by
  rw [isCurly, h]
  cases brace <;> rfl

theorem isCurly_closing (h : token.kind = brace.delimiter.closing) : isCurly token = true := by
  rw [isCurly, h]
  cases brace <;> rfl

theorem bracesBehind_of_not_isCurly (context : Context) (h : isCurly token = false) :
    context.bracesBehind token.kind = context.braces := by
  rw [isCurly] at h
  cases hk : token.kind <;> simp_all [Context.bracesBehind]

/-- Well nested braces and templates leave what is open as it is. -/
theorem Encloses.append (h : Encloses braces front)
    (ht : Nested (braces.head?.map Brace.delimiter) (tokens.filter isCurly)) : Encloses braces (front ++ tokens) := by
  cases h with
  | outside => exact .outside _
  | inside hbefore hopen hinside =>
    rw [List.append_assoc, List.cons_append]
    exact .inside hbefore hopen (by rw [List.filter_append]; exact hinside.append ht)

/-- A closing token closes what is innermost. -/
theorem Encloses.close (h : Encloses (brace :: braces) front) (hk : token.kind = brace.delimiter.closing) :
    Encloses braces (front ++ [token]) := by
  cases h with
  | @inside _ before _ opening tokens hbefore hopen hinside =>
    have hfilter : (opening :: (tokens ++ [token])).filter isCurly =
        opening :: (tokens.filter isCurly ++ [token]) := by
      rw [List.filter_cons_of_pos (isCurly_opening hopen), List.filter_append,
        List.filter_cons_of_pos (isCurly_closing hk), List.filter_nil]
    have hgroup : Nested (braces.head?.map Brace.delimiter) ((opening :: (tokens ++ [token])).filter isCurly) := by
      rw [hfilter]
      exact .group hopen hinside hk .nil
    have happend := hbefore.append hgroup
    rwa [List.append_assoc, List.cons_append]

/-- An opening token opens a brace or a template. -/
theorem Encloses.push (h : Encloses braces front) (hk : token.kind = brace.delimiter.opening) :
    Encloses (brace :: braces) (front ++ [token]) :=
  .inside h hk (by rw [List.filter_nil]; exact .nil)

theorem nested_middle (hk : token.kind = .templateMiddle) : Nested (some .template) [token] :=
  .leaf (fun delimiter => by rw [hk]; cases delimiter <;> decide)
    (fun delimiter => by rw [hk]; cases delimiter <;> decide) (fun _ => rfl) .nil

/-- What a token does to the braces and templates that are open, if it is one that can be read there. -/
theorem Encloses.step (h : Encloses context.braces front)
    (hclose : token.kind = .closeBrace → context.inSubstitution = false)
    (hpiece : token.kind = .templateMiddle ∨ token.kind = .templateTail → context.inSubstitution = true) :
    Encloses (context.bracesBehind token.kind) (front ++ [token]) := by
  by_cases hcurly : isCurly token = true
  · rcases isCurly_iff.mp hcurly with hk | hk | hk | hk | hk <;> rw [hk]
    · exact h.push hk
    · exact h.push hk
    · show Encloses context.braces.tail _
      have hsubstitution := hclose hk
      cases hbraces : context.braces with
      | nil => exact .outside _
      | cons brace more =>
        rw [hbraces] at h
        cases brace with
        | block => exact h.close hk
        | substitution => rw [inSubstitution_iff.mpr ⟨more, hbraces⟩] at hsubstitution; cases hsubstitution
    · obtain ⟨more, hbraces⟩ := inSubstitution_iff.mp (hpiece (.inl hk))
      refine h.append ?_
      rw [hbraces, List.filter_cons_of_pos hcurly, List.filter_nil]
      exact nested_middle hk
    · show Encloses context.braces.tail _
      obtain ⟨more, hbraces⟩ := inSubstitution_iff.mp (hpiece (.inr hk))
      rw [hbraces] at h ⊢
      exact h.close hk
  · rw [Bool.not_eq_true] at hcurly
    rw [bracesBehind_of_not_isCurly _ hcurly]
    exact h.append (by rw [List.filter_cons_of_neg (by simp [hcurly]), List.filter_nil]; exact .nil)

section Scan

variable {source : List Char} {back : List Token} (h : Token.scan source = .ok (front ++ token :: back))

include h

/-- A token that starts with a closing brace goes on with a template literal exactly inside of a substitution,
as the reader of tokens has it. -/
theorem piece_iff_inSubstitution (hbrace : token.text.toList.head? = some '\x7d') :
    token.kind = .templateMiddle ∨ token.kind = .templateTail ↔ (Context.start.after front).inSubstitution = true := by
  obtain ⟨c, more, rest, htext, hread⟩ := Token.read_at h
  obtain rfl : c = '\x7d' := by simpa [htext] using hbrace
  have hkind := Lexeme.kind_of_brace hread
  split at hkind
  · rename_i hin
    exact iff_of_true hkind hin
  · rename_i hin
    exact iff_of_false (by simp [show token.kind = .closeBrace from hkind]) hin

theorem starts_of_kind (hk : token.kind = .closeBrace ∨ token.kind = .templateMiddle ∨ token.kind = .templateTail) :
    token.text.toList.head? = some '\x7d' := by
  obtain ⟨c, more, rest, htext, hread⟩ := Token.read_at h
  rw [htext, Lexeme.eq_brace_of_read hread hk]
  simp

theorem inSubstitution_of_piece (hk : token.kind = .templateMiddle ∨ token.kind = .templateTail) :
    (Context.start.after front).inSubstitution = true :=
  (piece_iff_inSubstitution h (starts_of_kind h (.inr hk))).mp hk

theorem not_inSubstitution_of_closeBrace (hk : token.kind = .closeBrace) :
    (Context.start.after front).inSubstitution = false := by
  rw [Bool.eq_false_iff, ne_eq, ← piece_iff_inSubstitution h (starts_of_kind h (.inl hk)), hk]
  simp

end Scan

/-- **What the reader of tokens holds for open** is open, parentheses and brackets aside. -/
theorem encloses_of_scan {source : List Char} (h : Token.scan source = .ok (front ++ tokens)) :
    Encloses (Context.start.after front).braces front := by
  -- From the right: what is open in front of a token decides what a closing brace can have been read as.
  induction front using List.reverseRecOn generalizing tokens with
  | nil => exact .outside _
  | append_singleton front token ih =>
    rw [List.append_assoc] at h
    have hstep := (ih h).step (not_inSubstitution_of_closeBrace h) (inSubstitution_of_piece h)
    rw [Context.after_append]
    exact hstep

/-- Tokens that belong to no brace and no template have no say in which are open. -/
theorem braces_after_filter {context' : Context} (h : context'.braces = context.braces) :
    (context.after tokens).braces = (context'.after (tokens.filter isCurly)).braces := by
  induction tokens generalizing context context' with
  | nil => exact h.symm
  | cons token tokens ih =>
    rw [Context.after_cons]
    by_cases hcurly : isCurly token = true
    · rw [List.filter_cons_of_pos hcurly, Context.after_cons]
      refine ih ?_
      simp only [Context.behind, Context.bracesBehind, h]
    · rw [List.filter_cons_of_neg hcurly]
      refine ih ?_
      rw [h]
      exact (bracesBehind_of_not_isCurly context (Bool.eq_false_iff.mpr hcurly)).symm

/-- **A substitution is innermost for the reader of tokens** exactly if it is so, parentheses and brackets
aside. -/
theorem inSubstitution_iff_insideOf {source : List Char} (h : Token.scan source = .ok (front ++ tokens)) :
    (Context.start.after front).inSubstitution = true ↔ InsideOf .template front := by
  rw [inSubstitution_iff]
  constructor
  · rintro ⟨more, hbraces⟩
    have hencloses := encloses_of_scan h
    rw [hbraces] at hencloses
    cases hencloses with
    | inside _ hopen hinside => exact ⟨_, _, _, rfl, hopen, hinside⟩
  · rintro ⟨before, opening, inside, rfl, hopen, hinside⟩
    refine ⟨(Context.start.after before).braces, ?_⟩
    rw [Context.after_append, Context.after_cons, braces_after_filter rfl, hinside.braces_after,
      braces_behind_opening _ hopen]
    rfl

/-! ## Faults that the tokens of a text never have -/

section Faults

variable {source : List Char} {back : List Token} {stack : List (Delimiter × Token)}

/-- Where a piece of a template literal is read something is open, and what is innermost is no brace. -/
theorem innermost_of_piece (h : Token.scan source = .ok (front ++ token :: back)) (hopens : Opens stack front)
    (hk : token.kind = .templateMiddle ∨ token.kind = .templateTail) :
    ∃ delimiter, innermost stack = some delimiter ∧ delimiter ≠ .brace := by
  obtain ⟨more, hbraces⟩ := inSubstitution_iff.mp (inSubstitution_of_piece h hk)
  rw [hopens.braces_after] at hbraces
  cases hi : innermost stack with
  | none =>
    obtain rfl : stack = [] := by simpa [innermost] using hi
    cases hbraces
  | some delimiter =>
    refine ⟨delimiter, rfl, ?_⟩
    rintro rfl
    have hblock := head?_bracesOf hi rfl
    rw [hbraces] at hblock
    cases hblock

/-- Where a closing brace is read no substitution is innermost. -/
theorem innermost_of_closeBrace (h : Token.scan source = .ok (front ++ token :: back)) (hopens : Opens stack front)
    (hk : token.kind = .closeBrace) : innermost stack ≠ some .template := by
  intro htemplate
  have hsubstitution := not_inSubstitution_of_closeBrace h hk
  rw [Context.inSubstitution, hopens.braces_after, head?_bracesOf htemplate rfl] at hsubstitution
  cases hsubstitution

/-- A token of a text is not refused for a template literal that it does not stand in. -/
theorem cause_of_refuses {cause : Cause} (h : Token.scan source = .ok (front ++ token :: back))
    (hopens : Opens stack front) (hr : Refuses stack token.kind cause) :
    cause ≠ .unexpectedClose .template ∧ cause ≠ .mismatchedClose .brace .template ∧
      cause ≠ .mismatchedClose .template .brace := by
  have hpiece := innermost_of_piece h hopens
  have hbrace := innermost_of_closeBrace h hopens
  -- The kinds that a case of `Refuses` names can be told apart only where the kind is a variable.
  generalize token.kind = kind at hr hpiece hbrace
  cases hr with
  | unexpected delimiter =>
    refine ⟨?_, nofun, nofun⟩
    rintro ⟨⟩
    obtain ⟨_, hnone, -⟩ := hpiece (.inr rfl)
    cases hnone
  | @mismatched delimiter closing _ _ _ =>
    refine ⟨nofun, ?_, ?_⟩
    · rintro ⟨⟩
      obtain ⟨_, hsome, hne⟩ := hpiece (.inr rfl)
      exact hne (Option.some.inj hsome).symm
    · rintro ⟨⟩
      exact hbrace rfl rfl
  | middle => exact ⟨nofun, nofun, nofun⟩

/-- A piece between two substitutions is refused in a parenthesis or in a bracket. -/
theorem innermost_of_middle {cause : Cause} (h : Token.scan source = .ok (front ++ token :: back))
    (hopens : Opens stack front) (hk : token.kind = .templateMiddle) (hr : Refuses stack token.kind cause) :
    innermost stack = some .paren ∨ innermost stack = some .bracket := by
  obtain ⟨delimiter, hinnermost, hbrace⟩ := innermost_of_piece h hopens (.inl hk)
  have htemplate : innermost stack ≠ some .template := by
    rw [hk] at hr
    generalize hkind : TokenKind.templateMiddle = kind at hr
    cases hr with
    | unexpected delimiter => cases delimiter <;> cases hkind
    | @mismatched _ closing => cases closing <;> cases hkind
    | middle hne => exact hne
  cases delimiter with
  | paren => exact .inl hinnermost
  | bracket => exact .inr hinnermost
  | brace => exact absurd rfl hbrace
  | template => exact absurd hinnermost htemplate

end Faults

/-- **The two stacks of braces agree.** Where the tokens of a text are not well nested, it is never for a piece
of a template literal with nothing open, nor for a brace where a template is innermost or the other way round;
a piece between two substitutions is refused only directly inside of a parenthesis or a bracket; and a closing
brace is read as going on with a template literal exactly if, parentheses and brackets aside, a substitution is
the innermost open delimiter. -/
theorem ofTokens_scanned {source : List Char} (h : Token.scan source = .ok tokens) :
    (∀ front back stack, tokens = front ++ back → Opens stack front →
        (Context.start.after front).braces = bracesOf stack) ∧
      (∀ fault, ofTokens tokens = .error fault → fault.cause ≠ .unexpectedClose .template ∧
        fault.cause ≠ .mismatchedClose .brace .template ∧ fault.cause ≠ .mismatchedClose .template .brace) ∧
      (∀ front middle back fault, tokens = front ++ middle :: back → middle.kind = .templateMiddle →
        ofTokens tokens = .error fault → fault.offset = middle.start →
        ∃ stack, Opens stack front ∧ (innermost stack = some .paren ∨ innermost stack = some .bracket)) ∧
      ∀ front token back, tokens = front ++ token :: back → token.text.toList.head? = some '\x7d' →
        (token.kind = .templateMiddle ∨ token.kind = .templateTail ↔ InsideOf .template front) := by
  refine ⟨fun _ _ _ _ hopens => hopens.braces_after, fun fault hfault => ?_, ?_, ?_⟩
  · cases diagnosed_of_ofTokens hfault with
    | refused hcut _ _ hopens hr => exact cause_of_refuses (hcut ▸ h) hopens hr
    | unclosed => exact ⟨nofun, nofun, nofun⟩
  · intro front middle back fault hcut hk hfault hoffset
    have hordered := (Token.Scans.iff.mpr h).ordered
    have hmiddle : middle ∈ tokens := by simp [hcut]
    -- Tokens do not overlap, so a fault where `middle` starts is a fault of `middle` itself.
    cases diagnosed_of_ofTokens hfault with
    | @refused front' token back' stack _ hcut' _ _ hopens hr =>
      obtain rfl : middle = token := hordered.eq_of_start hmiddle (by simp [hcut']) hoffset.symm
      obtain ⟨hfront, hback⟩ := Token.Ordered.not_mem (hcut ▸ hordered)
      obtain ⟨rfl, -⟩ := (List.append_cons_inj_of_notMem hfront hback).mp (hcut.symm.trans hcut')
      exact ⟨stack, hopens, innermost_of_middle (hcut ▸ h) hopens hk hr⟩
    | @unclosed delimiter opening stack _ hopens =>
      obtain ⟨hmem, hopening⟩ := hopens.mem
      obtain rfl : middle = opening := hordered.eq_of_start hmiddle hmem hoffset.symm
      rw [hk] at hopening
      cases delimiter <;> cases hopening
  · rintro front token back rfl hbrace
    rw [piece_iff_inSubstitution h hbrace, inSubstitution_iff_insideOf h]

/-- The tokens of a template literal whose first substitution leaves a parenthesis open. -/
def templateTokens : List Token :=
  [⟨.templateHead, "\x60$\x7b", 0, false⟩, ⟨.openBrace, "\x7b", 3, false⟩, ⟨.closeBrace, "\x7d", 4, false⟩,
    ⟨.openParen, "(", 5, false⟩, ⟨.templateMiddle, "\x7d$\x7b", 6, false⟩, ⟨.closeParen, ")", 9, false⟩,
    ⟨.templateTail, "\x7d\x60", 10, false⟩]

theorem ofTokens_scanned_sample :
    Token.scan "\x60$\x7b\x7b\x7d(\x7d$\x7b)\x7d\x60".toList = .ok templateTokens ∧
      ofTokens templateTokens = .error ⟨.unexpectedClose .brace, 6⟩ ∧
      (∃ stack, Opens stack (templateTokens.take 4) ∧
        (innermost stack = some .paren ∨ innermost stack = some .bracket)) ∧
      InsideOf .template (templateTokens.take 4) ∧ ¬InsideOf .template (templateTokens.take 2) := by
  have hscan : Token.scan "\x60$\x7b\x7b\x7d(\x7d$\x7b)\x7d\x60".toList = .ok templateTokens := by decide +kernel
  have hfault : ofTokens templateTokens = .error ⟨.unexpectedClose .brace, 6⟩ := rfl
  obtain ⟨-, -, hmiddle, hbrace⟩ := ofTokens_scanned hscan
  refine ⟨hscan, hfault, hmiddle (templateTokens.take 4) _ (templateTokens.drop 5) _ rfl rfl hfault rfl,
    (hbrace (templateTokens.take 4) _ (templateTokens.drop 5) rfl (by decide)).mp (.inl rfl), fun hinside => ?_⟩
  have hpiece := (hbrace (templateTokens.take 2) _ (templateTokens.drop 3) rfl (by decide)).mpr hinside
  exact absurd hpiece (by decide)

end Tree

end DeferredLog
