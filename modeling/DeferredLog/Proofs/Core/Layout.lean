import DeferredLog.Proofs.Core.Language
import DeferredLog.Proofs.Token.Edit

/-!
# Texts of the core language

A program of the core language can be laid out in any way: white space and comments stand between its
tokens where they do not run together without. `Core.Laid` relates a text to its tokens, told where it
starts, and looks at one token at a time, with no regard to what stands around it.

* `Core.read_lexeme`: a lexeme is read up to where it ends.
* `Core.Laid.scan_eq`: the tokens of a text are those it is laid out from.
-/

namespace DeferredLog

namespace Core

open Text (isNamePart isNameStart)
open Lexeme (numberText hasRadix isNumeral isExponent punctuators standsAt punctText)

/-! ## Lexemes -/

/-- Whether a text is a number. -/
def isNumber (text : List Char) : Bool :=
  (text.head?.any Char.isDigit || text.head? = some '.' && text[1]?.any Char.isDigit) &&
    numberText (hasRadix text) text = (text, [])

/-- The signs of the core language. -/
def signs : List (List Char) :=
  [['.'], [','], [';'], ['='], ['=', '>']]

/-- The lexemes of the core language. -/
inductive IsLexeme : TokenKind → List Char → Prop
  | name {text} : Lexeme.isName text = true → IsLexeme .ident text
  | number {text} : isNumber text = true → IsLexeme .number text
  | sign {text} : text ∈ signs → IsLexeme .punct text
  | openParen : IsLexeme .openParen ['(']
  | closeParen : IsLexeme .closeParen [')']
  | openBrace : IsLexeme .openBrace ['\x7b']
  | closeBrace : IsLexeme .closeBrace ['\x7d']

instance (kind : TokenKind) (text : List Char) : Decidable (IsLexeme kind text) :=
  match kind with
  | .ident => decidable_of_iff (Lexeme.isName text = true) ⟨.name, fun | .name h => h⟩
  | .number => decidable_of_iff (isNumber text = true) ⟨.number, fun | .number h => h⟩
  | .punct => decidable_of_iff (text ∈ signs) ⟨.sign, fun | .sign h => h⟩
  | .openParen => decidable_of_iff (text = ['(']) ⟨fun h => h ▸ .openParen, fun | .openParen => rfl⟩
  | .closeParen => decidable_of_iff (text = [')']) ⟨fun h => h ▸ .closeParen, fun | .closeParen => rfl⟩
  | .openBrace => decidable_of_iff (text = ['\x7b']) ⟨fun h => h ▸ .openBrace, fun | .openBrace => rfl⟩
  | .closeBrace => decidable_of_iff (text = ['\x7d']) ⟨fun h => h ▸ .closeBrace, fun | .closeBrace => rfl⟩
  | .string | .regex | .template | .templateHead | .templateMiddle | .templateTail | .openBracket
  | .closeBracket => isFalse nofun

/-- Whether a lexeme may go on with a character. -/
def goesOn : TokenKind → List Char → Char → Bool
  | .ident, _, c => isNamePart c
  | .number, _, c => isNumeral c || c = '+' || c = '-'
  | .punct, text, c => punctuators.any ((text ++ [c]).isPrefixOf ·) || text = ['.'] && c.isDigit
  | _, _, _ => false

/-- Whether a lexeme ends before a text. -/
def EndsBefore (kind : TokenKind) (text rest : List Char) : Prop :=
  ∀ c ∈ rest.head?, goesOn kind text c = false

variable {context : Context} {kind : TokenKind} {c : Char} {text more rest : List Char}

/-- What does not go on with a number is left. -/
theorem numberText_eq_nil {radix : Bool} (h : ∀ c ∈ rest.head?, isNumeral c = false) :
    numberText radix rest = ([], rest) := by
  match rest with
  | [] => rfl
  | [c] => simp [numberText, h c rfl]
  | c :: d :: cs => simp [numberText, h c rfl]

/-- A number is read up to its end. -/
theorem numberText_append_of_ends {radix : Bool} (h : numberText radix text = (text, []))
    (hends : EndsBefore .number text rest) : numberText radix (text ++ rest) = (text, rest) := by
  simp only [EndsBefore, goesOn, Bool.or_eq_false_iff, decide_eq_false_iff_not] at hends
  have hnil : numberText radix rest = ([], rest) := numberText_eq_nil fun c hc => (hends c hc).1.1
  fun_induction numberText radix text with
  | case1 => exact hnil
  | case2 c hc =>
    cases rest with
    | nil => simp [numberText, hc]
    | cons d cs =>
      obtain ⟨⟨-, hplus⟩, hminus⟩ := hends d rfl
      rw [List.cons_append, List.nil_append, numberText, if_pos hc, if_neg (by simp [hplus, hminus]), hnil]
  | case3 => cases h
  | case4 c d cs hc he ih =>
    simp only [Prod.mk.injEq, List.cons.injEq, true_and] at h
    rw [List.cons_append, List.cons_append, numberText, if_pos hc, if_pos he, ih (Prod.ext h.1 h.2)]
  | case5 c d cs hc he ih =>
    simp only [Prod.mk.injEq, List.cons.injEq, true_and] at h
    rw [List.cons_append, List.cons_append, numberText, if_pos hc, if_neg he, ← List.cons_append,
      ih (Prod.ext h.1 h.2)]
  | case6 => cases h

theorem hasRadix_append_of_ends (hne : text ≠ []) (hends : EndsBefore .number text rest) :
    hasRadix (text ++ rest) = hasRadix text := by
  match text, rest with
  | [], _ => exact absurd rfl hne
  | _ :: _ :: _, _ => unfold hasRadix; split <;> simp_all
  | [c], [] => rfl
  | [c], d :: cs =>
    have hd : isNumeral d = false := by
      have := hends d rfl
      simp only [goesOn, Bool.or_eq_false_iff] at this
      exact this.1.1
    rw [show hasRadix [c] = false by unfold hasRadix; split <;> simp_all, Bool.eq_false_iff]
    intro hradix
    unfold hasRadix at hradix
    split at hradix
    · rename_i heq
      cases heq
      simp only [Bool.or_eq_true, decide_eq_true_eq] at hradix
      rcases hradix with ((((rfl | rfl) | rfl) | rfl) | rfl) | rfl <;> cases hd
    · cases hradix

/-- No longer punctuator stands where a sign ends. -/
theorem standsAt_append_of_ends {p : List Char} (hp : p ∈ punctuators) (htext : text ∈ signs)
    (hends : EndsBefore .punct text rest) : standsAt (text ++ rest) p = standsAt text p := by
  have hchain : ∀ more, text ≠ '?' :: more := by
    rintro more rfl
    simp [signs] at htext
  have hprefix : p.isPrefixOf (text ++ rest) = p.isPrefixOf text := by
    rw [Bool.eq_iff_iff, List.isPrefixOf_iff_prefix, List.isPrefixOf_iff_prefix]
    refine ⟨fun h => ?_, fun h => h.trans (List.prefix_append _ _)⟩
    by_contra hnot
    -- The punctuator would be the sign, one more character and perhaps others.
    obtain ⟨_ | ⟨d, more⟩, rfl⟩ : text <+: p := by
      rcases List.prefix_or_prefix_of_prefix h (List.prefix_append text rest) with hp | hp
      · exact absurd hp hnot
      · exact hp
    · exact hnot (by simp)
    · obtain ⟨tail, hrest⟩ := (List.prefix_append_right_inj text).mp h
      have hd := hends d (by rw [← hrest]; rfl)
      simp only [goesOn, Bool.or_eq_false_iff, List.any_eq_false] at hd
      exact hd.1 _ hp (List.isPrefixOf_iff_prefix.mpr ⟨more, by simp⟩)
  rw [standsAt, standsAt, hprefix]
  by_cases hstands : p = ['?', '.'] ∧ p.isPrefixOf text = true
  · obtain ⟨rfl, h⟩ := hstands
    obtain ⟨more, hmore⟩ := List.isPrefixOf_iff_prefix.mp h
    exact absurd hmore.symm (hchain _)
  · by_cases h : p.isPrefixOf text = true
    · have hne : p ≠ ['?', '.'] := fun hp => hstands ⟨hp, h⟩
      simp [hne]
    · simp [h]

/-- A sign is read up to its end. -/
theorem punctText_append_of_ends (htext : text ∈ signs) (hends : EndsBefore .punct text rest) :
    punctText (text ++ rest) = some text := by
  have hsame : punctText (text ++ rest) = punctText text :=
    List.find?_congr fun p hp => standsAt_append_of_ends hp htext hends
  rw [hsame]
  clear hsame hends
  revert text
  decide +kernel

/-! ## Reading a lexeme -/

theorem IsLexeme.ne_nil (h : IsLexeme kind text) : text ≠ [] := by
  rintro rfl
  cases h with
  | name h => cases h
  | number h => simp [isNumber] at h
  | sign h => simp [signs] at h

/-- A number starts with a digit, or with a dot and a digit. -/
theorem isDigit_of_isNumber (h : isNumber (c :: more) = true) :
    c.isDigit = true ∨ c = '.' ∧ more.head?.any Char.isDigit = true := by
  rw [isNumber, Bool.and_eq_true, Bool.or_eq_true, Bool.and_eq_true] at h
  refine h.1.imp (by simp) fun h => ?_
  rw [List.head?_eq_getElem?]
  simpa using h

/-- A gap ends before a character that is no space and no slash. -/
theorem gap_endsBefore (hspace : Gap.isSpace c = false) (hslash : c ≠ '/') (rest : List Char) :
    Gap.EndsBefore (c :: rest) :=
  Gap.endsBefore_cons_iff.mpr ⟨hspace, fun h => absurd h hslash⟩

/-- A gap ends before a lexeme. -/
theorem IsLexeme.endsBefore (h : IsLexeme kind text) (rest : List Char) :
    Gap.EndsBefore (text ++ rest) := by
  obtain ⟨c, more, rfl⟩ := List.exists_cons_of_ne_nil h.ne_nil
  cases h with
  | name h => exact Lexeme.endsBefore_of_isNameStart (Bool.and_eq_true_iff.mp h).1 _
  | number h =>
    rcases isDigit_of_isNumber h with hdigit | ⟨rfl, -⟩
    · refine gap_endsBefore (Bool.eq_false_iff.mpr fun hspace => ?_) ?_ _
      · have hpart := Text.isNamePart_of_isAlphanum (c := c) (by simp [Char.isAlphanum, hdigit])
        rw [Text.not_isNamePart_of_blank hspace] at hpart
        cases hpart
      · rintro rfl
        exact absurd hdigit (by decide)
    · exact gap_endsBefore (by decide +kernel) (by decide) _
  | sign h =>
    simp only [signs, List.mem_cons, List.cons.injEq, List.not_mem_nil, or_false] at h
    rcases h with ⟨rfl, -⟩ | ⟨rfl, -⟩ | ⟨rfl, -⟩ | ⟨rfl, -⟩ | ⟨rfl, -⟩ <;>
      exact gap_endsBefore (by decide +kernel) (by decide) _
  | openParen | closeParen | openBrace | closeBrace => exact gap_endsBefore (by decide +kernel) (by decide) _

theorem IsLexeme.skip (h : IsLexeme kind text) {gap : List Char} (hgap : Gap.Closed gap) (offset : Nat)
    (rest : List Char) : Gap.skip .blank offset (gap ++ (text ++ rest)) = .ok (gap, text ++ rest) := by
  rw [Gap.skip_closed hgap, h.endsBefore rest, Gap.lead_ok, List.append_nil]

theorem IsLexeme.ne_hash (h : IsLexeme kind (c :: more)) : c ≠ '#' := by
  rintro rfl
  cases h with
  | name h =>
    have hstart : isNameStart '#' = false := by decide +kernel
    simp [Lexeme.isName, hstart] at h
  | number h =>
    rcases isDigit_of_isNumber h with hdigit | ⟨hdot, -⟩
    · exact absurd hdigit (by decide)
    · exact absurd hdot (by decide)
  | sign h => simp [signs] at h

theorem read_number (h : isNumber (c :: more) = true) (hends : EndsBefore .number (c :: more) rest) :
    Lexeme.read context c (more ++ rest) = .ok ⟨.number, c :: more, rest⟩ := by
  have htext := of_decide_eq_true (Bool.and_eq_true_iff.mp h).2
  have hnumber : Lexeme.number (c :: (more ++ rest)) = ⟨.number, c :: more, rest⟩ := by
    rw [← List.cons_append, Lexeme.number, hasRadix_append_of_ends (by simp) hends,
      numberText_append_of_ends htext hends]
  rcases isDigit_of_isNumber h with hdigit | ⟨rfl, hdot⟩
  · have hne : ∀ {d : Char}, d.isDigit = false → c ≠ d := by
      rintro d hd rfl
      rw [hdigit] at hd
      cases hd
    rw [Lexeme.read, if_neg (hne (by decide)), if_neg (by simp [hne (d := '\x7d') (by decide)]),
      if_neg (by simp [hne (d := '"') (by decide), hne (d := '\'') (by decide)]),
      if_neg (by simp [hne (d := '/') (by decide)]), if_neg (by simp [hne (d := '.') (by decide)]),
      if_pos hdigit, hnumber]
  · cases more with
    | nil => cases hdot
    | cons d more =>
      have hdigit : d.isDigit = true := by simpa using hdot
      rw [Lexeme.read, if_neg (by decide), if_neg (by simp), if_neg (by decide), if_neg (by simp),
        if_pos (by simp [hdigit]), hnumber]

theorem read_sign (h : c :: more ∈ signs) (hends : EndsBefore .punct (c :: more) rest) :
    Lexeme.read context c (more ++ rest) = .ok ⟨.punct, c :: more, rest⟩ := by
  have hpunct : Lexeme.punct c (more ++ rest) = .ok ⟨.punct, c :: more, rest⟩ := by
    rw [Lexeme.punct, ← List.cons_append, punctText_append_of_ends h hends]
    simp
  have hdigit : ¬ (c = '.' && ((more ++ rest).head?.map Char.isDigit).getD false) = true := by
    simp only [signs, List.mem_cons, List.cons.injEq, List.not_mem_nil, or_false] at h
    rcases h with ⟨rfl, rfl⟩ | ⟨rfl, -⟩ | ⟨rfl, -⟩ | ⟨rfl, -⟩ | ⟨rfl, -⟩
    · cases rest with
      | nil => simp
      | cons d rest =>
        have hd := hends d rfl
        simp only [goesOn, Bool.or_eq_false_iff] at hd
        simpa using hd.2
    all_goals simp
  have hplain : c ≠ '\x60' ∧ c ≠ '\x7d' ∧ c ≠ '"' ∧ c ≠ '\'' ∧ c ≠ '/' ∧ c.isDigit = false ∧
      isNameStart c = false ∧ Lexeme.delimiterKind c = none := by
    simp only [signs, List.mem_cons, List.cons.injEq, List.not_mem_nil, or_false] at h
    rcases h with ⟨rfl, -⟩ | ⟨rfl, -⟩ | ⟨rfl, -⟩ | ⟨rfl, -⟩ | ⟨rfl, -⟩ <;> decide +kernel
  obtain ⟨h₁, h₂, h₃, h₄, h₅, h₆, h₇, h₈⟩ := hplain
  rw [Lexeme.read, if_neg h₁, if_neg (by simp [h₂]), if_neg (by simp [h₃, h₄]), if_neg (by simp [h₅]),
    if_neg hdigit, if_neg (by simp [h₆]), if_neg (by simp [h₇]), h₈]
  exact hpunct

/-- **A lexeme is read up to where it ends.** -/
theorem read_lexeme (h : IsLexeme kind (c :: more)) (hends : EndsBefore kind (c :: more) rest)
    (hc : context.inSubstitution = false) :
    Lexeme.read context c (more ++ rest) = .ok ⟨kind, c :: more, rest⟩ := by
  cases h with
  | name h =>
    obtain ⟨hstart, hmore⟩ := Bool.and_eq_true_iff.mp h
    refine Lexeme.read_name hstart hmore ?_
    cases rest with
    | nil => rfl
    | cons d rest => exact hends d rfl
  | number h => exact read_number h hends
  | sign h => exact read_sign h hends
  | openParen | closeParen | openBrace => rfl
  | closeBrace =>
    have hstart : isNameStart '\x7d' = false := by decide +kernel
    simp [Lexeme.read, hc, hstart, Lexeme.delimiterKind]

/-! ## Layouts -/

/-- What stands behind the last token: white space and comments, the last of which may be one up to the
end of the text. -/
def Trailing (gap : List Char) : Prop :=
  ∃ front, Gap.Closed front ∧
    (gap = front ∨ ∃ body, CommentKind.line.Holds body ∧ gap = front ++ ('/' :: '/' :: body))

/-- `Laid offset text tokens`: a text that starts at an offset is laid out from some tokens. Before each
of them stand white space and comments, and what stands behind it does not go on with it. -/
inductive Laid : Nat → List Char → List Token → Prop
  | done {offset gap} : Trailing gap → Laid offset gap []
  | token {offset gap kind text rest tokens} : Gap.Closed gap → IsLexeme kind text →
      EndsBefore kind text rest → Laid (offset + Text.size gap + Text.size text) rest tokens →
      Laid offset (gap ++ (text ++ rest)) (.ofLexeme offset gap ⟨kind, text, rest⟩ :: tokens)

variable {offset : Nat} {gap source : List Char} {tokens : List Token}

/-- Whether a text is laid out from some tokens without comments. -/
def isLaid (offset : Nat) (source : List Char) : List Token → Bool
  | [] => source.all Gap.isSpace
  | token :: tokens =>
    let gap := source.takeWhile Gap.isSpace
    let text := token.text.toList
    let rest := source.drop (gap ++ text).length
    source = gap ++ (text ++ rest) && decide (IsLexeme token.kind text) &&
      rest.head?.all (!goesOn token.kind text ·) && token = .ofLexeme offset gap ⟨token.kind, text, rest⟩ &&
      isLaid (offset + Text.size gap + Text.size text) rest tokens

theorem closed_of_all_isSpace (h : gap.all Gap.isSpace = true) : Gap.Closed gap := by
  induction gap with
  | nil => exact .nil
  | cons c gap ih =>
    obtain ⟨hc, hgap⟩ := Bool.and_eq_true_iff.mp h
    exact .space hc (ih hgap)

/-- A text that is laid out without comments. -/
theorem laid_of_isLaid (h : isLaid offset source tokens = true) : Laid offset source tokens := by
  induction tokens generalizing offset source with
  | nil => exact .done ⟨source, closed_of_all_isSpace h, .inl rfl⟩
  | cons token tokens ih =>
    simp only [isLaid, Bool.and_eq_true, decide_eq_true_eq] at h
    obtain ⟨⟨⟨⟨hsource, hlexeme⟩, hends⟩, htoken⟩, h⟩ := h
    have hgap : Gap.Closed (source.takeWhile Gap.isSpace) := closed_of_all_isSpace List.all_takeWhile
    have hstop : EndsBefore token.kind token.text.toList
        (source.drop (source.takeWhile Gap.isSpace ++ token.text.toList).length) := fun c hc => by
      rw [Option.mem_def.mp hc, Option.all_some, Bool.not_eq_true'] at hends
      exact hends
    have hlaid := Laid.token hgap hlexeme hstop (ih h)
    rw [← hsource, ← htoken] at hlaid
    exact hlaid

theorem Trailing.skip (h : Trailing gap) (offset : Nat) :
    Gap.skip .blank offset gap = .ok (gap, []) := by
  obtain ⟨front, hfront, rfl | ⟨body, hbody, rfl⟩⟩ := h
  · have hskip := Gap.skip_closed hfront offset []
    rw [List.append_nil] at hskip
    rw [hskip, Gap.endsBefore_nil, Gap.lead_ok, List.append_nil]
  · have hends : CommentKind.line.EndsBefore [] := nofun
    have hcomment := Gap.skip_comment hbody hends (offset + Text.size front)
    have hend : ∀ offset, Gap.skip .line offset [] = .ok ([], []) := fun _ => rfl
    rw [CommentKind.opening, List.append_nil, CommentKind.mode, hend, Gap.lead_ok, List.append_nil]
      at hcomment
    rw [Gap.skip_closed hfront, show '/' :: '/' :: body = ['/', '/'] ++ body from rfl, hcomment,
      Gap.lead_ok]

/-- No brace of the core language is a substitution. -/
theorem substitution_notMem_behind (h : IsLexeme kind text) (hc : Brace.substitution ∉ context.braces)
    (word : String) : Brace.substitution ∉ (context.behind kind word).braces := by
  cases h with
  | openBrace => simpa [Context.behind, Context.bracesBehind] using hc
  | closeBrace => exact fun hm => hc (List.mem_of_mem_tail hm)
  | _ => exact hc

/-- **A text is scanned as it is laid out.** -/
theorem Laid.scans (h : Laid offset source tokens) (hc : Brace.substitution ∉ context.braces) :
    Token.Scans context offset source tokens := by
  induction h generalizing context with
  | done h => exact .done (h.skip _)
  | @token offset gap kind text rest tokens hgap hlexeme hends _ ih =>
    obtain ⟨c, more, rfl⟩ := List.exists_cons_of_ne_nil hlexeme.ne_nil
    have hsubstitution : context.inSubstitution = false := by
      rw [Context.inSubstitution, decide_eq_false_iff_not]
      exact fun hm => hc (List.mem_of_head? hm)
    exact .token (hlexeme.skip hgap offset rest) (read_lexeme hlexeme hends hsubstitution)
      (ih (substitution_notMem_behind hlexeme hc _))

/-- No text of the core language names an interpreter. -/
theorem Laid.interpreterLine_eq (h : Laid offset source tokens) :
    Token.interpreterLine source = ([], source) := by
  have hhash : source.head? ≠ some '#' := by
    cases h with
    | done h =>
      have hskip : Gap.skip .blank 0 (source ++ []) = .ok (source, []) := by
        rw [List.append_nil]
        exact h.skip 0
      rw [← List.append_nil source]
      exact Gap.head?_append_ne_hash hskip (by simp)
    | @token _ gap kind text rest _ hgap hlexeme =>
      obtain ⟨c, more, rfl⟩ := List.exists_cons_of_ne_nil hlexeme.ne_nil
      refine Gap.head?_append_ne_hash (hlexeme.skip hgap offset rest) fun hc => ?_
      exact hlexeme.ne_hash (Option.some.inj hc)
  have hnil : (Token.interpreterLine source).1 = [] := by
    rw [Token.interpreterLine_eq_nil_iff]
    rintro ⟨more, rfl⟩
    exact hhash rfl
  have hall := Token.interpreterLine_append source
  rw [hnil, List.nil_append] at hall
  exact Prod.ext hnil hall

/-- **The tokens of a text are those it is laid out from.** -/
theorem Laid.scan_eq (h : Laid 0 source tokens) : Token.scan source = .ok tokens := by
  rw [Token.scan, h.interpreterLine_eq]
  exact (h.scans (by simp [Context.start])).scanFrom

end Core

end DeferredLog
