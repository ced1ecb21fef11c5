import DeferredLog.Proofs.Token.Boundary
import DeferredLog.Text.Word

/-!
# Name tokens are words

The bounds of words in a text and the tokens of a program come from two readers that know nothing of
each other, and characters exist that continue a word and no name. Still no token runs into a name
token that starts with a letter, and none that follows one starts with such a character.

* `Text.hasWord_append`: a word between two bounds is found.
* `Lexeme.read_beforeLetter`: before a letter a lexeme ends in a character of no word.
* `Token.hasWord_of_mem`: a name token that starts with a letter is a word of the text.
-/

namespace DeferredLog

open Text (isNamePart isWord wordAt hasWord isSign)

namespace Text

/-- A word that stands between two characters that are no parts of words is found. -/
theorem hasWord_append {words : List (List Char)} {word : List Char} (hw : word ∈ words)
    (hne : word ≠ []) {before after : List Char} {first : Option Char}
    (hbefore : wordAt (before.getLast?.or first) = false) (hafter : wordAt after.head? = false) :
    hasWord words first (before ++ (word ++ after)) = true := by
  induction before generalizing first with
  | nil =>
    obtain ⟨c, more, rfl⟩ := List.exists_cons_of_ne_nil hne
    rw [List.nil_append, List.cons_append, hasWord, Bool.or_eq_true, Bool.and_eq_true]
    refine .inl ⟨by simpa using hbefore, List.any_eq_true.mpr ⟨_, hw, ?_⟩⟩
    rw [← List.cons_append, List.drop_left, hafter]
    simp
  | cons c before ih =>
    rw [List.cons_append, hasWord, Bool.or_eq_true]
    refine .inr (ih ?_)
    rw [List.getLast?_cons] at hbefore
    cases hl : before.getLast? <;> simpa [hl] using hbefore

end Text

/-! ## Gaps -/

namespace Gap

/-- A gap starts with white space or the slash of a comment. -/
theorem skip_first {offset : Nat} {cs gap rest : List Char}
    (h : skip .blank offset cs = .ok (gap, rest)) :
    ∀ c, gap.head? = some c → isSpace c = true ∨ c = '/' := by
  intro d hd
  unfold skip at h
  split at h
  · cases h
  · cases h
    cases hd
  · obtain ⟨_, rfl, -⟩ := grow_eq_ok h
    cases hd
    exact .inr rfl
  · obtain ⟨_, rfl, -⟩ := grow_eq_ok h
    cases hd
    exact .inr rfl
  · split at h
    · rename_i hc
      obtain ⟨_, rfl, -⟩ := grow_eq_ok h
      cases hd
      exact .inl hc
    · cases h
      cases hd
  all_goals simp_all

end Gap

/-! ## Lexemes -/

namespace Lexeme

/-- Before a letter a lexeme ends in a character of no word. -/
theorem read_beforeLetter {context : Context} {c : Char} {cs : List Char} {lexeme : Lexeme}
    (h : read context c cs = .ok lexeme) {next : Char} (hnext : lexeme.rest.head? = some next)
    (hletter : next.isAlpha = true) : ∃ d, lexeme.text.getLast? = some d ∧ isWord d = false := by
  rcases read_ending h with ⟨-, hnumber⟩ | hname | ⟨d, hlast, hd⟩
  · simp [hnext, isNumeral, Char.isAlphanum, hletter] at hnumber
  · have hpart : isNamePart next = true :=
      Text.isNamePart_of_isAlphanum (by simp [Char.isAlphanum, hletter])
    simp [hnext, hpart] at hname
  · exact ⟨d, hlast, Text.not_isWord_of_isSign hd⟩

/-- A lexeme starts with a character of names or with a sign. -/
theorem read_first {context : Context} {c : Char} {cs : List Char} {lexeme : Lexeme}
    (h : read context c cs = .ok lexeme) : isNamePart c = true ∨ isSign c = true := by
  cases readAs_of_read h with
  | opening hc => exact .inr (by rw [hc]; decide)
  | piece hc => exact .inr (by rw [hc]; decide)
  | string hc => exact .inr (isSign_of_quote hc)
  | regex hc => exact .inr (by rw [hc]; decide)
  | number hc =>
    rcases hc with rfl | hc
    · exact .inr (by decide)
    · exact .inl (Text.isNamePart_of_isAlphanum (by simp [Char.isAlphanum, hc]))
  | ident hc => exact .inl (Text.isNamePart_of_isNameStart hc)
  | delimiter _ hk => exact .inr (isSign_of_delimiterKind hk)
  | punct _ _ hp =>
    obtain ⟨happ, hne⟩ := punctText_append hp
    obtain ⟨d, more, rfl⟩ := List.exists_cons_of_ne_nil hne
    obtain ⟨rfl, -⟩ := List.cons.inj happ
    exact .inr (isSign_of_mem_punctuators (List.mem_of_find?_eq_some hp) List.mem_cons_self)

end Lexeme

/-! ## Tokens -/

namespace Token

variable {context : Context} {offset : Nat} {cs : List Char} {tokens : List Token} {token : Token}

/-- Where tokens start and no name goes on, no word goes on. -/
theorem Scans.wordAt_head? (h : Scans context offset cs tokens)
    (hname : cs.head?.any isNamePart = false) : wordAt cs.head? = false := by
  have gap {c : Char} (hc : Gap.isSpace c = true ∨ c = '/') : isWord c = false := by
    rcases hc with hc | rfl
    · exact Text.not_isWord_of_blank hc
    · exact Text.not_isWord_of_isSign (by decide)
  cases h with
  | done hgap =>
    cases cs with
    | nil => rfl
    | cons c cs => exact gap (Gap.skip_first hgap c rfl)
  | @token _ _ front c more kind rest tokens hgap hread _ =>
    cases front with
    | nil =>
      rcases Lexeme.read_first hread with hc | hc
      · simp [hc] at hname
      · exact Text.not_isWord_of_isSign hc
    | cons d front => exact gap (Gap.skip_first hgap d rfl)

/-- A name token that starts with a letter stands in the text between characters of no word. -/
theorem Scans.word_at (h : Scans context offset cs tokens) (ht : token ∈ tokens)
    (hk : token.kind = .ident) {letter : Char} {more : List Char}
    (htext : token.text.toList = letter :: more) (hletter : letter.isAlpha = true) :
    ∃ before after, cs = before ++ (token.text.toList ++ after) ∧
      wordAt before.getLast? = false ∧ wordAt after.head? = false := by
  induction h with
  | done => cases ht
  | @token context offset gap c more' kind rest tokens hgap hread h ih =>
    rcases List.mem_cons.mp ht with rfl | ht
    · obtain ⟨-, -, hname⟩ := Lexeme.read_ident hread hk
      refine ⟨gap, rest, by simp [ofLexeme], ?_, h.wordAt_head? hname⟩
      cases hl : gap.getLast? with
      | none => rfl
      | some d =>
        rcases (Gap.skip_last hgap (by simp)).1 d hl with hd | rfl
        · exact Text.not_isWord_of_blank hd
        · exact Text.not_isWord_of_isSign (by decide : isSign '/' = true)
    · obtain ⟨before, after, rfl, hbefore, hafter⟩ := ih ht
      refine ⟨gap ++ (c :: more' ++ before), after, by simp, ?_, hafter⟩
      cases before with
      | nil =>
        obtain ⟨d, hd, hword⟩ := Lexeme.read_beforeLetter hread
          (show _ = some letter by simp [htext]) hletter
        have hlast : (gap ++ (c :: more' ++ [])).getLast? = some d := by
          simpa [List.getLast?_append] using hd
        rw [hlast]
        exact hword
      | cons b before =>
        rw [← List.append_assoc, List.getLast?_append]
        cases hl : (b :: before).getLast? with
        | none => simp at hl
        | some d => simpa [hl] using hbefore

/-- Behind a line that names an interpreter the line ends. -/
theorem interpreterLine_rest {source : List Char} (h : (interpreterLine source).1 ≠ []) :
    (interpreterLine source).2.head?.any (!Text.isLineBreak ·) = false := by
  unfold interpreterLine at *
  split at h
  · exact Lexeme.head?_dropWhile _
  · exact absurd rfl h

/-- **A name token that starts with a letter is a word of the text.** -/
theorem hasWord_of_mem {source : List Char} {tokens : List Token} (h : scan source = .ok tokens)
    {token : Token} (ht : token ∈ tokens) (hk : token.kind = .ident) {letter : Char}
    {more : List Char} (htext : token.text.toList = letter :: more)
    (hletter : letter.isAlpha = true) {words : List (List Char)}
    (hw : token.text.toList ∈ words) : hasWord words none source = true := by
  obtain ⟨before, after, hrest, hbefore, hafter⟩ :=
    (Scans.iff.mpr h).word_at ht hk htext hletter
  have hsource : source = (interpreterLine source).1 ++ before ++ (token.text.toList ++ after) := by
    rw [List.append_assoc, ← hrest, interpreterLine_append]
  rw [hsource]
  refine Text.hasWord_append hw (by simp [htext]) ?_ hafter
  rw [Option.or_none, List.getLast?_append]
  cases hl : before.getLast? with
  | some d => simpa [hl] using hbefore
  | none =>
    rw [List.getLast?_eq_none_iff] at hl
    subst hl
    cases hline : (interpreterLine source).1 with
    | nil => rfl
    | cons d line =>
      have hbreak : (interpreterLine source).2.head?.any (!Text.isLineBreak ·) = false :=
        interpreterLine_rest (by simp [hline])
      rw [hrest, htext] at hbreak
      simp [Text.not_isLineBreak_of_isAlpha hletter] at hbreak

end Token

end DeferredLog
