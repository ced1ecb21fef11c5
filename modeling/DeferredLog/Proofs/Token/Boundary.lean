import DeferredLog.Proofs.Text.Classes
import DeferredLog.Proofs.Token.Scans

/-!
# The boundaries of names

Where a name token stands, the text has that name and not a part of a longer one. Behind it this is
how names are read. Before it stands a gap, or a token that ends in a character of another kind; only
a number can end in a character of names, and then the name would run together with it.

* `Scans.name_at`: the text around a name token of a program.
-/

namespace DeferredLog

open Text (isNamePart isNameStart isLineBreak isSign)

/-! ## Gaps -/

namespace Gap

/-- A gap before more text ends in white space or a comment's closing mark, and only a gap between
comments can be empty. -/
theorem skip_last {mode : Mode} {offset : Nat} {cs gap rest : List Char}
    (h : skip mode offset cs = .ok (gap, rest)) (hr : rest ≠ []) :
    (∀ c, gap.getLast? = some c → isSpace c = true ∨ c = '/') ∧ (gap = [] → mode = .blank) := by
  fun_induction skip mode offset cs generalizing gap rest with
  | case1 => cases h
  | case2 =>
    simp only [Except.ok.injEq, Prod.mk.injEq] at h
    exact absurd h.2.symm hr
  | case3 offset cs ih | case4 offset cs ih =>
    obtain ⟨_, rfl, h₁⟩ := grow_eq_ok h
    obtain ⟨g, rfl, h₂⟩ := grow_eq_ok h₁
    obtain ⟨hl, hn⟩ := ih h₂ hr
    refine ⟨fun c hc => ?_, by simp⟩
    cases g with
    | nil => simp at hn
    | cons d g =>
      rw [List.getLast?_cons_cons, List.getLast?_cons_cons] at hc
      exact hl c hc
  | case5 offset c cs _ _ hc ih =>
    obtain ⟨g, rfl, h₁⟩ := grow_eq_ok h
    obtain ⟨hl, -⟩ := ih h₁ hr
    refine ⟨fun d hd => ?_, by simp⟩
    cases g with
    | nil =>
      cases hd
      exact .inl hc
    | cons e g => exact hl d hd
  | case6 =>
    simp only [Except.ok.injEq, Prod.mk.injEq] at h
    obtain ⟨rfl, rfl⟩ := h
    simp
  | case7 offset c cs ih =>
    obtain ⟨g, rfl, h₁⟩ := grow_eq_ok h
    obtain ⟨hl, hn⟩ := ih h₁ hr
    refine ⟨fun d hd => ?_, by simp⟩
    cases g with
    | nil =>
      cases hd
      have hb := hn rfl
      split at hb
      · rename_i hc
        exact .inl (by simp [isSpace, Text.isBlank_of_isLineBreak hc])
      · cases hb
    | cons e g => exact hl d hd
  | case8 opened offset cs ih =>
    obtain ⟨_, rfl, h₁⟩ := grow_eq_ok h
    obtain ⟨g, rfl, h₂⟩ := grow_eq_ok h₁
    obtain ⟨hl, -⟩ := ih h₂ hr
    refine ⟨fun c hc => ?_, by simp⟩
    cases g with
    | nil =>
      cases hc
      exact .inr rfl
    | cons d g => exact hl c hc
  | case9 opened offset c cs _ ih =>
    obtain ⟨g, rfl, h₁⟩ := grow_eq_ok h
    obtain ⟨hl, hn⟩ := ih h₁ hr
    refine ⟨fun d hd => ?_, by simp⟩
    cases g with
    | nil => simp at hn
    | cons e g => exact hl d hd

end Gap

/-! ## Lexemes -/

namespace Lexeme

theorem stringText_last {quote : Char} {cs text rest : List Char}
    (h : stringText quote cs = some (text, rest)) : text.getLast? = some quote := by
  fun_induction stringText quote cs generalizing text rest with
  | case1 => simp at h
  | case2 => simp at h
  | case3 c cs ih =>
    obtain ⟨⟨a, b⟩, hr, he⟩ := Option.map_eq_some_iff.mp h
    simp only [Prod.mk.injEq] at he
    obtain ⟨rfl, rfl⟩ := he
    simp [List.getLast?_cons, ih hr]
  | case4 =>
    simp only [Option.some.injEq, Prod.mk.injEq] at h
    obtain ⟨rfl, rfl⟩ := h
    simp_all
  | case5 => simp at h
  | case6 c cs _ _ _ _ ih =>
    obtain ⟨⟨a, b⟩, hr, he⟩ := Option.map_eq_some_iff.mp h
    simp only [Prod.mk.injEq] at he
    obtain ⟨rfl, rfl⟩ := he
    simp [List.getLast?_cons, ih hr]

theorem templateText_last {cs text rest : List Char} {substitution : Bool}
    (h : templateText cs = some (substitution, text, rest)) :
    text.getLast? = some '\x60' ∨ text.getLast? = some '\x7b' := by
  fun_induction templateText cs generalizing text rest with
  | case1 => simp at h
  | case2 => simp at h
  | case3 c cs ih =>
    obtain ⟨⟨a, b, d⟩, hr, he⟩ := Option.map_eq_some_iff.mp h
    simp only [Prod.mk.injEq] at he
    obtain ⟨rfl, rfl, rfl⟩ := he
    rcases ih hr with h | h <;> simp [List.getLast?_cons, h]
  | case4 cs =>
    simp only [Option.some.injEq, Prod.mk.injEq] at h
    obtain ⟨-, rfl, rfl⟩ := h
    simp
  | case5 cs =>
    simp only [Option.some.injEq, Prod.mk.injEq] at h
    obtain ⟨-, rfl, rfl⟩ := h
    simp
  | case6 c cs _ _ _ _ ih =>
    obtain ⟨⟨a, b, d⟩, hr, he⟩ := Option.map_eq_some_iff.mp h
    simp only [Prod.mk.injEq] at he
    obtain ⟨rfl, rfl, rfl⟩ := he
    rcases ih hr with h | h <;> simp [List.getLast?_cons, h]

theorem delimiterKind_eq_some {c : Char} {kind : TokenKind} (h : delimiterKind c = some kind) :
    (c = '(' ∧ kind = .openParen) ∨ (c = ')' ∧ kind = .closeParen) ∨
      (c = '[' ∧ kind = .openBracket) ∨ (c = ']' ∧ kind = .closeBracket) ∨
      (c = '\x7b' ∧ kind = .openBrace) ∨ (c = '\x7d' ∧ kind = .closeBrace) := by
  unfold delimiterKind at h
  repeat' split at h
  all_goals simp_all

theorem head?_dropWhile {p : Char → Bool} (cs : List Char) :
    (cs.dropWhile p).head?.any p = false := by
  induction cs with
  | nil => rfl
  | cons c cs ih =>
    rw [List.dropWhile_cons]
    split
    · exact ih
    · simp_all

/-- A number does not end before a character that continues it. -/
theorem numberText_rest (radix : Bool) (cs : List Char) :
    (numberText radix cs).2.head?.any isNumeral = false := by
  fun_induction numberText radix cs <;> simp_all

theorem isSign_of_delimiterKind {c : Char} {kind : TokenKind} (h : delimiterKind c = some kind) :
    isSign c = true := by
  rcases delimiterKind_eq_some h with h | h | h | h | h | h <;>
  · rw [h.1]
    decide

theorem isSign_of_quote {c : Char} (h : c = '"' ∨ c = '\'') : isSign c = true := by
  rcases h with rfl | rfl <;> decide

/-- Punctuators are made of signs. -/
theorem isSign_of_mem_punctuators {p : List Char} (hp : p ∈ punctuators) {c : Char} (hc : c ∈ p) :
    isSign c = true := by
  have hall : punctuators.all (fun p => p.all isSign) = true := by decide +kernel
  exact List.all_eq_true.mp (List.all_eq_true.mp hall p hp) c hc

/-- What ends a lexeme: the end of a number, of a name or of flags, or a sign. -/
theorem read_ending {context : Context} {c : Char} {cs : List Char} {lexeme : Lexeme}
    (h : read context c cs = .ok lexeme) :
    (lexeme.kind = .number ∧ lexeme.rest.head?.any isNumeral = false) ∨
      lexeme.rest.head?.any isNamePart = false ∨
      ∃ d, lexeme.text.getLast? = some d ∧ isSign d = true := by
  have template_last {substitution : Bool} {text rest : List Char}
      (ht : templateText cs = some (substitution, text, rest)) :
      ∃ d, (c :: text).getLast? = some d ∧ isSign d = true := by
    rcases templateText_last ht with h | h
    · exact ⟨'\x60', by simp [List.getLast?_cons, h], by decide⟩
    · exact ⟨'\x7b', by simp [List.getLast?_cons, h], by decide⟩
  cases readAs_of_read h with
  | opening _ ht => exact .inr (.inr (template_last ht))
  | piece _ _ ht => exact .inr (.inr (template_last ht))
  | string hc ht => exact .inr (.inr ⟨c, by simp [List.getLast?_cons, stringText_last ht], isSign_of_quote hc⟩)
  | regex => exact .inr (.inl (head?_dropWhile _))
  | number => exact .inl ⟨rfl, numberText_rest _ _⟩
  | ident => exact .inr (.inl (head?_dropWhile _))
  | delimiter _ hk => exact .inr (.inr ⟨c, rfl, isSign_of_delimiterKind hk⟩)
  | punct _ _ hp =>
    obtain ⟨d, hd⟩ := List.getLast?_isSome.mpr (punctText_append hp).2 |> Option.isSome_iff_exists.mp
    exact .inr (.inr ⟨d, hd, isSign_of_mem_punctuators (List.mem_of_find?_eq_some hp) (List.mem_of_getLast? hd)⟩)

/-- A lexeme that is no number ends in a character that no name has, or where none follows. -/
theorem read_last {context : Context} {c : Char} {cs : List Char} {lexeme : Lexeme}
    (h : read context c cs = .ok lexeme) : lexeme.kind = .number ∨
      lexeme.rest.head?.any isNamePart = false ∨
      ∃ d, lexeme.text.getLast? = some d ∧ isNamePart d = false := by
  rcases read_ending h with ⟨hnumber, -⟩ | hname | ⟨d, hlast, hd⟩
  · exact .inl hnumber
  · exact .inr (.inl hname)
  · exact .inr (.inr ⟨d, hlast, Text.not_isNamePart_of_isSign hd⟩)

/-- What is known of a name that was read. -/
theorem read_ident {context : Context} {c : Char} {cs : List Char} {lexeme : Lexeme}
    (h : read context c cs = .ok lexeme) (hk : lexeme.kind = .ident) :
    isNameStart c = true ∧ (∀ d ∈ lexeme.text, isNamePart d = true) ∧
      lexeme.rest.head?.any isNamePart = false := by
  cases readAs_of_read h with
  | @opening substitution => cases substitution <;> cases hk
  | @piece substitution => cases substitution <;> cases hk
  | string => cases hk
  | regex => cases hk
  | number => cases hk
  | ident hc =>
    refine ⟨hc, fun d hd => ?_, head?_dropWhile _⟩
    rcases List.mem_cons.mp hd with rfl | hd
    · exact Text.isNamePart_of_isNameStart hc
    · exact List.all_eq_true.mp List.all_takeWhile d hd
  | @delimiter kind _ hd =>
    obtain rfl : kind = .ident := hk
    rcases delimiterKind_eq_some hd with h | h | h | h | h | h <;> cases h.2
  | punct => cases hk

end Lexeme

/-! ## Names -/

namespace Token

/-- **The text around a name token.** It stands there as a whole name, unless a number runs into it. -/
theorem Scans.name_at {context : Context} {offset : Nat} {cs : List Char} {tokens pre post : List Token}
    {token : Token} (h : Scans context offset cs tokens) (ht : tokens = pre ++ token :: post)
    (hk : token.kind = .ident) :
    ∃ before after, cs = before ++ (token.text.toList ++ after) ∧
      offset + Text.size before = token.start ∧
      (∃ c ∈ token.text.toList.head?, isNameStart c = true) ∧
      (∀ c ∈ token.text.toList, isNamePart c = true) ∧ after.head?.any isNamePart = false ∧
      (∀ c, before.getLast? = some c → isNamePart c = true →
        (∃ last, pre.getLast? = some last ∧ last.kind = .number) ∧ token.newlineBefore = false) ∧
      (before = [] → pre = [] ∧ token.newlineBefore = false) := by
  induction h generalizing pre with
  | done => simp at ht
  | @token context offset gap c more kind rest tokens hgap hread h ih =>
    obtain ⟨hlast, -⟩ := Gap.skip_last hgap (by simp)
    cases pre with
    | nil =>
      obtain ⟨rfl, rfl⟩ := List.cons.inj ht
      obtain ⟨hs, hp, ha⟩ := Lexeme.read_ident hread hk
      refine ⟨gap, rest, by simp [ofLexeme], rfl, ⟨c, by simp [ofLexeme], hs⟩, by simpa [ofLexeme] using hp, ha,
        fun d hd hn => ?_, fun hg => ⟨rfl, by simp [ofLexeme, hg]⟩⟩
      rcases hlast d hd with h | rfl
      · rw [Text.not_isNamePart_of_blank h] at hn
        cases hn
      · exact absurd hn (by decide +kernel)
    | cons first pre =>
      obtain ⟨rfl, rfl⟩ := List.cons.inj ht
      obtain ⟨before, after, rfl, hsize, ⟨s, hs, hstart⟩, hparts, hafter, hbefore, hnil⟩ := ih rfl
      refine ⟨gap ++ (c :: more ++ before), after, by simp, by simp at *; omega, ⟨s, hs, hstart⟩, hparts,
        hafter, fun d hd hn => ?_, by simp⟩
      cases before with
      | nil =>
        obtain ⟨rfl, hl⟩ := hnil rfl
        have hd : (c :: more).getLast? = some d := by simpa [List.getLast?_append] using hd
        refine ⟨⟨_, rfl, ?_⟩, hl⟩
        rcases Lexeme.read_last hread with h | h | ⟨e, he, hne⟩
        · exact h
        · cases ht : token.text.toList with
          | nil => simp [ht] at hs
          | cons s' text =>
            simp [ht] at hs
            subst hs
            simp [ht, Text.isNamePart_of_isNameStart hstart] at h
        · rw [show (c :: more).getLast? = some e from he] at hd
          cases hd
          rw [hn] at hne
          cases hne
      | cons b before =>
        have hd : (b :: before).getLast? = some d := by
          rw [← List.append_assoc, List.getLast?_append] at hd
          cases hl : (b :: before).getLast? <;> simp_all
        obtain ⟨⟨last, hlast, hnum⟩, hl⟩ := hbefore d hd hn
        refine ⟨⟨last, ?_, hnum⟩, hl⟩
        cases pre with
        | nil => cases hlast
        | cons => rwa [List.getLast?_cons_cons]

end Token

end DeferredLog
