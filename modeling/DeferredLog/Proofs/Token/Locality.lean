import Mathlib.Data.List.Find
import DeferredLog.Proofs.Text.Weave
import DeferredLog.Proofs.Token.Boundary

/-!
# How far reading looks

A gap and a lexeme are read the same when what stands behind them changes, as long as it changes only
behind characters that no reader looks past.

* `Gap.skip_congr`: a gap ends where the same characters follow it.
* `Lexeme.read_of_akin`: a lexeme is read the same before a text that is akin.
* `Lexeme.read_of_woven`: in particular before one with insertions behind closing parentheses.
-/

namespace DeferredLog

open Text (Woven isNamePart)

/-! ## Gaps -/

namespace Gap

/-- Modes that differ at most in where a comment was opened. -/
def Mode.Like : Mode → Mode → Prop
  | .blank, .blank | .line, .line | .block _, .block _ => True
  | _, _ => False

theorem Mode.like_refl (mode : Mode) : mode.Like mode := by
  cases mode <;> trivial

theorem not_isSpace_slash : isSpace '/' = false := by decide +kernel

theorem skip_block_ne_nil {opened offset : Nat} {cs gap rest : List Char}
    (h : skip (.block opened) offset cs = .ok (gap, rest)) : gap ≠ [] := by
  cases cs with
  | nil => simp [skip] at h
  | cons c cs =>
    by_cases hclose : c = '*' ∧ ∃ cs', cs = '/' :: cs'
    · obtain ⟨rfl, cs', rfl⟩ := hclose
      rw [skip] at h
      obtain ⟨_, rfl, -⟩ := grow_eq_ok h
      simp
    · rw [skip] at h
      · obtain ⟨_, rfl, -⟩ := grow_eq_ok h
        simp
      · exact fun cs' hc hcs => hclose ⟨hc, cs', hcs⟩

/-- Whether a gap between comments ends before a text. -/
def EndsBefore (rest : List Char) : Prop :=
  ∀ offset, skip .blank offset rest = .ok ([], rest)

theorem endsBefore_nil : EndsBefore [] := fun _ => rfl

/-- A gap ends before what is no white space and opens no comment. -/
theorem endsBefore_cons_iff {c : Char} {cs : List Char} : EndsBefore (c :: cs) ↔
    isSpace c = false ∧ (c = '/' → ∀ d ∈ cs.head?, d ≠ '/' ∧ d ≠ '*') := by
  constructor
  · intro h
    have grows : ∀ {d result}, skip .blank 0 (c :: cs) = grow d result → False := by
      intro d result he
      obtain ⟨_, hgap, -⟩ := grow_eq_ok (he.symm.trans (h 0))
      cases hgap
    refine ⟨Bool.eq_false_iff.mpr fun hc => ?_, ?_⟩
    · have hslash : c ≠ '/' := by
        rintro rfl
        rw [not_isSpace_slash] at hc
        cases hc
      have hstep : skip .blank 0 (c :: cs) = grow c (skip .blank (0 + c.utf8Size) cs) := by
        rw [skip, if_pos hc]
        all_goals
          rintro _ rfl
          exact absurd rfl hslash
      exact grows hstep
    · rintro rfl d hd
      obtain ⟨more, rfl⟩ := List.head?_eq_some_iff.mp hd
      constructor <;> rintro rfl <;> exact grows (by rw [skip])
  · rintro ⟨hc, hslash⟩ offset
    rw [skip, hc, if_neg Bool.false_ne_true]
    all_goals
      rintro more rfl rfl
      have := hslash rfl _ rfl
      simp at this

/-- A gap ends before any text before which it ends if it ends before the text that was there. -/
theorem skip_replace {mode mode' : Mode} {offset : Nat} {cs gap rest rest' : List Char}
    (h : skip mode offset cs = .ok (gap, rest)) (hm : mode.Like mode') (offset' : Nat)
    (hnil : rest = [] → rest' = []) (hstop : EndsBefore rest → EndsBefore rest') :
    skip mode' offset' (gap ++ rest') = .ok (gap, rest') := by
  fun_induction skip mode offset cs generalizing mode' gap rest offset' with
  | case1 => cases h
  | case2 mode offset hne =>
    simp only [Except.ok.injEq, Prod.mk.injEq] at h
    obtain ⟨rfl, rfl⟩ := h
    rw [hnil rfl]
    cases mode with
    | blank | line => cases mode' <;> simp_all [skip, Mode.Like]
    | block => exact absurd rfl (hne _)
  | case3 offset cs ih =>
    cases mode' <;> simp only [Mode.Like] at hm
    obtain ⟨_, rfl, h₁⟩ := grow_eq_ok h
    obtain ⟨g, rfl, h₂⟩ := grow_eq_ok h₁
    rw [List.cons_append, List.cons_append, skip, ih h₂ (Mode.like_refl .line) _ hnil hstop]
    rfl
  | case4 offset cs ih =>
    cases mode' <;> simp only [Mode.Like] at hm
    obtain ⟨_, rfl, h₁⟩ := grow_eq_ok h
    obtain ⟨g, rfl, h₂⟩ := grow_eq_ok h₁
    rw [List.cons_append, List.cons_append, skip,
      ih h₂ (show Mode.Like (.block _) (.block offset') from trivial) _ hnil hstop]
    rfl
  | case5 offset c cs hne hne' hc ih =>
    cases mode' <;> simp only [Mode.Like] at hm
    obtain ⟨g, rfl, h₁⟩ := grow_eq_ok h
    have hslash : c ≠ '/' := by
      rintro rfl
      rw [not_isSpace_slash] at hc
      cases hc
    rw [List.cons_append, skip, if_pos hc, ih h₁ (Mode.like_refl .blank) _ hnil hstop]
    · rfl
    all_goals
      rintro _ rfl
      exact absurd rfl hslash
  | case6 offset c cs hne hne' hc =>
    cases mode' <;> simp only [Mode.Like] at hm
    simp only [Except.ok.injEq, Prod.mk.injEq] at h
    obtain ⟨rfl, rfl⟩ := h
    refine hstop (fun offset => ?_) offset'
    rw [skip, if_neg hc]
    · exact hne
    · exact hne'
  | case7 offset c cs ih =>
    cases mode' <;> simp only [Mode.Like] at hm
    obtain ⟨g, rfl, h₁⟩ := grow_eq_ok h
    rw [List.cons_append, skip, ih h₁ (Mode.like_refl _) _ hnil hstop]
    rfl
  | case8 opened offset cs ih =>
    cases mode' <;> simp only [Mode.Like] at hm
    obtain ⟨_, rfl, h₁⟩ := grow_eq_ok h
    obtain ⟨g, rfl, h₂⟩ := grow_eq_ok h₁
    rw [List.cons_append, List.cons_append, skip, ih h₂ (Mode.like_refl .blank) _ hnil hstop]
    rfl
  | case9 opened offset c cs hne ih =>
    cases mode' <;> simp only [Mode.Like] at hm
    rename_i opened'
    obtain ⟨g, rfl, h₁⟩ := grow_eq_ok h
    rw [List.cons_append, skip,
      ih h₁ (show Mode.Like (.block _) (.block opened') from trivial) _ hnil hstop]
    · rfl
    · rintro ds rfl hg
      cases g with
      | nil => exact skip_block_ne_nil h₁ rfl
      | cons e g =>
        have hcs := skip_append h₁
        obtain ⟨rfl, -⟩ := List.cons.inj hg
        exact hne _ rfl hcs.symm

/-- A gap ends where the same characters follow it, wherever the text starts. -/
theorem skip_congr {mode mode' : Mode} {offset : Nat} {cs gap rest : List Char}
    (h : skip mode offset cs = .ok (gap, rest)) (hm : mode.Like mode') (offset' : Nat)
    {rest' : List Char} (hhead : rest'.head? = rest.head?)
    (hnext : rest.head? = some '/' → rest'.tail.head? = rest.tail.head?) :
    skip mode' offset' (gap ++ rest') = .ok (gap, rest') := by
  refine skip_replace h hm offset' ?_ ?_
  · rintro rfl
    exact List.head?_eq_none_iff.mp hhead
  · cases rest <;> cases rest' <;> simp only [List.head?_cons, List.head?_nil, reduceCtorEq] at hhead
    · exact id
    · cases hhead
      rw [endsBefore_cons_iff, endsBefore_cons_iff]
      refine fun ⟨hc, hslash⟩ => ⟨hc, fun he => ?_⟩
      have hsame := hnext (by rw [List.head?_cons, he])
      rw [List.tail_cons, List.tail_cons] at hsame
      rw [hsame]
      exact hslash he

end Gap

/-! ## Lexemes -/

namespace Lexeme

variable {c : Char} {cs text rest : List Char}

theorem not_backslash (hlast : c = '\\' → cs = [] → False)
    (hmore : ∀ d ds, c = '\\' → cs = d :: ds → False) : c ≠ '\\' := by
  rintro rfl
  cases cs with
  | nil => exact hlast rfl rfl
  | cons d ds => exact hmore d ds rfl rfl

/-- A string ends at its closing quote, whatever follows. -/
theorem stringText_local {quote : Char} (h : stringText quote cs = some (text, rest))
    (rest' : List Char) : stringText quote (text ++ rest') = some (text, rest') := by
  fun_induction stringText quote cs generalizing text rest with
  | case1 => cases h
  | case2 => cases h
  | case3 c cs ih =>
    obtain ⟨⟨a, b⟩, hr, he⟩ := Option.map_eq_some_iff.mp h
    cases he
    simp [stringText, ih hr]
  | case4 cs hne hne' =>
    cases h
    have hslash := not_backslash hne hne'
    rw [List.cons_append, stringText, if_pos rfl]
    · rfl
    · exact fun h => absurd h hslash
    · exact fun _ _ h => absurd h hslash
  | case5 => cases h
  | case6 c cs hne hne' hc hline ih =>
    obtain ⟨⟨a, b⟩, hr, he⟩ := Option.map_eq_some_iff.mp h
    cases he
    have hslash := not_backslash hne hne'
    rw [List.cons_append, stringText, if_neg hc, if_neg hline, ih hr]
    · rfl
    · exact fun h => absurd h hslash
    · exact fun _ _ h => absurd h hslash

/-- A piece of a template ends at its mark, whatever follows. -/
theorem templateText_local {substitution : Bool}
    (h : templateText cs = some (substitution, text, rest)) (rest' : List Char) :
    templateText (text ++ rest') = some (substitution, text, rest') := by
  fun_induction templateText cs generalizing text rest with
  | case1 => cases h
  | case2 => cases h
  | case3 c cs ih =>
    obtain ⟨⟨a, b, d⟩, hr, he⟩ := Option.map_eq_some_iff.mp h
    cases he
    simp [templateText, ih hr]
  | case4 cs =>
    cases h
    rfl
  | case5 cs =>
    cases h
    rfl
  | case6 c cs hne hne' hmark hopen ih =>
    obtain ⟨⟨a, b, d⟩, hr, he⟩ := Option.map_eq_some_iff.mp h
    cases he
    have hslash := not_backslash hne hne'
    rw [List.cons_append, templateText, ih hr]
    · rfl
    · exact fun h => absurd h hslash
    · exact fun _ _ h => absurd h hslash
    · exact hmark
    · rintro ds rfl hb
      cases b with
      | nil =>
        rcases templateText_last hr with h | h <;> cases h
      | cons e b =>
        have hcs := templateText_append hr
        obtain ⟨rfl, -⟩ := List.cons.inj hb
        exact hopen _ rfl hcs.symm

/-- A regular expression ends at its closing slash, whatever follows. -/
theorem regexText_local {inClass : Bool} (h : regexText inClass cs = some (text, rest))
    (rest' : List Char) : regexText inClass (text ++ rest') = some (text, rest') := by
  fun_induction regexText inClass cs generalizing text rest with
  | case1 => cases h
  | case2 => cases h
  | case3 inClass c cs ih =>
    obtain ⟨⟨a, b⟩, hr, he⟩ := Option.map_eq_some_iff.mp h
    cases he
    simp [regexText, ih hr]
  | case4 => cases h
  | case5 inClass c cs hne hne' hline hc =>
    cases h
    have hslash := not_backslash hne hne'
    rw [List.cons_append, regexText, if_neg hline, if_pos hc]
    · rfl
    · exact fun h => absurd h hslash
    · exact fun _ _ h => absurd h hslash
  | case6 inClass c cs hne hne' hline hc ih =>
    obtain ⟨⟨a, b⟩, hr, he⟩ := Option.map_eq_some_iff.mp h
    cases he
    have hslash := not_backslash hne hne'
    rw [List.cons_append, regexText, if_neg hline, if_neg hc, ih hr]
    · rfl
    · exact fun h => absurd h hslash
    · exact fun _ _ h => absurd h hslash

/-! ### Texts that start alike -/

/-- Texts that start with the same character, or the other one with a line break in front of which the
first one has an opening brace. Neither goes on with a number or a name. -/
def Level (cs cs' : List Char) : Prop :=
  cs'.head? = cs.head? ∨ cs.head? = some '\x7b' ∧ cs'.head?.any Text.isLineBreak = true

namespace Level

variable {cs' : List Char}

theorem of_head? (h : cs'.head? = cs.head?) : Level cs cs' :=
  .inl h

theorem append (a : List Char) (h : Level cs cs') : Level (a ++ cs) (a ++ cs') := by
  cases a with
  | nil => exact h
  | cons => exact .inl rfl

theorem nil_left (h : Level [] cs') : cs' = [] := by
  rcases h with h | ⟨h, -⟩
  · exact List.head?_eq_none_iff.mp h
  · cases h

/-- The first characters have the same property, if it is one of neither braces nor line breaks. -/
theorem any_eq {p : Char → Bool} (h : Level cs cs') (hbrace : p '\x7b' = false)
    (hline : ∀ c, Text.isLineBreak c = true → p c = false) : cs'.head?.any p = cs.head?.any p := by
  rcases h with h | ⟨hcs, hcs'⟩
  · rw [h]
  · obtain ⟨c, hc, hbreak⟩ := Option.any_eq_true _ _ |>.mp hcs'
    rw [hcs, hc, Option.any_some, Option.any_some, hbrace, hline c hbreak]

end Level

/-- What no line break has, told by the four characters that are line breaks. -/
theorem of_isLineBreak {p : Char → Bool} (h : p '\n' = false ∧ p '\r' = false ∧ p '\u2028' = false ∧
    p '\u2029' = false) : ∀ c, Text.isLineBreak c = true → p c = false := by
  intro c hc
  simp only [Text.isLineBreak, Bool.or_eq_true, decide_eq_true_eq] at hc
  obtain ⟨h₁, h₂, h₃, h₄⟩ := h
  rcases hc with ((rfl | rfl) | rfl) | rfl <;> assumption

theorem numberText_stop (radix : Bool) (h : cs.head?.any isNumeral = false) :
    numberText radix cs = ([], cs) := by
  match cs with
  | [] => rfl
  | [c] | c :: _ :: _ => simp [numberText, show isNumeral c = false from h]

/-- A number ends where a text follows it that starts alike. -/
theorem numberText_local {radix : Bool} (h : numberText radix cs = (text, rest))
    {rest' : List Char} (hhead : Level rest rest') :
    numberText radix (text ++ rest') = (text, rest') := by
  have hnumeral : rest'.head?.any isNumeral = rest.head?.any isNumeral :=
    hhead.any_eq (by decide) (of_isLineBreak (by decide))
  fun_induction numberText radix cs generalizing text rest with
  | case1 =>
    cases h
    exact numberText_stop radix hnumeral
  | case2 c hc =>
    cases h
    rw [hhead.nil_left]
    simp [numberText, hc]
  | case3 c hc =>
    cases h
    exact numberText_stop radix (hnumeral.trans (Bool.not_eq_true _ ▸ hc))
  | case4 c d cs hc he ih =>
    cases h
    rw [List.cons_append, List.cons_append, numberText, if_pos hc, if_pos he, ih rfl hhead hnumeral]
  | case5 c d cs hc he ih =>
    cases h
    have ih := ih rfl hhead hnumeral
    have happ := numberText_append radix (d :: cs)
    rw [List.cons_append]
    generalize hn : numberText radix (d :: cs) = n at *
    obtain ⟨more, rest⟩ := n
    have hsign : (more ++ rest').head?.any (fun e => !radix && isExponent c && (e = '+' || e = '-')) =
        (more ++ rest).head?.any (fun e => !radix && isExponent c && (e = '+' || e = '-')) :=
      (hhead.append more).any_eq (by simp) fun e he => by
        rw [of_isLineBreak (p := fun e => decide (e = '+') || decide (e = '-')) (by decide) e he,
          Bool.and_false]
    rw [happ, List.head?_cons, Option.any_some] at hsign
    cases hm : more ++ rest' with
    | nil =>
      obtain ⟨rfl, rfl⟩ := List.append_eq_nil_iff.mp hm
      simp [numberText, hc]
    | cons e es =>
      rw [hm, List.head?_cons, Option.any_some] at hsign
      rw [hm] at ih
      rw [← hsign] at he
      rw [numberText, if_pos hc, if_neg he, ih]
  | case6 c d cs hc =>
    cases h
    exact numberText_stop radix (hnumeral.trans (Bool.not_eq_true _ ▸ hc))

theorem head?_append_of_head? {rest' : List Char} (h : rest'.head? = rest.head?) (more : List Char) :
    (more ++ rest').head? = (more ++ rest).head? := by
  rw [List.head?_append, List.head?_append, h]

theorem hasRadix_of_level {cs' : List Char} (h : Level cs cs') :
    hasRadix (c :: cs') = hasRadix (c :: cs) := by
  have hmark := h.any_eq (p := fun d => d = 'x' || d = 'X' || d = 'b' || d = 'B' || d = 'o' || d = 'O')
    (by decide) (of_isLineBreak (by decide))
  by_cases hc : c = '0'
  · subst hc
    cases cs <;> cases cs' <;> simp_all [hasRadix]
  · simp [hasRadix, hc]

theorem takeWhile_of_level {p : Char → Bool} {rest' : List Char} (h : Level (cs.dropWhile p) rest')
    (hbrace : p '\x7b' = false) (hline : ∀ c, Text.isLineBreak c = true → p c = false) :
    (cs.takeWhile p ++ rest').takeWhile p = cs.takeWhile p ∧
      (cs.takeWhile p ++ rest').dropWhile p = rest' := by
  have hstop := (h.any_eq hbrace hline).trans (head?_dropWhile (p := p) cs)
  clear h
  rw [List.takeWhile_append_of_pos, List.dropWhile_append_of_pos]
  · cases rest' <;> simp_all
  all_goals exact fun a ha => List.all_eq_true.mp List.all_takeWhile a ha

theorem not_isNamePart_of_isLineBreak : ∀ c, Text.isLineBreak c = true → Text.isNamePart c = false :=
  of_isLineBreak (by decide +kernel)

/-! ### Texts that are akin -/

/-- Whether a character is no digit and no punctuator goes on with it. -/
def isStop (c : Char) : Bool :=
  !c.isDigit && punctuators.all fun p => !p.tail.contains c

/-- Texts that are the same up to an end of both, or up to characters with which no punctuator goes
on. -/
inductive Akin : List Char → List Char → Prop
  | refl (cs : List Char) : Akin cs cs
  | cons (c : Char) {cs cs' : List Char} : Akin cs cs' → Akin (c :: cs) (c :: cs')
  | stop {c c' : Char} {cs cs' : List Char} : isStop c = true → isStop c' = true → Akin (c :: cs) (c' :: cs')

namespace Akin

variable {cs' : List Char}

theorem append (a : List Char) (h : Akin cs cs') : Akin (a ++ cs) (a ++ cs') := by
  induction a with
  | nil => exact h
  | cons c a ih => exact .cons c ih

theorem of_woven (h : Woven cs cs') : Akin cs cs' := by
  induction h with
  | nil => exact .refl []
  | cons _ ih => exact .cons _ ih
  | insert => exact .stop (by decide +kernel) (by decide +kernel)

/-- Behind a character with which a punctuator goes on, texts stay akin. -/
theorem behind (hc : isStop c = false) (h : Akin (c :: cs) (c :: cs')) : Akin cs cs' := by
  cases h with
  | refl => exact .refl _
  | cons _ h => exact h
  | stop h => simp [hc] at h

theorem isDigit_head? (h : Akin cs cs') :
    (cs'.head?.map Char.isDigit).getD false = (cs.head?.map Char.isDigit).getD false := by
  cases h with
  | refl | cons => rfl
  | stop h h' =>
    rw [isStop, Bool.and_eq_true, Bool.not_eq_true'] at h h'
    simp [h.1, h'.1]

theorem isPrefixOf_eq {word : List Char} (hw : ∀ c ∈ word, isStop c = false) (h : Akin cs cs') :
    word.isPrefixOf cs' = word.isPrefixOf cs := by
  induction word generalizing cs cs' with
  | nil => cases cs <;> cases cs' <;> rfl
  | cons w word ih =>
    cases h with
    | refl => rfl
    | cons _ h =>
      rw [List.isPrefixOf, List.isPrefixOf, ih (fun c hc => hw c (List.mem_cons_of_mem _ hc)) h]
    | stop h h' =>
      have hstop := hw w List.mem_cons_self
      have hne : ∀ {d}, isStop d = true → w ≠ d := fun hd he => by simp [← he, hstop] at hd
      simp [List.isPrefixOf, beq_eq_false_iff_ne.mpr (hne h), beq_eq_false_iff_ne.mpr (hne h')]

end Akin

theorem isStop_of_mem_tail {p : List Char} (hp : p ∈ punctuators) {d : Char} (hd : d ∈ p.tail) :
    isStop d = false := by
  rw [Bool.eq_false_iff]
  intro h
  rw [isStop, Bool.and_eq_true] at h
  have := List.all_eq_true.mp h.2 p hp
  simp [hd] at this

/-- The same punctuators stand before texts that are akin. -/
theorem standsAt_of_akin {cs' p : List Char} (hp : ∀ d ∈ p.tail, isStop d = false) (h : Akin cs cs') :
    standsAt (c :: cs') p = standsAt (c :: cs) p := by
  have hpre : p.isPrefixOf (c :: cs') = p.isPrefixOf (c :: cs) := by
    cases p with
    | nil => rfl
    | cons d p =>
      rw [List.tail_cons] at hp
      rw [List.isPrefixOf, List.isPrefixOf, h.isPrefixOf_eq hp]
  rw [standsAt, standsAt, hpre]
  by_cases hchain : p = ['?', '.'] ∧ p.isPrefixOf (c :: cs) = true
  · obtain ⟨rfl, hstands⟩ := hchain
    obtain ⟨t, ht⟩ := List.isPrefixOf_iff_prefix.mp hstands
    rw [← hpre] at hstands
    obtain ⟨t', ht'⟩ := List.isPrefixOf_iff_prefix.mp hstands
    obtain ⟨rfl, rfl⟩ : '?' = c ∧ '.' :: t = cs := List.cons.inj ht
    obtain ⟨-, rfl⟩ : '?' = '?' ∧ '.' :: t' = cs' := List.cons.inj ht'
    have hdigit := (h.behind (hp '.' (by simp))).isDigit_head?
    rw [List.head?_eq_getElem?, List.head?_eq_getElem?] at hdigit
    simpa using hdigit
  · by_cases hstands : p.isPrefixOf (c :: cs) = true
    · have hne : p ≠ ['?', '.'] := fun h => hchain ⟨h, hstands⟩
      simp [hne]
    · simp [hstands]

theorem punctText_of_akin {cs' : List Char} (h : Akin cs cs') :
    punctText (c :: cs') = punctText (c :: cs) :=
  List.find?_congr fun _ hp => standsAt_of_akin (fun _ hd => isStop_of_mem_tail hp hd) h

/-! ### Kinds of lexemes -/

section Kinds

variable {kind : TokenKind} {more rest' : List Char}

theorem template_local {opening : Bool}
    (h : template opening c (more ++ rest) = .ok ⟨kind, c :: more, rest⟩) (rest' : List Char) :
    template opening c (more ++ rest') = .ok ⟨kind, c :: more, rest'⟩ := by
  unfold template at h
  split at h
  · cases h
  · rename_i ht
    cases h
    simp only [template, templateText_local ht rest']

theorem string_local (h : string c (more ++ rest) = .ok ⟨kind, c :: more, rest⟩)
    (rest' : List Char) : string c (more ++ rest') = .ok ⟨kind, c :: more, rest'⟩ := by
  unfold string at h
  split at h
  · cases h
  · rename_i ht
    cases h
    simp only [string, stringText_local ht rest']

/-- Flags go on with a regular expression as far as a name does. -/
theorem regex_local (h : regex c (more ++ rest) = .ok ⟨kind, c :: more, rest⟩)
    (hhead : kind ≠ .punct → Level rest rest') :
    regex c (more ++ rest') = .ok ⟨kind, c :: more, rest'⟩ := by
  unfold regex at h
  split at h
  · cases h
  · rename_i text rest₀ ht
    simp only [Except.ok.injEq, Lexeme.mk.injEq, List.cons.injEq, true_and] at h
    obtain ⟨rfl, rfl, rfl⟩ := h
    obtain ⟨h₁, h₂⟩ := takeWhile_of_level (hhead (by simp)) (by decide +kernel) not_isNamePart_of_isLineBreak
    rw [List.append_assoc]
    simp only [regex, regexText_local ht (rest₀.takeWhile isNamePart ++ rest'), h₁, h₂]

theorem number_local (h : number (c :: (more ++ rest)) = ⟨kind, c :: more, rest⟩)
    (hhead : kind ≠ .punct → Level rest rest') :
    number (c :: (more ++ rest')) = ⟨kind, c :: more, rest'⟩ := by
  simp only [number, Lexeme.mk.injEq] at h
  have hhead := hhead (by simp [← h.1])
  have hn : numberText (hasRadix (c :: (more ++ rest))) (c :: (more ++ rest)) = (c :: more, rest) :=
    Prod.ext h.2.1 h.2.2
  have := numberText_local hn hhead
  rw [List.cons_append] at this
  simp [number, hasRadix_of_level (hhead.append more), this, h.1]

theorem ident_local (h : ident c (more ++ rest) = ⟨kind, c :: more, rest⟩)
    (hhead : kind ≠ .punct → Level rest rest') :
    ident c (more ++ rest') = ⟨kind, c :: more, rest'⟩ := by
  simp only [ident, Lexeme.mk.injEq, List.cons.injEq, true_and] at h
  obtain ⟨rfl, hm, hr⟩ := h
  have hhead := hhead (by simp)
  rw [← hr] at hhead
  obtain ⟨h₁, h₂⟩ := takeWhile_of_level hhead (by decide +kernel) not_isNamePart_of_isLineBreak
  rw [hm] at h₁ h₂
  simp only [ident, h₁, h₂]

theorem punct_local (h : punct c (more ++ rest) = .ok ⟨kind, c :: more, rest⟩)
    (ha : Akin rest rest') : punct c (more ++ rest') = .ok ⟨kind, c :: more, rest'⟩ := by
  unfold punct at h ⊢
  rw [punctText_of_akin (ha.append more)]
  split at h
  · cases h
  · rename_i p hp
    simp only [Except.ok.injEq, Lexeme.mk.injEq] at h
    obtain ⟨rfl, rfl, -⟩ := h
    rw [← List.cons_append, List.drop_left]

end Kinds

/-- **A lexeme is read the same before a text that is akin** and, unless it is a punctuator, starts
alike. -/
theorem read_of_akin {context : Context} {kind : TokenKind} {more rest' : List Char}
    (h : read context c cs = .ok ⟨kind, c :: more, rest⟩) (ha : Akin rest rest')
    (hhead : kind ≠ .punct → Level rest rest') :
    read context c (more ++ rest') = .ok ⟨kind, c :: more, rest'⟩ := by
  obtain ⟨happ, -⟩ := read_append h
  obtain rfl : more ++ rest = cs := (List.cons.inj happ).2
  unfold read at h ⊢
  rw [(ha.append more).isDigit_head?]
  -- The first characters and the context choose the reader, and these are the same on both sides.
  split at h
  · rename_i hc
    rw [if_pos hc]
    exact template_local h rest'
  rename_i hc
  rw [if_neg hc]
  split at h
  · rename_i hc
    rw [if_pos hc]
    exact template_local h rest'
  rename_i hc
  rw [if_neg hc]
  split at h
  · rename_i hc
    rw [if_pos hc]
    exact string_local h rest'
  rename_i hc
  rw [if_neg hc]
  split at h
  · rename_i hc
    rw [if_pos hc]
    exact regex_local h hhead
  rename_i hc
  rw [if_neg hc]
  split at h
  · rename_i hc
    rw [if_pos hc, number_local (Except.ok.inj h) hhead]
  rename_i hc
  rw [if_neg hc]
  split at h
  · rename_i hc
    rw [if_pos hc, number_local (Except.ok.inj h) hhead]
  rename_i hc
  rw [if_neg hc]
  split at h
  · rename_i hc
    rw [if_pos hc, ident_local (Except.ok.inj h) hhead]
  rename_i hc
  rw [if_neg hc]
  split at h
  · rename_i hk
    simp only [Except.ok.injEq, Lexeme.mk.injEq, List.cons.injEq, true_and] at h
    obtain ⟨rfl, rfl, -⟩ := h
    rfl
  · exact punct_local h ha

end Lexeme

/-- A gap ends before a text that starts alike. -/
theorem Gap.skip_level {offset : Nat} {cs gap rest rest' : List Char} {c : Char}
    (h : skip .blank offset cs = .ok (gap, c :: rest)) (hl : Lexeme.Level rest rest') :
    skip .blank offset (gap ++ (c :: rest')) = .ok (gap, c :: rest') := by
  refine skip_replace h (Mode.like_refl .blank) offset nofun fun hends => ?_
  rw [endsBefore_cons_iff] at hends ⊢
  refine ⟨hends.1, fun hslash => ?_⟩
  have hsame := hl.any_eq (p := fun d => d = '/' || d = '*') (by decide)
    (Lexeme.of_isLineBreak (by decide))
  have hnone : rest.head?.any (fun d => d = '/' || d = '*') = false := by
    rw [Option.any_eq_false]
    intro d hd
    simp [hends.2 hslash d hd]
  rw [hnone, Option.any_eq_false] at hsame
  intro d hd
  simpa using hsame d hd

namespace Lexeme

variable {c : Char} {cs rest : List Char}

/-- A lexeme is read the same before a text with insertions. -/
theorem read_of_woven {context : Context} {kind : TokenKind} {more rest' : List Char}
    (h : read context c cs = .ok ⟨kind, c :: more, rest⟩) (hw : Woven rest rest') :
    read context c (more ++ rest') = .ok ⟨kind, c :: more, rest'⟩ :=
  read_of_akin h (.of_woven hw) fun _ => .of_head? hw.head?_eq

end Lexeme

end DeferredLog
