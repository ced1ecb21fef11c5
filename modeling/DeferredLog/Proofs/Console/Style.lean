import DeferredLog.Command.ConsoleDemo
import DeferredLog.Proofs.Console.Format

/-!
# The text of a styled label

A label with a style becomes a template. If it was a string it had been one before, and the line for the
arguments stays as it was. Any other label had just been shown: now percent signs in its text are read, and
the line stays for all arguments only if there is nothing in them to read. That can be amiss in arrays and
objects alone, which have strings in them.

* `Format.Plain`: the texts that stand for themselves as templates; `Format.plain_iff` says what their parts
  are.
* `ConsoleDemo.text_styled`: the line of styled arguments is that of the text of the label as a template.
* `ConsoleDemo.text_styled_eq_iff`: the labels that keep their text with a style.
* `ConsoleDemo.not_forall_text_styled`: an array that does not.
-/

namespace DeferredLog

namespace Format

/-! ## Texts without specifiers -/

/-- No percent sign stands before another one, or before a letter that takes an argument. -/
def Plain (template : List Char) : Prop :=
  ∀ c, ['%', c] <:+: template → c ≠ '%' ∧ takes c = false

variable {template : List Char} {pieces : List Part} {values : List Json}

theorem plain_cons_iff {c : Char} {cs : List Char} : Plain (c :: cs) ↔
    (c = '%' → ∀ d ∈ cs.head?, d ≠ '%' ∧ takes d = false) ∧ Plain cs := by
  constructor
  · intro h
    refine ⟨?_, fun d hd => h d (hd.trans (List.suffix_cons c cs).isInfix)⟩
    rintro rfl d hd
    obtain ⟨rest, rfl⟩ := List.head?_eq_some_iff.mp hd
    exact h d ⟨[], rest, rfl⟩
  · rintro ⟨hfirst, hrest⟩ d hd
    rcases List.infix_cons_iff.mp hd with ⟨rest, hprefix⟩ | hinfix
    · cases hprefix
      exact hfirst rfl d rfl
    · exact hrest d hinfix

theorem plain_of_notMem (h : '%' ∉ template) : Plain template :=
  fun _ hc => absurd (hc.subset List.mem_cons_self) h

theorem flatMap_spelling_literal (template : List Char) :
    (template.map Part.literal).flatMap Part.spelling = template := by
  induction template with
  | nil => rfl
  | cons c cs ih => rw [List.map_cons, List.flatMap_cons, ih]; rfl

/-- **A plain text consists of characters that stand for themselves**, and only such a text does. -/
theorem plain_iff : Plain template ↔ parts template = template.map .literal := by
  rw [parts_eq_iff, and_iff_right (flatMap_spelling_literal template)]
  induction template with
  | nil => exact ⟨fun _ => trivial, fun _ => plain_of_notMem List.not_mem_nil⟩
  | cons c cs ih => rw [plain_cons_iff, ih, List.map_cons, Separate, flatMap_spelling_literal]

instance : Decidable (Plain template) :=
  decidable_of_iff' _ plain_iff

theorem rendered_map_literal (template : List Char) (values : List Json) :
    rendered (template.map .literal) values = template := by
  induction template with
  | nil => rfl
  | cons c cs ih => rw [List.map_cons, rendered_literal, ih]

theorem specifiers_map_literal (template : List Char) : specifiers (template.map .literal) = 0 := by
  induction template with
  | nil => rfl
  | cons c cs ih => rw [List.map_cons, specifiers_cons, ih]; rfl

/-- A template that takes its arguments apart in no place is its own text. -/
theorem text_plain {template : String} (h : Plain template.toList) (values : List Json) :
    (text (.string template :: values)).toList =
      spaced (template.toList :: values.map fun value => (display value).toList) := by
  rw [text_string, plain_iff.mp h, rendered_map_literal, specifiers_map_literal, List.drop_zero]

/-! ## Texts with specifiers -/

/-- Without arguments only pairs of percent signs get shorter, by one each. -/
theorem length_rendered_nil (pieces : List Part) :
    (rendered pieces []).length + pieces.count .percent = (pieces.flatMap Part.spelling).length := by
  induction pieces with
  | nil => rfl
  | cons part pieces ih =>
    rw [List.flatMap_cons, List.length_append, ← ih]
    cases part <;> simp [Part.spelling] <;> omega

/-- No letter makes more than four characters of a null. -/
theorem length_taken_null (letter : Char) : (taken letter .null).toList.length ≤ 4 := by
  unfold taken
  split_ifs <;> decide

/-- A null as the only argument makes the text longer than it is written by two at most. -/
theorem length_rendered_null (pieces : List Part) :
    (rendered pieces [.null]).length ≤ (pieces.flatMap Part.spelling).length + 2 := by
  induction pieces with
  | nil => exact Nat.zero_le _
  | cons part pieces ih =>
    rw [List.flatMap_cons, List.length_append]
    cases part with
    | percent =>
      rw [rendered_percent, Part.spelling, List.length_cons, List.length_cons]
      omega
    | literal c =>
      rw [rendered_literal, Part.spelling, List.length_cons, List.length_singleton]
      omega
    | specifier letter =>
      have hnull := length_taken_null letter
      have hrest := length_rendered_nil pieces
      rw [rendered_specifier, Part.spelling, List.length_append, List.length_cons, List.length_singleton]
      omega

/-- Parts without specifiers and pairs of percent signs are characters that stand for themselves. -/
theorem exists_map_literal (hp : pieces.count .percent = 0) (hs : specifiers pieces = 0) :
    ∃ template : List Char, pieces = template.map .literal := by
  induction pieces with
  | nil => exact ⟨[], rfl⟩
  | cons part pieces ih =>
    cases part with
    | percent => simp at hp
    | specifier letter => simp [Part.arity] at hs
    | literal c =>
      obtain ⟨template, rfl⟩ := ih (by simpa using hp) (by simpa [Part.arity] using hs)
      exact ⟨c :: template, rfl⟩

theorem spaced_singleton (text : List Char) : spaced [text] = text := by
  cases text <;> rfl

theorem length_spaced_pair_le (first second : List Char) :
    (spaced [first, second]).length ≤ first.length + 1 + second.length := by
  rw [← List.singleton_append, spaced_concat, spaced_singleton]
  split
  · omega
  · rw [List.length_append, List.length_cons]
    omega

/-- Without specifiers the null is left, and each pair of percent signs makes the line shorter. -/
theorem length_text_null_of_no_specifiers {template : String} (h : specifiers (parts template.toList) = 0) :
    (text [.string template, .null]).toList.length + (parts template.toList).count .percent ≤
      template.toList.length + 5 := by
  have hrendered := rendered_take (parts template.toList) [.null]
  rw [h, List.take_zero] at hrendered
  have hcount := length_rendered_nil (parts template.toList)
  rw [flatMap_spelling_parts, hrendered] at hcount
  have hpair := length_spaced_pair_le (rendered (parts template.toList) [.null]) (display .null).toList
  have hdisplay : (display .null).toList.length = 4 := rfl
  rw [text_string, h, List.drop_zero, List.map_singleton]
  omega

/-- A specifier takes the null, so that there is nothing to put a blank before. -/
theorem length_text_null_of_specifiers {template : String} (h : specifiers (parts template.toList) ≠ 0) :
    (text [.string template, .null]).toList.length ≤ template.toList.length + 2 := by
  have hnull := length_rendered_null (parts template.toList)
  rw [flatMap_spelling_parts] at hnull
  obtain ⟨n, hn⟩ := Nat.exists_eq_succ_of_ne_zero h
  rwa [text_string, hn, List.drop_succ_cons, List.drop_nil, List.map_nil, spaced_singleton]

/-- **A template is plain if a null behind it is left alone**: in any other one it would take the place of
a specifier, or there would be pairs of percent signs. Then the line has fewer characters. -/
theorem plain_of_text_null {template : String} (h : (text [.string template, .null]).toList =
    spaced [template.toList, (display .null).toList]) : Plain template.toList := by
  by_cases hnil : template.toList = []
  · exact plain_of_notMem (hnil ▸ List.not_mem_nil)
  have hlength : (text [.string template, .null]).toList.length = template.toList.length + 5 := by
    rw [h, spaced_cons hnil, Text.joinWith_cons ' ' _ (by simp), List.length_append]
    rfl
  have hs : specifiers (parts template.toList) = 0 := by
    by_contra hs
    have hle := length_text_null_of_specifiers hs
    omega
  have hp : (parts template.toList).count .percent = 0 := by
    have hle := length_text_null_of_no_specifiers hs
    omega
  obtain ⟨literals, hliterals⟩ := exists_map_literal hp hs
  have hspelling := flatMap_spelling_parts template.toList
  rw [hliterals, flatMap_spelling_literal] at hspelling
  exact plain_iff.mpr (hspelling ▸ hliterals)

end Format

namespace Double

/-! ## Numbers without percent signs -/

theorem percent_notMem_toDigits (n : Nat) : '%' ∉ Nat.toDigits 10 n :=
  fun h => absurd (Nat.isDigit_of_mem_toDigits (by decide) (by decide) h) (by decide)

theorem percent_notMem_toString (n : Int) : '%' ∉ (toString n).toList := by
  rw [Int.toString_eq_repr, Int.repr_eq_if]
  split <;> simp [Nat.repr, percent_notMem_toDigits]

theorem percent_notMem_sign (d : Double) : '%' ∉ d.sign.toList := by
  unfold sign
  split <;> decide

theorem percent_notMem_parts (d : Double) (tie : Tie) :
    '%' ∉ (d.parts tie).1.toList ∧ '%' ∉ (d.parts tie).2.toList := by
  unfold parts
  split
  rename_i digits exponent _
  have hdigits := percent_notMem_toDigits digits
  simp only
  split_ifs
  · simp [zeros, hdigits]
  · refine ⟨fun h => hdigits ?_, fun h => hdigits ?_⟩
    · simpa using List.mem_of_mem_take (by simpa using h)
    · simpa using List.mem_of_mem_drop (by simpa using h)
  · simp [zeros, hdigits]

theorem percent_notMem_text (d : Double) : '%' ∉ d.text.toList := by
  obtain ⟨hwhole, hfraction⟩ := d.percent_notMem_parts .even
  have hsign := d.percent_notMem_sign
  unfold text
  split
  rename_i digits exponent _
  have hfirst : '%' ∉ (Nat.toDigits 10 digits).take 1 := fun h =>
    percent_notMem_toDigits digits (List.mem_of_mem_take h)
  have hothers : '%' ∉ (Nat.toDigits 10 digits).tail := fun h =>
    percent_notMem_toDigits digits (List.mem_of_mem_tail h)
  simp only
  split_ifs <;> simp [hsign, hwhole, hfraction, hfirst, hothers, percent_notMem_toDigits]

end Double

namespace ConsoleDemo

open Format

/-! ## Styled labels -/

/-- The line of styled arguments is that of the text of the label, read as a template. -/
theorem text_styled (style : String) (label : Json) (rest : List Json) :
    text (styled style (label :: rest)) = text (.string (display label) :: rest) := by
  have hlabel : ("%c" ++ display label).toList = '%' :: 'c' :: (display label).toList := by
    rw [String.toList_append]
    rfl
  have hstyled : styled style (label :: rest) =
      .string ("%c" ++ display label) :: .string style :: rest := rfl
  apply String.toList_injective
  rw [hstyled, text_string, text_string, hlabel, parts_specifier rfl, rendered_specifier, specifiers_cons,
    Part.arity, Nat.add_comm 1, List.drop_succ_cons]
  rfl

/-- Nothing is styled as an empty label, and has no text. -/
theorem text_styled_nil (style : String) : text (styled style []) = text [] := by
  have hlabel : text (styled style []) = text (styled style [.string ""]) := rfl
  rw [hlabel, text_styled]
  decide

theorem text_styled_string (style s : String) (rest : List Json) :
    text (styled style (.string s :: rest)) = text (.string s :: rest) :=
  text_styled style (.string s) rest

variable {label : Json}

theorem string_or_none (label : Json) : (∃ s, label = .string s) ∨ label.string? = none := by
  cases label with
  | string s => exact .inl ⟨s, rfl⟩
  | _ => exact .inr rfl

/-- In front of other arguments a label that is no string is shown as they are. -/
theorem text_label (h : label.string? = none) (rest : List Json) : (text (label :: rest)).toList =
    spaced ((display label).toList :: rest.map fun value => (display value).toList) :=
  text_of_head (show (label :: rest).head?.bind Json.string? = none from h)

/-- A label whose text is plain keeps it with a style. -/
theorem text_styled_plain (h : Plain (display label).toList) (style : String) (rest : List Json) :
    text (styled style (label :: rest)) = text (label :: rest) := by
  obtain ⟨s, rfl⟩ | hs := string_or_none label
  · exact text_styled_string style s rest
  · apply String.toList_injective
    rw [text_styled, text_plain h, text_label hs]

/-- A label that keeps its text with any style, whatever stands behind it, is a string or plain. -/
theorem string_or_plain (h : ∀ style rest, text (styled style (label :: rest)) = text (label :: rest)) :
    (∃ s, label = .string s) ∨ Plain (display label).toList := by
  refine (string_or_none label).imp_right fun hs => plain_of_text_null ?_
  rw [← text_styled "", h, text_label hs]
  rfl

/-- Only arrays and objects have percent signs in their text, other than strings. -/
theorem plain_display (h : label.string? = none) : (∃ items, label = .array items) ∨
    (∃ members, label = .object members) ∨ Plain (display label).toList := by
  cases label with
  | null => exact .inr (.inr (by decide))
  | bool b => exact .inr (.inr (by cases b <;> decide))
  | integer n => exact .inr (.inr (plain_of_notMem (Double.percent_notMem_toString n)))
  | double d => exact .inr (.inr (plain_of_notMem d.percent_notMem_text))
  | string s => cases h
  | array items => exact .inl ⟨items, rfl⟩
  | object members => exact .inr (.inl ⟨members, rfl⟩)

/-- **The labels that keep their text with a style**, whatever stands behind them: strings, and those with a
text in which no percent sign is before another one or before a letter that takes an argument. All but
arrays and objects are such labels. In general the line is that of the text of the label, as a template.
Without a label there is nothing to keep. -/
theorem text_styled_eq_iff (label : Json) :
    ((∀ style rest, text (styled style (label :: rest)) = text (label :: rest)) ↔
      (∃ s, label = .string s) ∨ Plain (display label).toList) ∧
    ((∃ items, label = .array items) ∨ (∃ members, label = .object members) ∨
      ∀ style rest, text (styled style (label :: rest)) = text (label :: rest)) ∧
    (∀ style rest, text (styled style (label :: rest)) = text (.string (display label) :: rest)) ∧
    ∀ style, text (styled style []) = text [] := by
  refine ⟨⟨string_or_plain, ?_⟩, ?_, fun style => text_styled style label, text_styled_nil⟩
  · rintro (⟨s, rfl⟩ | h)
    · exact fun style rest => text_styled_string style s rest
    · exact text_styled_plain h
  · obtain ⟨s, rfl⟩ | hs := string_or_none label
    · exact .inr (.inr fun style rest => text_styled_string style s rest)
    · exact (plain_display hs).imp_right (Or.imp_right text_styled_plain)

/-- **An array can lose text with a style**: the percent sign in it takes the argument behind it. -/
theorem not_forall_text_styled : (¬ ∀ style arguments, text (styled style arguments) = text arguments) ∧
    text [.array [.string "%s"], .string "x"] = "[\"%s\"] x" ∧
    text (styled "color: red" [.array [.string "%s"], .string "x"]) = "[\"x\"]" := by
  refine ⟨fun h => absurd (h "color: red" [.array [.string "%s"], .string "x"]) ?_, ?_, ?_⟩ <;>
    decide +kernel

end ConsoleDemo

end DeferredLog
