import Mathlib.Data.List.Induction
import DeferredLog.Console.Format
import DeferredLog.Proofs.Text.Split

/-!
# Filling in a template

The line for some arguments is made in two phases. First the template alone is taken apart, from the left:
into pairs of percent signs, specifiers, and characters that stand for themselves. Then each specifier takes
the argument of its number, and the arguments that are left follow with blanks between them. The text of an
argument is never taken apart.

* `Format.parts` takes a template apart, `Format.rendered` puts the arguments in.
* `Format.fill_eq`: filling in a template is the one and then the other.
* `Format.spaced`: texts with blanks between them; `Format.foldl_append` is what the arguments left make.
* `Format.text_two_phases`: the line for any arguments.
-/

namespace DeferredLog.Format

/-! ## The parts of a template -/

/-- What a template is made of. -/
inductive Part where
  /-- Two percent signs, which stand for one. -/
  | percent
  /-- A percent sign and a letter that takes an argument. -/
  | specifier (letter : Char)
  /-- A character that stands for itself. -/
  | literal (c : Char)
  deriving DecidableEq, Repr

namespace Part

/-- How a part is written. -/
def spelling : Part → List Char
  | percent => ['%', '%']
  | specifier letter => ['%', letter]
  | literal c => [c]

/-- The number of arguments that a part takes. -/
def arity : Part → Nat
  | specifier _ => 1
  | _ => 0

/-- The text of a part, with the argument that there is for it. -/
def text (value? : Option Json) : Part → List Char
  | percent => ['%']
  | specifier letter =>
    match value? with
    | some value => (taken letter value).toList
    | none => ['%', letter]
  | literal c => [c]

end Part

/-- The parts of a template, from the left. -/
def parts : List Char → List Part
  | [] => []
  | [c] => [.literal c]
  | c :: d :: cs =>
    if c = '%' ∧ d = '%' then .percent :: parts cs
    else if c = '%' ∧ takes d then .specifier d :: parts cs
    else .literal c :: parts (d :: cs)

/-- The parts are those of the template, with nothing left out. -/
theorem flatMap_spelling_parts (template : List Char) :
    (parts template).flatMap Part.spelling = template := by
  fun_induction parts template with
  | case1 => rfl
  | case2 c => rfl
  | case3 c d cs h ih =>
    obtain ⟨rfl, rfl⟩ := h
    rw [List.flatMap_cons, ih]
    rfl
  | case4 c d cs _ h ih =>
    obtain ⟨rfl, -⟩ := h
    rw [List.flatMap_cons, ih]
    rfl
  | case5 c d cs _ _ ih =>
    rw [List.flatMap_cons, ih]
    rfl

variable {c : Char} {cs : List Char}

theorem takes_percent : takes '%' = false := by decide

theorem parts_percent (cs : List Char) : parts ('%' :: '%' :: cs) = .percent :: parts cs := by
  rw [parts, if_pos ⟨rfl, rfl⟩]

theorem parts_specifier (h : takes c = true) : parts ('%' :: c :: cs) = .specifier c :: parts cs := by
  have hne : c ≠ '%' := fun hc => by simp [hc, takes_percent] at h
  rw [parts, if_neg fun hc => hne hc.2, if_pos ⟨rfl, h⟩]

theorem parts_alone (hc : c ≠ '%') (h : takes c = false) :
    parts ('%' :: c :: cs) = .literal '%' :: parts (c :: cs) := by
  rw [parts, if_neg fun hc' => hc hc'.2, if_neg (by simp [h])]

theorem parts_literal (h : c ≠ '%') : parts (c :: cs) = .literal c :: parts cs := by
  cases cs with
  | nil => rfl
  | cons d cs => rw [parts, if_neg fun hc => h hc.1, if_neg fun hc => h hc.1]

/-- Parts that are told apart where they are written: a letter of a specifier takes an argument, and no
percent sign that stands for itself is before another one or such a letter. -/
def Separate : List Part → Prop
  | [] => True
  | .percent :: pieces => Separate pieces
  | .specifier letter :: pieces => takes letter = true ∧ Separate pieces
  | .literal c :: pieces =>
    (c = '%' → ∀ d ∈ (pieces.flatMap Part.spelling).head?, d ≠ '%' ∧ takes d = false) ∧ Separate pieces

theorem separate_parts (template : List Char) : Separate (parts template) := by
  fun_induction parts template with
  | case1 => trivial
  | case2 c => exact ⟨fun _ => by simp, trivial⟩
  | case3 c d cs _ ih => exact ih
  | case4 c d cs _ h ih => exact ⟨h.2, ih⟩
  | case5 c d cs hpercent hletter ih =>
    refine ⟨fun hc e he => ?_, ih⟩
    rw [flatMap_spelling_parts, List.head?_cons, Option.mem_some_iff] at he
    subst he
    exact ⟨fun hd => hpercent ⟨hc, hd⟩, by simpa using fun ht => hletter ⟨hc, ht⟩⟩

/-- Parts that are told apart are found again in what is written. -/
theorem parts_flatMap_spelling {pieces : List Part} (h : Separate pieces) :
    parts (pieces.flatMap Part.spelling) = pieces := by
  induction pieces with
  | nil => rfl
  | cons part pieces ih =>
    rw [List.flatMap_cons]
    cases part with
    | percent => exact (parts_percent _).trans (congrArg _ (ih h))
    | specifier letter => exact (parts_specifier h.1).trans (congrArg _ (ih h.2))
    | literal c =>
      obtain ⟨halone, hpieces⟩ := h
      have hrest := ih hpieces
      by_cases hc : c = '%'
      · subst hc
        cases hwritten : pieces.flatMap Part.spelling with
        | nil =>
          rw [hwritten] at hrest
          exact congrArg _ hrest
        | cons d ds =>
          obtain ⟨hd, ht⟩ := halone rfl d (by rw [hwritten]; rfl)
          rw [hwritten] at hrest
          exact (parts_alone hd ht).trans (congrArg _ hrest)
      · exact (parts_literal hc).trans (congrArg _ hrest)

/-- **A template has one way to be taken apart.** -/
theorem parts_eq_iff {template : List Char} {pieces : List Part} : parts template = pieces ↔
    pieces.flatMap Part.spelling = template ∧ Separate pieces := by
  constructor
  · rintro rfl
    exact ⟨flatMap_spelling_parts template, separate_parts template⟩
  · rintro ⟨rfl, h⟩
    exact parts_flatMap_spelling h

/-! ## Arguments put in -/

/-- The number of specifiers among some parts: of the arguments that they take, if there are as many. -/
def specifiers : List Part → Nat
  | [] => 0
  | part :: pieces => part.arity + specifiers pieces

/-- The text of some parts, where each specifier takes the argument of its number. -/
def rendered (pieces : List Part) (values : List Json) : List Char :=
  (pieces.mapIdx fun i part => part.text values[specifiers (pieces.take i)]?).flatten

variable {pieces : List Part} {values : List Json}

@[simp]
theorem specifiers_cons (part : Part) (pieces : List Part) :
    specifiers (part :: pieces) = part.arity + specifiers pieces := rfl

/-- The first part takes the first argument, if it takes one, and leaves the others to the next parts. -/
theorem rendered_cons (part : Part) (pieces : List Part) (values : List Json) :
    rendered (part :: pieces) values = part.text values[0]? ++ rendered pieces (values.drop part.arity) := by
  simp only [rendered, List.mapIdx_cons, List.take_succ_cons, specifiers_cons, List.flatten_cons,
    List.getElem?_drop]
  rfl

@[simp]
theorem rendered_percent : rendered (.percent :: pieces) values = '%' :: rendered pieces values :=
  rendered_cons ..

@[simp]
theorem rendered_literal : rendered (.literal c :: pieces) values = c :: rendered pieces values :=
  rendered_cons ..

@[simp]
theorem rendered_specifier {value : Json} : rendered (.specifier c :: pieces) (value :: values) =
    (taken c value).toList ++ rendered pieces values :=
  rendered_cons ..

@[simp]
theorem rendered_specifier_nil : rendered (.specifier c :: pieces) [] = '%' :: c :: rendered pieces [] :=
  rendered_cons ..

/-- Arguments behind those that the specifiers take have no part in the text. -/
theorem rendered_take (pieces : List Part) (values : List Json) :
    rendered pieces (values.take (specifiers pieces)) = rendered pieces values := by
  induction pieces generalizing values with
  | nil => rfl
  | cons part pieces ih =>
    cases part with
    | percent => simp [Part.arity, ih]
    | literal c => simp [Part.arity, ih]
    | specifier letter =>
      cases values with
      | nil => rw [List.take_nil]
      | cons value values => simp [Part.arity, Nat.add_comm 1, ih]

/-- **Filling in a template** is taking it apart and then putting the arguments in. -/
theorem fill_eq (template : List Char) (values : List Json) : fill template values =
    (rendered (parts template) values, values.drop (specifiers (parts template))) := by
  fun_induction fill template values with
  | case1 values => rfl
  | case2 values => rfl
  | case3 cs values text rest hfill ih =>
    cases hfill.symm.trans ih
    simp [parts_percent, Part.arity]
  | case4 c cs hc text rest hfill ih =>
    cases hfill.symm.trans ih
    cases h : takes c with
    | true => simp [parts_specifier h, parts_literal hc, Part.arity]
    | false => simp [parts_alone hc h, Part.arity]
  | case5 c cs value values hc h text rest hfill ih =>
    cases hfill.symm.trans ih
    simp [parts_specifier h, Part.arity, Nat.add_comm 1]
  | case6 c cs value values hc h text rest hfill ih =>
    cases hfill.symm.trans ih
    simp [parts_alone hc (by simpa using h), Part.arity]
  | case7 c cs values hend hpercent hnone hsome text rest hfill ih =>
    cases hfill.symm.trans ih
    have hc : c ≠ '%' := fun hc => by
      cases cs with
      | nil => exact hend hc rfl
      | cons d cs =>
        cases values with
        | nil => exact hnone d cs rfl hc rfl
        | cons value values => exact hsome d cs value values rfl hc rfl
    simp [parts_literal hc, Part.arity]

/-! ## Texts with blanks between them -/

/-- Texts one behind the other, with a blank between them. Empty ones in front count for nothing. -/
def spaced (texts : List (List Char)) : List Char :=
  Text.joinWith ' ' (texts.dropWhile List.isEmpty)

theorem spaced_nil_cons (texts : List (List Char)) : spaced ([] :: texts) = spaced texts := rfl

theorem spaced_cons {text : List Char} (h : text ≠ []) (texts : List (List Char)) :
    spaced (text :: texts) = Text.joinWith ' ' (text :: texts) := by
  rw [spaced, List.dropWhile_cons_of_neg (by simpa using h)]

/-- A text is put behind the others with a blank before it, unless they are all empty. -/
theorem spaced_concat (texts : List (List Char)) (text : List Char) : spaced (texts ++ [text]) =
    if (spaced texts).isEmpty then text else spaced texts ++ ' ' :: text := by
  induction texts with
  | nil => cases text <;> rfl
  | cons first texts ih =>
    by_cases h : first = []
    · subst h
      exact ih
    · have hne : Text.joinWith ' ' (first :: texts) ≠ [] := fun hnil =>
        h (List.eq_nil_of_infix_nil (hnil ▸ Text.infix_joinWith ' ' List.mem_cons_self))
      rw [List.cons_append, spaced_cons h, spaced_cons h, if_neg (by simpa using hne), ← List.cons_append,
        Text.joinWith_append ' ' (by simp) (by simp)]
      rfl

/-- The arguments that are left stand behind a text with blanks before them. -/
theorem foldl_append (start : List Char) (values : List Json) :
    values.foldl append start = spaced (start :: values.map fun value => (display value).toList) := by
  induction values using List.reverseRecOn with
  | nil => cases start <;> rfl
  | append_singleton values value ih =>
    rw [List.foldl_append, List.foldl_cons, List.foldl_nil, ih, List.map_append, ← List.cons_append,
      List.map_singleton, spaced_concat]
    rfl

/-! ## The line for some arguments -/

theorem text_string (template : String) (values : List Json) : (text (.string template :: values)).toList =
    spaced (rendered (parts template.toList) values ::
      (values.drop (specifiers (parts template.toList))).map fun value => (display value).toList) := by
  simp only [text, fill_eq, foldl_append, String.toList_ofList]

theorem text_of_head {values : List Json} (h : values.head?.bind Json.string? = none) :
    (text values).toList = spaced (values.map fun value => (display value).toList) := by
  have hmatch : text values = String.ofList (values.foldl append []) := by
    unfold text
    split
    rename_i start rest hstart
    split at hstart
    · simp [Json.string?] at h
    · cases hstart
      rfl
  rw [hmatch, foldl_append, spaced_nil_cons, String.toList_ofList]

/-- **The line for some arguments.** A string in front is taken apart alone, in the one way there is, and its
specifiers take the arguments behind it in their order: as many as there are of the fewer. Each of those
stands in the place of its specifier, a style with no text at all, and the others follow, each with a blank
before it unless nothing stands before it. Without a string in front all arguments stand so. -/
theorem text_two_phases :
    (∀ c, takes c = true ↔ c ∈ ['s', 'd', 'i', 'f', 'o', 'O', 'c']) ∧ (∀ value, taken 'c' value = "") ∧
    (∀ template pieces, parts template = pieces ↔
      pieces.flatMap Part.spelling = template ∧ Separate pieces) ∧
    (∀ (template : String) (values : List Json), ∃ used others, values = used ++ others ∧
      used.length = min (specifiers (parts template.toList)) values.length ∧
      (text (.string template :: values)).toList = spaced (rendered (parts template.toList) used ::
        others.map fun value => (display value).toList)) ∧
    ∀ values : List Json, values.head?.bind Json.string? = none →
      (text values).toList = spaced (values.map fun value => (display value).toList) := by
  refine ⟨fun c => by simp [takes, or_assoc], fun _ => rfl, fun _ _ => parts_eq_iff,
    fun template values => ?_, fun _ => text_of_head⟩
  refine ⟨_, _, (List.take_append_drop (specifiers (parts template.toList)) values).symm,
    List.length_take, ?_⟩
  rw [rendered_take, text_string]

/-- Arguments without a string in front, one of them with a specifier in it. -/
theorem text_two_phases_array :
    [Json.array [.string "%s"], .string "%d", .null].head?.bind Json.string? = none ∧
      (text [.array [.string "%s"], .string "%d", .null]).toList = "[\"%s\"] %d null".toList := by
  refine ⟨rfl, ?_⟩
  rw [text_two_phases.2.2.2.2 _ rfl]
  decide +kernel

end DeferredLog.Format
