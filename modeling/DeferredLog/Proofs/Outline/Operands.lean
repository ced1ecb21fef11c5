import DeferredLog.Proofs.Outline.Items
import DeferredLog.Proofs.Outline.Visits
import DeferredLog.Proofs.Token.Slash

/-!
# Where operands start

The walk knows where an expression starts from the statements around it, the reader of tokens from the
tokens just before. Where they disagree is `Missed`: behind the head of `for await`, behind a word that the
reader does not know, and where a clause of a module ends with its line. Everywhere else, when the walk takes
an operand, the reader has been told that an expression begins (`Token.Begins`).

What is behind an expression never starts with a slash, since a slash goes on with one. So it is enough to
look at what is behind words, heads, clauses, braces and semicolons (`Ready`).

* `Missed.not_begins`: in these places the reader takes a slash for a sign.
* `Rule.poised`: each rule gets its parts ready, and leaves what is ready.
* `Visits.poised`, `Takes.ready`: so is everything that the walk comes to, and each operand it takes.
* `Reads.taken`: each statement that is read is such an operand.
-/

namespace DeferredLog

open DeferredLog.Tree

namespace Outline

open Token (Begins EndsInDot EndsInWord)

/-- Whether a statement starts like a list of exported names. -/
def startsNames (trees : List Tree) : Bool :=
  startsWith (fun t => t.isPunct "*" || isGroup .brace t) trees

/-- Where an operand can stand behind tokens that the reader of tokens takes for the end of another one. -/
inductive Missed : List Token → Prop
  /-- Behind the head of `for await`. -/
  | awaitHead {a opening closing inside around} : EndsInWord "await" a →
      (Tree.group .paren opening closing inside).Paired around →
      Missed (a ++ Tree.flatten (.group .paren opening closing inside))
  /-- Behind a word that it does not know as one with a statement or an operand behind it. -/
  | word {a word} : word ∈ ["export", "default", "break", "continue", "debugger"] → EndsInWord word a →
      Missed a
  /-- Behind a label that a jump leads to. -/
  | label {a : List Token} {word label : Token} : word.kind = .ident → word.text ∈ ["break", "continue"] →
      label.kind = .ident → label.text ∉ expressionKeywords → Missed (a ++ [word, label])
  /-- Behind a module specifier. -/
  | specifier {a token} : token.kind = .string → Missed (a ++ [token])
  /-- Behind exported names without a module specifier that end like an operand. -/
  | names {a : List Token} {word trees} : word.kind = .ident → word.text = "export" →
      startsNames trees = true → ¬ Begins (a ++ word :: flattenAll trees) →
      Missed (a ++ word :: flattenAll trees)
  /-- Behind a keyword that stands behind a dot. -/
  | member {a word} : EndsInDot a → word.kind = .ident → Missed (a ++ [word])
  /-- Behind the head of a statement with such a keyword. -/
  | memberHead {a : List Token} {word opening closing inside around} : EndsInDot a → word.kind = .ident →
      (Tree.group .paren opening closing inside).Paired around →
      Missed (a ++ word :: Tree.flatten (.group .paren opening closing inside))

theorem not_endsInDot_of_ident {a : List Token} {word : Token} (hk : word.kind = .ident) :
    ¬ EndsInDot (a ++ [word]) := by
  rw [Token.endsInDot_concat]
  simp [Tree.isDot, Tree.isPunct, Token.isPunct, hk]

/-- Only one word stands at the end of some tokens. -/
theorem endsInWord_unique {a : List Token} {word other : String} (h : EndsInWord word a)
    (h' : EndsInWord other a) : word = other := by
  obtain ⟨front, last, rfl, -, rfl, -⟩ := h
  exact (Token.endsInWord_concat.mp h').2.1

/-- Behind what is missed no expression begins for the reader of tokens. -/
theorem Missed.not_begins {a : List Token} (h : Missed a) : ¬ Begins a := by
  cases h with
  | awaitHead hword hgroup =>
    rw [Token.begins_parentheses hgroup]
    rintro ⟨word, hmem, hword'⟩
    obtain rfl := endsInWord_unique hword hword'
    simp [conditionKeywords] at hmem
  | word hmem hword =>
    obtain ⟨front, last, rfl, hk, rfl, -⟩ := hword
    rw [Token.begins_ident hk]
    rintro ⟨-, hmem'⟩
    simp only [List.mem_cons, List.not_mem_nil, or_false] at hmem
    rcases hmem with h | h | h | h | h <;> simp [h, expressionKeywords] at hmem'
  | @label a word label _ _ hk hlabel =>
    rw [show a ++ [word, label] = (a ++ [word]) ++ [label] by simp, Token.begins_ident hk]
    exact fun h => hlabel h.2
  | specifier hk => exact Token.not_begins_string hk
  | names _ _ _ h => exact h
  | member hdot hk =>
    rw [Token.begins_ident hk]
    exact fun h => h.1 hdot
  | @memberHead a word opening closing inside _ hdot hk hgroup =>
    rw [show a ++ word :: Tree.flatten (.group .paren opening closing inside) =
      (a ++ [word]) ++ Tree.flatten (.group .paren opening closing inside) by simp,
      Token.begins_parentheses hgroup]
    rintro ⟨_, -, hword⟩
    exact (Token.endsInWord_concat.mp hword).2.2 hdot

/-- Whether a tree is a sign that starts with a slash. -/
def isSlash : Tree → Bool
  | .leaf token => token.kind = .punct && token.text.toList.head? = some '/'
  | .group .. => false

/-- Whether the trees that stand behind some tokens start with no slash that is a sign, or with one that is
missed, or the reader of tokens knows that an expression begins there. -/
def Ready (a : List Token) (trees : List Tree) : Prop :=
  startsWith isSlash trees = true → Begins a ∨ Missed a

section Ready

variable {a : List Token} {trees : List Tree} {tree : Tree} {token : Token} {around : Option Delimiter}

theorem ready_nil : Ready a [] := nofun

theorem ready_of_begins (h : Begins a) : Ready a trees := fun _ => .inl h

theorem ready_of_missed (h : Missed a) : Ready a trees := fun _ => .inr h

theorem ready_of_head (h : isSlash tree = false) : Ready a (tree :: trees) := by
  intro hs
  simp [startsWith, h] at hs

theorem isSlash_of_isPunct (h : tree.isPunct ";" = true) : isSlash tree = false := by
  obtain ⟨token, rfl, hp⟩ := Tree.isPunct_iff.mp h
  simp only [Token.isPunct, Bool.and_eq_true, decide_eq_true_eq] at hp
  simp [isSlash, hp.2]

/-- A slash that is a sign goes on with an expression. -/
theorem isSlash_of_not_continues (h : tree.continuesExpression = false) : isSlash tree = false := by
  cases tree with
  | group => rfl
  | leaf token =>
    by_cases hk : token.kind = .punct
    · have hmem : token.text ∈ ["++", "--", "!", "~", "...", "@", "#"] := by
        rw [← List.contains_iff_mem]
        simpa only [continuesExpression, hk, Bool.not_eq_false'] using h
      have hsigns : ∀ text ∈ ["++", "--", "!", "~", "...", "@", "#"], text.toList.head? ≠ some '/' := by
        decide +kernel
      simp [isSlash, hsigns _ hmem]
    · simp [isSlash, hk]

/-- Behind an expression no slash stands. -/
theorem ready_taken (before : Option Tree) (trees : List Tree) :
    Ready a (takeExpression before trees).2 := by
  induction trees generalizing before with
  | nil => exact ready_nil
  | cons tree trees ih =>
    rw [takeExpression]
    split
    · rename_i hstop
      refine ready_of_head ?_
      rcases Bool.or_eq_true _ _ ▸ hstop with hs | hs
      · exact isSlash_of_isPunct hs
      · cases before with
        | none => cases hs
        | some =>
          simp only [breaksBefore, Bool.and_eq_true, Bool.not_eq_true'] at hs
          exact isSlash_of_not_continues hs.2
    · exact ih _

theorem Form.ofWord_ne_empty (word : String) (rest : List Tree) : Form.ofWord word rest ≠ .empty := by
  unfold Form.ofWord
  split <;> (try split) <;> (try split) <;> (try split) <;> exact nofun

theorem isPunct_of_empty {rest : List Tree} (h : Form.of tree rest = .empty) :
    tree.isPunct ";" = true := by
  unfold Form.of at h
  split at h
  · assumption
  · split at h
    · cases h
    · split at h
      · exact absurd h (Form.ofWord_ne_empty _ _)
      · cases h

/-- Behind a semicolon an expression begins. -/
theorem begins_semicolon (h : tree.isPunct ";" = true) : Begins (a ++ tree.flatten) := by
  obtain ⟨token, rfl, hp⟩ := Tree.isPunct_iff.mp h
  simp only [Token.isPunct, Bool.and_eq_true, decide_eq_true_eq] at hp
  rw [Tree.flatten, Token.begins_punct hp.1, hp.2]
  decide

/-- Behind an arrow an expression begins. -/
theorem begins_arrow {before : Before} (h : Inner.of before token trees = .arrow) :
    Begins (a ++ [token]) := by
  unfold Inner.of at h
  split at h
  · split at h <;> (try split at h) <;> (try split at h) <;> (try split at h) <;> cases h
  · split at h
    · rename_i hp
      simp only [Token.isPunct, Bool.and_eq_true, decide_eq_true_eq] at hp
      rw [Token.begins_punct hp.1, hp.2]
      decide
    · cases h

/-- Behind a colon an expression begins. -/
theorem begins_colon (h : tree.isPunct ":" = true) : Begins (a ++ tree.flatten) := by
  obtain ⟨token, rfl, hp⟩ := Tree.isPunct_iff.mp h
  simp only [Token.isPunct, Bool.and_eq_true, decide_eq_true_eq] at hp
  rw [Tree.flatten, Token.begins_punct hp.1, hp.2]
  decide

/-- Behind a keyword an expression begins, or it stands behind a dot. -/
theorem ready_keyword {word : String} (h : tree.isIdent word = true) (hword : word ∈ expressionKeywords) :
    Ready (a ++ tree.flatten) trees := by
  obtain ⟨token, rfl, hk, htext⟩ := Tree.ident?_eq_some_iff.mp (of_decide_eq_true h)
  by_cases hdot : EndsInDot a
  · exact ready_of_missed (.member hdot hk)
  · exact ready_of_begins ((Token.begins_ident hk).mpr ⟨hdot, htext ▸ hword⟩)

end Ready

/-! ## Words of statements -/

/-- The words that a form of statement starts with, where they matter for what stands behind. -/
def Form.words : Form → List String
  | .ifElse => ["if"]
  | .whileLoop => ["while", "with"]
  | .doWhile => ["do"]
  | .forLoop => ["for"]
  | .leave => ["return", "throw"]
  | .jump => ["break", "continue"]
  | .debugger => ["debugger"]
  | .exportClause => ["export"]
  | _ => []

theorem Form.mem_words {word : String} {rest : List Tree} {form : Form}
    (h : Form.ofWord word rest = form) (hne : form.words ≠ []) : word ∈ form.words := by
  subst h
  revert hne
  unfold Form.ofWord
  split <;> (try split) <;> (try split) <;> (try split) <;> simp [Form.words]

/-- A statement of such a form starts with one of its words. -/
theorem Form.exists_word {tree : Tree} {rest : List Tree} {form : Form} (h : Form.of tree rest = form)
    (hne : form.words ≠ []) :
    ∃ token, tree = .leaf token ∧ token.kind = .ident ∧ token.text ∈ form.words := by
  unfold Form.of at h
  split at h
  · subst h
    exact absurd rfl hne
  · split at h
    · subst h
      exact absurd rfl hne
    · split at h
      · rename_i word hword
        obtain ⟨token, rfl, hk, rfl⟩ := Tree.ident?_eq_some_iff.mp hword
        exact ⟨token, rfl, hk, Form.mem_words h hne⟩
      · subst h
        exact absurd rfl hne

section Words

variable {a : List Token} {tree : Tree} {rest trees : List Tree} {form : Form} {around : Option Delimiter}

/-- Behind the head of a statement an expression begins, or the keyword stands behind a dot. -/
theorem ready_parentheses {word : String} {opening closing : Token} {inside : List Tree}
    (h : tree.isIdent word = true) (hword : word ∈ conditionKeywords)
    (hgroup : (Tree.group .paren opening closing inside).Paired around) :
    Ready (a ++ (tree.flatten ++ [opening]) ++ flattenAll inside ++ [closing]) trees := by
  obtain ⟨token, rfl, hk, htext⟩ := Tree.ident?_eq_some_iff.mp (of_decide_eq_true h)
  have htokens : a ++ ((Tree.leaf token).flatten ++ [opening]) ++ flattenAll inside ++ [closing] =
      (a ++ [token]) ++ Tree.flatten (.group .paren opening closing inside) := by
    simp [Tree.flatten]
  rw [htokens]
  by_cases hdot : EndsInDot a
  · refine ready_of_missed ?_
    simpa using Missed.memberHead hdot hk hgroup
  · refine ready_of_begins ((Token.begins_parentheses hgroup).mpr ?_)
    exact ⟨word, hword, Token.endsInWord_concat.mpr ⟨hk, htext, hdot⟩⟩

theorem ready_head {opening closing : Token} {inside : List Tree} (hf : Form.of tree rest = form)
    (hne : form.words ≠ []) (hwords : ∀ word ∈ form.words, word ∈ conditionKeywords)
    (hgroup : (Tree.group .paren opening closing inside).Paired around) :
    Ready (a ++ (tree.flatten ++ [opening]) ++ flattenAll inside ++ [closing]) trees := by
  obtain ⟨token, rfl, hk, hword⟩ := Form.exists_word hf hne
  exact ready_parentheses (by simp [isIdent, ident?, hk]) (hwords _ hword) hgroup

/-- Behind the head of `for`, or `for await`. -/
theorem ready_loopHead {await after : List Tree} {opening closing : Token} {inside : List Tree}
    (hf : Form.of tree rest = .forLoop)
    (hawait : skipWord "await" (await ++ .group .paren opening closing inside :: after) =
      .group .paren opening closing inside :: after)
    (hgroup : (Tree.group .paren opening closing inside).Paired around) :
    Ready (a ++ (flattenAll (tree :: await) ++ [opening]) ++ flattenAll inside ++ [closing]) trees := by
  obtain ⟨token, rfl, hk, -⟩ := Form.exists_word hf (by decide)
  cases await with
  | nil => simpa [flattenAll] using ready_head (a := a) hf (by decide) (by decide) hgroup
  | cons word more =>
    rw [List.cons_append, skipWord, behindWord?] at hawait
    split at hawait
    · rename_i hword
      obtain ⟨other, rfl, hk', htext⟩ := Tree.ident?_eq_some_iff.mp (of_decide_eq_true hword)
      obtain rfl : more = [] := by simpa using hawait
      refine ready_of_missed ?_
      have h : EndsInWord "await" ((a ++ [token]) ++ [other]) :=
        Token.endsInWord_concat.mpr ⟨hk', htext, not_endsInDot_of_ident hk⟩
      simpa [flattenAll, Tree.flatten] using Missed.awaitHead h hgroup
    · have hlength := congrArg List.length hawait
      simp only [Option.getD_none, List.length_cons, List.length_append] at hlength
      omega

/-- Behind the keyword of a statement an expression begins, or it stands behind a dot. -/
theorem ready_word (hf : Form.of tree rest = form) (hne : form.words ≠ [])
    (hwords : ∀ word ∈ form.words, word ∈ expressionKeywords) : Ready (a ++ tree.flatten) trees := by
  obtain ⟨token, rfl, hk, hword⟩ := Form.exists_word hf hne
  exact ready_keyword (by simp [isIdent, ident?, hk]) (hwords _ hword)

/-- Behind a word that the reader of tokens does not know. -/
theorem missed_word (hf : Form.of tree rest = form) (hne : form.words ≠ [])
    (hwords : ∀ word ∈ form.words, word ∈ ["export", "default", "break", "continue", "debugger"]) :
    Missed (a ++ tree.flatten) := by
  obtain ⟨token, rfl, hk, hword⟩ := Form.exists_word hf hne
  by_cases hdot : EndsInDot a
  · exact .member hdot hk
  · exact .word (hwords _ hword) (Token.endsInWord_concat.mpr ⟨hk, rfl, hdot⟩)

/-- Behind a jump, with the label that it leads to if there is one. -/
theorem ready_jump (hf : Form.of tree rest = .jump) : ∃ x,
    rest = x ++ (if startsWith (fun t => !t.newlineBefore && isFreeName t) rest then rest.tail else rest) ∧
      Ready (a ++ tree.flatten ++ flattenAll x)
        (if startsWith (fun t => !t.newlineBefore && isFreeName t) rest then rest.tail else rest) := by
  split
  · rename_i hlabel
    cases rest with
    | nil => cases hlabel
    | cons label rest =>
      refine ⟨[label], rfl, ?_⟩
      obtain ⟨token, rfl, hk, hword⟩ := Form.exists_word hf (by decide)
      obtain ⟨name, hname⟩ : ∃ name, label.ident? = some name := by
        cases hname : label.ident? with
        | none => simp [startsWith, isFreeName, hname] at hlabel
        | some name => exact ⟨name, rfl⟩
      obtain ⟨other, rfl, hk', -⟩ := Tree.ident?_eq_some_iff.mp hname
      by_cases hother : other.text ∈ expressionKeywords
      · refine ready_of_begins ?_
        simpa [flattenAll, Tree.flatten] using
          (Token.begins_ident (a := a ++ [token]) hk').mpr ⟨not_endsInDot_of_ident hk, hother⟩
      · refine ready_of_missed ?_
        simpa [flattenAll, Tree.flatten] using Missed.label (a := a) hk hword hk' hother
  · exact ⟨[], rfl, ready_of_missed (by simpa [flattenAll] using missed_word hf (by decide) (by decide))⟩

end Words

/-! ## What is left -/

/-- What a job leaves is ready behind what is read for it. What an expression leaves does not matter. -/
def Job.Leaves (a : List Token) (rest : List Tree) : Job → Prop
  | .expression .. | .arrow .. => True
  | job => ∃ x, job.trees = x ++ rest ∧ Ready (a ++ flattenAll x) rest

/-- What has to hold behind the tokens before a job for its operands to be ready. -/
def Job.Poised (a : List Token) : Job → Prop
  | .body trees | .statement trees | .cases trees | .cleanup trees => Ready a trees
  | .exported _ => ∃ b word, a = b ++ [word] ∧ word.kind = .ident ∧ word.text = "export"
  | .arrow .. => Begins a
  | _ => True

section Left

variable {a : List Token} {trees : List Tree} {around : Option Delimiter}

theorem exists_skipSemicolon (h : Ready a trees) :
    ∃ x, trees = x ++ skipSemicolon trees ∧ Ready (a ++ flattenAll x) (skipSemicolon trees) := by
  obtain ⟨semicolon, heq, rfl | ⟨tree, rfl, hs⟩⟩ := skipSemicolon_cut trees
  · rw [List.nil_append] at heq
    exact ⟨[], heq, by rwa [← heq, flattenAll, List.append_nil]⟩
  · refine ⟨[tree], heq, ready_of_begins ?_⟩
    simpa [flattenAll] using begins_semicolon hs

theorem exists_taken (a : List Token) (before : Option Tree) (trees : List Tree) :
    ∃ x, trees = x ++ skipSemicolon (takeExpression before trees).2 ∧
      Ready (a ++ flattenAll x) (skipSemicolon (takeExpression before trees).2) := by
  obtain ⟨x, hx, hready⟩ := exists_skipSemicolon (a := a ++ flattenAll (takeExpression before trees).1)
    (ready_taken before trees)
  refine ⟨(takeExpression before trees).1 ++ x, ?_, by simpa using hready⟩
  rw [List.append_assoc, ← hx, takeExpression_append]

theorem exists_skipAttributes (hp : PairedAll around trees) (h : Ready a trees) :
    ∃ x, trees = x ++ skipAttributes trees ∧ Ready (a ++ flattenAll x) (skipAttributes trees) := by
  obtain ⟨attributes, heq, rfl | ⟨word, opening, closing, inside, rfl⟩, -⟩ := skipAttributes_cut trees
  · rw [List.nil_append] at heq
    exact ⟨[], heq, by rwa [← heq, flattenAll, List.append_nil]⟩
  · rw [heq] at hp
    refine ⟨_, heq, ready_of_begins ?_⟩
    have h := Token.begins_braces (a := a ++ word.flatten) hp.2.1
    simpa [flattenAll] using h

/-- Behind a module specifier, or at the end of a clause without one. -/
theorem exists_clauseEnd {required first : Bool} {after : List Tree}
    (h : clauseEnd required first trees = some after)
    (hnames : required = false → ∀ x, trees = x ++ after → ¬ Begins (a ++ flattenAll x) →
      Missed (a ++ flattenAll x)) :
    ∃ x, trees = x ++ after ∧ Ready (a ++ flattenAll x) after := by
  induction trees generalizing first a with
  | nil =>
    rw [clauseEnd] at h
    split at h
    · cases h
    · cases h
      exact ⟨[], rfl, ready_nil⟩
  | cons tree trees ih =>
    rw [clauseEnd] at h
    split at h
    · rename_i hstring
      cases h
      refine ⟨[tree], rfl, ready_of_missed ?_⟩
      cases tree with
      | leaf token =>
        have hk : token.kind = .string := by
          by_contra hk
          simp [string?, hk] at hstring
        simpa [flattenAll, Tree.flatten] using Missed.specifier hk
      | group => cases hstring
    · split at h
      · split at h
        · cases h
        · rename_i hr
          cases h
          refine ⟨[], rfl, fun _ => ?_⟩
          by_cases hb : Begins (a ++ flattenAll [])
          · exact .inl hb
          · exact .inr (hnames (by simpa using hr) [] rfl hb)
      · obtain ⟨x, rfl, hready⟩ := ih (a := a ++ tree.flatten) h fun hr x hx hb => by
          have h := hnames hr (tree :: x) (by rw [hx]; rfl)
          rw [flattenAll, ← List.append_assoc] at h
          exact h hb
        exact ⟨tree :: x, rfl, by simpa [flattenAll] using hready⟩

theorem exists_clause {required : Bool} {after : List Tree} (hp : PairedAll around trees)
    (h : clauseEnd required true trees = some after)
    (hnames : required = false → ∀ x, trees = x ++ after → ¬ Begins (a ++ flattenAll x) →
      Missed (a ++ flattenAll x)) :
    ∃ x, trees = x ++ skipSemicolon (skipAttributes after) ∧
      Ready (a ++ flattenAll x) (skipSemicolon (skipAttributes after)) := by
  obtain ⟨x, rfl, hready⟩ := exists_clauseEnd h hnames
  obtain ⟨y, hy, hready⟩ := exists_skipAttributes (pairedAll_append.mp hp).2 hready
  obtain ⟨z, hz, hready⟩ := exists_skipSemicolon hready
  refine ⟨x ++ (y ++ z), ?_, by simpa using hready⟩
  rw [List.append_assoc, List.append_assoc, ← hz, ← hy]

theorem startsNames_of_append {after x : List Tree} (hs : startsNames trees = true)
    (h : clauseEnd false true trees = some after) (hx : trees = x ++ after) : startsNames x = true := by
  cases x with
  | cons tree x =>
    rw [hx] at hs
    simpa [startsNames, startsWith] using hs
  | nil =>
    obtain rfl : trees = after := hx
    cases trees with
    | nil => cases hs
    | cons tree rest =>
      -- The first tree is no string and no semicolon, so that the clause does not end before it.
      have htree : tree.string?.isSome = false ∧ tree.isPunct ";" = false := by
        cases tree with
        | group => exact ⟨rfl, rfl⟩
        | leaf token =>
          have hp : token.isPunct "*" = true := by
            simpa [startsNames, startsWith, isGroup, inside?, Tree.isPunct] using hs
          simp only [Token.isPunct, Bool.and_eq_true, decide_eq_true_eq] at hp
          simp [string?, Tree.isPunct, Token.isPunct, hp]
      rw [clauseEnd, if_neg (by simp [htree.1]), if_neg (by simp [htree.2])] at h
      have hle := weights_clauseEnd_le h
      have := weights_lt_cons tree rest
      omega

end Left

/-! ## Rules -/

variable {job : Job} {parts : List Part} {items : List Item} {rest : List Tree}

/-- Where a job is poised, so are its parts, and what it leaves is ready. -/
theorem Rule.poised (h : Rule job parts items rest) {around : Option Delimiter}
    (hpaired : PairedAll around job.trees) {a : List Token} (hj : job.Poised a) (scopes : Nat)
    (hparts : ∀ p ∈ parts, ∀ b around, PairedAll around p.job.trees → p.job.Poised b →
      p.job.Leaves b p.rest) :
    (∀ s ∈ spots a scopes parts, s.job.Poised s.front) ∧ job.Leaves a rest := by
  cases h <;> simp only [spots, List.forall_mem_cons, List.not_mem_nil, false_imp_iff, implies_true,
    and_true, Job.trees, Job.Poised, Job.Leaves, List.append_nil, true_and, Part.read_nil,
    forall_const] at hpaired hj hparts ⊢
  case bodyNil | casesNil => exact ⟨_, rfl, ready_nil⟩
  case bodyCons | casesStatement =>
    obtain ⟨x, hx, hready⟩ := hparts.1 _ _ hpaired hj
    rw [Part.read_eq hx.symm]
    exact ⟨⟨hj, hready⟩, _, rfl, ready_nil⟩
  case empty tree hf =>
    exact ⟨[tree], rfl, ready_of_begins (by simpa [flattenAll] using begins_semicolon (isPunct_of_empty hf))⟩
  case block hf => exact hparts _ _ hpaired
  case ifElse tree c d head more _ _ word otherwise _ hf hw =>
    have hyes := @ready_head a tree _ more _ around _ _ _ hf (by decide) (by decide) hpaired.2.1
    obtain ⟨x, rfl, -⟩ := hparts.1 _ _ hpaired.2.2 hyes
    rw [Part.read_eq rfl]
    have hno := @ready_keyword (a ++ (tree.flatten ++ [c]) ++ flattenAll head ++ [d] ++ flattenAll x)
      otherwise word _ hw (by decide)
    obtain ⟨y, rfl, hready⟩ := hparts.2 _ _ (pairedAll_append.mp hpaired.2.2).2.2 hno
    refine ⟨⟨hyes, hno⟩, tree :: .group .paren c d head :: (x ++ word :: y), by simp, ?_⟩
    simpa [flattenAll, Tree.flatten] using hready
  case ifOnly tree c d head more _ _ hf _ | whileLoop tree c d head more _ _ hf =>
    have hyes := @ready_head a tree _ more _ around _ _ _ hf (by decide) (by decide) hpaired.2.1
    obtain ⟨x, rfl, hready⟩ := hparts _ _ hpaired.2.2 hyes
    refine ⟨hyes, tree :: .group .paren c d head :: x, by simp, ?_⟩
    simpa [flattenAll, Tree.flatten] using hready
  case doWhile tree more _ word c d head last _ hf hw =>
    have hinner := @ready_word a tree _ more _ hf (by decide) (by decide)
    obtain ⟨x, rfl, -⟩ := hparts _ _ hpaired.2 hinner
    have hgroup := (pairedAll_append.mp hpaired.2).2.2.1
    obtain ⟨y, hy, hready⟩ := exists_skipSemicolon
      (@ready_parentheses (a ++ tree.flatten ++ flattenAll x) word last _ _ _ _ _ hw (by decide) hgroup)
    refine ⟨hinner, tree :: (x ++ word :: .group .paren c d head :: y), by simp [← hy], ?_⟩
    simpa [flattenAll, Tree.flatten] using hready
  case forLoop tree await c d head after _ _ hf hs =>
    have hpaired' := (pairedAll_append.mp hpaired.2).2
    have hinner := @ready_loopHead a tree _ after around _ _ _ _ _ hf hs hpaired'.1
    obtain ⟨x, rfl, hready⟩ := hparts _ _ hpaired'.2 hinner
    refine ⟨hinner, tree :: (await ++ .group .paren c d head :: x), by simp, ?_⟩
    simpa [flattenAll, Tree.flatten] using hready
  case tryCatch tree _ _ word _ _ _ _ hf hw =>
    obtain ⟨x, rfl, -⟩ := hparts.1 (a ++ tree.flatten) _ hpaired.2
    obtain ⟨hword, hhandler⟩ := (pairedAll_append.mp hpaired.2).2
    obtain ⟨y, rfl, hcleanup⟩ := hparts.2.1 (a ++ tree.flatten ++ flattenAll x ++ word.flatten) _ hhandler
    rw [Part.read_eq rfl, Part.read_eq rfl]
    obtain ⟨z, rfl, hready⟩ := hparts.2.2 _ _ (pairedAll_append.mp hhandler).2 hcleanup
    refine ⟨hcleanup, tree :: (x ++ word :: (y ++ z)), by simp, ?_⟩
    simpa [flattenAll] using hready
  case tryOnly tree _ _ _ _ hf hw =>
    obtain ⟨x, rfl, hcleanup⟩ := hparts.1 (a ++ tree.flatten) _ hpaired.2
    rw [Part.read_eq rfl]
    obtain ⟨y, rfl, hready⟩ := hparts.2 _ _ (pairedAll_append.mp hpaired.2).2 hcleanup
    refine ⟨hcleanup, tree :: (x ++ y), by simp, ?_⟩
    simpa [flattenAll] using hready
  case switchCases tree c d head _ _ _ hf =>
    obtain ⟨x, rfl, hready⟩ := hparts (a ++ flattenAll [tree, .group .paren c d head]) _ hpaired.2.2
    exact ⟨tree :: .group .paren c d head :: x, by simp, by simpa [flattenAll] using hready⟩
  case functionDeclaration tree _ hf | classDeclaration tree _ hf =>
    obtain ⟨x, rfl, hready⟩ := hparts (a ++ tree.flatten) _ hpaired.2
    exact ⟨tree :: x, by simp, by simpa [flattenAll] using hready⟩
  case asyncFunction tree word _ hf =>
    obtain ⟨x, rfl, hready⟩ := hparts (a ++ flattenAll [tree, word]) _ hpaired.2.2
    exact ⟨tree :: word :: x, by simp, by simpa [flattenAll] using hready⟩
  case declaration tree _ _ _ hf | leave tree _ hf _ | expressionStatement tree _ _ hf =>
    obtain ⟨x, hx, hready⟩ := exists_taken (a ++ tree.flatten) _ _
    exact ⟨tree :: x, congrArg (tree :: ·) hx, by simpa [flattenAll] using hready⟩
  case leaveBare tree more hf _ =>
    obtain ⟨x, hx, hready⟩ := exists_skipSemicolon (@ready_word a tree _ more _ hf (by decide) (by decide))
    exact ⟨tree :: x, congrArg (tree :: ·) hx, by simpa [flattenAll] using hready⟩
  case jump tree more hf =>
    obtain ⟨x, hx, hlabel⟩ := @ready_jump a tree more hf
    obtain ⟨y, hy, hready⟩ := exists_skipSemicolon hlabel
    refine ⟨tree :: (x ++ y), ?_, by simpa [flattenAll] using hready⟩
    rw [List.cons_append, List.append_assoc, ← hy, ← hx]
  case debugger tree more hf =>
    have hmissed := @missed_word a tree more _ hf (by decide) (by decide)
    obtain ⟨x, hx, hready⟩ := exists_skipSemicolon (ready_of_missed hmissed)
    exact ⟨tree :: x, congrArg (tree :: ·) hx, by simpa [flattenAll] using hready⟩
  case importClause tree _ _ hf he =>
    obtain ⟨x, hx, hready⟩ := exists_clause (a := a ++ tree.flatten) hpaired.2 he (by simp)
    exact ⟨tree :: x, congrArg (tree :: ·) hx, by simpa [flattenAll] using hready⟩
  case exportClause tree _ hf =>
    obtain ⟨token, rfl, hk, hword⟩ := Form.exists_word hf (by decide)
    have hexport := List.mem_singleton.mp hword
    obtain ⟨x, rfl, hready⟩ := hparts _ _ hpaired.2 ⟨a, token, rfl, hk, hexport⟩
    refine ⟨⟨a, token, rfl, hk, hexport⟩, .leaf token :: x, by simp, ?_⟩
    simpa [flattenAll, Tree.flatten] using hready
  case labelled tree colon more hf =>
    have hcolon : colon.isPunct ":" = true := (form_rest hf).2.1 rfl
    have hinner : Ready (a ++ flattenAll [tree, colon]) more := by
      simpa [flattenAll] using ready_of_begins (begins_colon (a := a ++ tree.flatten) hcolon)
    obtain ⟨x, rfl, hready⟩ := hparts _ _ hpaired.2.2 hinner
    exact ⟨hinner, tree :: colon :: x, by simp, by simpa [flattenAll] using hready⟩
  case blockHere c d inside _ | switch c d inside _ =>
    refine ⟨ready_of_begins (Token.begins_opening hpaired.1), [.group .brace c d inside], rfl, ?_⟩
    simpa [flattenAll] using ready_of_begins (Token.begins_braces hpaired.1)
  case handlerNames c d parameters _ _ =>
    obtain ⟨x, rfl, hready⟩ := hparts (a ++ flattenAll [.group .paren c d parameters]) _ hpaired.2
    exact ⟨.group .paren c d parameters :: x, by simp, by simpa [flattenAll] using hready⟩
  case handler => exact hparts _ _ hpaired
  case cleanup word _ hw =>
    obtain ⟨x, rfl, hready⟩ := hparts (a ++ word.flatten) _ hpaired.2
    exact ⟨word :: x, by simp, by simpa [flattenAll] using hready⟩
  case cleanupNone => exact ⟨[], rfl, by simpa [flattenAll] using hj⟩
  case casesTest tree test colon after _ _ _ _ hcolon =>
    exact ⟨ready_of_begins (begins_colon hcolon), _, rfl, ready_nil⟩
  case casesDefault tree colon _ _ _ hcolon =>
    have h := begins_colon (a := a ++ tree.flatten) hcolon
    exact ⟨ready_of_begins (by simpa [flattenAll] using h), _, rfl, ready_nil⟩
  case function front _ c d parameters e f inside _ _ hn =>
    have hgroups := (pairedAll_append.mp hpaired).2
    refine ⟨?_, front ++ [.group .paren c d parameters, .group .brace e f inside], by simp, ?_⟩
    · have h := Token.begins_opening (a := a ++ flattenAll front ++ [c] ++ flattenAll parameters ++ [d])
        hgroups.2.1
      exact ready_of_begins (by simpa using h)
    · have h := Token.begins_braces (a := a ++ flattenAll (front ++ [.group .paren c d parameters]))
        hgroups.2.1
      exact ready_of_begins (by simpa [flattenAll] using h)
  case classBody front lead before trail c d inside _ _ _ hb _ _ =>
    have hgroup := (pairedAll_append.mp (pairedAll_append.mp hpaired).2).2.1
    refine ⟨front ++ (before ++ [.group .brace c d inside]), by simp, ?_⟩
    have h := Token.begins_braces (a := a ++ flattenAll (front ++ before)) hgroup
    exact ready_of_begins (by simpa [flattenAll] using h)
  case exportNames after hs he =>
    obtain ⟨b, word, rfl, hk, hword⟩ := hj
    refine exists_clause hpaired he fun _ x hx hb => ?_
    have hmissed := Missed.names hk hword (startsNames_of_append hs he hx) (by simpa using hb)
    simpa using hmissed
  case exportStatement _ _ =>
    obtain ⟨b, word, rfl, hk, hword⟩ := hj
    have hmissed : Missed (b ++ [word]) := by
      by_cases hdot : EndsInDot b
      · exact .member hdot hk
      · exact .word (by simp) (Token.endsInWord_concat.mpr ⟨hk, hword, hdot⟩)
    exact ⟨ready_of_missed hmissed, hparts _ _ hpaired (ready_of_missed hmissed)⟩
  case exportFunction word word' _ _ _ | exportClass word word' _ _ _ =>
    obtain ⟨x, rfl, hready⟩ := hparts (a ++ flattenAll [word, word']) _ hpaired.2.2
    exact ⟨word :: word' :: x, by simp, by simpa [flattenAll] using hready⟩
  case exportAsync word word' word'' _ _ _ _ =>
    obtain ⟨x, rfl, hready⟩ := hparts (a ++ flattenAll [word, word', word'']) _ hpaired.2.2.2
    exact ⟨word :: word' :: word'' :: x, by simp, by simpa [flattenAll] using hready⟩
  case exportValue word _ _ _ _ _ =>
    obtain ⟨x, hx, hready⟩ := exists_taken (a ++ word.flatten) _ _
    exact ⟨word :: x, congrArg (word :: ·) hx, by simpa [flattenAll] using hready⟩
  case method c d parameters _ _ _ _ _ _ _ =>
    have h := Token.begins_opening (a := a ++ [c] ++ flattenAll parameters ++ [d]) hpaired.2.1
    exact ready_of_begins (by simpa using h)
  case staticBlock token _ _ _ _ _ _ _ =>
    have h := Token.begins_opening (a := a ++ [token]) hpaired.2.1
    exact ready_of_begins (by simpa using h)
  case arrowInside _ token _ _ _ _ hi => exact begins_arrow hi
  case arrowBlock => exact ready_of_begins (Token.begins_opening hpaired.1)

/-- What is read leaves what is ready. -/
theorem Reads.leaves (h : Reads job items rest) {around : Option Delimiter} {a : List Token}
    (hpaired : PairedAll around job.trees) (hj : job.Poised a) : job.Leaves a rest := by
  revert around a
  refine Reads.induct (motive := fun job _ rest => ∀ {around a}, PairedAll around job.trees →
    job.Poised a → job.Leaves a rest) ?_ h
  intro job parts items rest hrule hread ih around a hpaired hj
  exact (hrule.poised hpaired hj 0 fun p hp b around hpaired hj => ih p hp hpaired hj).2

/-- Whether the operands of a place are ready, and its delimiters fit. -/
def Spot.Poised (s : Spot) : Prop :=
  s.job.Poised s.front ∧ ∃ around, PairedAll around s.job.trees

theorem Leads.poised {s t : Spot} (h : Leads s t) (hs : s.Poised) : t.Poised := by
  obtain ⟨parts, items, rest, hrule, hread, hmem⟩ := h
  obtain ⟨hj, around, hpaired⟩ := hs
  refine ⟨(hrule.poised hpaired hj s.scopes fun p hp b around hpaired hj =>
    (hread p hp).leaves hpaired hj).1 t hmem, ?_⟩
  rw [spots_eq_map] at hmem
  obtain ⟨u, hu, rfl⟩ := List.mem_map.mp hmem
  obtain ⟨b, hrun⟩ := hrule.stands hread u hu
  exact hrun.paired hpaired

theorem Visits.poised {s t : Spot} (h : Visits s t) (hs : s.Poised) : t.Poised := by
  induction h with
  | refl => exact hs
  | tail _ h ih => exact h.poised ih

/-! ## Operands -/

/-- What the walk takes for an operand at a place, or for a statement that is one, and the tokens before
it. -/
inductive Takes (a : List Token) : Job → List Token → List Tree → Prop
  /-- A statement. -/
  | statement {tree rest} : Form.of tree rest = .expression →
      Takes a (.statement (tree :: rest)) a (tree :: (takeExpression (some tree) rest).1)
  /-- What is behind `return` or `throw`. -/
  | leave {tree rest} : Form.of tree rest = .leave → startsWith (!·.newlineBefore) rest = true →
      Takes a (.statement (tree :: rest)) (a ++ tree.flatten) (takeExpression none rest).1
  /-- What is behind `case`. -/
  | test {tree rest test after} : tree.isIdent "case" = true → takeCase 0 rest = some (test, after) →
      Takes a (.cases (tree :: rest)) (a ++ tree.flatten) test
  /-- What is behind `export default`. -/
  | value {tree rest} : tree.isIdent "default" = true → behindWord? "function" rest = none →
      behindWords? "async" "function" rest = none → behindWord? "class" rest = none →
      Takes a (.exported (tree :: rest)) (a ++ tree.flatten) (takeExpression none rest).1
  /-- What is behind the arrow of a function, if it is no block. -/
  | arrow {before tree rest} : isGroup .brace tree = false →
      Takes a (.arrow before (tree :: rest)) a (takeArrowBody (tree :: rest)).1

/-- An operand stands in the trees of its place. -/
theorem Takes.stands {a b : List Token} {x : List Tree} (h : Takes a job b x) :
    ∃ c, b = a ++ c ∧ Stands job.trees c x := by
  cases h with
  | statement =>
    exact ⟨[], by simp, .before (congrArg (_ :: ·) (takeExpression_append _ _))⟩
  | leave | value => exact ⟨_, rfl, .of_eq (.cons (.before (takeExpression_append _ _))) (by simp)⟩
  | test _ ht =>
    obtain ⟨colon, rfl, -⟩ := takeCase_cut ht
    exact ⟨_, rfl, .of_eq (.cons (.before rfl)) (by simp)⟩
  | arrow => exact ⟨[], by simp, .before List.takeWhile_append_dropWhile⟩

theorem startsWith_of_append {p : Tree → Bool} {x y trees : List Tree} (h : x ++ y = trees)
    (hs : startsWith p x = true) : startsWith p trees = true := by
  subst h
  cases x with
  | nil => cases hs
  | cons => exact hs

/-- An operand is ready where it stands. -/
theorem Takes.ready {a b : List Token} {x : List Tree} (h : Takes a job b x) (hj : job.Poised a) :
    Ready b x := by
  cases h with
  | statement => exact fun hs => hj (startsWith_of_append (congrArg (_ :: ·) (takeExpression_append _ _)) hs)
  | leave hf => exact ready_word hf (by decide) (by decide)
  | test hc => exact ready_keyword hc (by decide)
  | value hd =>
    obtain ⟨c, word, rfl, hk, -⟩ := hj
    obtain ⟨token, rfl, hk', htext⟩ := Tree.ident?_eq_some_iff.mp (of_decide_eq_true hd)
    have hword := Token.endsInWord_concat.mpr ⟨hk', htext, not_endsInDot_of_ident (a := c) hk⟩
    exact ready_of_missed (.word (by simp) hword)
  | arrow => exact ready_of_begins hj

/-- A statement that is read for a job is one of a part, or is taken at its place. -/
theorem Rule.statements (h : Rule job parts items rest) (a : List Token) {x : List Tree}
    (hx : x ∈ Item.statementsAll items) :
    (∃ p ∈ parts, x ∈ Item.statementsAll p.items) ∨ Takes a job a x := by
  cases h <;> simp only [Item.statementsAll_append, Item.statementsAll_cons, Item.statementsAll_nil,
    Item.statements_scope, Item.statements_statement, Item.statementsAll_map_bind,
    statementsAll_loopNames, List.mem_append, List.mem_cons, List.not_mem_nil, List.append_nil,
    List.nil_append, exists_eq_or_imp, exists_eq_left, or_false] at hx ⊢
  case expressionStatement hf =>
    rcases hx with rfl | hx
    · exact .inr (.statement hf)
    · exact .inl hx
  case declaration _ _ hoisted _ _ =>
    refine .inl ?_
    cases hoisted <;> simpa using hx
  case function declares _ _ _ _ _ _ _ _ _ _ _ | classBody declares _ _ _ _ _ _ _ _ _ _ _ _ _ =>
    refine .inl ?_
    cases declares <;> simpa using hx
  all_goals tauto

/-- **Every statement that is read is taken** at a place that the walk comes to. -/
theorem Reads.taken (h : Reads job items rest) (a : List Token) (scopes : Nat) {x : List Tree}
    (hx : x ∈ Item.statementsAll items) :
    ∃ t b, Visits ⟨a, scopes, job⟩ t ∧ Takes t.front t.job b x := by
  revert a scopes x
  refine Reads.induct (motive := fun job items _ => ∀ (a : List Token) (scopes : Nat) {x : List Tree},
    x ∈ Item.statementsAll items → ∃ t b, Visits ⟨a, scopes, job⟩ t ∧ Takes t.front t.job b x) ?_ h
  intro job parts items rest hrule hread ih a scopes x hx
  rcases hrule.statements a hx with ⟨p, hp, hx⟩ | htakes
  · obtain ⟨s, hs, hjob⟩ := exists_spot hp a scopes
    obtain ⟨t, b, hvisits, htakes⟩ := ih p hp s.front s.scopes hx
    rw [← hjob] at hvisits
    exact ⟨t, b, .head ⟨parts, items, rest, hrule, hread, hs⟩ hvisits, htakes⟩
  · exact ⟨_, a, .refl, htakes⟩

end Outline

end DeferredLog
