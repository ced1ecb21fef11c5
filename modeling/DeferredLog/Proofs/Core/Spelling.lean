import DeferredLog.Proofs.Core.Scoping
import DeferredLog.Proofs.CallSite.Shape
import DeferredLog.Proofs.Program.Destructuring

/-!
# Trees of the core language

What is seen of the trees that programs of the core language are written as: which statement a tree
starts, where the expression of a statement ends, and which names a pattern binds.

* `Core.Spells.starting`, `Core.Ended.takeExpression`: a statement ends where the next one starts.
* `Core.Spells.goes`: an expression does not end before, unless in front of the body of a function.
* `Core.Spells.paired`: delimiters are paired.
-/

namespace DeferredLog

open DeferredLog.Tree

namespace Core

open Outline
open Pattern (Binds isBindable)

variable {x : String} {tree : Tree} {token : Token} {before : Before} {trees rest : List Tree}

/-! ## Names -/

theorem isIdent_iff {word : String} :
    tree.isIdent word = true ↔ ∃ token, tree = .leaf token ∧ token.kind = .ident ∧ token.text = word := by
  cases tree with
  | leaf token => by_cases hk : token.kind = .ident <;> simp [isIdent, ident?, hk]
  | group => simp [isIdent, ident?]

theorem Named.leaf (h : Named x tree) :
    ∃ token, tree = .leaf token ∧ token.kind = .ident ∧ token.text = x :=
  isIdent_iff.mp h.1

/-- A word is no name if it is reserved or one of the words that only some places reserve. -/
theorem Named.ne (h : Named x tree) {word : String} (hw : isName word = false) : x ≠ word := by
  rintro rfl
  cases h.2.symm.trans hw

theorem Named.isReserved (h : Named x tree) : DeferredLog.isReserved x = false := by
  have := h.2
  simp only [isName, Bool.and_eq_true, Bool.not_eq_true'] at this
  exact this.1

theorem Named.isIdent (h : Named x tree) {word : String} (hw : isName word = false) :
    tree.isIdent word = false := by
  obtain ⟨token, rfl, hk, rfl⟩ := h.leaf
  simp [Tree.isIdent, ident?, hk, h.ne hw]

theorem Named.isPunct (h : Named x tree) (text : String) : tree.isPunct text = false := by
  obtain ⟨token, rfl, hk, -⟩ := h.leaf
  simp [Tree.isPunct, Token.isPunct, hk]

theorem Named.endsExpression (h : Named x tree) : tree.endsExpression = true := by
  obtain ⟨token, rfl, hk, rfl⟩ := h.leaf
  have hmem : token.text ∉ operatorWords := by
    intro hmem
    have hname : ∀ word ∈ operatorWords, isName word = false := by decide
    exact h.ne (hname _ hmem) rfl
  simp [Tree.endsExpression, hk, hmem]

theorem Named.continuesExpression (h : Named x tree) : tree.continuesExpression = false := by
  obtain ⟨token, rfl, hk, rfl⟩ := h.leaf
  simp [Tree.continuesExpression, hk, h.ne (show isName "in" = false by decide),
    h.ne (show isName "instanceof" = false by decide)]

/-- A name in an expression announces nothing. -/
theorem Named.inner (h : Named x (.leaf token)) : Inner.of before token rest = .plain := by
  obtain ⟨_, ⟨⟩, hk, rfl⟩ := h.leaf
  simp [Inner.of, hk, h.ne (show isName "function" = false by decide),
    h.ne (show isName "class" = false by decide), h.ne (show isName "static" = false by decide)]

/-- A statement that starts with a name and neither a name nor a colon behind it is an expression. -/
theorem Named.form (h : Named x tree) (hr : startsWith (Tree.isPunct ":") rest = false) :
    Form.of tree rest = .expression := by
  obtain ⟨token, rfl, hk, rfl⟩ := h.leaf
  have hword : ∀ word, isName word = false → token.text ≠ word := fun word => h.ne
  rw [Form.of, h.isPunct, if_neg (by simp), if_neg (by simp [isGroup, inside?])]
  simp only [ident?, hk, if_true]
  unfold Form.ofWord
  split <;> first | exact absurd ‹_› (hword _ (by decide)) | skip
  simp [hword "async" (by decide), hword "let" (by decide), hr]

/-! ## Words and signs -/

/-- The form of a statement that starts with a word. -/
theorem form_of_word {word : String} (h : tree.isIdent word = true) (rest : List Tree) :
    Form.of tree rest = Form.ofWord word rest := by
  obtain ⟨token, rfl, hk, rfl⟩ := isIdent_iff.mp h
  simp [Form.of, Tree.isPunct, Token.isPunct, hk, isGroup, inside?, ident?]

/-- A word that declares a variable starts a declaration. -/
theorem Declarer.form {word : Declarer} {name : Tree} (h : tree.isIdent word.text = true)
    (hn : Named x name) (rest : List Tree) :
    Form.of tree (name :: rest) = .declaration (word = .varWord) := by
  rw [form_of_word h]
  cases word with
  | constWord | varWord => rfl
  | letWord =>
    obtain ⟨token, rfl, hk, rfl⟩ := hn.leaf
    simp [Declarer.text, Form.ofWord, startsWith, isFreeName, ident?, hk, hn.isReserved]

/-- A sign in an expression announces nothing unless it is the arrow of a function. -/
theorem inner_of_sign {text : String} (h : token.isPunct text = true) (ha : text ≠ "=>") :
    Inner.of before token rest = .plain := by
  simp only [Token.isPunct, Bool.and_eq_true, decide_eq_true_eq] at h
  simp [Inner.of, Token.isPunct, h.1, h.2, ha]

/-- Whether no expression and no statement goes on with a tree. -/
def Starting : List Tree → Prop
  | [] => True
  | tree :: _ => tree.continuesExpression = false ∧ tree.isPunct ";" = false ∧
      tree.isIdent "finally" = false

theorem Named.starting (h : Named x tree) : Starting (tree :: rest) :=
  ⟨h.continuesExpression, h.isPunct ";", h.isIdent (by decide)⟩

theorem starting_of_word {word : String} (h : tree.isIdent word = true)
    (hw : word ∉ ["in", "instanceof", "finally"]) : Starting (tree :: rest) := by
  obtain ⟨token, rfl, hk, rfl⟩ := isIdent_iff.mp h
  simp only [List.mem_cons, List.not_mem_nil, or_false, not_or] at hw
  simp [Starting, Tree.continuesExpression, Tree.isPunct, Token.isPunct, Tree.isIdent, ident?, hk, hw]

/-- A statement starts with a tree that goes on with nothing. -/
theorem Spells.starting {s : Stmt} {calls : List (List Tree)} {fits : Bool}
    (h : Spells (.statement s) trees calls fits) : Starting (trees ++ rest) := by
  cases h with
  | callStatement h =>
    cases h with
    | call hx => exact hx.starting
  | block => exact ⟨rfl, rfl, rfl⟩
  | @declare word _ _ _ _ _ _ _ _ hw =>
    refine starting_of_word hw ?_
    cases word <;> decide
  | functionStatement hw => exact starting_of_word hw (by decide)
  | ifElse hw => exact starting_of_word hw (by decide)
  | whileLoop hw => exact starting_of_word hw (by decide)
  | forOf hw => exact starting_of_word hw (by decide)
  | tryCatch hw => exact starting_of_word hw (by decide)

theorem Spells.exists_cons {s : Stmt} {calls : List (List Tree)} {fits : Bool}
    (h : Spells (.statement s) trees calls fits) : ∃ tree rest, trees = tree :: rest := by
  cases h with
  | callStatement h => cases h with | call => exact ⟨_, _, rfl⟩
  | _ => exact ⟨_, _, rfl⟩

theorem Spells.starting_body {b : List Stmt} {calls : List (List Tree)} {fits : Bool}
    (h : Spells (.body b) trees calls fits) : Starting trees := by
  cases h with
  | noStatements => trivial
  | statements h => exact h.starting

/-! ## Where statements end -/

theorem Starting.skipSemicolon (h : Starting rest) : skipSemicolon rest = rest := by
  cases rest with
  | nil => rfl
  | cons tree rest => simp [Tree.skipSemicolon, h.2.1]

/-- A statement without an end of its own is followed by the next one. -/
theorem Ended.eq_nil {s : Stmt} {ending : List Tree} (h : Ended s ending rest)
    (hs : s.needsEnd = false) : ending = [] := by
  cases h with
  | semicolon hs' => cases hs.symm.trans hs'
  | last | newLine | closed => rfl

theorem Ended.skipSemicolon {s : Stmt} {ending : List Tree} (h : Ended s ending rest)
    (hr : Starting rest) : skipSemicolon (ending ++ rest) = rest := by
  cases h with
  | semicolon _ hp => simp [Tree.skipSemicolon, hp]
  | last | newLine | closed => exact hr.skipSemicolon

/-- An expression ends where its statement ends. -/
theorem Ended.takeExpression {s : Stmt} {ending : List Tree} {last : Tree}
    (h : Ended s ending rest) (hs : s.needsEnd = true) (hr : Starting rest)
    (hlast : last.endsExpression = true) :
    takeExpression (some last) (ending ++ rest) = ([], ending ++ rest) := by
  cases h with
  | semicolon _ hp => simp [Tree.takeExpression, hp]
  | last => rfl
  | newLine hn => simp [Tree.takeExpression, breaksBefore, hn, hlast, hr.1]
  | closed hs' => cases hs.symm.trans hs'

/-- Whether an expression goes on over some trees and can end behind them. -/
structure Goes (before : Option Tree) (trees : List Tree) : Prop where
  /-- It does not end before. -/
  all : takeExpression before trees = (trees, [])
  /-- It can end behind them. -/
  last : ∃ last, lastOf before trees = some last ∧ last.endsExpression = true

theorem Goes.nil (h : tree.endsExpression = true) : Goes (some tree) [] :=
  ⟨rfl, tree, rfl, h⟩

theorem Goes.cons {before : Option Tree} (hs : tree.isPunct ";" = false)
    (hb : breaksBefore before tree = false) (h : Goes (some tree) trees) :
    Goes before (tree :: trees) := by
  refine ⟨?_, h.last⟩
  rw [Tree.takeExpression, hs, hb, h.all]
  rfl

/-- Behind a sign an expression goes on. -/
theorem breaksBefore_sign {text : String} {sign : Tree} (h : sign.isPunct text = true)
    (ht : text ≠ "++" ∧ text ≠ "--") : breaksBefore (some sign) tree = false := by
  obtain ⟨token, rfl, hp⟩ := isPunct_iff.mp h
  simp only [Token.isPunct, Bool.and_eq_true, decide_eq_true_eq] at hp
  simp [breaksBefore, Tree.endsExpression, hp, ht]

theorem breaksBefore_continues {before : Option Tree} (h : tree.continuesExpression = true) :
    breaksBefore before tree = false := by
  cases before <;> simp [breaksBefore, h]

theorem continues_sign {text : String} (h : tree.isPunct text = true)
    (ht : text ∉ ["++", "--", "!", "~", "...", "@", "#"]) : tree.continuesExpression = true := by
  obtain ⟨token, rfl, hp⟩ := isPunct_iff.mp h
  simp only [Token.isPunct, Bool.and_eq_true, decide_eq_true_eq] at hp
  simp only [Tree.continuesExpression, hp]
  simpa using ht

/-- An expression goes on over a sign. -/
theorem Goes.sign {before : Option Tree} {text : String} (h : tree.isPunct text = true)
    (ht : text ∉ ["++", "--", "!", "~", "...", "@", "#", ";"]) (hg : Goes (some tree) trees) :
    Goes before (tree :: trees) := by
  simp only [List.mem_cons, List.not_mem_nil, or_false, not_or] at ht
  refine hg.cons (isPunct_ne h (by simp [ht])) (breaksBefore_continues (continues_sign h ?_))
  simp [ht]

theorem Goes.paren {before : Option Tree} {a b : Token} {inside : List Tree}
    (hg : Goes (some (.group .paren a b inside)) trees) :
    Goes before (.group .paren a b inside :: trees) :=
  hg.cons rfl (breaksBefore_continues rfl)

/-- Behind a sign an expression goes on over any tree but a semicolon. -/
theorem Goes.behind {text : String} {sign : Tree} (h : sign.isPunct text = true)
    (ht : text ≠ "++" ∧ text ≠ "--") (hs : tree.isPunct ";" = false) (hg : Goes (some tree) trees) :
    Goes (some sign) (tree :: trees) :=
  hg.cons hs (breaksBefore_sign h ht)

theorem goes_members {before : Option Tree} {ms : List String} {members : List Tree}
    {a b : Token} {inside : List Tree} (h : Members ms members) :
    Goes before (members ++ [.group .paren a b inside]) := by
  induction h generalizing before with
  | none => exact .paren (.nil rfl)
  | more hd hm _ ih =>
    exact .sign hd (by decide) (.behind hd (by decide) (hm.isPunct ";") ih)

/-- Behind an equals sign an expression goes on over a value, unless this is a function that opens its
body on a new line. -/
theorem Spells.goes {e : Expr} {calls : List (List Tree)} {fits : Bool} {sign : Tree}
    (h : Spells (.value e) trees calls fits) (hs : sign.isPunct "=" = true)
    (ho : e.opensOnLine trees = true) : Goes (some sign) trees := by
  cases h with
  | name hx => exact .behind hs (by decide) (hx.isPunct ";") (.nil hx.endsExpression)
  | number hk =>
    refine .behind hs (by decide) ?_ (.nil ?_)
    · simp [Tree.isPunct, Token.isPunct, hk]
    · simp [Tree.endsExpression, hk]
  | call hx hm => exact .behind hs (by decide) (hx.isPunct ";") (goes_members hm)
  | function hw =>
    obtain ⟨token, rfl, hk, -⟩ := isIdent_iff.mp hw
    refine .behind hs (by decide) (by simp [Tree.isPunct, Token.isPunct, hk])
      (.paren (.cons rfl ?_ (.nil rfl)))
    simp only [Expr.opensOnLine, Bool.not_eq_true'] at ho
    simp [breaksBefore, newlineBefore, ho]
  | arrow _ _ ha =>
    exact .paren (.sign ha (by decide) (.behind ha (by decide) rfl (.nil rfl)))

/-- An expression that goes on over some trees ends where the statement ends. -/
theorem Goes.ended {before : Option Tree} {s : Stmt} {ending : List Tree} (hg : Goes before trees)
    (h : Ended s ending rest) (hs : s.needsEnd = true) (hr : Starting rest) :
    Tree.takeExpression before (trees ++ (ending ++ rest)) = (trees, ending ++ rest) := by
  obtain ⟨last, hlast, hends⟩ := hg.last
  have halike : List.Forall₂ Alike (Tree.takeExpression before trees).1 trees := by
    rw [hg.all]
    exact List.forall₂_same.mpr fun _ _ => .refl _
  rw [takeExpression_append_of_alike rfl halike, hlast, h.takeExpression hs hr hends]
  simp

/-! ## Names that are bound -/

/-- A name is a binding pattern. -/
theorem Named.binds (h : Named x tree) : Binds .target [tree] [x] true := by
  obtain ⟨token, rfl, hk, rfl⟩ := h.leaf
  exact .name (by simp [isBindable, hk, h.isReserved])

theorem boundNames_named (h : Named x tree) : boundNames [tree] = [x] :=
  h.binds.read rfl

/-- A default binds nothing. -/
theorem boundNames_default {sign : Tree} (h : Named x tree) (hs : sign.isPunct "=" = true) :
    boundNames (tree :: sign :: trees) = [x] :=
  (Pattern.boundNames_default h.binds hs).trans (boundNames_named h)

theorem parameterNames_one (h : boundNames trees = [x])
    (hs : ∀ tree ∈ trees, tree.isPunct "," = false) : parameterNames trees = [x] := by
  simp [parameterNames, betweenCommas, pieces_eq_singleton hs, h]

/-- Parameters are binding patterns between commas. -/
theorem Parameters.binds {ps : List String} (h : Parameters ps trees) :
    Binds (.many .slot) trees ps true := by
  induction h with
  | none => exact .none
  | one h => exact .last rfl (.slot (.bare h.binds))
  | more h hc _ ih => exact .more rfl (.slot (.bare h.binds)) hc ih

/-- Parameters bind their names. -/
theorem Parameters.names {ps : List String} (h : Parameters ps trees) : parameterNames trees = ps :=
  h.binds.read rfl

/-- There are no commas in a value but in its groups. -/
theorem Spells.isPunct_comma {e : Expr} {calls : List (List Tree)} {fits : Bool}
    (h : Spells (.value e) trees calls fits) : ∀ tree ∈ trees, tree.isPunct "," = false := by
  have hword : ∀ {word : String} {tree : Tree}, tree.isIdent word = true → tree.isPunct "," = false := by
    intro word tree h
    obtain ⟨token, rfl, hk, -⟩ := isIdent_iff.mp h
    simp [Tree.isPunct, Token.isPunct, hk]
  have hgroup : ∀ delimiter a b inside, Tree.isPunct "," (.group delimiter a b inside) = false :=
    fun _ _ _ _ => rfl
  cases h with
  | name hx => simp [hx.isPunct]
  | number hk => simp [Tree.isPunct, Token.isPunct, hk]
  | call hx hm =>
    have hmembers : ∀ {ms members}, Members ms members →
        ∀ tree ∈ members, tree.isPunct "," = false := by
      intro ms members hm
      induction hm with
      | none => simp
      | more hd hm _ ih => simpa [isPunct_ne hd, hm.isPunct] using ih
    simpa [hx.isPunct, hgroup, or_imp, forall_and] using hmembers hm
  | function hw => simp [hword hw, hgroup]
  | arrow _ _ ha => simp [isPunct_ne ha, hgroup]

/-- The head of a loop binds what its declarators do. -/
theorem loopNames_of_word {word : Declarer} {behind : List Tree} (h : tree.isIdent word.text = true) :
    loopNames (tree :: behind) =
      (parameterNames (behind.takeWhile (!endsLoopNames ·))).map word.item := by
  obtain ⟨token, rfl, hk, ht⟩ := isIdent_iff.mp h
  cases word <;> simp_all [loopNames, Declarer.text, Declarer.item, isIdent, ident?]

theorem loopNames_one {word : Declarer} {name of : Tree} (h : tree.isIdent word.text = true)
    (hn : Named x name) (ho : of.isIdent "of" = true) :
    loopNames (tree :: name :: of :: trees) = [word.item x] := by
  have hends : endsLoopNames name = false := by
    simp [endsLoopNames, hn.isPunct, hn.isIdent (show isName "of" = false by decide),
      hn.isIdent (show isName "in" = false by decide)]
  have hnames := parameterNames_one (boundNames_named hn) (by simp [hn.isPunct])
  have hof : endsLoopNames of = true := by simp [endsLoopNames, ho]
  rw [loopNames_of_word h, List.takeWhile_cons, hends, List.takeWhile_cons, hof]
  simp [hnames]

/-! ## Delimiters -/

variable {around : Option Delimiter}

theorem paired_of_isIdent {word : String} (h : tree.isIdent word = true) : tree.Paired around := by
  obtain ⟨token, rfl, hk, -⟩ := isIdent_iff.mp h
  simp [Tree.Paired, opened?, closed?, hk]

theorem paired_of_isPunct {text : String} (h : tree.isPunct text = true) : tree.Paired around := by
  obtain ⟨token, rfl, hp⟩ := isPunct_iff.mp h
  simp only [Token.isPunct, Bool.and_eq_true, decide_eq_true_eq] at hp
  simp [Tree.Paired, opened?, closed?, hp]

theorem Named.paired (h : Named x tree) : tree.Paired around :=
  paired_of_isIdent h.1

theorem Encloses.paired {delimiter : Delimiter} {a b : Token} {inside : List Tree}
    (h : Encloses delimiter a b) (hi : PairedAll (some delimiter) inside) :
    (Tree.group delimiter a b inside).Paired around :=
  ⟨h.1, h.2, hi⟩

theorem Parameters.paired {ps : List String} (h : Parameters ps trees) : PairedAll around trees := by
  induction h with
  | none => trivial
  | one hx => exact ⟨hx.paired, trivial⟩
  | more hx hc _ ih => exact ⟨hx.paired, paired_of_isPunct hc, ih⟩

theorem Members.paired {ms : List String} (h : Members ms trees) : PairedAll around trees := by
  induction h with
  | none => trivial
  | more hd hm _ ih => exact ⟨paired_of_isPunct hd, hm.paired, ih⟩

theorem Ended.paired {s : Stmt} {ending : List Tree} (h : Ended s ending rest) :
    PairedAll around ending := by
  cases h with
  | semicolon _ hp => exact ⟨paired_of_isPunct hp, trivial⟩
  | last | newLine | closed => trivial

/-- The delimiters of a program are paired. -/
theorem Spells.paired {part : Part} {calls : List (List Tree)} {fits : Bool}
    (h : Spells part trees calls fits) : PairedAll around trees := by
  induction h generalizing around with
  | name hx => exact ⟨hx.paired, trivial⟩
  | number hk => simp [PairedAll, Tree.Paired, opened?, closed?, hk]
  | call hx hm ha _ ih =>
    exact ⟨hx.paired, pairedAll_append.mpr ⟨hm.paired, ha.paired ih, trivial⟩⟩
  | function hw ha hp hc _ ih => exact ⟨paired_of_isIdent hw, ha.paired hp.paired, hc.paired ih, trivial⟩
  | arrow ha hp hs hc _ ih => exact ⟨ha.paired hp.paired, paired_of_isPunct hs, hc.paired ih, trivial⟩
  | noArguments | noStatements => trivial
  | oneArgument _ ih | callStatement _ ih => exact ih
  | moreArguments _ hc _ ih₁ ih₂ => exact pairedAll_append.mpr ⟨ih₁, paired_of_isPunct hc, ih₂⟩
  | block ha _ ih => exact ⟨ha.paired ih, trivial⟩
  | declare hw hn hs _ ih => exact ⟨paired_of_isIdent hw, hn.paired, paired_of_isPunct hs, ih⟩
  | functionStatement hw hn ha hp hc _ ih =>
    exact ⟨paired_of_isIdent hw, hn.paired, ha.paired hp.paired, hc.paired ih, trivial⟩
  | ifElse hw ha _ hc _ ho hd _ ih₁ ih₂ ih₃ =>
    exact ⟨paired_of_isIdent hw, ha.paired ih₁, hc.paired ih₂, paired_of_isIdent ho, hd.paired ih₃,
      trivial⟩
  | whileLoop hw ha _ hc _ ih₁ ih₂ =>
    exact ⟨paired_of_isIdent hw, ha.paired ih₁, hc.paired ih₂, trivial⟩
  | forOf hw ha hd hn ho _ hc _ ih₁ ih₂ =>
    exact ⟨paired_of_isIdent hw, ha.paired ⟨paired_of_isIdent hd, hn.paired, paired_of_isIdent ho, ih₁⟩,
      hc.paired ih₂, trivial⟩
  | tryCatch hw ha _ ho hc hn hd _ ih₁ ih₂ =>
    exact ⟨paired_of_isIdent hw, ha.paired ih₁, paired_of_isIdent ho, hc.paired ⟨hn.paired, trivial⟩,
      hd.paired ih₂, trivial⟩
  | statements _ he _ ih₁ ih₂ =>
    exact pairedAll_append.mpr ⟨ih₁, pairedAll_append.mpr ⟨he.paired, ih₂⟩⟩

end Core

end DeferredLog
