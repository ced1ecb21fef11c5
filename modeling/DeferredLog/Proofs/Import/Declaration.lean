import DeferredLog.Proofs.Import.Clause
import DeferredLog.Proofs.Outline.Nesting
import DeferredLog.Proofs.Tree.Pieces

/-!
# Import declarations

The grammar of the declarations that import names: a default name, a name for all of a module or a list of names
in braces, then the word `from` and the module, with attributes and a semicolon or without. Beside it stands what
is read as an import. A clause is read part by part up to the first `from`, whatever the order of its parts, so
that a declaration is read as what it is unless its default name is that word.

* `Import.clause?_eq_some_iff`: what is read as a clause.
* `Import.takes_of_at?`: the trees that an import takes, which are all that a step of the search can pass over.
* `Import.Declaration.at?_eq`: a declaration is read with its names, its module and its end.
-/

namespace DeferredLog

open DeferredLog.Tree

namespace Import

/-! ## The grammar -/

/-- An entry of a list of names: a name, or a name or string with the name that it gets. -/
inductive Entry : List Tree → ImportName → Prop
  | same {tree name} : tree.ident? = some name → Entry [tree] ⟨name, name⟩
  | renamed {tree word renamed imported name} : tree.ident? = some imported → word.isIdent "as" = true →
      renamed.ident? = some name → Entry [tree, word, renamed] ⟨imported, name⟩
  | quoted {tree word renamed token name} : tree.string? = some token → word.isIdent "as" = true →
      renamed.ident? = some name → Entry [tree, word, renamed] ⟨specifierOf token, name⟩

/-- The entries of a list of names, with a comma behind the last one or without. -/
inductive Entries : List Tree → List ImportName → Prop
  | nil : Entries [] []
  | last {piece name} : Entry piece name → Entries piece [name]
  | cons {piece comma rest name names} : Entry piece name → comma.isPunct "," = true → Entries rest names →
      Entries (piece ++ comma :: rest) (name :: names)

/-- A tree that is a name for what is imported: a word that is not reserved. -/
def Binds (tree : Tree) (name : String) : Prop :=
  tree.ident? = some name ∧ isReserved name = false

/-- The part of a clause that is no default name: a name for all of the module, or a list of names. -/
inductive Bindings : List Tree → List ImportName → Prop
  | all {star word tree name} : star.isPunct "*" = true → word.isIdent "as" = true → Binds tree name →
      Bindings [star, word, tree] [⟨"*", name⟩]
  | list {opening closing inside names} : Entries inside names →
      Bindings [.group .brace opening closing inside] names

/-- A clause with its default name, if it has one, and all names that it introduces in their order. -/
inductive Clause : Option String → List Tree → List ImportName → Prop
  | single {tree name} : Binds tree name → Clause (some name) [tree] [⟨"default", name⟩]
  | bindings {trees names} : Bindings trees names → Clause none trees names
  | both {tree comma trees name names} : Binds tree name → comma.isPunct "," = true → Bindings trees names →
      Clause (some name) (tree :: comma :: trees) (⟨"default", name⟩ :: names)

/-- The attributes of an import: a word, and what is asked for in braces. -/
inductive Attributes : List Tree → Prop
  | mk {word opening closing inside} : word.isIdent "with" = true ∨ word.isIdent "assert" = true →
      Attributes [word, .group .brace opening closing inside]

/-- What can stand behind the module of an import: attributes and a semicolon. -/
structure Tail (attributes semicolon : List Tree) : Prop where
  attributes : attributes = [] ∨ Attributes attributes
  semicolon : semicolon = [] ∨ ∃ tree, semicolon = [tree] ∧ tree.isPunct ";" = true

/-- A declaration that imports names. -/
structure Declaration where
  /-- The word that it starts with. -/
  word : Tree
  /-- Its clause. -/
  clause : List Tree
  /-- The word between the clause and the module. -/
  source : Tree
  /-- The module. -/
  module : Token
  /-- Its attributes, if it has some. -/
  attributes : List Tree
  /-- Its semicolon, if it has one. -/
  semicolon : List Tree
  /-- Its default name, if it has one. -/
  defaultName : Option String
  /-- The names that it introduces. -/
  names : List ImportName
  word_eq : word.isIdent "import" = true
  clause_eq : Clause defaultName clause names
  source_eq : source.isIdent "from" = true
  module_eq : module.kind = .string
  tail_eq : Tail attributes semicolon

namespace Declaration

/-- What stands behind the module. -/
def tail (d : Declaration) : List Tree :=
  d.attributes ++ d.semicolon

/-- The trees of a declaration. -/
def trees (d : Declaration) : List Tree :=
  d.word :: (d.clause ++ d.source :: .leaf d.module :: d.tail)

/-- The import that a declaration is: from its word to its last tree, with the module and all names. -/
def record (d : Declaration) : Import :=
  ⟨.static, ⟨d.word.start, stopOf d.trees⟩, some (specifierOf d.module), d.names⟩

/-- Whether trees start with attributes. -/
def StartsAttributes (trees : List Tree) : Prop :=
  ∃ attributes rest, trees = attributes ++ rest ∧ Attributes attributes

/-- Trees that stand behind a declaration and are no part of it. A semicolon would end it, and so would
attributes; but the word `assert` on a line of its own is a statement, and a block can follow. -/
structure EndsBefore (d : Declaration) (after : List Tree) : Prop where
  semicolon : d.semicolon = [] → Outline.startsWith (isPunct ";") after = false
  attributes : d.tail = [] → StartsAttributes after →
    Outline.startsWith (fun t => t.isIdent "assert" && t.newlineBefore) after = true

end Declaration

variable {tree : Tree} {trees rest : List Tree} {names : List ImportName}

/-! ## Words and strings -/

theorem string?_of_ident? {name : String} (h : tree.ident? = some name) : tree.string? = none := by
  obtain ⟨token, rfl, hk, -⟩ := Tree.ident?_eq_some_iff.mp h
  simp [string?, hk]

theorem isIdent_ne {name other : String} (h : tree.ident? = some name) (hne : name ≠ other) :
    tree.isIdent other = false := by
  simp [isIdent, h, hne]

theorem isIdent_of_isPunct {text : String} (h : tree.isPunct text = true) (word : String) :
    tree.isIdent word = false := by
  simp [isIdent, Tree.ident?_of_isPunct h]

theorem isPunct_of_ident? {name : String} (h : tree.ident? = some name) (text : String) :
    tree.isPunct text = false := by
  obtain ⟨token, rfl, hk, -⟩ := Tree.ident?_eq_some_iff.mp h
  simp [Tree.isPunct, Token.isPunct, hk]

theorem Binds.isIdent_import {name : String} (h : Binds tree name) : tree.isIdent "import" = false := by
  refine isIdent_ne h.1 ?_
  rintro rfl
  exact absurd h.2 (by decide +kernel)

/-! ## How names are read -/

theorem Entry.isPunct_comma {piece : List Tree} {name : ImportName} (h : Entry piece name) :
    ∀ t ∈ piece, t.isPunct "," = false := by
  have word {t : Tree} {w : String} (hw : t.isIdent w = true) : t.isPunct "," = false :=
    isPunct_of_ident? (of_decide_eq_true hw) ","
  cases h with
  | same ht => simpa using isPunct_of_ident? ht ","
  | renamed ht hw hr =>
    simpa using ⟨isPunct_of_ident? ht ",", word hw, isPunct_of_ident? hr ","⟩
  | quoted ht hw hr =>
    obtain ⟨rfl, hk⟩ := string?_eq_some ht
    simpa [Tree.isPunct, Token.isPunct, hk] using ⟨word hw, isPunct_of_ident? hr ","⟩

theorem Entry.clauseName?_eq {piece : List Tree} {name : ImportName} (h : Entry piece name) :
    clauseName? piece = some name := by
  cases h with
  | same ht => simp [clauseName?, string?_of_ident? ht, ht]
  | renamed ht hw hr => simp [clauseName?, string?_of_ident? ht, ht, hw, hr]
  | quoted ht hw hr => simp [clauseName?, ht, hw, hr]

/-- A list of names introduces its entries. -/
theorem Entries.namedClause_eq (h : Entries trees names) : namedClause trees = names := by
  induction h with
  | nil => rfl
  | last hentry => simp [namedClause, betweenCommas, pieces_eq_singleton hentry.isPunct_comma,
      hentry.clauseName?_eq]
  | cons hentry hcomma _ ih =>
    rw [namedClause, betweenCommas, pieces_append_cons hentry.isPunct_comma hcomma,
      List.filterMap_cons_some hentry.clauseName?_eq]
    exact congrArg _ ih

/-! ## How clauses are read -/

/-- `Parts trees names`: trees that are parts of clauses, in any order, and the names that they introduce. -/
inductive Parts : List Tree → List ImportName → Prop
  | nil : Parts [] []
  | name {tree name rest names} : tree.ident? = some name → name ≠ "from" → Parts rest names →
      Parts (tree :: rest) (⟨"default", name⟩ :: names)
  | braces {opening closing inside rest names} : Parts rest names →
      Parts (.group .brace opening closing inside :: rest) (namedClause inside ++ names)
  | star {star skipped tree name rest names} : star.isPunct "*" = true → tree.ident? = some name →
      Parts rest names → Parts (star :: skipped :: tree :: rest) (⟨"*", name⟩ :: names)
  | comma {comma rest names} : comma.isPunct "," = true → Parts rest names → Parts (comma :: rest) names

theorem Bindings.parts (h : Bindings trees names) : Parts trees names := by
  cases h with
  | all hstar _ hname => exact .star hstar hname.1 .nil
  | list hentries =>
    rw [← hentries.namedClause_eq, ← List.append_nil (namedClause _)]
    exact .braces .nil

/-- A clause is made of parts, unless its default name is the word that ends clauses. -/
theorem Clause.parts {defaultName : Option String} (h : Clause defaultName trees names)
    (hne : defaultName ≠ some "from") : Parts trees names := by
  cases h with
  | single hname => exact .name hname.1 (fun he => hne (congrArg _ he)) .nil
  | bindings hbindings => exact hbindings.parts
  | both hname hcomma hbindings =>
    exact .name hname.1 (fun he => hne (congrArg _ he)) (.comma hcomma hbindings.parts)

namespace Parts

theorem append {front : List Tree} {more : List ImportName} (h : Parts front names) (hr : Parts rest more) :
    ∃ all, Parts (front ++ rest) all := by
  induction h with
  | nil => exact ⟨more, hr⟩
  | name ht hne _ ih => exact ih.imp' _ fun _ hp => .name ht hne hp
  | braces _ ih => exact ih.imp' _ fun _ hp => .braces hp
  | star hs ht _ ih => exact ih.imp' _ fun _ hp => .star hs ht hp
  | comma hc _ ih => exact ih.imp' _ fun _ hp => .comma hc hp

theorem of_name {name : String} (ht : tree.ident? = some name) (h : Parts (tree :: rest) names) :
    name ≠ "from" ∧ ∃ more, Parts rest more := by
  cases h with
  | name ht' hne h => exact ⟨Option.some.inj (ht'.symm.trans ht) ▸ hne, _, h⟩
  | braces => cases ht
  | star hs => rw [Tree.ident?_of_isPunct hs] at ht; cases ht
  | comma hc => rw [Tree.ident?_of_isPunct hc] at ht; cases ht

theorem of_braces {opening closing : Token} {inside : List Tree}
    (h : Parts (.group .brace opening closing inside :: rest) names) : ∃ more, Parts rest more := by
  cases h with
  | name ht => cases ht
  | braces h => exact ⟨_, h⟩
  | star hs => cases hs
  | comma hc => cases hc

theorem of_star {skipped renamed : Tree} (hs : tree.isPunct "*" = true)
    (h : Parts (tree :: skipped :: renamed :: rest) names) : ∃ more, Parts rest more := by
  cases h with
  | name ht => rw [Tree.ident?_of_isPunct hs] at ht; cases ht
  | braces => cases hs
  | star _ _ h => exact ⟨_, h⟩
  | comma hc => rw [Tree.isPunct_ne hs (by decide)] at hc; cases hc

theorem of_comma (hc : tree.isPunct "," = true) (h : Parts (tree :: rest) names) : ∃ more, Parts rest more := by
  cases h with
  | name ht => rw [Tree.ident?_of_isPunct hc] at ht; cases ht
  | braces => cases hc
  | star hs => rw [Tree.isPunct_ne hc (by decide)] at hs; cases hs
  | comma _ h => exact ⟨_, h⟩

/-- The word that ends clauses is no part of one. -/
theorem not_from {front : List Tree} {more : List ImportName} (h : Parts front more) {word : Tree}
    (hword : word.isIdent "from" = true) : ¬ Parts (front ++ word :: rest) names := by
  induction h generalizing names with
  | nil => exact fun hp => (hp.of_name (of_decide_eq_true hword)).1 rfl
  | name ht _ _ ih => exact fun hp => (hp.of_name ht).2.elim fun _ => ih
  | braces _ ih => exact fun hp => hp.of_braces.elim fun _ => ih
  | star hs _ _ ih => exact fun hp => (hp.of_star hs).elim fun _ => ih
  | comma hc _ ih => exact fun hp => (hp.of_comma hc).elim fun _ => ih

/-- Parts end in one place only. -/
theorem unique {a b x y : List Tree} {names names' : List ImportName} (ha : Parts a names) (hb : Parts b names')
    {word word' : Tree} (hword : word.isIdent "from" = true) (hword' : word'.isIdent "from" = true)
    (h : a ++ word :: x = b ++ word' :: y) : a = b ∧ x = y := by
  rcases List.append_eq_append_iff.mp h with ⟨c, rfl, hc⟩ | ⟨c, rfl, hc⟩
  · cases c with
    | nil => exact ⟨(List.append_nil a).symm, (List.cons.inj hc).2⟩
    | cons t c =>
      obtain ⟨rfl, -⟩ := List.cons.inj hc
      exact absurd hb (ha.not_from hword)
  · cases c with
    | nil => exact ⟨List.append_nil b, (List.cons.inj hc).2.symm⟩
    | cons t c =>
      obtain ⟨rfl, -⟩ := List.cons.inj hc
      exact absurd ha (hb.not_from hword')

end Parts

/-- **What is read as a clause**: parts up to the first word `from` that is none of them. -/
theorem clause?_eq_some_iff : clause? trees = some (names, rest) ↔
    ∃ parts word, trees = parts ++ word :: rest ∧ word.isIdent "from" = true ∧ Parts parts names := by
  constructor
  · intro h
    fun_induction clause? trees generalizing names with
    | case1 => cases h
    | case2 tree rest hfrom =>
      cases h
      exact ⟨[], tree, rfl, hfrom, .nil⟩
    | case3 tree rest hfrom inside hinside ih =>
      obtain ⟨⟨more, behind⟩, hr, he⟩ := Option.map_eq_some_iff.mp h
      cases he
      obtain ⟨opening, closing, _, rfl⟩ := Tree.inside?_isSome_iff.mp (Option.isSome_iff_exists.mpr ⟨_, hinside⟩)
      obtain ⟨parts, word, rfl, hword, hparts⟩ := ih hr
      rw [inside?, if_pos rfl, Option.some.injEq] at hinside
      subst hinside
      exact ⟨_ :: parts, word, rfl, hword, .braces hparts⟩
    | case4 tree rest hfrom name hname hinside ih =>
      obtain ⟨⟨more, behind⟩, hr, he⟩ := Option.map_eq_some_iff.mp h
      cases he
      obtain ⟨parts, word, rfl, hword, hparts⟩ := ih hr
      refine ⟨tree :: parts, word, rfl, hword, .name hname ?_ hparts⟩
      rintro rfl
      exact hfrom (decide_eq_true hname)
    | case5 tree hfrom hinside hname hstar skipped renamed rest name hrenamed ih =>
      obtain ⟨⟨more, behind⟩, hr, he⟩ := Option.map_eq_some_iff.mp h
      cases he
      obtain ⟨parts, word, rfl, hword, hparts⟩ := ih hr
      exact ⟨tree :: skipped :: renamed :: parts, word, rfl, hword, .star hstar hrenamed hparts⟩
    | case6 | case7 | case9 => cases h
    | case8 tree rest hfrom hinside hname hstar hcomma ih =>
      obtain ⟨parts, word, rfl, hword, hparts⟩ := ih h
      exact ⟨tree :: parts, word, rfl, hword, .comma hcomma hparts⟩
  · rintro ⟨parts, word, rfl, hword, hparts⟩
    induction hparts with
    | nil => simp [clause?.eq_def, hword]
    | name ht hne _ ih =>
      obtain ⟨token, rfl, -⟩ := Tree.ident?_eq_some_iff.mp ht
      rw [List.cons_append, clause?.eq_def]
      simp [isIdent_ne ht hne, ht, inside?, ih]
    | braces _ ih => rw [List.cons_append, clause?_brace, ih]; rfl
    | star hs ht _ ih =>
      obtain ⟨token, rfl, -⟩ := Tree.isPunct_iff.mp hs
      rw [List.cons_append, List.cons_append, List.cons_append, clause?.eq_def]
      simp [isIdent_of_isPunct hs, Tree.ident?_of_isPunct hs, inside?, hs, ht, ih]
    | comma hc _ ih =>
      obtain ⟨token, rfl, -⟩ := Tree.isPunct_iff.mp hc
      rw [List.cons_append, clause?.eq_def]
      simp [isIdent_of_isPunct hc, Tree.ident?_of_isPunct hc, inside?, hc,
        Tree.isPunct_ne hc (show "," ≠ "*" by decide), ih]

/-- `Split a b`: some trees that are parts are cut in two, between two of the parts or inside the one that has
three trees. -/
inductive Split : List Tree → List Tree → Prop
  | between {a b names more} : Parts a names → Parts b more → Split a b
  | behindStar {a star skipped tree name b names more} : Parts a names → star.isPunct "*" = true →
      tree.ident? = some name → Parts b more → Split (a ++ [star]) (skipped :: tree :: b)
  | beforeName {a star skipped tree name b names more} : Parts a names → star.isPunct "*" = true →
      tree.ident? = some name → Parts b more → Split (a ++ [star, skipped]) (tree :: b)

/-- Parts in front of what is cut leave the cut as it is. -/
theorem Split.append {front a b : List Tree} (hf : Parts front names) (h : Split a b) : Split (front ++ a) b := by
  cases h with
  | between ha hb =>
    obtain ⟨_, hall⟩ := hf.append ha
    exact .between hall hb
  | behindStar ha hs ht hb =>
    obtain ⟨_, hall⟩ := hf.append ha
    rw [← List.append_assoc]
    exact .behindStar hall hs ht hb
  | beforeName ha hs ht hb =>
    obtain ⟨_, hall⟩ := hf.append ha
    rw [← List.append_assoc]
    exact .beforeName hall hs ht hb

theorem Parts.split (h : Parts trees names) {a b : List Tree} (he : trees = a ++ b) : Split a b := by
  induction h generalizing a with
  | nil =>
    obtain ⟨rfl, rfl⟩ := List.nil_eq_append_iff.mp he
    exact .between .nil .nil
  | name ht hne hrest ih =>
    rcases List.cons_eq_append_iff.mp he with ⟨rfl, rfl⟩ | ⟨a, rfl, htail⟩
    · exact .between .nil (.name ht hne hrest)
    · exact (ih htail).append (.name ht hne .nil)
  | braces hrest ih =>
    rcases List.cons_eq_append_iff.mp he with ⟨rfl, rfl⟩ | ⟨a, rfl, htail⟩
    · exact .between .nil (.braces hrest)
    · exact (ih htail).append (.braces .nil)
  | star hs ht hrest ih =>
    rcases List.cons_eq_append_iff.mp he with ⟨rfl, rfl⟩ | ⟨a₁, rfl, htail₁⟩
    · exact .between .nil (.star hs ht hrest)
    rcases List.cons_eq_append_iff.mp htail₁ with ⟨rfl, rfl⟩ | ⟨a₂, rfl, htail₂⟩
    · exact .behindStar .nil hs ht hrest
    rcases List.cons_eq_append_iff.mp htail₂ with ⟨rfl, rfl⟩ | ⟨a₃, rfl, htail₃⟩
    · exact .beforeName .nil hs ht hrest
    · exact (ih htail₃).append (.star hs ht .nil)
  | comma hc hrest ih =>
    rcases List.cons_eq_append_iff.mp he with ⟨rfl, rfl⟩ | ⟨a, rfl, htail⟩
    · exact .between .nil (.comma hc hrest)
    · exact (ih htail).append (.comma hc .nil)

/-! ## What an import takes -/

/-- The end of an import: its module, with attributes and a semicolon or without. -/
inductive Closing : List Tree → Prop
  | mk {token attributes semicolon} : token.kind = .string → Tail attributes semicolon →
      Closing (.leaf token :: (attributes ++ semicolon))

/-- What a re-export names. -/
inductive Exported : List Tree → Prop
  | all {star} : star.isPunct "*" = true → Exported [star]
  | named {star word tree} : star.isPunct "*" = true → word.isIdent "as" = true → Exported [star, word, tree]
  | list {opening closing inside} : Exported [.group .brace opening closing inside]

/-- `Takes tree taken`: what an import or re-export that starts with a tree takes behind it. -/
inductive Takes (tree : Tree) : List Tree → Prop
  | effect {closing} : tree.isIdent "import" = true → Closing closing → Takes tree closing
  | clause {parts names word closing} : tree.isIdent "import" = true → Parts parts names →
      word.isIdent "from" = true → Closing closing → Takes tree (parts ++ word :: closing)
  | reExport {front word closing} : tree.isIdent "export" = true → Exported front →
      word.isIdent "from" = true → Closing closing → Takes tree (front ++ word :: closing)

theorem isIdent_import {word : String} (h : tree.isIdent word = true) (hne : word ≠ "import") :
    tree.isIdent "import" = false :=
  isIdent_ne (of_decide_eq_true h) hne

theorem Tail.isIdent_import {attributes semicolon : List Tree} (h : Tail attributes semicolon) :
    ∀ t ∈ attributes ++ semicolon, t.isIdent "import" = false := by
  intro t ht
  rcases List.mem_append.mp ht with ht | ht
  · obtain hnone | hsome := h.attributes
    · cases hnone ▸ ht
    · obtain ⟨hword⟩ := hsome
      rcases List.mem_cons.mp ht with rfl | ht
      · rcases hword with hword | hword
        · exact Import.isIdent_import hword (by decide)
        · exact Import.isIdent_import hword (by decide)
      · rw [List.mem_singleton.mp ht]
        rfl
  · obtain rfl | ⟨tree, rfl, hp⟩ := h.semicolon
    · cases ht
    · rw [List.mem_singleton.mp ht]
      exact isIdent_of_isPunct hp _

/-- No import starts in the end of another. -/
theorem Closing.isIdent_import (h : Closing trees) : ∀ t ∈ trees, t.isIdent "import" = false := by
  obtain ⟨hk, htail⟩ := h
  exact List.forall_mem_cons.mpr ⟨by simp [isIdent, ident?, hk], htail.isIdent_import⟩

theorem exists_attributes (stop : Nat) (trees : List Tree) : ∃ attributes,
    trees = attributes ++ (pastAttributes stop trees).1 ∧ (attributes = [] ∨ Attributes attributes) := by
  unfold pastAttributes
  split
  · split
    · rename_i hword
      exact ⟨[_, _], rfl, .inr ⟨by simpa using hword⟩⟩
    · exact ⟨[], rfl, .inl rfl⟩
  · exact ⟨[], rfl, .inl rfl⟩

theorem exists_semicolon (stop : Nat) (trees : List Tree) : ∃ semicolon,
    trees = semicolon ++ (pastSemicolon stop trees).1 ∧
      (semicolon = [] ∨ ∃ tree, semicolon = [tree] ∧ tree.isPunct ";" = true) := by
  unfold pastSemicolon
  split
  · split
    · rename_i hp
      exact ⟨[_], rfl, .inr ⟨_, rfl, hp⟩⟩
    · exact ⟨[], rfl, .inl rfl⟩
  · exact ⟨[], rfl, .inl rfl⟩

theorem closing_of_named? {kind : ImportKind} {start : Nat} {record : Import}
    (h : named? kind start names trees = some (record, rest)) :
    ∃ closing, trees = closing ++ rest ∧ Closing closing := by
  unfold named? at h
  simp only [Option.bind_eq_bind, Option.bind_eq_some_iff] at h
  obtain ⟨tree, ht, token, hs, h⟩ := h
  obtain ⟨more, rfl⟩ := List.head?_eq_some_iff.mp ht
  obtain ⟨rfl, hk⟩ := string?_eq_some hs
  cases h
  rw [List.tail_cons, clauseTail_eq]
  obtain ⟨attributes, hattributes, ha⟩ := exists_attributes token.stop more
  obtain ⟨semicolon, hsemicolon, hp⟩ :=
    exists_semicolon (pastAttributes token.stop more).2 (pastAttributes token.stop more).1
  refine ⟨_, ?_, .mk hk ⟨ha, hp⟩⟩
  rw [List.cons_append, List.append_assoc, ← hsemicolon, ← hattributes]

theorem exists_exported {word : Tree} (h : exported? trees = some (word :: rest)) :
    ∃ front, trees = front ++ word :: rest ∧ Exported front := by
  cases trees with
  | nil => cases h
  | cons head tail =>
    simp only [exported?] at h
    split at h
    · rename_i hstar
      split at h
      · rename_i as more
        split at h
        · rename_i has
          cases more with
          | nil => cases h
          | cons named more =>
            obtain rfl : more = word :: rest := Option.some.inj h
            exact ⟨[head, as, named], rfl, .named hstar has⟩
        · obtain ⟨rfl, rfl⟩ := List.cons.inj (Option.some.inj h)
          exact ⟨[head], rfl, .all hstar⟩
      · cases h
    · obtain ⟨inside, hinside, rfl⟩ := Option.map_eq_some_iff.mp h
      obtain ⟨opening, closing, _, rfl⟩ := Tree.inside?_isSome_iff.mp (Option.isSome_iff_exists.mpr ⟨_, hinside⟩)
      exact ⟨[_], rfl, .list⟩

/-- **What an import takes**: nothing but the end of an import for its effect, parts of clauses with the end
behind `from`, or what a re-export names with that. -/
theorem takes_of_at? {record : Import} (h : at? tree trees = some (record, rest)) :
    ∃ taken, trees = taken ++ rest ∧ Takes tree taken := by
  unfold at? at h
  split at h
  · rename_i himport
    unfold static? at h
    split at h
    · rename_i hnamed
      cases h
      obtain ⟨closing, hcut, hclosing⟩ := closing_of_named? hnamed
      exact ⟨closing, hcut, .effect himport hclosing⟩
    · obtain ⟨⟨names, more⟩, hclause, hnamed⟩ := Option.bind_eq_some_iff.mp h
      obtain ⟨parts, word, rfl, hword, hparts⟩ := clause?_eq_some_iff.mp hclause
      obtain ⟨closing, rfl, hclosing⟩ := closing_of_named? hnamed
      exact ⟨parts ++ word :: closing, by simp, .clause himport hparts hword hclosing⟩
  split at h
  · rename_i hexport
    rw [reExport?_eq] at h
    obtain ⟨more, hmore, h⟩ := Option.bind_eq_some_iff.mp h
    obtain ⟨behind, hfrom, hnamed⟩ := Option.bind_eq_some_iff.mp h
    obtain ⟨word, rfl, hword⟩ := behindWord?_eq_some hfrom
    obtain ⟨front, rfl, hfront⟩ := exists_exported hmore
    obtain ⟨closing, rfl, hclosing⟩ := closing_of_named? hnamed
    exact ⟨front ++ word :: closing, by simp, .reExport hexport hfront hword hclosing⟩
  · cases h

/-! ## How declarations are read -/

theorem pastAttributes_append {attributes : List Tree} (h : Attributes attributes) (stop : Nat)
    (rest : List Tree) : pastAttributes stop (attributes ++ rest) = (rest, stopOf attributes) := by
  obtain ⟨hword⟩ := h
  simp only [List.cons_append, List.nil_append, pastAttributes]
  rw [if_pos (by simpa using hword)]
  rfl

theorem pastAttributes_of_not (h : ¬ Declaration.StartsAttributes trees) (stop : Nat) :
    pastAttributes stop trees = (trees, stop) := by
  unfold pastAttributes
  split
  · rename_i word opening closing inside rest
    rw [if_neg]
    intro hword
    exact h ⟨[word, .group .brace opening closing inside], rest, rfl, ⟨by simpa using hword⟩⟩
  · rfl

theorem pastSemicolon_of_not (h : Outline.startsWith (isPunct ";") trees = false) (stop : Nat) :
    pastSemicolon stop trees = (trees, stop) := by
  unfold pastSemicolon
  split
  · rename_i tree rest
    rw [if_neg]
    rw [show Outline.startsWith (isPunct ";") (tree :: rest) = tree.isPunct ";" from rfl] at h
    simp [h]
  · rfl

theorem not_startsAttributes {semicolon : Tree} (h : semicolon.isPunct ";" = true) (rest : List Tree) :
    ¬ Declaration.StartsAttributes (semicolon :: rest) := by
  rintro ⟨_, _, he, ⟨hword⟩⟩
  obtain ⟨rfl, -⟩ := List.cons.inj he
  rw [isIdent_of_isPunct h, isIdent_of_isPunct h] at hword
  simp at hword

/-- Attributes and a semicolon are read as such where nothing behind them would be read along. -/
theorem Tail.clauseTail_eq {attributes semicolon after : List Tree} (h : Tail attributes semicolon)
    (hsemicolon : semicolon = [] → Outline.startsWith (isPunct ";") after = false)
    (hattributes : attributes ++ semicolon = [] → ¬ Declaration.StartsAttributes after) (token : Token) :
    clauseTail token.stop (attributes ++ semicolon ++ after) =
      (after, stopOf (.leaf token :: (attributes ++ semicolon))) := by
  rw [Import.clauseTail_eq]
  obtain rfl | ha := h.attributes
  · obtain rfl | ⟨tree, rfl, hp⟩ := h.semicolon
    · rw [List.nil_append, List.nil_append, pastAttributes_of_not (hattributes rfl),
        pastSemicolon_of_not (hsemicolon rfl)]
      rfl
    · rw [List.nil_append, List.singleton_append, pastAttributes_of_not (not_startsAttributes hp after)]
      simp [pastSemicolon, hp, stopOf]
  · rw [List.append_assoc, pastAttributes_append ha]
    obtain ⟨_⟩ := ha
    obtain rfl | ⟨tree, rfl, hp⟩ := h.semicolon
    · rw [List.nil_append, pastSemicolon_of_not (hsemicolon rfl)]
      rfl
    · simp [pastSemicolon, hp, stopOf]

theorem named?_leaf {token : Token} (hk : token.kind = .string) (kind : ImportKind) (start : Nat)
    (names : List ImportName) (rest : List Tree) :
    named? kind start names (.leaf token :: rest) =
      some (⟨kind, ⟨start, (clauseTail token.stop rest).2⟩, some (specifierOf token), names⟩,
        (clauseTail token.stop rest).1) := by
  simp [named?, string?, hk]

theorem named?_eq_none (h : tree.string? = none) (kind : ImportKind) (start : Nat) (names : List ImportName)
    (rest : List Tree) : named? kind start names (tree :: rest) = none := by
  simp [named?, h]

/-- A clause does not start with a module. -/
theorem Clause.string?_eq_none {defaultName : Option String} (h : Clause defaultName trees names) :
    ∃ first more, trees = first :: more ∧ first.string? = none := by
  cases h with
  | single hname => exact ⟨_, [], rfl, string?_of_ident? hname.1⟩
  | bindings hbindings =>
    cases hbindings with
    | all hstar =>
      obtain ⟨token, rfl, hp⟩ := Tree.isPunct_iff.mp hstar
      simp only [Token.isPunct, Bool.and_eq_true, decide_eq_true_eq] at hp
      exact ⟨_, _, rfl, by simp [string?, hp.1]⟩
    | list => exact ⟨_, _, rfl, rfl⟩
  | both hname => exact ⟨_, _, rfl, string?_of_ident? hname.1⟩

namespace Declaration

variable (d : Declaration)

/-- A declaration is read from its word on as an import with its names and its module. -/
theorem at?_eq (hdefault : d.defaultName ≠ some "from") (after : List Tree) :
    at? d.word (d.clause ++ d.source :: .leaf d.module :: (d.tail ++ after)) =
      some (⟨.static, ⟨d.word.start, (clauseTail d.module.stop (d.tail ++ after)).2⟩,
        some (specifierOf d.module), d.names⟩, (clauseTail d.module.stop (d.tail ++ after)).1) := by
  obtain ⟨first, more, hclause, hfirst⟩ := d.clause_eq.string?_eq_none
  have heffect : named? .sideEffect d.word.start []
      (d.clause ++ d.source :: .leaf d.module :: (d.tail ++ after)) = none := by
    rw [hclause]
    exact named?_eq_none hfirst ..
  have hread : clause? (d.clause ++ d.source :: .leaf d.module :: (d.tail ++ after)) =
      some (d.names, .leaf d.module :: (d.tail ++ after)) :=
    clause?_eq_some_iff.mpr ⟨d.clause, d.source, rfl, d.source_eq, d.clause_eq.parts hdefault⟩
  rw [at?, if_pos d.word_eq, static?, heffect, hread]
  exact named?_leaf d.module_eq ..

/-- A declaration whose default name is the word that ends clauses is not read. -/
theorem at?_eq_none (hdefault : d.defaultName = some "from") (after : List Tree) :
    at? d.word (d.clause ++ d.source :: .leaf d.module :: (d.tail ++ after)) = none := by
  obtain ⟨first, more, hclause, hfirst⟩ := d.clause_eq.string?_eq_none
  have hnext : ∃ next rest, d.clause ++ d.source :: .leaf d.module :: (d.tail ++ after) = first :: next :: rest ∧
      first.isIdent "from" = true ∧ next.string? = none := by
    have hparts := d.clause_eq
    rw [hclause, hdefault] at hparts
    rw [hclause]
    generalize d.names = names at hparts
    cases hparts with
    | single hname =>
      exact ⟨_, _, rfl, decide_eq_true hname.1, string?_of_ident? (of_decide_eq_true d.source_eq)⟩
    | both hname hcomma =>
      obtain ⟨token, rfl, hp⟩ := Tree.isPunct_iff.mp hcomma
      simp only [Token.isPunct, Bool.and_eq_true, decide_eq_true_eq] at hp
      exact ⟨_, _, rfl, decide_eq_true hname.1, by simp [string?, hp.1]⟩
  obtain ⟨next, rest, htrees, hfrom, hstring⟩ := hnext
  have hread : clause? (first :: next :: rest) = some ([], next :: rest) :=
    clause?_eq_some_iff.mpr ⟨[], first, rfl, hfrom, .nil⟩
  rw [at?, if_pos d.word_eq, static?, htrees, named?_eq_none hfirst, hread]
  exact named?_eq_none hstring ..

end Declaration

end Import

end DeferredLog
