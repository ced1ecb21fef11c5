import DeferredLog.Proofs.Outline.Sites
import DeferredLog.Proofs.Program.Deposits
import DeferredLog.Proofs.Program.Parses

/-!
# Hoisting

The walk over a program comes to each part of it in a scope, and what it reads there is left in this scope.
A name that is declared with `var` is the exception: it is bound in the nearest function around, or in the
module. The scope of a part is told by the walk alone (`Comes`), so this says more than that the table is
filled in some consistent way.

* `Comes`: the parts of a program that the walk comes to, each with the number of the scope around it.
* `Job.Hoists`: the statements and loops that declare with `var`.
* `ScopesOf`: what the table of scopes says about a program.
* `Program.parse_scopes`: every program that is read has such a table.
* `Program.not_forall_parse_hoists`: names of patterns that are not found are not bound there either.
-/

namespace DeferredLog

open DeferredLog.Tree

namespace Outline

open Item

variable {job : Job} {parts : List Part} {items : List Item} {rest trees : List Tree}

/-! ## The scopes of jobs and of their parts -/

/-- The scopes that a job opens by itself are no modules. -/
theorem Rule.kinds (h : Rule job parts items rest) :
    ∀ o ∈ (openingsAll items).take (Part.first parts), o.kind ≠ .module := by
  cases h
  case declaration hoisted _ _ => cases hoisted <;> simp [Part.first]
  case function declares _ _ _ _ _ _ _ _ _ _ _ | classBody declares _ _ _ _ _ _ _ _ _ _ _ _ _ =>
    cases declares <;> simp [Part.first]
  all_goals simp [Part.first]

/-- No scope that is read is a module. -/
theorem Reads.kinds (h : Reads job items rest) : ∀ o ∈ openingsAll items, o.kind ≠ .module := by
  refine Reads.induct (motive := fun _ items _ => ∀ o ∈ openingsAll items, o.kind ≠ .module) ?_ h
  intro job parts items rest hrule _ ih
  rw [← List.take_append_drop (Part.first parts) (openingsAll items), hrule.openings,
    List.forall_mem_append]
  refine ⟨hrule.kinds, fun o ho => ?_⟩
  obtain ⟨p, hp, ho⟩ := List.mem_flatMap.mp ho
  exact ih p hp o ho

namespace Part

/-- What the parts of a job leave in a program, where the job stands in the scope `k` and opens the scope
`base`, and the next scope has the number `n`. -/
def deposits (base k n : Nat) : List Part → List Deposit
  | [] => []
  | p :: parts => depositsAll (n + p.opens) (if p.inside then base else k) p.items ++
      deposits base k (n + p.opens + scopesAll p.items) parts

/-- What is left by one of the parts. -/
theorem subset_deposits (base k n : Nat) (ps qs : List Part) (p : Part) :
    depositsAll (n + opened ps + p.opens) (if p.inside then base else k) p.items ⊆
      deposits base k n (ps ++ p :: qs) := by
  induction ps generalizing n with
  | nil => exact List.subset_append_left _ _
  | cons q ps ih =>
    have hn : n + opened (q :: ps) = n + q.opens + scopesAll q.items + opened ps := by
      simp [opened, Nat.add_assoc]
    rw [hn]
    exact List.Subset.trans (ih _) (List.subset_append_right _ _)

end Part

/-- A job leaves what its parts leave. -/
theorem Rule.deposits (h : Rule job parts items rest) (n k : Nat) :
    Part.deposits n k n parts ⊆ depositsAll n k items := by
  intro e he
  cases h
  case declaration hoisted _ _ => cases hoisted <;> simp [Part.deposits] at he ⊢ <;> tauto
  case function declares _ _ _ _ _ _ _ _ _ _ _ | classBody declares _ _ _ _ _ _ _ _ _ _ _ _ _ =>
    cases declares <;> simp [Part.deposits] at he ⊢ <;> tauto
  all_goals simp [Part.deposits, Nat.add_assoc] at he ⊢ <;> tauto

/-- `Comes trees t k`: the walk over the trees of a program comes to the place `t`, in the scope with the
number `k`. A part of a job stands in the first scope that the job opens, or in the scope of the job. -/
inductive Comes (trees : List Tree) : Spot → Nat → Prop
  | top : Comes trees (.top trees) 0
  | part {s k ps p qs items rest} : Comes trees s k → Rule s.job (ps ++ p :: qs) items rest →
      AllRead (ps ++ p :: qs) →
      Comes trees ⟨s.front ++ (Part.tokens ps ++ p.gap), s.scopes + Part.opened ps + p.opens, p.job⟩
        (if p.inside then s.scopes else k)

/-- **What a job that the walk comes to leaves is left by the program**, and the scope around the job is
open. -/
theorem Comes.leaves {whole : List Item} {t : Spot} {k : Nat} (h : Comes trees t k)
    (htop : Reads (.body trees) whole rest) : ∃ items rest', Reads t.job items rest' ∧
      depositsAll t.scopes k items ⊆ depositsAll 1 0 whole ∧ k < t.scopes ∧
      t.scopes + scopesAll items ≤ 1 + scopesAll whole := by
  induction h with
  | top => exact ⟨whole, rest, htop, List.Subset.refl _, Nat.zero_lt_one, Nat.le_refl _⟩
  | @part s k ps p qs items rest' _ hrule hread ih =>
    obtain ⟨items', rest'', hreads, hdeposits, hlt, hle⟩ := ih
    obtain ⟨rfl, rfl⟩ := hreads.unique (hrule.reads hread)
    have hpart := Part.subset_deposits s.scopes k s.scopes ps qs p
    have hopened := hrule.opened
    rw [Part.opened_append, Part.opened] at hopened
    have hjob := List.Subset.trans (hrule.deposits s.scopes k) hdeposits
    refine ⟨p.items, p.rest, hread p (by simp), List.Subset.trans hpart hjob, ?_, ?_⟩
    · show (if p.inside then s.scopes else k) < s.scopes + Part.opened ps + p.opens
      have hbefore := hrule.opened_before
      split
      case isTrue hinside =>
        have := hrule.opens p (by simp) hinside
        omega
      case isFalse => omega
    · show s.scopes + Part.opened ps + p.opens + scopesAll p.items ≤ 1 + scopesAll whole
      omega

/-! ## Declarations with `var` -/

/-- `job.Hoists declarators`: the job is a statement that declares with `var`, and `declarators` are the
trees behind the word, up to the end of the expression, in the head of a loop up to the first semicolon or
one of the words `of` and `in`. -/
inductive Job.Hoists : Job → List Tree → Prop
  | declaration {word rest} : word.isIdent "var" = true →
      Hoists (.statement (word :: rest)) (takeExpression none rest).1
  | loop {tree rest a b word behind after} : tree.isIdent "for" = true →
      skipWord "await" rest = .group .paren a b (word :: behind) :: after → word.isIdent "var" = true →
      Hoists (.statement (tree :: rest)) (behind.takeWhile (!endsLoopNames ·))

/-- The names of the declarators are hoisted, those of a loop from the scope that the loop opens. -/
theorem Reads.hoists {declarators : List Tree} {name : String} (h : Reads job items rest)
    (hd : job.Hoists declarators) (hname : name ∈ parameterNames declarators) (n k : Nat) :
    .hoist name k ∈ depositsAll n k items ∨
      .scope n .block k ∈ depositsAll n k items ∧ .hoist name n ∈ depositsAll n k items := by
  cases hd with
  | declaration hword =>
    obtain ⟨values, -, rfl, -⟩ := h.form (Core.form_of_word hword _)
    left
    simp [hname]
  | @loop tree rest a b word behind after hfor hhead hword =>
    have hform : Form.of tree rest = .forLoop := Core.form_of_word hfor rest
    have hvar : word.isIdent (Core.Declarer.text .varWord) = true := hword
    have hnames : loopNames (word :: behind) =
        (parameterNames (behind.takeWhile (!endsLoopNames ·))).map .hoist := Core.loopNames_of_word hvar
    right
    obtain ⟨_, _, _, _, _, _, hhead', -, -, rfl⟩ := h.form hform
    cases hhead.symm.trans hhead'
    simp [hnames, hname]

/-! ## Programs -/

open DeferredLog.Program

/-- What the table of scopes says about a program with some trees. -/
structure ScopesOf (program : Program) (trees : List Tree) : Prop where
  /-- The table is a tree with the module as its root, and the statements stand in it. -/
  rooted : program.Rooted
  /-- The loop that asks whether a name is bound anew ends for every number, with the answer. -/
  shadowWalk : ∀ s name, program.shadowWalk name (s + 1) (some s) = some (program.isShadowed name s)
  /-- The loop that looks for the scope of a hoisted name ends for every number, in the table at the nearest
  function or at the module. -/
  hoistingWalk : ∀ s, ∃ last, program.hoistingWalk (s + 1) s = some last ∧
    (s < program.scopes.size → last = program.home s)
  /-- A name is bound anew if a scope or one around it binds it that is not scope 0. -/
  shadowed : ∀ s name, program.isShadowed name s = true ↔
    ∃ k, program.Around s k ∧ k ≠ 0 ∧ program.BindsName k name
  /-- The walk comes to each part of the program in a scope of the table. -/
  inTable : ∀ t k, Comes trees t k → k < program.scopes.size
  /-- An expression statement that it comes to is recorded with this scope. -/
  recorded : ∀ t k tree rest, Comes trees t k → t.job = .statement (tree :: rest) →
    Form.of tree rest = .expression → ∃ s ∈ program.statements.toList,
      s.trees = tree :: (takeExpression (some tree) rest).1 ∧ s.scope = k
  /-- The names that are found in declarators with `var` are bound in the nearest function around them, or
  in the module. -/
  hoisted : ∀ t k declarators, Comes trees t k → t.job.Hoists declarators →
    ∀ name ∈ parameterNames declarators, program.BindsName (program.home k) name
  /-- So are the names of declarators that are binding patterns, if no property that is a name alone has a
  default with a colon in it. -/
  hoistedPatterns : ∀ t k declarators names, Comes trees t k → t.job.Hoists declarators →
    Pattern.Binds (.many .slot) declarators names true →
      ∀ name ∈ names, program.BindsName (program.home k) name

/-- The table of a program is what its trees say. -/
theorem Reads.scopesOf (h : Reads (.body trees) items rest) : ScopesOf (ofOutline items) trees := by
  have hrooted : (ofOutline items).Rooted := rooted_ofOutline h.kinds
  have hholds := holds_ofOutline hrooted
  have hsize : (ofOutline items).scopes.size = 1 + scopesAll items := size_addAll .empty .top items
  have hhoisted : ∀ t k declarators, Comes trees t k → t.job.Hoists declarators →
      ∀ name ∈ parameterNames declarators,
        (ofOutline items).BindsName ((ofOutline items).home k) name := by
    intro t k declarators hcomes hd name hname
    obtain ⟨inner, rest', hreads, hdeposits, hlt, -⟩ := hcomes.leaves h
    rcases hreads.hoists hd hname t.scopes k with hhoist | ⟨hscope, hhoist⟩
    · exact hholds _ (hdeposits hhoist)
    · -- The scope that a loop opens is a block, with the home of the scope around the loop.
      obtain ⟨names, hblock⟩ := hholds _ (hdeposits hscope)
      have hbinds := hholds _ (hdeposits hhoist)
      rw [Holds, Rooted.home_inner hblock hlt] at hbinds
      exact hbinds
  exact {
    rooted := hrooted
    shadowWalk := fun s name => hrooted.shadowWalk_eq name (Nat.lt_succ_self s)
    hoistingWalk := fun s => by
      rcases Nat.lt_or_ge s (ofOutline items).scopes.size with hs | hs
      · exact ⟨_, hrooted.hoistingWalk_eq hs (Nat.lt_succ_self s), fun _ => rfl⟩
      · exact ⟨s, Rooted.hoistingWalk_missing hs s, fun hs' => absurd hs' (Nat.not_lt.mpr hs)⟩
    shadowed := fun s name => hrooted.isShadowed_iff
    inTable := fun t k hcomes => by
      obtain ⟨_, _, -, -, hlt, hle⟩ := hcomes.leaves h
      omega
    recorded := fun t k tree rest hcomes hjob hform => by
      obtain ⟨inner, rest', hreads, hdeposits, -⟩ := hcomes.leaves h
      rw [hjob] at hreads
      obtain ⟨_, -, rfl, -⟩ := hreads.form hform
      exact hholds (.statement _ k) (hdeposits (by simp))
    hoisted := hhoisted
    hoistedPatterns := fun t k declarators names hcomes hd hbinds name hname => by
      have hnames : parameterNames declarators = names := hbinds.read rfl
      exact hhoisted t k declarators hcomes hd name (hnames ▸ hname) }

end Outline

namespace Program

open Outline

/-- **The table of scopes of a program is a tree rooted at the module**, on which the questions have their
answers, and names that are declared with `var` are bound in the nearest function. -/
theorem parse_scopes {source : List Char} {program : Program} (h : parse source = .ok program) :
    ∃ trees, Tree.parse source = .ok trees ∧ ScopesOf program trees := by
  obtain ⟨tokens, trees, items, htrees, hparses, rfl⟩ := Parses.exists_of_parse h
  exact ⟨trees, htrees, (body_eq_ok_iff.mp hparses.body).scopesOf⟩

/-- In a block of a function, `var x` is bound in the scope of the function, behind the block too. -/
theorem parse_scopes_block : ∃ program,
    parse "function f() \x7b \x7b var x \x7d x.y() \x7d".toList = .ok program ∧
      (∃ trees, Tree.parse "function f() \x7b \x7b var x \x7d x.y() \x7d".toList = .ok trees ∧
        ScopesOf program trees) ∧
      program.home 2 = 1 ∧ program.isShadowed "x" 1 = true := by
  have hread : (parse "function f() \x7b \x7b var x \x7d x.y() \x7d".toList).toOption.any (fun program =>
      program.home 2 = 1 && program.isShadowed "x" 1) = true := by
    decide +kernel
  obtain ⟨program, hp, hat⟩ := exists_of_any_toOption hread
  rw [Bool.and_eq_true, decide_eq_true_eq] at hat
  exact ⟨program, hp, parse_scopes hp, hat⟩

/-- The tokens of `function f() {var {a = b ? c : d} = o}`. -/
def conditionalTokens : List Token :=
  [⟨.ident, "function", 0, false⟩, ⟨.ident, "f", 9, false⟩, ⟨.openParen, "(", 10, false⟩,
    ⟨.closeParen, ")", 11, false⟩, ⟨.openBrace, "\x7b", 13, false⟩, ⟨.ident, "var", 14, false⟩,
    ⟨.openBrace, "\x7b", 18, false⟩, ⟨.ident, "a", 19, false⟩, ⟨.punct, "=", 21, false⟩,
    ⟨.ident, "b", 23, false⟩, ⟨.punct, "?", 25, false⟩, ⟨.ident, "c", 27, false⟩,
    ⟨.punct, ":", 29, false⟩, ⟨.ident, "d", 31, false⟩, ⟨.closeBrace, "\x7d", 32, false⟩,
    ⟨.punct, "=", 34, false⟩, ⟨.ident, "o", 36, false⟩, ⟨.closeBrace, "\x7d", 37, false⟩]

/-- The trees of the pattern in it. -/
def conditionalPattern : Tree :=
  .group .brace ⟨.openBrace, "\x7b", 18, false⟩ ⟨.closeBrace, "\x7d", 32, false⟩
    [letterAt "a" 19, signAt "=" 21, letterAt "b" 23, signAt "?" 25, letterAt "c" 27, signAt ":" 29,
      letterAt "d" 31]

/-- The trees of the body in it. -/
def conditionalBody : List Tree :=
  [letterAt "var" 14, conditionalPattern, signAt "=" 34, letterAt "o" 36]

/-- All of its trees. -/
def conditionalTrees : List Tree :=
  [letterAt "function" 0, letterAt "f" 9,
    .group .paren ⟨.openParen, "(", 10, false⟩ ⟨.closeParen, ")", 11, false⟩ [],
    .group .brace ⟨.openBrace, "\x7b", 13, false⟩ ⟨.closeBrace, "\x7d", 37, false⟩ conditionalBody]

/-- The walk comes to the declaration in the scope of the function. -/
theorem comes_conditional {items : List Item} {rest : List Tree}
    (h : Reads (.body conditionalTrees) items rest) :
    ∃ t, Comes conditionalTrees t 1 ∧ t.job = .statement conditionalBody := by
  have hform : Form.of (letterAt "function" 0) conditionalTrees.tail = .functionDeclaration := by decide
  have hname : functionName conditionalTrees.tail = (some "f", conditionalTrees.tail.tail) := rfl
  cases h with
  | bodyCons hstatement hbehind =>
    have hfunction := hstatement.form hform
    have hbody : ∃ defaults inner, Reads (.expression .nothing []) defaults [] ∧
        Reads (.body conditionalBody) inner [] := by
      cases hfunction with
      | function hname' hdefaults hinner =>
        cases hname.symm.trans hname'
        exact ⟨_, _, hdefaults, hinner⟩
    obtain ⟨defaults, inner, hdefaults, hinner⟩ := hbody
    have hdeclaration := @Comes.part conditionalTrees _ _ [] _ _ _ _ .top .bodyCons
      (forall_mem_pair hstatement hbehind)
    have hdeclared := @Comes.part _ _ _ [] _ _ _ _ hdeclaration (.functionDeclaration hform)
      (forall_mem_one hfunction)
    have hrule := @Rule.function true [letterAt "f" 9] _ _ _ _ _ _ _ _ defaults inner hname
    have hinside := @Comes.part _ _ _ [_] _ _ _ _ hdeclared hrule (forall_mem_pair hdefaults hinner)
    cases hinner with
    | bodyCons hvar hafter =>
      exact ⟨_, @Comes.part _ _ _ [] _ _ _ _ hinside .bodyCons (forall_mem_pair hvar hafter), rfl⟩

/-- **Not every name that is declared with `var` is bound in the nearest function.** In the pattern
`{a = b ? c : d}` it is `d` that is found and bound, and not `a`. -/
theorem not_forall_parse_hoists : ¬ ∀ (source : List Char) (program : Program) (trees : List Tree)
    (t : Spot) (k : Nat) (declarators : List Tree) (names : List String) (plain : Bool),
    parse source = .ok program → Tree.parse source = .ok trees → Comes trees t k →
      t.job.Hoists declarators → Pattern.Binds (.many .slot) declarators names plain →
        ∀ name ∈ names, program.BindsName (program.home k) name := by
  intro hall
  have hscan : Token.scan "function f() \x7bvar \x7ba = b ? c : d\x7d = o\x7d".toList =
      .ok conditionalTokens := by
    decide +kernel
  have hbuild : Tree.ofTokens conditionalTokens = .ok conditionalTrees := rfl
  have htrees : Tree.parse "function f() \x7bvar \x7ba = b ? c : d\x7d = o\x7d".toList =
      .ok conditionalTrees := by
    rw [Tree.parse, hscan]
    exact hbuild
  have hread : (parse "function f() \x7bvar \x7ba = b ? c : d\x7d = o\x7d".toList).toOption.any
      (fun program => program.home 1 = 1 &&
        (program.scopes[1]?.map Scope.names) = some ["d"]) = true := by
    decide +kernel
  obtain ⟨program, hp, hat⟩ := exists_of_any_toOption hread
  rw [Bool.and_eq_true, decide_eq_true_eq, decide_eq_true_eq] at hat
  obtain ⟨_, trees, items, htrees', hparses, rfl⟩ := Parses.exists_of_parse hp
  cases htrees.symm.trans htrees'
  obtain ⟨t, hcomes, hjob⟩ := comes_conditional (body_eq_ok_iff.mp hparses.body)
  have hhoists : t.job.Hoists conditionalBody.tail := by
    rw [hjob]
    exact .declaration rfl
  have hproperty : Pattern.Binds .property [letterAt "a" 19, signAt "=" 21, letterAt "b" 23,
      signAt "?" 25, letterAt "c" 27, signAt ":" 29, letterAt "d" 31] ["a"] false :=
    .shorthandDefault rfl rfl (by decide)
  have hpattern : Pattern.Binds (.many .slot) conditionalBody.tail ["a"] false :=
    .last rfl (.slot (.default (.object (.last rfl hproperty)) rfl (by decide)))
  have ha := hall _ _ _ t 1 _ _ _ hp htrees hcomes hhoists hpattern "a" List.mem_cons_self
  obtain ⟨scope, hscope, hname⟩ := ha
  rw [hat.1] at hscope
  have hnames := hat.2
  rw [hscope] at hnames
  obtain hnames : scope.names = ["d"] := Option.some.inj hnames
  rw [hnames] at hname
  exact absurd hname (by decide)

end Program

end DeferredLog
