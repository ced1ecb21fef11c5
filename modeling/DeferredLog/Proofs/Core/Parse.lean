import DeferredLog.Proofs.Core.Layout
import DeferredLog.Proofs.Core.Reading

/-!
# Programs of the core language

A program of the core language that is laid out as a text is read as what it is: its statements are its
call statements in order, and the names that are bound anew around each of them are those that lexical
scoping says. There is one exception. An expression is taken to end at a line break before a brace, also
where that brace opens the body of the function that a variable is declared to be.

* `Program.parse_of_spells`: which texts are programs, and what they are read as.
* `Program.not_forall_parse_of_spells`: a text that is not read.
-/

namespace DeferredLog

open DeferredLog.Tree
open DeferredLog.Core (Spells Laid Stmt scopesAll)

namespace Core

/-- The tokens of a text that is laid out from trees make these trees. -/
theorem Laid.parse_eq {source : List Char} {trees : List Tree} (h : Laid 0 source (flattenAll trees))
    (hp : PairedAll none trees) : Tree.parse source = .ok trees :=
  parse_of_scan h.scan_eq hp

end Core

namespace Program

variable {body : List Stmt} {trees : List Tree} {calls : List (List Tree)} {fits : Bool}
  {source : List Char}

/-- **Scoping agrees with lexical scoping on the core language.** A text that a program of the core
language is laid out as is read exactly if each function that a variable is declared to be opens its body
on the line of its parameters. Then the statements are its call statements in order, and a name is bound
anew around one of them if lexical scoping says so. -/
theorem parse_of_spells (h : Spells (.body body) trees calls fits)
    (hl : Laid 0 source (flattenAll trees)) :
    ((∃ program, parse source = .ok program) ↔ fits = true) ∧
      ∀ program, parse source = .ok program →
        program.statements.toList.map (·.trees) = calls ∧
        ∀ name, program.statements.toList.map (fun s => program.isShadowed name s.scope) =
          (scopesAll [] body).map (·.contains name) := by
  have hparse : parse source = ofTrees trees := by
    rw [parse, hl.parse_eq h.paired]
    rfl
  obtain ⟨items, herase, hcalls, hyields⟩ := h.yields
  have hreads : ∀ items', Outline.body trees = .ok items' ↔ fits = true ∧ items' = items := fun items' =>
    Outline.body_eq_ok_iff.trans <| (hyields items' []).trans (by simp)
  rw [hparse, ofTrees]
  cases hbody : Outline.body trees with
  | error fault =>
    refine ⟨⟨fun ⟨_, h⟩ => (by cases h), fun hfits => ?_⟩, fun _ h => by cases h⟩
    rw [(hreads items).mpr ⟨hfits, rfl⟩] at hbody
    cases hbody
  | ok items' =>
    obtain ⟨hfits, rfl⟩ := (hreads items').mp hbody
    refine ⟨⟨fun _ => hfits, fun _ => ⟨_, rfl⟩⟩, fun program hprogram => ?_⟩
    obtain rfl := Except.ok.inj hprogram
    refine ⟨(trees_ofOutline items').trans hcalls, fun name => ?_⟩
    rw [isShadowed_ofOutline, ← Core.insidesAll_outline, ← (Item.names_eraseAll items').2.2, herase]
    rfl

end Program

/-! ## A function with a parameter of the name that is called -/

namespace Core

/-- A call of a member, which starts at an offset. -/
def callAt (offset : Nat) : List Tree :=
  [.leaf ⟨.ident, "a", offset, false⟩, .leaf ⟨.punct, ".", offset + 1, false⟩,
    .leaf ⟨.ident, "b", offset + 2, false⟩,
    .group .paren ⟨.openParen, "(", offset + 3, false⟩ ⟨.closeParen, ")", offset + 4, false⟩ []]

/-- The same call inside of a function that a variable is declared to be, and behind it. -/
def sample : List Stmt :=
  [.declare .letWord "f" (.function ["a"] [.call "a" ["b"] []]), .call "a" ["b"] []]

/-- Its trees, with the body of the function on a new line or not. -/
def sampleTrees (newline : Bool) : List Tree :=
  [.leaf ⟨.ident, "let", 0, false⟩, .leaf ⟨.ident, "f", 4, false⟩, .leaf ⟨.punct, "=", 6, false⟩,
    .leaf ⟨.ident, "function", 8, false⟩,
    .group .paren ⟨.openParen, "(", 17, false⟩ ⟨.closeParen, ")", 19, false⟩
      [.leaf ⟨.ident, "a", 18, false⟩],
    .group .brace ⟨.openBrace, "\x7b", 21, newline⟩ ⟨.closeBrace, "\x7d", 30, false⟩
      (callAt 23 ++ [.leaf ⟨.punct, ";", 28, false⟩]),
    .leaf ⟨.punct, ";", 31, false⟩] ++ callAt 33 ++ [.leaf ⟨.punct, ";", 38, false⟩]

theorem named_of_isName {x : String} {offset : Nat} (h : isName x = true) :
    Named x (.leaf ⟨.ident, x, offset, false⟩) :=
  ⟨by simp [Tree.isIdent, Tree.ident?], h⟩

theorem spells_callAt (offset : Nat) :
    Spells (.statement (.call "a" ["b"] [])) (callAt offset) [callAt offset] true :=
  .callStatement (.call (named_of_isName (by decide +kernel))
    (.more rfl (named_of_isName (by decide +kernel)) .none) ⟨rfl, rfl⟩ .noArguments)

theorem spells_sample (newline : Bool) :
    Spells (.body sample) (sampleTrees newline) [callAt 23, callAt 33] (!newline) := by
  have hinner : Spells (.body [.call "a" ["b"] []]) (callAt 23 ++ [.leaf ⟨.punct, ";", 28, false⟩])
      [callAt 23] true :=
    .statements (spells_callAt 23) (.semicolon rfl rfl) .noStatements
  have hvalue : Spells (.value (.function ["a"] [.call "a" ["b"] []]))
      [.leaf ⟨.ident, "function", 8, false⟩,
        .group .paren ⟨.openParen, "(", 17, false⟩ ⟨.closeParen, ")", 19, false⟩
          [.leaf ⟨.ident, "a", 18, false⟩],
        .group .brace ⟨.openBrace, "\x7b", 21, newline⟩ ⟨.closeBrace, "\x7d", 30, false⟩
          (callAt 23 ++ [.leaf ⟨.punct, ";", 28, false⟩])] [callAt 23] true :=
    .function (by decide) ⟨rfl, rfl⟩ (.one (named_of_isName (by decide +kernel))) ⟨rfl, rfl⟩ hinner
  have hlet : (Tree.leaf ⟨.ident, "let", 0, false⟩).isIdent (Declarer.text .letWord) = true := by decide
  have hf : Named "f" (.leaf ⟨.ident, "f", 4, false⟩) := named_of_isName (by decide +kernel)
  have hsign : (Tree.leaf ⟨.punct, "=", 6, false⟩).isPunct "=" = true := by decide
  have hdeclare := Spells.declare hlet hf hsign hvalue
  cases newline with
  | false =>
    exact .statements hdeclare (.semicolon rfl rfl)
      (.statements (spells_callAt 33) (.semicolon rfl rfl) .noStatements)
  | true =>
    exact .statements hdeclare (.semicolon rfl rfl)
      (.statements (spells_callAt 33) (.semicolon rfl rfl) .noStatements)

end Core

namespace Program

/-- A program with the body of the function on the line of its parameters. The first call is one of the
parameter, and the second one is not. -/
theorem parse_of_spells_sample :
    Spells (.body Core.sample) (Core.sampleTrees false) [Core.callAt 23, Core.callAt 33] true ∧
      Laid 0 "let f = function (a) \x7b a.b(); \x7d; a.b();".toList (flattenAll (Core.sampleTrees false)) ∧
      ∃ program, parse "let f = function (a) \x7b a.b(); \x7d; a.b();".toList = .ok program ∧
        program.statements.toList.map (·.trees) = [Core.callAt 23, Core.callAt 33] ∧
        program.statements.toList.map (fun s => program.isShadowed "a" s.scope) = [true, false] := by
  have hspells := Core.spells_sample false
  have hlaid : Laid 0 "let f = function (a) \x7b a.b(); \x7d; a.b();".toList
      (flattenAll (Core.sampleTrees false)) := Core.laid_of_isLaid (by decide +kernel)
  obtain ⟨hreads, hprogram⟩ := parse_of_spells hspells hlaid
  obtain ⟨program, hp⟩ := hreads.mpr rfl
  obtain ⟨hcalls, hshadowed⟩ := hprogram program hp
  exact ⟨hspells, hlaid, program, hp, hcalls, (hshadowed "a").trans (by decide +kernel)⟩

/-- **Not every text of the core language is read**: not if a line ends before the body of a function
that a variable is declared to be. -/
theorem not_forall_parse_of_spells : ¬ ∀ (body : List Stmt) (trees : List Tree)
    (calls : List (List Tree)) (fits : Bool) (source : List Char), Spells (.body body) trees calls fits →
      Laid 0 source (flattenAll trees) → ∃ program, parse source = .ok program := by
  intro hall
  have hlaid : Laid 0 "let f = function (a)\n\x7b a.b(); \x7d; a.b();".toList
      (flattenAll (Core.sampleTrees true)) := Core.laid_of_isLaid (by decide +kernel)
  obtain ⟨program, hp⟩ := hall _ _ _ _ _ (Core.spells_sample true) hlaid
  have hfails : (parse "let f = function (a)\n\x7b a.b(); \x7d; a.b();".toList).toOption.isSome = false := by
    decide +kernel
  rw [hp] at hfails
  cases hfails

end Program

end DeferredLog
