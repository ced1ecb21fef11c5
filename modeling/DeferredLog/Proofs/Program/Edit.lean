import DeferredLog.Proofs.Outline.Recast
import DeferredLog.Proofs.Program.Layout
import DeferredLog.Proofs.Token.Edit

/-!
# Programs with a part replaced

An edit that keeps the texts of names and punctuators, or changes a name behind a dot in a way that makes
no difference, keeps the program: it has the same scopes with the same names and the same statements in
them, and the tokens of these are the edited ones.

* `Tree.recasts_of_fits`: what the walk must not tell apart, checked token by token.
* `Program.ofTrees_agrees`: the programs of trees and of what they become.
-/

namespace DeferredLog

open DeferredLog.Tree

namespace Recast

/-! ## Lists of tokens -/

/-- A name behind a dot that may become another one in front of some tokens. -/
structure RenamesBefore (g : Recast) (exports : Bool) (token : Token) (next : Option Token) : Prop where
  /-- It is a name. -/
  kind : token.kind = .ident
  /-- If one of the names is an operator elsewhere so is the other one, or no line ends behind it. -/
  operator : operatorWords.contains (g.token token).text = operatorWords.contains token.text ∨
    ∀ t ∈ next, t.newlineBefore = false
  /-- If one of the names ends the declarators of a loop so does the other one. -/
  loop : ["of", "in"].contains (g.token token).text = ["of", "in"].contains token.text
  /-- No arrow follows, for which it would be a parameter. -/
  arrow : ∀ t ∈ next, t.isPunct "=>" = false
  /-- It stands on the line of the dot, or there are no export clauses. -/
  line : token.newlineBefore = true → exports = false

/-- Tokens whose trees the walk cannot tell from those of what they become, told whether a dot stands
before them. -/
def Fits (g : Recast) (exports : Bool) : Bool → List Token → Prop
  | _, [] => True
  | dot, token :: tokens =>
    (g.Keeps token ∧ (Tree.isIdent "export" (.leaf token) = true → exports = true) ∨
      dot = true ∧ g.RenamesBefore exports token tokens.head?) ∧
    Fits g exports (Tree.isDot (.leaf token)) tokens

variable {g : Recast} {exports dot : Bool} {token : Token} {tokens a b : List Token}

theorem Fits.right (h : g.Fits exports dot (a ++ b)) : ∃ dot', g.Fits exports dot' b := by
  induction a generalizing dot with
  | nil => exact ⟨dot, h⟩
  | cons token a ih => exact ih h.2

/-- Tokens that keep their texts if they are names or punctuators fit in front of any that do. -/
theorem Fits.append (h : ∀ t ∈ a, g.Keeps t ∧ (Tree.isIdent "export" (.leaf t) = true → exports = true))
    (hb : ∀ dot, g.Fits exports dot b) : g.Fits exports dot (a ++ b) := by
  induction a generalizing dot with
  | nil => exact hb dot
  | cons token a ih =>
    exact ⟨.inl (h token List.mem_cons_self), ih fun t ht => h t (List.mem_cons_of_mem _ ht)⟩

theorem fits_of_keeps
    (h : ∀ t ∈ tokens, g.Keeps t ∧ (Tree.isIdent "export" (.leaf t) = true → exports = true)) :
    g.Fits exports dot tokens := by
  have hall : g.Fits exports dot (tokens ++ []) := .append h fun _ => trivial
  rwa [List.append_nil] at hall

end Recast

namespace Tree

variable {g : Recast} {exports : Bool}

/-- The tree at the front stands on a new line or is a punctuator as its first token does and is. -/
theorem head?_flattenAll_append {trees : List Tree} {tree : Tree} (h : trees.head? = some tree)
    (rest : List Token) : ∃ token, (flattenAll trees ++ rest).head? = some token ∧
      tree.newlineBefore = token.newlineBefore ∧
      ∀ text, tree.isPunct text = true → token.isPunct text = true := by
  obtain ⟨more, rfl⟩ := List.head?_eq_some_iff.mp h
  cases tree with
  | leaf token => exact ⟨token, rfl, rfl, fun _ h => h⟩
  | group _ opening => exact ⟨opening, rfl, rfl, fun _ h => by cases h⟩

theorem not_isDot_of_opened {token : Token} {delimiter : Delimiter}
    (h : opened? token.kind = some delimiter) : isDot (.leaf token) = false := by
  have hk : token.kind ≠ .punct := fun hk => by rw [hk] at h; cases h
  simp [isDot, isPunct, Token.isPunct, hk]

theorem not_isDot_of_closed {token : Token} {delimiter : Delimiter}
    (h : closed? token.kind = some delimiter) : isDot (.leaf token) = false := by
  have hk : token.kind ≠ .punct := fun hk => by rw [hk] at h; cases h
  simp [isDot, isPunct, Token.isPunct, hk]

/-- **Trees are recast as their tokens allow.** -/
theorem recasts_of_fits {around : Option Delimiter} {dot : Bool} (trees : List Tree)
    (hp : PairedAll around trees) {rest : List Token}
    (h : g.Fits exports dot (flattenAll trees ++ rest)) : Recasts g exports dot trees :=
  match trees with
  | [] => .nil
  | .leaf token :: trees => by
    obtain ⟨htoken, htail⟩ := h
    have htrees := recasts_of_fits trees hp.2 htail
    rcases htoken with ⟨hkeeps, hexport⟩ | ⟨rfl, hrenames⟩
    · exact .leaf hkeeps hexport htrees
    · refine .member ⟨hrenames.kind, ?_, hrenames.loop, fun tree ht => ?_⟩ hrenames.line ?_
      · refine hrenames.operator.imp_right fun hline tree ht => ?_
        obtain ⟨next, hnext, heq, -⟩ := head?_flattenAll_append ht rest
        rw [heq]
        exact hline next hnext
      · obtain ⟨next, hnext, -, himp⟩ := head?_flattenAll_append ht rest
        rw [Bool.eq_false_iff]
        intro harrow
        exact Bool.false_ne_true ((hrenames.arrow next hnext).symm.trans (himp _ harrow))
      · rwa [show isDot (.leaf token) = false from isDot_eq_false_of_ident hrenames.kind] at htrees
  | .group delimiter opening closing inside :: trees => by
    obtain ⟨⟨hopen, hclose, hinside⟩, htrees⟩ := hp
    have htail : g.Fits exports (isDot (.leaf opening))
        (flattenAll inside ++ ([closing] ++ (flattenAll trees ++ rest))) := by
      simpa [flattenAll, flatten] using h.2
    rw [not_isDot_of_opened hopen] at htail
    obtain ⟨dot', hclosing⟩ := htail.right
    have hrest := hclosing.2
    rw [not_isDot_of_closed hclose] at hrest
    exact .group (recasts_of_fits inside hinside htail) (recasts_of_fits trees htrees hrest)

end Tree

namespace Program

/-- **The program of trees that are recast** is the same up to the trees of its statements, or there is
none for the same cause. -/
theorem ofTrees_agrees {g : Recast} {exports : Bool} {trees : List Tree}
    (h : Recasts g exports false trees) :
    Agree (fun program program' => program' = program.mapTrees (mapAll g.token)) (ofTrees trees)
      (ofTrees (mapAll g.token trees)) := by
  have hbody := g.body_agrees h
  rw [ofTrees, ofTrees]
  revert hbody
  generalize Outline.body trees = outcome
  generalize Outline.body (mapAll g.token trees) = outcome'
  rintro (⟨herase, hstatements⟩ | hcause)
  · exact .ok (ofOutline_eq_of_eraseAll herase hstatements)
  · exact .error hcause

end Program

/-! ## Edits -/

namespace Edit

/-- An edit as a recast of tokens. -/
def recast (e : Edit) : Recast :=
  ⟨e.token, fun _ => rfl, fun _ => rfl⟩

end Edit

end DeferredLog
