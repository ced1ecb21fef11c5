import DeferredLog.Proofs.Outline.Exact

/-!
# What a job yields

A job is read in one way or not at all, and which of the two follows from the jobs it is made of:
`Yields job reads items rest` says that the job is read exactly if `reads` holds, as `items` with
`rest` left. There is a lemma for each construct of which that is said elsewhere.

* `Yields.body_isOk`: what it means for a whole program.
-/

namespace DeferredLog

open DeferredLog.Tree

namespace Outline

/-- A job is read exactly if `reads` holds, and then it gives `items` and leaves `rest`. -/
def Yields (job : Job) (reads : Bool) (items : List Item) (rest : List Tree) : Prop :=
  ∀ items' rest', Reads job items' rest' ↔ reads = true ∧ items' = items ∧ rest' = rest

variable {s t u : Bool} {before : Before} {token a b c d : Token} {tree : Tree}
  {trees rest after inside parameters head : List Tree} {i j k : List Item}

/-! ## Constructs -/

namespace Yields

theorem bodyNil : Yields (.body []) true [] [] := by
  intro items' rest'
  constructor
  · intro h
    cases h
    exact ⟨rfl, rfl, rfl⟩
  · rintro ⟨-, rfl, rfl⟩
    exact .bodyNil

theorem bodyCons (h₁ : Yields (.statement (tree :: rest)) s i after)
    (h₂ : Yields (.body after) t j []) : Yields (.body (tree :: rest)) (s && t) (i ++ j) [] := by
  intro items' rest'
  constructor
  · intro h
    cases h with
    | bodyCons h h' =>
      obtain ⟨rfl, rfl, rfl⟩ := (h₁ _ _).mp h
      obtain ⟨rfl, rfl, -⟩ := (h₂ _ _).mp h'
      exact ⟨rfl, rfl, rfl⟩
  · rintro ⟨hs, rfl, rfl⟩
    obtain ⟨hs, ht⟩ := Bool.and_eq_true_iff.mp hs
    exact .bodyCons ((h₁ _ _).mpr ⟨hs, rfl, rfl⟩) ((h₂ _ _).mpr ⟨ht, rfl, rfl⟩)

theorem expressionNil : Yields (.expression before []) true [] [] := by
  intro items' rest'
  constructor
  · intro h
    cases h
    exact ⟨rfl, rfl, rfl⟩
  · rintro ⟨-, rfl, rfl⟩
    exact .expressionNil

theorem plain (hi : Inner.of before token rest = .plain)
    (h₁ : Yields (.expression (.of (.leaf token)) rest) s i []) :
    Yields (.expression before (.leaf token :: rest)) s i [] := by
  intro items' rest'
  constructor
  · intro hr
    obtain ⟨rfl, h⟩ := hr.inner hi
    exact (h₁ _ _).mp h
  · rintro ⟨hs, rfl, rfl⟩
    exact .plain hi ((h₁ _ _).mpr ⟨hs, rfl, rfl⟩)

theorem group {delimiter : Delimiter}
    (hn : delimiter = .paren → startsWith (isGroup .brace) rest = false)
    (h₁ : Yields (.expression .nothing inside) s i [])
    (h₂ : Yields (.expression (.of (.group delimiter a b inside)) rest) t j []) :
    Yields (.expression before (.group delimiter a b inside :: rest)) (s && t) (i ++ j) [] := by
  intro items' rest'
  constructor
  · intro hr
    obtain ⟨rfl, inner, more, h, h', rfl⟩ := hr.group_inv hn
    obtain ⟨rfl, rfl, -⟩ := (h₁ _ _).mp h
    obtain ⟨rfl, rfl, -⟩ := (h₂ _ _).mp h'
    exact ⟨rfl, rfl, rfl⟩
  · rintro ⟨hs, rfl, rfl⟩
    obtain ⟨hs, ht⟩ := Bool.and_eq_true_iff.mp hs
    exact .group hn ((h₁ _ _).mpr ⟨hs, rfl, rfl⟩) ((h₂ _ _).mpr ⟨ht, rfl, rfl⟩)

theorem functionInside (hi : Inner.of before token rest = .function)
    (h₁ : Yields (.function false rest) s i after) (h₂ : Yields (.expression .other after) t j []) :
    Yields (.expression before (.leaf token :: rest)) (s && t) (i ++ j) [] := by
  intro items' rest'
  constructor
  · intro hr
    obtain ⟨rfl, f, mid, more, h, h', rfl⟩ := hr.inner hi
    obtain ⟨rfl, rfl, rfl⟩ := (h₁ _ _).mp h
    obtain ⟨rfl, rfl, -⟩ := (h₂ _ _).mp h'
    exact ⟨rfl, rfl, rfl⟩
  · rintro ⟨hs, rfl, rfl⟩
    obtain ⟨hs, ht⟩ := Bool.and_eq_true_iff.mp hs
    exact .functionInside hi ((h₁ _ _).mpr ⟨hs, rfl, rfl⟩) ((h₂ _ _).mpr ⟨ht, rfl, rfl⟩)

theorem arrowInside (hi : Inner.of before token rest = .arrow)
    (h₁ : Yields (.arrow before rest) s i after) (h₂ : Yields (.expression .other after) t j []) :
    Yields (.expression before (.leaf token :: rest)) (s && t) (i ++ j) [] := by
  intro items' rest'
  constructor
  · intro hr
    obtain ⟨rfl, f, mid, more, h, h', rfl⟩ := hr.inner hi
    obtain ⟨rfl, rfl, rfl⟩ := (h₁ _ _).mp h
    obtain ⟨rfl, rfl, -⟩ := (h₂ _ _).mp h'
    exact ⟨rfl, rfl, rfl⟩
  · rintro ⟨hs, rfl, rfl⟩
    obtain ⟨hs, ht⟩ := Bool.and_eq_true_iff.mp hs
    exact .arrowInside hi ((h₁ _ _).mpr ⟨hs, rfl, rfl⟩) ((h₂ _ _).mpr ⟨ht, rfl, rfl⟩)

theorem arrowBlock {names : List String} (hn : before.arrowNames = some names)
    (h₁ : Yields (.body inside) s i []) :
    Yields (.arrow before (.group .brace a b inside :: rest)) s
      [.scope .function [] (names.map .bind ++ i)] rest := by
  intro items' rest'
  constructor
  · intro h
    cases h with
    | arrowBlock hn' h =>
      obtain rfl := Option.some.inj (hn.symm.trans hn')
      obtain ⟨hs, rfl, -⟩ := (h₁ _ _).mp h
      exact ⟨hs, rfl, rfl⟩
    | arrowValue _ hg => cases hg
  · rintro ⟨hs, rfl, rfl⟩
    exact .arrowBlock hn ((h₁ _ _).mpr ⟨hs, rfl, rfl⟩)

theorem function {declares : Bool} {name : Option String}
    (hn : functionName trees = (name, .group .paren a b parameters :: .group .brace c d inside :: rest))
    (h₁ : Yields (.expression .nothing parameters) s i []) (h₂ : Yields (.body inside) t j []) :
    Yields (.function declares trees) (s && t)
      [.scope .function (if declares then bindName name else [])
        ((if declares then [] else bindName name) ++ (parameterNames parameters).map .bind ++ i ++ j)]
      rest := by
  intro items' rest'
  constructor
  · intro h
    cases h with
    | function hn' h h' =>
      cases hn.symm.trans hn'
      obtain ⟨rfl, rfl, -⟩ := (h₁ _ _).mp h
      obtain ⟨rfl, rfl, -⟩ := (h₂ _ _).mp h'
      exact ⟨rfl, rfl, rfl⟩
  · rintro ⟨hs, rfl, rfl⟩
    obtain ⟨hs, ht⟩ := Bool.and_eq_true_iff.mp hs
    exact .function hn ((h₁ _ _).mpr ⟨hs, rfl, rfl⟩) ((h₂ _ _).mpr ⟨ht, rfl, rfl⟩)

/-- A function without a body is not read. -/
theorem function_fails {declares : Bool} {name : Option String}
    (hn : functionName trees = (name, [.group .paren a b parameters])) :
    Yields (.function declares trees) false [] [] := by
  intro items' rest'
  constructor
  · intro h
    cases h with
    | function hn' => cases hn.symm.trans hn'
  · rintro ⟨hs, -⟩
    cases hs

/-! ## Statements -/

theorem blockHere (h₁ : Yields (.body inside) s i []) :
    Yields (.block (.group .brace a b inside :: rest)) s [.scope .block [] i] rest := by
  intro items' rest'
  constructor
  · intro h
    cases h with
    | blockHere h =>
      obtain ⟨hs, rfl, -⟩ := (h₁ _ _).mp h
      exact ⟨hs, rfl, rfl⟩
  · rintro ⟨hs, rfl, rfl⟩
    exact .blockHere ((h₁ _ _).mpr ⟨hs, rfl, rfl⟩)

theorem block (h₁ : Yields (.body inside) s i []) :
    Yields (.statement (.group .brace a b inside :: rest)) s [.scope .block [] i] rest := by
  have hf : Form.of (.group .brace a b inside) rest = .block := rfl
  intro items' rest'
  constructor
  · intro h
    exact (blockHere h₁ _ _).mp (h.form hf)
  · intro h
    exact .block hf ((blockHere h₁ _ _).mpr h)

theorem functionDeclaration (hf : Form.of tree rest = .functionDeclaration)
    (h₁ : Yields (.function true rest) s i after) : Yields (.statement (tree :: rest)) s i after := by
  intro items' rest'
  constructor
  · intro h
    exact (h₁ _ _).mp (h.form hf)
  · intro h
    exact .functionDeclaration hf ((h₁ _ _).mpr h)

theorem expressionStatement (hf : Form.of tree rest = .expression) {x more : List Tree}
    (hx : takeExpression (some tree) rest = (x, more))
    (h₁ : Yields (.expression .nothing (tree :: x)) s i []) :
    Yields (.statement (tree :: rest)) s (.statement (tree :: x) :: i) (skipSemicolon more) := by
  intro items' rest'
  constructor
  · intro hr
    obtain ⟨inner, h, rfl, rfl⟩ := hr.form hf
    rw [hx] at h ⊢
    obtain ⟨hs, rfl, -⟩ := (h₁ _ _).mp h
    exact ⟨hs, rfl, rfl⟩
  · rintro ⟨hs, rfl, rfl⟩
    have h := (h₁ _ _).mpr ⟨hs, rfl, rfl⟩
    have hread := Reads.expressionStatement hf (show Reads (.expression .nothing
      (tree :: (takeExpression (some tree) rest).1)) i [] by rwa [hx])
    rwa [hx] at hread

theorem declaration {hoisted : Bool} (hf : Form.of tree rest = .declaration hoisted)
    {x more : List Tree} (hx : takeExpression none rest = (x, more))
    (h₁ : Yields (.expression .nothing x) s i []) :
    Yields (.statement (tree :: rest)) s
      ((parameterNames x).map (if hoisted then .hoist else .bind) ++ i) (skipSemicolon more) := by
  intro items' rest'
  constructor
  · intro hr
    obtain ⟨values, h, rfl, rfl⟩ := hr.form hf
    rw [hx] at h ⊢
    obtain ⟨hs, rfl, -⟩ := (h₁ _ _).mp h
    exact ⟨hs, rfl, rfl⟩
  · rintro ⟨hs, rfl, rfl⟩
    have h := (h₁ _ _).mpr ⟨hs, rfl, rfl⟩
    have hread := Reads.declaration hf (show Reads (.expression .nothing
      (takeExpression none rest).1) i [] by rwa [hx])
    rwa [hx] at hread

theorem whileLoop (hf : Form.of tree (.group .paren a b head :: rest) = .whileLoop)
    (h₁ : Yields (.expression .nothing head) s i []) (h₂ : Yields (.statement rest) t j after) :
    Yields (.statement (tree :: .group .paren a b head :: rest)) (s && t) (i ++ j) after := by
  intro items' rest'
  constructor
  · intro hr
    obtain ⟨_, _, _, _, test, inner, hp, h, h', rfl⟩ := hr.form hf
    cases hp
    obtain ⟨rfl, rfl, -⟩ := (h₁ _ _).mp h
    obtain ⟨rfl, rfl, rfl⟩ := (h₂ _ _).mp h'
    exact ⟨rfl, rfl, rfl⟩
  · rintro ⟨hs, rfl, rfl⟩
    obtain ⟨hs, ht⟩ := Bool.and_eq_true_iff.mp hs
    exact .whileLoop hf ((h₁ _ _).mpr ⟨hs, rfl, rfl⟩) ((h₂ _ _).mpr ⟨ht, rfl, rfl⟩)

theorem ifElse {mid otherwise : List Tree}
    (hf : Form.of tree (.group .paren a b head :: rest) = .ifElse)
    (h₁ : Yields (.expression .nothing head) s i []) (h₂ : Yields (.statement rest) t j mid)
    (he : behindWord? "else" mid = some otherwise) (h₃ : Yields (.statement otherwise) u k after) :
    Yields (.statement (tree :: .group .paren a b head :: rest)) (s && t && u) (i ++ j ++ k)
      after := by
  intro items' rest'
  constructor
  · intro hr
    obtain ⟨_, _, _, _, test, yes, mid', hp, h, h', h''⟩ := hr.form hf
    cases hp
    obtain ⟨rfl, rfl, -⟩ := (h₁ _ _).mp h
    obtain ⟨rfl, rfl, rfl⟩ := (h₂ _ _).mp h'
    rcases h'' with ⟨otherwise', no, he', h'', rfl⟩ | ⟨he', -⟩
    · obtain rfl := Option.some.inj (he.symm.trans he')
      obtain ⟨rfl, rfl, rfl⟩ := (h₃ _ _).mp h''
      exact ⟨rfl, rfl, rfl⟩
    · cases he.symm.trans he'
  · rintro ⟨hs, rfl, rfl⟩
    simp only [Bool.and_eq_true] at hs
    obtain ⟨⟨hs, ht⟩, hu⟩ := hs
    exact .ifElse hf ((h₁ _ _).mpr ⟨hs, rfl, rfl⟩) ((h₂ _ _).mpr ⟨ht, rfl, rfl⟩) he
      ((h₃ _ _).mpr ⟨hu, rfl, rfl⟩)

theorem forLoop (hf : Form.of tree (.group .paren a b head :: rest) = .forLoop)
    (h₁ : Yields (.expression .nothing head) s i []) (h₂ : Yields (.statement rest) t j after) :
    Yields (.statement (tree :: .group .paren a b head :: rest)) (s && t)
      [.scope .block [] (loopNames head ++ i ++ j)] after := by
  intro items' rest'
  constructor
  · intro hr
    obtain ⟨_, _, _, _, test, inner, hp, h, h', rfl⟩ := hr.form hf
    cases hp
    obtain ⟨rfl, rfl, -⟩ := (h₁ _ _).mp h
    obtain ⟨rfl, rfl, rfl⟩ := (h₂ _ _).mp h'
    exact ⟨rfl, rfl, rfl⟩
  · rintro ⟨hs, rfl, rfl⟩
    obtain ⟨hs, ht⟩ := Bool.and_eq_true_iff.mp hs
    exact .forLoop hf rfl ((h₁ _ _).mpr ⟨hs, rfl, rfl⟩) ((h₂ _ _).mpr ⟨ht, rfl, rfl⟩)

theorem handlerNames (h₁ : Yields (.block rest) s i after) :
    Yields (.handler (.group .paren a b parameters :: rest)) s
      [.scope .block [] ((parameterNames parameters).map .bind ++ i)] after := by
  intro items' rest'
  constructor
  · intro h
    cases h with
    | handlerNames h =>
      obtain ⟨hs, rfl, rfl⟩ := (h₁ _ _).mp h
      exact ⟨hs, rfl, rfl⟩
    | handler h => cases h
  · rintro ⟨hs, rfl, rfl⟩
    exact .handlerNames ((h₁ _ _).mpr ⟨hs, rfl, rfl⟩)

theorem cleanupNone (hw : behindWord? "finally" trees = none) :
    Yields (.cleanup trees) true [] trees := by
  intro items' rest'
  constructor
  · intro h
    cases h with
    | cleanup hw' => cases hw.symm.trans hw'
    | cleanupNone => exact ⟨rfl, rfl, rfl⟩
  · rintro ⟨-, rfl, rfl⟩
    exact .cleanupNone hw

theorem tryCatch {mid mid' handler : List Tree} (hf : Form.of tree rest = .tryCatch)
    (h₁ : Yields (.block rest) s i mid) (hc : behindWord? "catch" mid = some handler)
    (h₂ : Yields (.handler handler) t j mid') (h₃ : Yields (.cleanup mid') u k after) :
    Yields (.statement (tree :: rest)) (s && t && u) (i ++ j ++ k) after := by
  intro items' rest'
  constructor
  · intro hr
    obtain ⟨tried, mid'', h, h'⟩ := hr.form hf
    obtain ⟨rfl, rfl, rfl⟩ := (h₁ _ _).mp h
    rcases h' with ⟨handler', caught, _, last, hc', h', h'', rfl⟩ | ⟨-, hc', -⟩
    · obtain rfl := Option.some.inj (hc.symm.trans hc')
      obtain ⟨rfl, rfl, rfl⟩ := (h₂ _ _).mp h'
      obtain ⟨rfl, rfl, rfl⟩ := (h₃ _ _).mp h''
      exact ⟨rfl, rfl, rfl⟩
    · cases hc.symm.trans hc'
  · rintro ⟨hs, rfl, rfl⟩
    simp only [Bool.and_eq_true] at hs
    obtain ⟨⟨hs, ht⟩, hu⟩ := hs
    exact .tryCatch hf ((h₁ _ _).mpr ⟨hs, rfl, rfl⟩) hc ((h₂ _ _).mpr ⟨ht, rfl, rfl⟩)
      ((h₃ _ _).mpr ⟨hu, rfl, rfl⟩)

end Yields

end Outline

end DeferredLog
