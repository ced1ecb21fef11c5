import DeferredLog.Proofs.Outline.Derivation

/-!
# Every outline is derived

The converse of `Reads.gives`: what a reader gives has a derivation. A reader leads only to jobs of
smaller `Job.size`, and `Job.Gave.reads` goes by induction on that; the lemmas before it are the
readers with more than a few ways through, each told that all smaller jobs are derived.

* `body_eq_ok_iff`: the outline of a body is what its derivation says.
-/

namespace DeferredLog

open DeferredLog.Tree

namespace Outline

/-- How much a job has to read; each job that it leads to has less. -/
def Job.size : Job → Nat
  | .body trees | .cases trees | .statement trees => 3 * weights trees + 2
  | .block trees | .cleanup trees | .switch trees | .function _ trees | .classBody _ trees
  | .expression _ trees => 3 * weights trees
  | .handler trees | .arrow _ trees => 3 * weights trees + 1
  | .exported trees => 3 * weights trees + 3

/-- What the reader of a job gives, told some trees for its faults. -/
def Job.Gave (items : List Item) (rest : List Tree) : Job → Prop
  | .body trees => Outline.body trees = .ok items ∧ rest = []
  | .statement trees => ∃ whole, Outline.Gave (required trees whole) items rest
  | .block trees => ∃ part whole, Outline.Gave (blockHere part trees whole) items rest
  | .handler trees => ∃ whole, Outline.Gave (catchClause trees whole) items rest
  | .cleanup trees => ∃ whole, Outline.Gave (finallyClause trees whole) items rest
  | .switch trees => ∃ whole, Outline.Gave (switchBlock trees whole) items rest
  | .cases trees => Outline.cases trees = .ok items ∧ rest = []
  | .function declares trees =>
    ∃ whole, Outline.Gave (Outline.function declares trees whole) items rest
  | .classBody declares trees =>
    ∃ whole, Outline.Gave (Outline.classBody declares trees whole) items rest
  | .exported trees => ∃ whole, Outline.Gave (Outline.exportClause trees whole) items rest
  | .expression before trees => Outline.expression before trees = .ok items ∧ rest = []
  | .arrow before trees => ∃ token, Outline.Gave (Outline.arrow before token trees) items rest

/-! ## Taking a reader apart -/

theorem gave_bind {α : Type} {bound : Nat} {x : Except Fault α}
    {f : α → Except Fault (Step bound)} {items : List Item} {rest : List Tree}
    (h : Gave (x >>= f) items rest) : ∃ a, x = .ok a ∧ Gave (f a) items rest := by
  cases x with
  | error => obtain ⟨step, h, -, -⟩ := h; cases h
  | ok a => exact ⟨a, rfl, h⟩

theorem ok_bind {α β : Type} {x : Except Fault α} {f : α → Except Fault β} {b : β}
    (h : (x >>= f) = .ok b) : ∃ a, x = .ok a ∧ f a = .ok b := by
  cases x with
  | error => cases h
  | ok a => exact ⟨a, rfl, h⟩

theorem gave_inv {bound : Nat} {items out : List Item} {rest after : List Tree} {hlt}
    (h : Gave (.ok (⟨items, rest, hlt⟩ : Step bound)) out after) : items = out ∧ rest = after := by
  obtain ⟨step, h, rfl, rfl⟩ := h
  cases h
  exact ⟨rfl, rfl⟩

theorem not_gave_error {bound : Nat} {fault : Fault} {items : List Item} {rest : List Tree} :
    ¬ Gave (.error fault : Except Fault (Step bound)) items rest := by
  rintro ⟨step, h, -, -⟩
  cases h

theorem moduleClause_inv {required : Bool} {trees whole after : List Tree} {items : List Item}
    (h : Gave (moduleClause required trees whole) items after) :
    ∃ rest, clauseEnd required true trees = some rest ∧ items = [] ∧
      after = skipSemicolon (skipAttributes rest) := by
  unfold moduleClause at h
  split at h
  · exact (not_gave_error h).elim
  · rename_i rest he
    obtain ⟨rfl, rfl⟩ := gave_inv h
    exact ⟨rest, he, rfl, rfl⟩

/-- A list that starts with a group in braces. -/
theorem starts_brace {trees : List Tree} (h : startsWith (isGroup .brace) trees = true) :
    ∃ a b inside rest, trees = .group .brace a b inside :: rest := by
  cases trees with
  | nil => cases h
  | cons tree rest =>
    cases tree with
    | leaf => cases h
    | group delimiter a b inside =>
      cases delimiter with
      | brace => exact ⟨a, b, inside, rest, rfl⟩
      | paren | bracket | template => cases h

theorem Inner.of_staticBlock {before : Before} {token : Token} {rest : List Tree}
    (h : Inner.of before token rest = .staticBlock) : startsWith (isGroup .brace) rest = true := by
  unfold Inner.of at h
  split at h
  · split at h
    · cases h
    · split at h
      · cases h
      · split at h
        · cases h
        · split at h
          · rename_i hs
            exact (Bool.and_eq_true_iff.mp hs).2
          · cases h
  · split at h <;> cases h

/-! ## Readers with many ways through -/

section Complete

variable {n : Nat}
  (ih : ∀ job : Job, job.size < n → ∀ items rest, job.Gave items rest → Reads job items rest)

include ih

theorem reads_expression {before : Before} {trees : List Tree} (hn : 3 * weights trees < n)
    {items : List Item} (h : Outline.expression before trees = .ok items) :
    Reads (.expression before trees) items [] :=
  ih (.expression before trees) hn _ _ ⟨h, rfl⟩

theorem reads_body {trees : List Tree} (hn : 3 * weights trees + 2 < n) {items : List Item}
    (h : Outline.body trees = .ok items) : Reads (.body trees) items [] :=
  ih (.body trees) hn _ _ ⟨h, rfl⟩

theorem reads_required {trees whole : List Tree} (hn : 3 * weights trees + 2 < n)
    {step : Step (weights trees)} (h : required trees whole = .ok step) :
    Reads (.statement trees) step.items step.rest :=
  ih (.statement trees) hn _ _ ⟨_, _, h, rfl, rfl⟩

theorem reads_block {trees whole : List Tree} {part : Missing} (hn : 3 * weights trees < n)
    {step : Step (weights trees)} (h : blockHere part trees whole = .ok step) :
    Reads (.block trees) step.items step.rest :=
  ih (.block trees) hn _ _ ⟨_, _, _, h, rfl, rfl⟩

theorem reads_function {declares : Bool} {trees whole : List Tree} (hn : 3 * weights trees < n)
    {step : Step (weights trees)} (h : Outline.function declares trees whole = .ok step) :
    Reads (.function declares trees) step.items step.rest :=
  ih (.function declares trees) hn _ _ ⟨_, _, h, rfl, rfl⟩

theorem reads_class {declares : Bool} {trees whole : List Tree} (hn : 3 * weights trees < n)
    {step : Step (weights trees)} (h : Outline.classBody declares trees whole = .ok step) :
    Reads (.classBody declares trees) step.items step.rest :=
  ih (.classBody declares trees) hn _ _ ⟨_, _, h, rfl, rfl⟩

theorem reads_statement {tree : Tree} {rest : List Tree} (hn : 3 * weights (tree :: rest) < n)
    {items : List Item} {after : List Tree}
    (h : Gave (statement tree rest) items after) :
    Reads (.statement (tree :: rest)) items after := by
  have := weight_pos tree
  unfold statement at h
  simp only at h
  simp only [weights_cons] at hn
  cases hf : Form.of tree rest <;> simp only [hf] at h
  case empty =>
    obtain ⟨rfl, rfl⟩ := gave_inv h
    exact .empty hf
  case block =>
    exact .block hf (ih _ (by simp only [Job.size, weights_cons]; omega) _ _ ⟨_, _, h⟩)
  case ifElse =>
    split at h
    · simp only [weights_cons, weight_group] at hn
      obtain ⟨test, ht, h⟩ := gave_bind h
      obtain ⟨yes, hy, h⟩ := gave_bind h
      have := yes.lighter
      split at h
      · rename_i he
        have := weights_behindWord?_lt he
        obtain ⟨no, hno, h⟩ := gave_bind h
        obtain ⟨rfl, rfl⟩ := gave_inv h
        exact .ifElse hf (reads_expression ih (by omega) ht) (reads_required ih (by omega) hy) he
          (reads_required ih (by omega) hno)
      · rename_i he
        obtain ⟨rfl, rfl⟩ := gave_inv h
        exact .ifOnly hf (reads_expression ih (by omega) ht) (reads_required ih (by omega) hy) he
    · exact (not_gave_error h).elim
  case whileLoop =>
    split at h
    · simp only [weights_cons, weight_group] at hn
      obtain ⟨test, ht, h⟩ := gave_bind h
      obtain ⟨inner, hi, h⟩ := gave_bind h
      obtain ⟨rfl, rfl⟩ := gave_inv h
      exact .whileLoop hf (reads_expression ih (by omega) ht) (reads_required ih (by omega) hi)
    · exact (not_gave_error h).elim
  case doWhile =>
    obtain ⟨inner, hi, h⟩ := gave_bind h
    have := inner.lighter
    split at h
    · exact (not_gave_error h).elim
    · rename_i hw
      have hlt := weights_behindWord?_lt hw
      simp only [weights_cons, weight_group] at hlt
      obtain ⟨test, ht, h⟩ := gave_bind h
      obtain ⟨rfl, rfl⟩ := gave_inv h
      exact .doWhile hf (reads_required ih (by omega) hi) hw (reads_expression ih (by omega) ht)
    · exact (not_gave_error h).elim
  case forLoop =>
    split at h
    · rename_i hle hs _
      simp only [weights_cons, weight_group] at hle
      obtain ⟨test, ht, h⟩ := gave_bind h
      obtain ⟨inner, hi, h⟩ := gave_bind h
      obtain ⟨rfl, rfl⟩ := gave_inv h
      exact .forLoop hf hs (reads_expression ih (by omega) ht) (reads_required ih (by omega) hi)
    · exact (not_gave_error h).elim
  case tryCatch =>
    obtain ⟨tried, ht, h⟩ := gave_bind h
    have := tried.lighter
    split at h
    · rename_i hc
      have := weights_behindWord?_lt hc
      obtain ⟨caught, hh, h⟩ := gave_bind h
      have := caught.lighter
      obtain ⟨last, hl, h⟩ := gave_bind h
      obtain ⟨rfl, rfl⟩ := gave_inv h
      exact .tryCatch hf (reads_block ih (by omega) ht) hc
        (ih (.handler _) (by simp only [Job.size]; omega) _ _ ⟨_, _, hh, rfl, rfl⟩)
        (ih (.cleanup _) (by simp only [Job.size]; omega) _ _ ⟨_, _, hl, rfl, rfl⟩)
    · rename_i hc
      obtain ⟨last, hl, h⟩ := gave_bind h
      obtain ⟨rfl, rfl⟩ := gave_inv h
      exact .tryOnly hf (reads_block ih (by omega) ht) hc
        (ih (.cleanup _) (by simp only [Job.size]; omega) _ _ ⟨_, _, hl, rfl, rfl⟩)
  case switchCases =>
    split at h
    · simp only [weights_cons, weight_group] at hn
      obtain ⟨test, ht, h⟩ := gave_bind h
      obtain ⟨block, hb, h⟩ := gave_bind h
      obtain ⟨rfl, rfl⟩ := gave_inv h
      exact .switchCases hf (reads_expression ih (by omega) ht)
        (ih (.switch _) (by simp only [Job.size]; omega) _ _ ⟨_, _, hb, rfl, rfl⟩)
    · exact (not_gave_error h).elim
  case functionDeclaration =>
    obtain ⟨declared, hd, h⟩ := gave_bind h
    obtain ⟨rfl, rfl⟩ := gave_inv h
    exact .functionDeclaration hf (reads_function ih (by omega) hd)
  case asyncFunction =>
    have := weights_tail_le rest
    obtain ⟨declared, hd, h⟩ := gave_bind h
    obtain ⟨rfl, rfl⟩ := gave_inv h
    exact .asyncFunction hf (reads_function ih (by omega) hd)
  case classDeclaration =>
    obtain ⟨declared, hd, h⟩ := gave_bind h
    obtain ⟨rfl, rfl⟩ := gave_inv h
    exact .classDeclaration hf (reads_class ih (by omega) hd)
  case declaration =>
    have := weights_takeExpression none rest
    obtain ⟨values, hv, h⟩ := gave_bind h
    obtain ⟨rfl, rfl⟩ := gave_inv h
    exact .declaration hf (reads_expression ih (by omega) hv)
  case leave =>
    split at h
    · rename_i hs
      have := weights_takeExpression none rest
      obtain ⟨values, hv, h⟩ := gave_bind h
      obtain ⟨rfl, rfl⟩ := gave_inv h
      exact .leave hf hs (reads_expression ih (by omega) hv)
    · rename_i hs
      obtain ⟨rfl, rfl⟩ := gave_inv h
      exact .leaveBare hf (Bool.not_eq_true _ ▸ hs)
  case jump =>
    obtain ⟨rfl, rfl⟩ := gave_inv h
    exact .jump hf
  case debugger =>
    obtain ⟨rfl, rfl⟩ := gave_inv h
    exact .debugger hf
  case importClause =>
    obtain ⟨clause, hc, h⟩ := gave_bind h
    obtain ⟨rest, he, hi, hr⟩ := moduleClause_inv ⟨_, hc, rfl, rfl⟩
    obtain ⟨rfl, rfl⟩ := gave_inv h
    rw [hi, hr]
    exact .importClause hf he
  case exportClause =>
    obtain ⟨exported, he, h⟩ := gave_bind h
    obtain ⟨rfl, rfl⟩ := gave_inv h
    exact .exportClause hf
      (ih (.exported _) (by simp only [Job.size]; omega) _ _ ⟨_, _, he, rfl, rfl⟩)
  case labelled =>
    have := weights_tail_le rest
    obtain ⟨inner, hi, h⟩ := gave_bind h
    obtain ⟨rfl, rfl⟩ := gave_inv h
    exact .labelled hf (reads_required ih (by omega) hi)
  case expression =>
    have := weights_takeExpression (some tree) rest
    obtain ⟨inner, hi, h⟩ := gave_bind h
    obtain ⟨rfl, rfl⟩ := gave_inv h
    exact .expressionStatement hf (reads_expression ih (by simp only [weights_cons]; omega) hi)

theorem reads_cases {trees : List Tree} (hn : 3 * weights trees + 2 ≤ n) {items : List Item}
    (h : Outline.cases trees = .ok items) : Reads (.cases trees) items [] := by
  unfold Outline.cases at h
  split at h
  · cases h
    exact .casesNil
  · rename_i tree rest
    have := weight_pos tree
    simp only [weights_cons] at hn
    split at h
    · rename_i hc
      split at h
      · cases h
      · rename_i ht
        have := weights_takeCase_lt ht
        obtain ⟨items, hi, h⟩ := ok_bind h
        obtain ⟨more, hm, h⟩ := ok_bind h
        cases h
        exact .casesTest hc ht (reads_expression ih (by omega) hi)
          (ih (.cases _) (by simp only [Job.size]; omega) _ _ ⟨hm, rfl⟩)
    · rename_i hc
      have hc := Bool.not_eq_true _ ▸ hc
      split at h
      · rename_i hd
        have := weights_tail_le rest
        exact .casesDefault hc hd (ih (.cases _) (by simp only [Job.size]; omega) _ _ ⟨h, rfl⟩)
      · rename_i hd
        obtain ⟨first, hf, h⟩ := ok_bind h
        obtain ⟨more, hm, h⟩ := ok_bind h
        have hlt := first.lighter
        simp only [weights_cons] at hlt
        cases h
        exact .casesStatement hc (Bool.not_eq_true _ ▸ hd)
          (reads_statement ih (by simp only [weights_cons]; omega) ⟨_, hf, rfl, rfl⟩)
          (ih (.cases _) (by simp only [Job.size]; omega) _ _ ⟨hm, rfl⟩)

theorem reads_exportClause {trees whole : List Tree} (hn : 3 * weights trees + 3 ≤ n)
    {items : List Item} {rest : List Tree}
    (h : Gave (Outline.exportClause trees whole) items rest) :
    Reads (.exported trees) items rest := by
  unfold Outline.exportClause at h
  split at h
  · rename_i hs
    obtain ⟨rest, he, rfl, rfl⟩ := moduleClause_inv h
    exact .exportNames hs he
  · rename_i hs
    have hs := Bool.not_eq_true _ ▸ hs
    split at h
    · rename_i hd
      obtain ⟨inner, hi, h⟩ := gave_bind h
      obtain ⟨rfl, rfl⟩ := gave_inv h
      exact .exportStatement hs hd (reads_required ih (by omega) hi)
    · rename_i value hd
      have := weights_behindWord?_lt hd
      split at h
      · rename_i hf
        have := weights_behindWord?_lt hf
        obtain ⟨declared, hi, h⟩ := gave_bind h
        obtain ⟨rfl, rfl⟩ := gave_inv h
        exact .exportFunction hs hd hf (reads_function ih (by omega) hi)
      · rename_i hf
        split at h
        · rename_i ha
          have := weights_behindWords?_lt ha
          obtain ⟨declared, hi, h⟩ := gave_bind h
          obtain ⟨rfl, rfl⟩ := gave_inv h
          exact .exportAsync hs hd hf ha (reads_function ih (by omega) hi)
        · rename_i ha
          split at h
          · rename_i hc
            have := weights_behindWord?_lt hc
            obtain ⟨declared, hi, h⟩ := gave_bind h
            obtain ⟨rfl, rfl⟩ := gave_inv h
            exact .exportClass hs hd hf ha hc (reads_class ih (by omega) hi)
          · rename_i hc
            have := weights_takeExpression none value
            obtain ⟨inner, hi, h⟩ := gave_bind h
            obtain ⟨rfl, rfl⟩ := gave_inv h
            exact .exportValue hs hd hf ha hc (reads_expression ih (by omega) hi)

theorem reads_arrow {before : Before} {token : Token} {trees : List Tree}
    (hn : 3 * weights trees + 1 ≤ n) {items : List Item} {rest : List Tree}
    (h : Gave (Outline.arrow before token trees) items rest) :
    Reads (.arrow before trees) items rest := by
  unfold Outline.arrow at h
  split at h
  · exact (not_gave_error h).elim
  · rename_i names hnames
    split at h
    · simp only [weights_cons, weight_group] at hn
      obtain ⟨inner, hi, h⟩ := gave_bind h
      obtain ⟨rfl, rfl⟩ := gave_inv h
      exact .arrowBlock hnames (reads_body ih (by omega) hi)
    · exact (not_gave_error h).elim
    · rename_i hb hne
      have := weights_takeArrowBody trees
      obtain ⟨inner, hi, h⟩ := gave_bind h
      obtain ⟨rfl, rfl⟩ := gave_inv h
      cases trees with
      | nil => exact (hne rfl).elim
      | cons tree rest =>
        refine .arrowValue hnames ?_ (reads_expression ih (by omega) hi)
        cases tree with
        | leaf => rfl
        | group delimiter _ _ _ =>
          cases delimiter with
          | brace => exact (hb _ _ _ _ rfl).elim
          | paren | bracket | template => rfl

theorem reads_expression' {before : Before} {trees : List Tree} (hn : 3 * weights trees ≤ n)
    {items : List Item} (h : Outline.expression before trees = .ok items) :
    Reads (.expression before trees) items [] := by
  unfold Outline.expression at h
  split at h
  · cases h
    exact .expressionNil
  · simp only [weights_cons, weight_group] at hn
    obtain ⟨defaults, hd, h⟩ := ok_bind h
    obtain ⟨inner, hi, h⟩ := ok_bind h
    obtain ⟨items, hr, h⟩ := ok_bind h
    cases h
    exact .method (reads_expression ih (by omega) hd) (reads_body ih (by omega) hi)
      (reads_expression ih (by omega) hr)
  · rename_i rest hm
    simp only [weights_cons, weight_group] at hn
    obtain ⟨inner, hi, h⟩ := ok_bind h
    obtain ⟨items, hr, h⟩ := ok_bind h
    cases h
    refine .group ?_ (reads_expression ih (by omega) hi) (reads_expression ih (by omega) hr)
    rintro rfl
    cases rest with
    | nil => rfl
    | cons tree rest =>
      cases tree with
      | leaf => rfl
      | group delimiter _ _ _ =>
        cases delimiter with
        | brace => exact (hm _ _ _ _ rfl rfl).elim
        | paren | bracket | template => rfl
  · rename_i token rest
    simp only [weights_cons, weight_leaf] at hn
    cases hi : Inner.of before token rest <;> simp only [hi] at h
    case function =>
      obtain ⟨f, hf, h⟩ := ok_bind h
      obtain ⟨items, hr, h⟩ := ok_bind h
      have := f.lighter
      cases h
      exact .functionInside hi (reads_function ih (by omega) hf) (reads_expression ih (by omega) hr)
    case classBody =>
      obtain ⟨f, hf, h⟩ := ok_bind h
      obtain ⟨items, hr, h⟩ := ok_bind h
      have := f.lighter
      cases h
      exact .classInside hi (reads_class ih (by omega) hf) (reads_expression ih (by omega) hr)
    case staticBlock =>
      split at h
      · simp only [weights_cons, weight_group] at hn
        obtain ⟨inner, hin, h⟩ := ok_bind h
        obtain ⟨items, hr, h⟩ := ok_bind h
        cases h
        exact .staticBlock hi (reads_body ih (by omega) hin) (reads_expression ih (by omega) hr)
      · rename_i hne
        obtain ⟨a, b, inside, after, rfl⟩ := starts_brace (Inner.of_staticBlock hi)
        exact (hne _ _ _ _ rfl).elim
    case arrow =>
      obtain ⟨f, hf, h⟩ := ok_bind h
      obtain ⟨items, hr, h⟩ := ok_bind h
      have := f.lighter
      cases h
      exact .arrowInside hi
        (ih (.arrow _ _) (by simp only [Job.size]; omega) _ _ ⟨_, _, hf, rfl, rfl⟩)
        (reads_expression ih (by omega) hr)
    case plain =>
      exact .plain hi (reads_expression ih (by omega) h)

end Complete

/-- Every outline that a reader gives is derived. -/
theorem Job.Gave.reads {job : Job} {items : List Item} {rest : List Tree}
    (h : job.Gave items rest) : Reads job items rest := by
  induction hn : job.size using Nat.strongRecOn generalizing job items rest with
  | _ n ih =>
  subst hn
  have ih : ∀ job' : Job, job'.size < job.size → ∀ items rest, job'.Gave items rest →
      Reads job' items rest := fun job' hlt items rest h => ih _ hlt h rfl
  cases job with
  | body trees =>
    obtain ⟨h, rfl⟩ := h
    unfold Outline.body at h
    split at h
    · cases h
      exact .bodyNil
    · obtain ⟨first, hf, h⟩ := ok_bind h
      obtain ⟨more, hm, h⟩ := ok_bind h
      have := first.lighter
      cases h
      exact .bodyCons (reads_statement ih (by simp only [Job.size]; omega) ⟨_, hf, rfl, rfl⟩)
        (reads_body ih (by simp only [Job.size]; omega) hm)
  | statement trees =>
    obtain ⟨whole, h⟩ := h
    unfold required at h
    split at h
    · exact (not_gave_error h).elim
    · exact reads_statement ih (by simp only [Job.size]; omega) h
  | block trees =>
    obtain ⟨part, whole, h⟩ := h
    unfold Outline.blockHere at h
    split at h
    · obtain ⟨inner, hi, h⟩ := gave_bind h
      obtain ⟨rfl, rfl⟩ := gave_inv h
      exact .blockHere
        (reads_body ih (by simp only [Job.size, weights_cons, weight_group]; omega) hi)
    · exact (not_gave_error h).elim
  | handler trees =>
    obtain ⟨whole, h⟩ := h
    unfold catchClause at h
    split at h
    · obtain ⟨block, hb, h⟩ := gave_bind h
      obtain ⟨rfl, rfl⟩ := gave_inv h
      exact .handlerNames (reads_block ih (by simp only [Job.size, weights_cons]; omega) hb)
    · obtain ⟨block, hb, h⟩ := gave_bind h
      obtain ⟨rfl, rfl⟩ := gave_inv h
      exact .handler (reads_block ih (by simp only [Job.size]; omega) hb)
  | cleanup trees =>
    obtain ⟨whole, h⟩ := h
    unfold finallyClause at h
    split at h
    · rename_i hf
      have := weights_behindWord?_lt hf
      obtain ⟨block, hb, h⟩ := gave_bind h
      obtain ⟨rfl, rfl⟩ := gave_inv h
      exact .cleanup hf (reads_block ih (by simp only [Job.size]; omega) hb)
    · rename_i hf
      obtain ⟨rfl, rfl⟩ := gave_inv h
      exact .cleanupNone hf
  | switch trees =>
    obtain ⟨whole, h⟩ := h
    unfold switchBlock at h
    split at h
    · obtain ⟨inner, hi, h⟩ := gave_bind h
      obtain ⟨rfl, rfl⟩ := gave_inv h
      exact .switch (ih (.cases _) (by simp only [Job.size, weights_cons, weight_group]; omega) _ _
        ⟨hi, rfl⟩)
    · exact (not_gave_error h).elim
  | cases trees =>
    obtain ⟨h, rfl⟩ := h
    exact reads_cases ih (by simp only [Job.size]; omega) h
  | function declares trees =>
    obtain ⟨whole, h⟩ := h
    unfold Outline.function at h
    split at h
    · rename_i hle hn _
      simp only [weights_cons, weight_group] at hle
      obtain ⟨defaults, hd, h⟩ := gave_bind h
      obtain ⟨inner, hi, h⟩ := gave_bind h
      obtain ⟨rfl, rfl⟩ := gave_inv h
      exact .function hn (reads_expression ih (by simp only [Job.size]; omega) hd)
        (reads_body ih (by simp only [Job.size]; omega) hi)
    · exact (not_gave_error h).elim
    · exact (not_gave_error h).elim
  | classBody declares trees =>
    obtain ⟨whole, h⟩ := h
    unfold Outline.classBody at h
    split at h
    · exact (not_gave_error h).elim
    · rename_i before inside rest hc
      have := weights_cutAtBrace_lt hc
      have := weights_className_le trees
      have := weights_heritage_le before
      obtain ⟨parent, hp, h⟩ := gave_bind h
      obtain ⟨members, hm, h⟩ := gave_bind h
      obtain ⟨rfl, rfl⟩ := gave_inv h
      exact .classBody hc (reads_expression ih (by simp only [Job.size]; omega) hp)
        (reads_expression ih (by simp only [Job.size]; omega) hm)
  | exported trees =>
    obtain ⟨whole, h⟩ := h
    exact reads_exportClause ih (by simp only [Job.size]; omega) h
  | expression before trees =>
    obtain ⟨h, rfl⟩ := h
    exact reads_expression' ih (by simp only [Job.size]; omega) h
  | arrow before trees =>
    obtain ⟨token, h⟩ := h
    exact reads_arrow ih (by simp only [Job.size]; omega) h

/-- **The outline of a body is what its derivation says.** -/
theorem body_eq_ok_iff {trees : List Tree} {items : List Item} :
    Outline.body trees = .ok items ↔ Reads (.body trees) items [] :=
  ⟨fun h => @Job.Gave.reads (.body trees) items [] ⟨h, rfl⟩, fun h => h.gives.1⟩

end Outline

end DeferredLog
