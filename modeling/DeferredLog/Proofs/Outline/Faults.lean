import DeferredLog.Proofs.Outline.Nesting
import DeferredLog.Proofs.Outline.Visits

/-!
# Where the walk over a program fails

A reader that misses a part says so where the trees start that stand in its place, or where the trees around
it end. Readers are told the trees around them only as far as they have some, so a fault is always at an end
of a token. Each reader is treated once, below a bound on the weight of its trees under which all of them are
taken to fail at such places only; `below` is the induction over that bound.

* `fault_of_body`: a fault of a program is where one of its tokens starts or ends.
-/

namespace DeferredLog

open DeferredLog.Tree

namespace Outline

/-! ## Ends of tokens -/

/-- Whether all tokens of some trees start and end at places with a property. -/
def Ends (P : Nat → Prop) (trees : List Tree) : Prop :=
  ∀ t ∈ flattenAll trees, P t.start ∧ P t.stop

/-- Whether a fault, if there is one, is at a place with a property. -/
def FaultsAt (P : Nat → Prop) {α : Type} (result : Except Fault α) : Prop :=
  ∀ fault, result = .error fault → P fault.offset

variable {P : Nat → Prop} {α β : Type} {tree : Tree} {trees rest whole a b : List Tree}

namespace Ends

theorem suffix (h : Ends P trees) (hs : rest <:+ trees) : Ends P rest :=
  fun t ht => h t (subset_of_suffix hs ht)

theorem left (h : Ends P (a ++ b)) : Ends P a :=
  fun t ht => h t (by rw [flattenAll_append]; exact List.mem_append_left _ ht)

theorem right (h : Ends P (a ++ b)) : Ends P b :=
  h.suffix (List.suffix_append a b)

theorem tail (h : Ends P (tree :: rest)) : Ends P rest :=
  h.suffix (List.suffix_cons tree rest)

theorem inside {delimiter : Delimiter} {opening closing : Token} {inner : List Tree}
    (h : Ends P (.group delimiter opening closing inner :: rest)) : Ends P inner :=
  fun t ht => h t (by simp [flattenAll_group, ht])

/-- Trees start where their first token does. -/
theorem start (h : Ends P (tree :: rest)) : P tree.start := by
  obtain ⟨first, hfirst, hstart⟩ := head?_flattenAll (List.cons_ne_nil tree rest)
  exact (show startOf (tree :: rest) = tree.start from rfl) ▸ hstart ▸ (h first (List.mem_of_head? hfirst)).1

/-- Trees end where their last token does. -/
theorem stop (h : Ends P trees) (hne : trees ≠ []) : P (stopOf trees) := by
  obtain ⟨last, hlast, hstop⟩ := getLast?_flattenAll hne
  exact hstop ▸ (h last (List.mem_of_getLast? hlast)).2

/-- A missing part is told where the trees in its place start, or at the end of the trees around it. -/
theorem missing (hw : Ends P whole) (hne : whole ≠ []) (h : Ends P trees) (part : Missing) :
    P (Outline.missing part trees whole).offset := by
  cases trees with
  | nil => exact hw.stop hne
  | cons tree rest => exact h.start

end Ends

namespace FaultsAt

theorem ok {a : α} : FaultsAt P (.ok a) :=
  nofun

theorem error {fault : Fault} (h : P fault.offset) : FaultsAt P (.error fault : Except Fault α) := by
  rintro _ ⟨⟩
  exact h

theorem bind {x : Except Fault α} {f : α → Except Fault β} (hx : FaultsAt P x)
    (hf : ∀ a, x = .ok a → FaultsAt P (f a)) : FaultsAt P (x >>= f) := by
  cases x with
  | error fault => exact .error (hx fault rfl)
  | ok a => exact hf a rfl

end FaultsAt

/-! ## What readers leave -/

theorem suffix_required {step : Step (weights trees)} (h : required trees whole = .ok step) :
    step.rest <:+ trees :=
  (show (Job.statement trees).Gave step.items step.rest from ⟨whole, step, h, rfl, rfl⟩).reads.suffix

theorem suffix_statement {step : Step (weights (tree :: rest))} (h : statement tree rest = .ok step) :
    step.rest <:+ tree :: rest :=
  suffix_required (show required (tree :: rest) [] = .ok step by rw [required, h])

theorem suffix_blockHere {part : Missing} {step : Step (weights trees)}
    (h : blockHere part trees whole = .ok step) : step.rest <:+ trees :=
  (show (Job.block trees).Gave step.items step.rest from ⟨part, whole, step, h, rfl, rfl⟩).reads.suffix

theorem suffix_catchClause {step : Step (weights trees)} (h : catchClause trees whole = .ok step) :
    step.rest <:+ trees :=
  (show (Job.handler trees).Gave step.items step.rest from ⟨whole, step, h, rfl, rfl⟩).reads.suffix

theorem suffix_function {declares : Bool} {step : Step (weights trees)}
    (h : function declares trees whole = .ok step) : step.rest <:+ trees :=
  (show (Job.function declares trees).Gave step.items step.rest from ⟨whole, step, h, rfl, rfl⟩).reads.suffix

theorem suffix_classBody {declares : Bool} {step : Step (weights trees)}
    (h : classBody declares trees whole = .ok step) : step.rest <:+ trees :=
  (show (Job.classBody declares trees).Gave step.items step.rest from ⟨whole, step, h, rfl, rfl⟩).reads.suffix

theorem suffix_arrow {before : Before} {token : Token} {step : Step (weights trees + 1)}
    (h : arrow before token trees = .ok step) : step.rest <:+ trees :=
  (show (Job.arrow before trees).Gave step.items step.rest from ⟨token, step, h, rfl, rfl⟩).reads.suffix

theorem suffix_behindWord? {word : String} (h : behindWord? word trees = some rest) : rest <:+ trees := by
  obtain ⟨first, rfl, -⟩ := behindWord?_eq_some h
  exact List.suffix_cons first rest

theorem suffix_behindWords? {first second : String} (h : behindWords? first second trees = some rest) :
    rest <:+ trees := by
  obtain ⟨middle, h₁, h₂⟩ := Option.bind_eq_some_iff.mp h
  exact (suffix_behindWord? h₂).trans (suffix_behindWord? h₁)

theorem suffix_skipWord (word : String) (trees : List Tree) : skipWord word trees <:+ trees := by
  unfold skipWord
  cases h : behindWord? word trees with
  | none => exact List.suffix_refl trees
  | some rest => exact suffix_behindWord? h

/-! ## Readers -/

/-- Every reader fails at places with a property only, on trees that weigh less than a bound. -/
structure Below (P : Nat → Prop) (bound : Nat) : Prop where
  body : ∀ {trees}, weights trees < bound → Ends P trees → FaultsAt P (Outline.body trees)
  required : ∀ {trees whole}, weights trees < bound → whole ≠ [] → Ends P whole → Ends P trees →
    FaultsAt P (Outline.required trees whole)
  cases : ∀ {trees}, weights trees < bound → Ends P trees → FaultsAt P (Outline.cases trees)
  expression : ∀ {before trees}, weights trees < bound → Ends P trees →
    FaultsAt P (Outline.expression before trees)

section Readers

variable {bound : Nat} (ih : Below P bound) (hne : whole ≠ []) (hw : Ends P whole)

include hne hw in
theorem faultsAt_moduleClause (required : Bool) (h : Ends P trees) :
    FaultsAt P (moduleClause required trees whole) := by
  unfold moduleClause
  split
  · exact .error (hw.missing hne h _)
  · exact .ok

include ih hne hw

/-! ### Clauses and blocks -/

theorem Below.blockHere (part : Missing) (hn : weights trees ≤ bound) (h : Ends P trees) :
    FaultsAt P (Outline.blockHere part trees whole) := by
  unfold Outline.blockHere
  split
  · simp only [weights_cons, weight_group] at hn
    exact (ih.body (by omega) h.inside).bind fun _ _ => .ok
  · exact .error (hw.missing hne h _)

theorem Below.catchClause (hn : weights trees ≤ bound) (h : Ends P trees) :
    FaultsAt P (Outline.catchClause trees whole) := by
  unfold Outline.catchClause
  split
  · simp only [weights_cons, weight_group] at hn
    exact (ih.blockHere hne hw _ (by omega) h.tail).bind fun _ _ => .ok
  · exact (ih.blockHere hne hw _ hn h).bind fun _ _ => .ok

theorem Below.finallyClause (hn : weights trees ≤ bound) (h : Ends P trees) :
    FaultsAt P (Outline.finallyClause trees whole) := by
  unfold Outline.finallyClause
  split
  · rename_i hword
    have := weights_behindWord?_lt hword
    exact (ih.blockHere hne hw _ (by omega) (h.suffix (suffix_behindWord? hword))).bind fun _ _ => .ok
  · exact .ok

theorem Below.switchBlock (hn : weights trees ≤ bound) (h : Ends P trees) :
    FaultsAt P (Outline.switchBlock trees whole) := by
  unfold Outline.switchBlock
  split
  · simp only [weights_cons, weight_group] at hn
    exact (ih.cases (by omega) h.inside).bind fun _ _ => .ok
  · exact .error (hw.missing hne h _)

/-! ### Functions, classes and exports -/

theorem Below.function (declares : Bool) (hn : weights trees ≤ bound) (h : Ends P trees) :
    FaultsAt P (Outline.function declares trees whole) := by
  have hnamed : Ends P (functionName trees).2 := by
    obtain ⟨front, hfront, -⟩ := functionName_cut trees
    exact (hfront ▸ h).right
  have hle := weights_functionName_le trees
  unfold Outline.function
  split
  · rename_i hs _
    rw [hs] at hnamed hle
    simp only [weights_cons, weight_group] at hle
    exact (ih.expression (by omega) hnamed.inside).bind fun _ _ =>
      (ih.body (by omega) hnamed.tail.inside).bind fun _ _ => .ok
  · rename_i hs _
    rw [hs] at hnamed
    exact .error (hw.missing hne hnamed.tail _)
  · rename_i hs _
    rw [hs] at hnamed
    exact .error (hw.missing hne hnamed _)

theorem Below.classBody (declares : Bool) (hn : weights trees ≤ bound) (h : Ends P trees) :
    FaultsAt P (Outline.classBody declares trees whole) := by
  have hnamed : Ends P (className trees).2 := by
    obtain ⟨front, hfront, -⟩ := className_cut trees
    exact (hfront ▸ h).right
  have hle := weights_className_le trees
  unfold Outline.classBody
  split
  · exact .error (hw.missing hne hnamed _)
  · rename_i before inside rest hcut
    have := weights_cutAtBrace_lt hcut
    have := weights_heritage_le before
    obtain ⟨opening, closing, hparts, -⟩ := cutAtBrace_cut hcut
    obtain ⟨lead, trail, hbefore⟩ := heritage_cut before
    rw [hparts] at hnamed
    have hheritage : Ends P (heritage before) := (hbefore ▸ hnamed.left).right.left
    exact (ih.expression (by omega) hheritage).bind fun _ _ =>
      (ih.expression (by omega) hnamed.right.inside).bind fun _ _ => .ok

theorem Below.exportClause (hn : weights trees < bound) (h : Ends P trees) :
    FaultsAt P (Outline.exportClause trees whole) := by
  unfold Outline.exportClause
  split
  · exact faultsAt_moduleClause hne hw false h
  split
  · exact (ih.required hn hne hw h).bind fun _ _ => .ok
  rename_i value hdefault
  have := weights_behindWord?_lt hdefault
  have hvalue := h.suffix (suffix_behindWord? hdefault)
  split
  · rename_i hword
    have := weights_behindWord?_lt hword
    exact (ih.function hne hw true (by omega) (hvalue.suffix (suffix_behindWord? hword))).bind fun _ _ => .ok
  split
  · rename_i hwords
    have := weights_behindWords?_lt hwords
    exact (ih.function hne hw true (by omega) (hvalue.suffix (suffix_behindWords? hwords))).bind
      fun _ _ => .ok
  split
  · rename_i hword
    have := weights_behindWord?_lt hword
    exact (ih.classBody hne hw true (by omega) (hvalue.suffix (suffix_behindWord? hword))).bind fun _ _ => .ok
  · have := weights_takeExpression none value
    rw [← takeExpression_append none value] at hvalue
    exact (ih.expression (by omega) hvalue.left).bind fun _ _ => .ok

/-! ### Expressions -/

omit hne hw in
theorem Below.arrow {before : Before} {token : Token} (hn : weights trees < bound)
    (h : Ends P (.leaf token :: trees)) : FaultsAt P (Outline.arrow before token trees) := by
  unfold Outline.arrow
  split
  · exact .error h.start
  split
  · simp only [weights_cons, weight_group] at hn
    exact (ih.body (by omega) h.tail.inside).bind fun _ _ => .ok
  · exact .error (h token List.mem_cons_self).2
  · have hweights := weights_takeArrowBody trees
    have hbody : Ends P (takeArrowBody trees).1 :=
      (List.takeWhile_append_dropWhile (p := (!endsArrowBody ·)) (l := trees) ▸ h.tail).left
    exact (ih.expression (by omega) hbody).bind fun _ _ => .ok

omit hne hw in
/-- What is nested in an expression. -/
theorem Below.expression_le {before : Before} (hn : weights trees ≤ bound) (h : Ends P trees) :
    FaultsAt P (Outline.expression before trees) := by
  unfold Outline.expression
  split
  · exact .ok
  · simp only [weights_cons, weight_group] at hn
    exact (ih.expression (by omega) h.inside).bind fun _ _ =>
      (ih.body (by omega) h.tail.inside).bind fun _ _ =>
        (ih.expression (by omega) h.tail.tail).bind fun _ _ => .ok
  · simp only [weights_cons, weight_group] at hn
    exact (ih.expression (by omega) h.inside).bind fun _ _ =>
      (ih.expression (by omega) h.tail).bind fun _ _ => .ok
  · rename_i token rest
    simp only [weights_cons, weight_leaf] at hn
    cases Inner.of before token rest <;> simp only
    case function =>
      refine (ih.function (List.cons_ne_nil _ _) h false (by omega) h.tail).bind fun f hf => ?_
      have := f.lighter
      exact (ih.expression (by omega) (h.tail.suffix (suffix_function hf))).bind fun _ _ => .ok
    case classBody =>
      refine (ih.classBody (List.cons_ne_nil _ _) h false (by omega) h.tail).bind fun c hc => ?_
      have := c.lighter
      exact (ih.expression (by omega) (h.tail.suffix (suffix_classBody hc))).bind fun _ _ => .ok
    case staticBlock =>
      split
      · simp only [weights_cons, weight_group] at hn
        exact (ih.body (by omega) h.tail.inside).bind fun _ _ =>
          (ih.expression (by omega) h.tail.tail).bind fun _ _ => .ok
      · exact ih.expression (by omega) h.tail
    case arrow =>
      refine (ih.arrow (by omega) h).bind fun a ha => ?_
      have := a.lighter
      exact (ih.expression (by omega) (h.tail.suffix (suffix_arrow ha))).bind fun _ _ => .ok
    case plain => exact ih.expression (by omega) h.tail

/-! ### Statements -/

omit hne hw in
theorem Below.statement (hn : weights (tree :: rest) ≤ bound) (h : Ends P (tree :: rest)) :
    FaultsAt P (Outline.statement tree rest) := by
  have hwhole := List.cons_ne_nil tree rest
  have := weight_pos tree
  rw [weights_cons] at hn
  unfold Outline.statement
  cases Form.of tree rest <;> simp only
  case empty | jump | debugger => exact .ok
  case block => exact ih.blockHere hwhole h _ (by rwa [weights_cons]) h
  case ifElse =>
    split
    · simp only [weights_cons, weight_group] at hn
      refine (ih.expression (by omega) h.tail.inside).bind fun _ _ =>
        (ih.required (by omega) hwhole h h.tail.tail).bind fun yes hyes => ?_
      have := yes.lighter
      split
      · rename_i hword
        have := weights_behindWord?_lt hword
        have hno := (h.tail.tail.suffix (suffix_required hyes)).suffix (suffix_behindWord? hword)
        exact (ih.required (by omega) hwhole h hno).bind fun _ _ => .ok
      · exact .ok
    · exact .error (h.missing hwhole h.tail _)
  case whileLoop =>
    split
    · simp only [weights_cons, weight_group] at hn
      exact (ih.expression (by omega) h.tail.inside).bind fun _ _ =>
        (ih.required (by omega) hwhole h h.tail.tail).bind fun _ _ => .ok
    · exact .error (h.missing hwhole h.tail _)
  case doWhile =>
    refine (ih.required (by omega) hwhole h h.tail).bind fun inner hinner => ?_
    have := inner.lighter
    have hrest := h.tail.suffix (suffix_required hinner)
    split
    · exact .error (h.missing hwhole hrest _)
    · rename_i hword
      have hlt := weights_behindWord?_lt hword
      simp only [weights_cons, weight_group] at hlt
      have htest := hrest.suffix (suffix_behindWord? hword)
      exact (ih.expression (by omega) htest.inside).bind fun _ _ => .ok
    · rename_i hword
      exact .error (h.missing hwhole (hrest.suffix (suffix_behindWord? hword)) _)
  case forLoop =>
    have hhead := h.tail.suffix (suffix_skipWord "await" rest)
    split
    · rename_i hle hs _
      rw [hs] at hhead
      simp only [weights_cons, weight_group] at hle
      exact (ih.expression (by omega) hhead.inside).bind fun _ _ =>
        (ih.required (by omega) hwhole h hhead.tail).bind fun _ _ => .ok
    · exact .error (h.missing hwhole hhead _)
  case tryCatch =>
    refine (ih.blockHere hwhole h _ (by omega) h.tail).bind fun tried htried => ?_
    have := tried.lighter
    have hrest := h.tail.suffix (suffix_blockHere htried)
    split
    · rename_i hword
      have := weights_behindWord?_lt hword
      have hhandler := hrest.suffix (suffix_behindWord? hword)
      refine (ih.catchClause hwhole h (by omega) hhandler).bind fun caught hcaught => ?_
      have := caught.lighter
      exact (ih.finallyClause hwhole h (by omega)
        (hhandler.suffix (suffix_catchClause hcaught))).bind fun _ _ => .ok
    · exact (ih.finallyClause hwhole h (by omega) hrest).bind fun _ _ => .ok
  case switchCases =>
    split
    · simp only [weights_cons, weight_group] at hn
      exact (ih.expression (by omega) h.tail.inside).bind fun _ _ =>
        (ih.switchBlock hwhole h (by omega) h.tail.tail).bind fun _ _ => .ok
    · exact .error (h.missing hwhole h.tail _)
  case functionDeclaration => exact (ih.function hwhole h true (by omega) h.tail).bind fun _ _ => .ok
  case asyncFunction =>
    have := weights_tail_le rest
    exact (ih.function hwhole h true (by omega) (h.tail.suffix (List.tail_suffix rest))).bind fun _ _ => .ok
  case classDeclaration => exact (ih.classBody hwhole h true (by omega) h.tail).bind fun _ _ => .ok
  case declaration =>
    have := weights_takeExpression none rest
    have htaken := (takeExpression_append none rest ▸ h.tail).left
    exact (ih.expression (by omega) htaken).bind fun _ _ => .ok
  case leave =>
    split
    · have := weights_takeExpression none rest
      have htaken := (takeExpression_append none rest ▸ h.tail).left
      exact (ih.expression (by omega) htaken).bind fun _ _ => .ok
    · exact .ok
  case importClause => exact (faultsAt_moduleClause hwhole h true h.tail).bind fun _ _ => .ok
  case exportClause => exact (ih.exportClause hwhole h (by omega) h.tail).bind fun _ _ => .ok
  case labelled =>
    have := weights_tail_le rest
    exact (ih.required (by omega) hwhole h (h.tail.suffix (List.tail_suffix rest))).bind fun _ _ => .ok
  case expression =>
    have := weights_takeExpression (some tree) rest
    have htaken : Ends P (tree :: (takeExpression (some tree) rest).1) := by
      have hcut := h
      rw [← takeExpression_append (some tree) rest, ← List.cons_append] at hcut
      exact hcut.left
    exact (ih.expression_le (by rw [weights_cons]; omega) htaken).bind fun _ _ => .ok

omit hne hw in
theorem Below.body_le (hn : weights trees ≤ bound) (h : Ends P trees) : FaultsAt P (Outline.body trees) := by
  cases trees with
  | nil => rw [Outline.body]; exact .ok
  | cons tree rest =>
    rw [Outline.body]
    refine (ih.statement hn h).bind fun first hfirst => ?_
    have := first.lighter
    exact (ih.body (by omega) (h.suffix (suffix_statement hfirst))).bind fun _ _ => .ok

theorem Below.required_le (hn : weights trees ≤ bound) (h : Ends P trees) :
    FaultsAt P (Outline.required trees whole) := by
  cases trees with
  | nil => rw [Outline.required]; exact .error (hw.missing hne h _)
  | cons tree rest => rw [Outline.required]; exact ih.statement hn h

omit hne hw in
theorem Below.cases_le (hn : weights trees ≤ bound) (h : Ends P trees) : FaultsAt P (Outline.cases trees) := by
  cases trees with
  | nil => rw [Outline.cases]; exact .ok
  | cons tree rest =>
    have hpos := weight_pos tree
    rw [Outline.cases]
    simp only
    split
    · -- A case: its test up to the colon, and the cases behind it.
      split
      · exact .error h.start
      · rename_i test after htest
        have := weights_takeCase_lt htest
        obtain ⟨colon, hparts, -⟩ := takeCase_cut htest
        have hrest : Ends P (test ++ colon :: after) := hparts ▸ h.tail
        rw [weights_cons] at hn
        exact (ih.expression (by omega) hrest.left).bind fun _ _ =>
          (ih.cases (by omega) hrest.right.tail).bind fun _ _ => .ok
    split
    · have := weights_tail_le rest
      rw [weights_cons] at hn
      exact ih.cases (by omega) (h.tail.suffix (List.tail_suffix rest))
    · refine (ih.statement hn h).bind fun first hfirst => ?_
      have := first.lighter
      exact (ih.cases (by omega) (h.suffix (suffix_statement hfirst))).bind fun _ _ => .ok

end Readers

/-- Whatever they weigh, trees are read with faults at ends of their tokens only. -/
theorem below (P : Nat → Prop) (bound : Nat) : Below P bound := by
  induction bound with
  | zero =>
    exact ⟨fun hn => absurd hn (Nat.not_lt_zero _), fun hn => absurd hn (Nat.not_lt_zero _),
      fun hn => absurd hn (Nat.not_lt_zero _), fun hn => absurd hn (Nat.not_lt_zero _)⟩
  | succ bound ih =>
    exact ⟨fun hn => ih.body_le (Nat.le_of_lt_succ hn),
      fun hn hne hw => ih.required_le hne hw (Nat.le_of_lt_succ hn),
      fun hn => ih.cases_le (Nat.le_of_lt_succ hn), fun hn => ih.expression_le (Nat.le_of_lt_succ hn)⟩

/-- **A fault of a program is where one of its tokens starts or ends.** -/
theorem fault_of_body {fault : Fault} (h : body trees = .error fault) :
    ∃ t ∈ flattenAll trees, fault.offset = t.start ∨ fault.offset = t.stop :=
  (below (fun n => ∃ t ∈ flattenAll trees, n = t.start ∨ n = t.stop) (weights trees + 1)).body
    (Nat.lt_succ_self _) (fun t ht => ⟨⟨t, ht, .inl rfl⟩, ⟨t, ht, .inr rfl⟩⟩) fault h

end Outline

end DeferredLog
