import DeferredLog.Proofs.Outline.Operands
import DeferredLog.Proofs.Program.Parses

/-!
# Slashes at the start of operands

The reader of tokens tells from a few tokens to the left whether a slash starts a regular expression, and
the walk over the trees knows the statements. A statement, what `return`, `throw`, `case` or
`export default` stands before, and the expression of an arrow function are operands for the walk, so a
slash that they start with should start a regular expression.

* `Program.slash_of_operand`: it does so everywhere but in the places of `Outline.Missed`.
* `Program.not_forall_slash_of_operand`: these are there, as behind the head of `for await`.
-/

namespace DeferredLog

open DeferredLog.Tree

namespace Outline

/-- Whether the walk over a program takes some trees for an operand, behind the tokens `a`. -/
def Operand (trees : List Tree) (a : List Token) (x : List Tree) : Prop :=
  ∃ t, Visits (.top trees) t ∧ Takes t.front t.job a x

theorem poised_top {trees : List Tree} (h : PairedAll none trees) : (Spot.top trees).Poised :=
  ⟨ready_of_begins Token.begins_nil, none, h⟩

namespace Operand

variable {trees x : List Tree} {a : List Token}

theorem stands (h : Operand trees a x) : Stands trees a x := by
  obtain ⟨t, hvisits, htakes⟩ := h
  obtain ⟨c, rfl, hstands⟩ := htakes.stands
  exact (hvisits.stands .here).trans hstands

theorem ready (h : Operand trees a x) (hpaired : PairedAll none trees) : Ready a x := by
  obtain ⟨t, hvisits, htakes⟩ := h
  exact htakes.ready (hvisits.poised (poised_top hpaired)).1

end Operand

/-- What starts with a sign that starts with a slash starts with that as a leaf. -/
theorem startsWith_isSlash {around : Option Delimiter} {x : List Tree} {slash : Token}
    {back : List Token} (hpaired : PairedAll around x) (hx : flattenAll x = slash :: back)
    (hk : slash.kind = .punct) (hslash : slash.text.toList.head? = some '/') :
    startsWith isSlash x = true := by
  cases x with
  | nil => cases hx
  | cons tree x =>
    cases tree with
    | leaf token =>
      obtain ⟨rfl, -⟩ := List.cons.inj hx
      simp [startsWith, isSlash, hk, hslash]
    | group delimiter opening closing inside =>
      obtain ⟨rfl, -⟩ := List.cons.inj hx
      have hopened := hpaired.1.1
      rw [hk] at hopened
      cases hopened

end Outline

namespace Program

open Outline

/-- Every statement is an operand. -/
theorem exists_operand {trees : List Tree} {items : List Item} (hbody : Outline.body trees = .ok items)
    {s : Statement} (hs : s ∈ (ofOutline items).statements.toList) : ∃ a, Operand trees a s.trees := by
  have hmem : s.trees ∈ Item.statementsAll items := by
    rw [← trees_ofOutline]
    exact List.mem_map_of_mem hs
  obtain ⟨t, a, hvisits, htakes⟩ := (body_eq_ok_iff.mp hbody).taken [] 1 hmem
  exact ⟨a, t, hvisits, htakes⟩

/-- **A slash at the start of an operand** starts a regular expression, unless the operand stands where the
reader of tokens misses it. All statements are operands. -/
theorem slash_of_operand {source : List Char} {trees : List Tree} {program : Program}
    (htrees : Tree.parse source = .ok trees) (hp : parse source = .ok program) :
    (∀ s ∈ program.statements.toList, ∃ a, Operand trees a s.trees) ∧
      ∀ a x slash back, Operand trees a x → flattenAll x = slash :: back →
        slash.text.toList.head? = some '/' →
          (¬ Missed a → slash.kind = .regex) ∧ (Missed a → slash.kind = .punct) := by
  obtain ⟨tokens, trees', items, htrees', hparses, rfl⟩ := Parses.exists_of_parse hp
  obtain rfl : trees' = trees := Except.ok.inj (htrees'.symm.trans htrees)
  refine ⟨fun s hs => exists_operand hparses.body hs, fun a x slash back hoperand hx hslash => ?_⟩
  have hscan := hparses.scan
  have hpaired := hparses.paired
  obtain ⟨b, hrun⟩ := hoperand.stands
  obtain ⟨around, hpaired'⟩ := hrun.paired hpaired
  rw [← hparses.flattenAll_eq, hrun.flatten, hx] at hscan
  have hkind := Token.regex_iff hscan hslash
  constructor
  · intro hmissed
    by_cases hbegins : Token.Begins a
    · exact hkind.trans (if_pos (show _ from hbegins))
    -- The slash is a sign, which is ready only where it is missed.
    · have hk : slash.kind = .punct := hkind.trans (if_neg (show ¬ _ from hbegins))
      rcases hoperand.ready hpaired (startsWith_isSlash hpaired' hx hk hslash) with h | h
      · exact absurd h hbegins
      · exact absurd h hmissed
  · exact fun hmissed => hkind.trans (if_neg (show ¬ _ from hmissed.not_begins))

/-- Whether a statement starts with a slash of some kind. -/
def startsWithSlash (kind : TokenKind) (s : Statement) : Bool :=
  (flattenAll s.trees).head?.any fun t => t.kind = kind && t.text.toList.head? = some '/'

theorem exists_slash {program : Program} {kind : TokenKind}
    (h : program.statements.toList.any (startsWithSlash kind) = true) :
    ∃ s ∈ program.statements.toList, ∃ slash back, flattenAll s.trees = slash :: back ∧
      slash.text.toList.head? = some '/' ∧ slash.kind = kind := by
  obtain ⟨s, hs, h⟩ := List.any_eq_true.mp h
  refine ⟨s, hs, ?_⟩
  unfold startsWithSlash at h
  cases hx : flattenAll s.trees with
  | nil => simp [hx] at h
  | cons slash back =>
    simp only [hx, List.head?_cons, Option.any_some, Bool.and_eq_true, decide_eq_true_eq] at h
    exact ⟨slash, back, rfl, h.2, h.1⟩

/-- Behind the head of `if` a slash is not missed, behind that of `for await` it is. -/
theorem slash_of_operand_heads : ∃ trees program,
    Tree.parse "if (a) /b/.c(); for await (d of e) /f/.g()".toList = .ok trees ∧
      parse "if (a) /b/.c(); for await (d of e) /f/.g()".toList = .ok program ∧
      (∃ s ∈ program.statements.toList, ∃ a, Operand trees a s.trees ∧ ¬ Missed a) ∧
      ∃ s ∈ program.statements.toList, ∃ a, Operand trees a s.trees ∧ Missed a := by
  have hslashes : (parse "if (a) /b/.c(); for await (d of e) /f/.g()".toList).toOption.any (fun program =>
      program.statements.toList.any (startsWithSlash .regex) &&
        program.statements.toList.any (startsWithSlash .punct)) = true := by
    decide +kernel
  obtain ⟨program, hp, hslashes⟩ := exists_of_any_toOption hslashes
  obtain ⟨hregex, hpunct⟩ := Bool.and_eq_true_iff.mp hslashes
  obtain ⟨_, trees, _, htrees, -, -⟩ := Parses.exists_of_parse hp
  obtain ⟨hoperands, hslash⟩ := slash_of_operand htrees hp
  refine ⟨trees, program, htrees, hp, ?_, ?_⟩
  · obtain ⟨s, hs, slash, back, hx, htext, hk⟩ := exists_slash hregex
    obtain ⟨a, hoperand⟩ := hoperands s hs
    refine ⟨s, hs, a, hoperand, fun hmissed => ?_⟩
    cases hk.symm.trans ((hslash a s.trees slash back hoperand hx htext).2 hmissed)
  · obtain ⟨s, hs, slash, back, hx, htext, hk⟩ := exists_slash hpunct
    obtain ⟨a, hoperand⟩ := hoperands s hs
    refine ⟨s, hs, a, hoperand, ?_⟩
    by_contra hmissed
    cases hk.symm.trans ((hslash a s.trees slash back hoperand hx htext).1 hmissed)

/-- **Not every slash at the start of an operand starts a regular expression.** Behind the head of
`for await` it is a sign. -/
theorem not_forall_slash_of_operand : ¬ ∀ (source : List Char) (trees : List Tree) (program : Program),
    Tree.parse source = .ok trees → parse source = .ok program → ∀ a x slash back, Operand trees a x →
      flattenAll x = slash :: back → slash.text.toList.head? = some '/' → slash.kind = .regex := by
  intro hall
  have hpunct : (parse "for await (a of b) /c/.d()".toList).toOption.any (fun program =>
      program.statements.toList.any (startsWithSlash .punct)) = true := by
    decide +kernel
  obtain ⟨program, hp, hpunct⟩ := exists_of_any_toOption hpunct
  obtain ⟨_, trees, _, htrees, hparses, rfl⟩ := Parses.exists_of_parse hp
  obtain ⟨s, hs, slash, back, hx, htext, hk⟩ := exists_slash hpunct
  obtain ⟨a, hoperand⟩ := exists_operand hparses.body hs
  cases hk.symm.trans (hall _ trees _ htrees hp a s.trees slash back hoperand hx htext)

end Program

end DeferredLog
