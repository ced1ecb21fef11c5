import DeferredLog.Proofs.Tree.Paired

/-!
# Where trees stand

Trees that stand next to each other somewhere in a list of trees, at its top or inside of its groups, with
the tokens on both sides of them.

* `Tree.Run.flatten`, `Tree.Run.paired`: they are a run of the tokens, and their delimiters fit.
* `Tree.Run.trans`: trees that stand in trees that stand somewhere.
* `Tree.exists_run_of_closed`: every closing token closes a group.
-/

namespace DeferredLog

namespace Tree

/-- `Run trees a x b`: the trees `x` stand next to each other somewhere in `trees`, with the tokens `a`
before them and `b` behind them. -/
inductive Run : List Tree → List Token → List Tree → List Token → Prop
  | here (front x back : List Tree) : Run (front ++ (x ++ back)) (flattenAll front) x (flattenAll back)
  | inside {delimiter : Delimiter} {opening closing : Token} {trees x : List Tree} {a b : List Token}
      (front back : List Tree) : Run trees a x b →
      Run (front ++ .group delimiter opening closing trees :: back)
        (flattenAll front ++ opening :: a) x (b ++ closing :: flattenAll back)

namespace Run

variable {trees x : List Tree} {a b : List Token}

/-- Trees that stand somewhere are a run of the tokens there. -/
theorem flatten (h : Run trees a x b) : flattenAll trees = a ++ (flattenAll x ++ b) := by
  induction h with
  | here => simp
  | inside _ _ _ ih => simp [flattenAll, Tree.flatten, ih]

/-- The delimiters of trees fit wherever they stand. -/
theorem paired (h : Run trees a x b) {around : Option Delimiter} (hp : PairedAll around trees) :
    ∃ around', PairedAll around' x := by
  induction h generalizing around with
  | here => exact ⟨around, (pairedAll_append.mp (pairedAll_append.mp hp).2).1⟩
  | inside _ _ _ ih => exact ih (pairedAll_append.mp hp).2.1.2.2

/-- Between more trees there are their tokens around them. -/
theorem pad (h : Run trees a x b) (front back : List Tree) :
    Run (front ++ (trees ++ back)) (flattenAll front ++ a) x (b ++ flattenAll back) := by
  cases h with
  | here front' _ back' =>
    have h := Run.here (front ++ front') x (back' ++ back)
    simpa using h
  | @inside delimiter opening closing _ _ _ _ front' back' h =>
    have h := @Run.inside delimiter opening closing _ _ _ _ (front ++ front') (back' ++ back) h
    simpa using h

/-- Behind one more tree there are its tokens before them. -/
theorem cons (h : Run trees a x b) (tree : Tree) : Run (tree :: trees) (tree.flatten ++ a) x b := by
  simpa [flattenAll] using h.pad [tree] []

/-- Trees that stand in trees that stand somewhere stand there too. -/
theorem trans {y : List Tree} {c d : List Token} (h : Run trees a x b) (h' : Run x c y d) :
    Run trees (a ++ c) y (d ++ b) := by
  induction h with
  | here front x back => exact h'.pad front back
  | inside front back _ ih => simpa using Run.inside front back (ih h')

end Run

/-- Whether some trees stand together in others, behind the tokens `a`. -/
def Stands (trees : List Tree) (a : List Token) (x : List Tree) : Prop :=
  ∃ b, Run trees a x b

namespace Stands

variable {trees x y front back : List Tree} {a a' c : List Token} {tree : Tree}

theorem of_eq (h : Stands trees a x) (ha : a' = a) : Stands trees a' x :=
  ha ▸ h

theorem here : Stands trees [] trees := by
  have h := Run.here [] trees []
  rw [List.append_nil] at h
  exact ⟨_, h⟩

theorem before (h : x ++ y = trees) : Stands trees [] x :=
  h ▸ ⟨_, .here [] x y⟩

theorem inside {delimiter : Delimiter} {opening closing : Token} :
    Stands (.group delimiter opening closing trees :: back) [opening] trees := by
  obtain ⟨_, h⟩ := @here trees
  exact ⟨_, .inside [] back h⟩

theorem cons (h : Stands trees a x) : Stands (tree :: trees) (tree.flatten ++ a) x :=
  ⟨_, h.choose_spec.cons tree⟩

theorem append (h : Stands trees a x) : Stands (front ++ trees) (flattenAll front ++ a) x := by
  have h := h.choose_spec.pad front []
  rw [List.append_nil] at h
  exact ⟨_, h⟩

theorem extend (h : Stands trees a x) : Stands (trees ++ back) a x :=
  ⟨_, h.choose_spec.pad [] back⟩

theorem trans (h : Stands trees a x) (h' : Stands x c y) : Stands trees (a ++ c) y :=
  ⟨_, h.choose_spec.trans h'.choose_spec⟩

end Stands

mutual

theorem exists_run_of_closed_tree {around : Option Delimiter} {delimiter : Delimiter} {closing : Token}
    (hc : closed? closing.kind = some delimiter) (tree : Tree) (hp : tree.Paired around)
    {a b : List Token} (ht : tree.flatten = a ++ closing :: b) (trees : List Tree) :
    ∃ front opening inside,
      Run (tree :: trees) front [.group delimiter opening closing inside] (b ++ flattenAll trees) :=
  match tree with
  | .leaf token => by
    have hmem : closing ∈ (Tree.leaf token).flatten := by simp [ht]
    obtain rfl := List.mem_singleton.mp hmem
    exact nomatch hp.2.1.symm.trans hc
  | .group d opening last inside => by
    obtain ⟨hopen, hclose, hinside⟩ := hp
    have self : closing = last → b = [] → ∃ front opening' inside',
        Run (.group d opening last inside :: trees) front [.group delimiter opening' closing inside']
          (b ++ flattenAll trees) := by
      rintro rfl rfl
      obtain rfl := Option.some.inj (hclose.symm.trans hc)
      exact ⟨[], opening, inside, .here [] [_] trees⟩
    rw [Tree.flatten] at ht
    rcases List.cons_eq_append_iff.mp ht with ⟨rfl, hcons⟩ | ⟨a, rfl, htail⟩
    · obtain ⟨rfl, -⟩ := List.cons.inj hcons
      revert hopen hc
      cases closing.kind <;> simp +contextual [opened?, closed?]
    rcases List.append_eq_append_iff.mp htail with ⟨c, rfl, hlast⟩ | ⟨c, hfront, hback⟩
    · cases c with
      | nil =>
        obtain ⟨rfl, rfl⟩ := List.cons.inj hlast
        exact self rfl rfl
      | cons => simp at hlast
    · cases c with
      | nil =>
        obtain ⟨rfl, rfl⟩ := List.cons.inj hback
        exact self rfl rfl
      | cons =>
        obtain ⟨rfl, rfl⟩ := List.cons.inj hback
        obtain ⟨front, opening', inside', hrun⟩ := exists_run_of_closed hc inside hinside hfront
        have hgroup := @Run.inside d opening last _ _ _ _ [] trees hrun
        exact ⟨_, opening', inside', by simpa using hgroup⟩

/-- **Every closing token closes a group.** -/
theorem exists_run_of_closed {around : Option Delimiter} {delimiter : Delimiter} {closing : Token}
    (hc : closed? closing.kind = some delimiter) (trees : List Tree) (hp : PairedAll around trees)
    {a b : List Token} (ht : flattenAll trees = a ++ closing :: b) :
    ∃ front opening inside, Run trees front [.group delimiter opening closing inside] b :=
  match trees with
  | [] => by simp [flattenAll] at ht
  | tree :: trees => by
    have behind : ∀ c, flattenAll trees = c ++ closing :: b → ∃ front opening inside,
        Run (tree :: trees) front [.group delimiter opening closing inside] b := by
      intro c hbehind
      obtain ⟨front, opening, inside, hrun⟩ := exists_run_of_closed hc trees hp.2 hbehind
      exact ⟨_, opening, inside, hrun.cons tree⟩
    rw [flattenAll] at ht
    rcases List.append_eq_append_iff.mp ht with ⟨c, -, hbehind⟩ | ⟨c, hfront, hback⟩
    · exact behind c hbehind
    · cases c with
      | nil => exact behind [] hback.symm
      | cons =>
        obtain ⟨rfl, rfl⟩ := List.cons.inj hback
        exact exists_run_of_closed_tree hc tree hp.1 hfront trees

end

end Tree

end DeferredLog
