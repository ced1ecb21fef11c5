import Mathlib.Data.List.TakeWhile
import DeferredLog.Proofs.Outline.Sites

/-!
# The bodies of functions and classes

The walk comes to a function or class only by reading what stands before its body, in front of any trees
that stand behind: the parts of an expression are read from left to right, and none of them looks further
than one tree ahead. So an expression that ends right before the body of a function or class in it cannot be
read.

* `Job.HasBody`: the functions and classes whose body opens with a token.
* `Visits.mem_read`: the token is read wherever the walk comes from.
* `not_reads_of_cut`: without the body the expression cannot be read.
-/

namespace DeferredLog

open DeferredLog.Tree

namespace Outline

variable {job target : Job} {parts : List Part} {items : List Item} {rest : List Tree} {trees x z : List Tree}
  {o d : Token}

/-! ## More trees behind -/

/-- The name of a function does not depend on what stands behind its body. -/
theorem functionName_append {name : Option String} {first second : Tree} {more : List Tree}
    (h : functionName trees = (name, first :: second :: more)) (tail : List Tree) :
    functionName (trees ++ tail) = (name, first :: second :: (more ++ tail)) := by
  obtain ⟨front, htrees, hname⟩ := functionName_cut trees
  rw [h] at htrees hname
  have := hname front (first :: second :: (more ++ tail)) (List.forall₂_same.mpr fun tree _ => .refl tree)
    ⟨.refl first, .refl second, trivial⟩
  rwa [htrees, List.append_assoc]

theorem Reads.function_append {declares : Bool} (h : Reads (.function declares trees) items rest)
    (tail : List Tree) : Reads (.function declares (trees ++ tail)) items (rest ++ tail) := by
  cases h with
  | function hn hdefaults hinner => exact .function (functionName_append hn tail) hdefaults hinner

theorem className_append (h : trees ≠ []) (tail : List Tree) :
    className (trees ++ tail) = ((className trees).1, (className trees).2 ++ tail) := by
  cases trees with
  | nil => exact absurd rfl h
  | cons first rest =>
    simp only [className, List.cons_append]
    split
    · split <;> rfl
    · rfl

theorem cutAtBrace_append {before inside : List Tree} (h : cutAtBrace trees = some (before, inside, rest))
    (tail : List Tree) : cutAtBrace (trees ++ tail) = some (before, inside, rest ++ tail) := by
  fun_induction cutAtBrace trees generalizing before with
  | case1 => cases h
  | case2 => cases h; rfl
  | case3 tree trees hne ih =>
    obtain ⟨⟨before', r⟩, hcut, he⟩ := Option.map_eq_some_iff.mp h
    cases he
    rw [List.cons_append, cutAtBrace, ih hcut]
    · rfl
    · exact hne

theorem Reads.class_append {declares : Bool} (h : Reads (.classBody declares trees) items rest)
    (tail : List Tree) : Reads (.classBody declares (trees ++ tail)) items (rest ++ tail) := by
  cases h with
  | classBody hc hparent hmembers =>
    have hne : trees ≠ [] := by
      rintro rfl
      cases hc
    have hr := @Reads.classBody declares (trees ++ tail) _ _ (rest ++ tail) _ _
      (by rw [className_append hne]; exact cutAtBrace_append hc tail) hparent hmembers
    rwa [className_append hne] at hr

/-- The expression of an arrow function that ends at a tree ends there whatever stands behind. -/
theorem takeArrowBody_append (h : (takeArrowBody trees).2 ≠ []) (tail : List Tree) :
    takeArrowBody (trees ++ tail) = ((takeArrowBody trees).1, (takeArrowBody trees).2 ++ tail) := by
  have hlength := congrArg List.length (@List.takeWhile_append_dropWhile _ (!endsArrowBody ·) trees)
  have hpos : 0 < (trees.dropWhile (!endsArrowBody ·)).length := List.length_pos_iff.mpr h
  rw [List.length_append] at hlength
  rw [takeArrowBody, List.takeWhile_append, List.dropWhile_append, if_neg (by omega),
    if_neg (by rwa [List.isEmpty_iff])]
  rfl

/-- An arrow function whose expression ends at a tree does not depend on what stands behind that. Else its
expression are all the trees. -/
theorem Reads.arrow_append {before : Before} (h : Reads (.arrow before trees) items rest) :
    (∀ tail, Reads (.arrow before (trees ++ tail)) items (rest ++ tail)) ∨
      (∃ tree more, trees = tree :: more ∧ isGroup .brace tree = false) ∧
        (∀ tree ∈ trees, (!tree.endsArrowBody) = true) ∧ ∃ inner, Reads (.expression .nothing trees) inner [] := by
  cases h with
  | arrowBlock hnames hinner => exact .inl fun tail => .arrowBlock hnames hinner
  | @arrowValue _ names tree more inner hnames hbrace hinner =>
    by_cases hrest : (takeArrowBody (tree :: more)).2 = []
    · have hall := List.dropWhile_eq_nil_iff.mp hrest
      rw [takeArrowBody, List.takeWhile_eq_self_iff.mpr hall] at hinner
      exact .inr ⟨⟨tree, more, rfl, hbrace⟩, hall, _, hinner⟩
    · refine .inl fun tail => ?_
      have hr := @Reads.arrowValue before names tree (more ++ tail) inner hnames hbrace
      rw [← List.cons_append, takeArrowBody_append hrest] at hr
      exact hr hinner

/-! ## Functions and classes with a body -/

/-- Whether a job is that of a function or class whose body opens with a token. -/
inductive Job.HasBody (o : Token) : Job → Prop
  | function {declares trees name a b parameters d inside rest} :
      functionName trees = (name, .group .paren a b parameters :: .group .brace o d inside :: rest) →
      HasBody o (.function declares trees)
  | classBody {declares trees name before d inside rest} :
      className trees = (name, before ++ .group .brace o d inside :: rest) →
      (∀ tree ∈ before, isGroup .brace tree = false) → HasBody o (.classBody declares trees)

theorem cutAtBrace_of_no_brace {before inside : List Tree}
    (h : ∀ tree ∈ before, isGroup .brace tree = false) (rest : List Tree) :
    cutAtBrace (before ++ .group .brace o d inside :: rest) = some (before, inside, rest) := by
  induction before with
  | nil => rfl
  | cons tree before ih =>
    obtain ⟨htree, h⟩ := List.forall_mem_cons.mp h
    rw [List.cons_append, cutAtBrace, ih h]
    · rfl
    · rintro _ _ _ rfl
      cases htree

/-- The token is read for the function or class. -/
theorem Job.HasBody.mem_read (h : job.HasBody o) (hr : Reads job items rest) : o ∈ job.read rest := by
  have front : ∀ {front middle : List Tree}, job.trees = front ++ (middle ++ rest) → o ∈ flattenAll middle →
      o ∈ job.read rest := by
    intro front middle htrees hm
    have hread := Job.read_append hr.suffix
    rw [htrees, flattenAll_append, flattenAll_append, ← List.append_assoc] at hread
    rw [← List.append_cancel_right hread]
    exact List.mem_append_right _ hm
  cases h with
  | @function _ trees _ a b parameters d inside _ hn =>
    cases hr with
    | function hn' =>
      cases hn.symm.trans hn'
      obtain ⟨lead, hlead, -⟩ := functionName_cut trees
      rw [hn] at hlead
      exact @front lead [.group .paren a b parameters, .group .brace o d inside] hlead (by simp [flattenAll, Tree.flatten])
  | @classBody _ trees _ before d inside _ hn hb =>
    cases hr with
    | classBody hc =>
      rw [hn, cutAtBrace_of_no_brace hb] at hc
      cases hc
      obtain ⟨lead, hlead, -⟩ := className_cut trees
      rw [hn] at hlead
      exact @front lead (before ++ [.group .brace o d inside]) (by simpa [Job.trees] using hlead)
        (by simp [flattenAll, Tree.flatten])

/-- The token that opens the body of a function or class is a brace. -/
theorem Job.HasBody.kind_eq (h : job.HasBody o) {around : Option Delimiter}
    (hpaired : PairedAll around job.trees) : o.kind = .openBrace := by
  obtain ⟨d, inside, hm⟩ : ∃ d inside, .group .brace o d inside ∈ job.trees := by
    cases h with
    | @function _ trees _ _ _ _ d inside _ hn =>
      obtain ⟨front, htrees, -⟩ := functionName_cut trees
      rw [hn] at htrees
      exact ⟨d, inside, by rw [Job.trees, htrees]; simp⟩
    | @classBody _ trees _ _ d inside _ hn =>
      obtain ⟨front, htrees, -⟩ := className_cut trees
      rw [hn] at htrees
      exact ⟨d, inside, by rw [Job.trees, htrees]; simp⟩
  have hopen := (pairedAll_iff.mp hpaired _ hm).1
  cases hk : o.kind <;> rw [hk] at hopen <;> first | rfl | cases hopen

/-- What is read at a place that another one leads to is read there. -/
theorem Leads.reads_sublist {s t : Spot} (h : Leads s t) (hs : Reads s.job items rest) :
    ∃ items' rest', Reads t.job items' rest' ∧ (t.job.read rest').Sublist (s.job.read rest) := by
  obtain ⟨parts, _, _, hrule, hread, hmem⟩ := h
  obtain ⟨rfl, rfl⟩ := hs.unique (hrule.reads hread)
  obtain ⟨ps, p, qs, rfl, rfl⟩ := exists_split hmem
  obtain ⟨tail, htail⟩ := hrule.read hread
  refine ⟨p.items, p.rest, hread p (by simp), ?_⟩
  rw [htail, Part.tokens_append, Part.tokens]
  exact (((List.sublist_append_left _ _).trans (List.sublist_append_right _ _)).trans
    (List.sublist_append_right _ _)).trans (List.sublist_append_left _ _)

/-- What is read at a place that is visited is read where the visit starts. -/
theorem Visits.reads_sublist {s t : Spot} (h : Visits s t) (hs : Reads s.job items rest) :
    ∃ items' rest', Reads t.job items' rest' ∧ (t.job.read rest').Sublist (s.job.read rest) := by
  induction h with
  | refl => exact ⟨items, rest, hs, .refl _⟩
  | tail _ hleads ih =>
    obtain ⟨_, _, hreads, hsub⟩ := ih
    obtain ⟨items', rest', hreads', hsub'⟩ := hleads.reads_sublist hreads
    exact ⟨items', rest', hreads', hsub'.trans hsub⟩

/-- The body of a function or class that is visited opens among the tokens that are read. -/
theorem Visits.mem_read {s u : Spot} (h : Visits s u) (hu : u.job.HasBody o) (hs : Reads s.job items rest) :
    o ∈ s.job.read rest := by
  obtain ⟨_, _, hreads, hsub⟩ := h.reads_sublist hs
  exact hsub.subset (hu.mem_read hreads)

/-! ## Expressions that end before a body -/

/-- Whether the walk comes from a job to another one. -/
def Reaches (job target : Job) : Prop :=
  ∃ s t : Spot, s.job = job ∧ t.job = target ∧ Visits s t

theorem Reaches.cases (h : Reaches job target) : job = target ∨
    ∃ parts items rest, Rule job parts items rest ∧ AllRead parts ∧ ∃ p ∈ parts, Reaches p.job target := by
  obtain ⟨s, t, rfl, rfl, hvisits⟩ := h
  rcases Relation.ReflTransGen.cases_head hvisits with rfl | ⟨u, ⟨parts, items, rest, hrule, hread, hmem⟩, hvisits⟩
  · exact .inl rfl
  · obtain ⟨p, hp, hjob⟩ := job_mem_of_spots hmem
    exact .inr ⟨parts, items, rest, hrule, hread, p, hp, u, t, hjob, rfl, hvisits⟩

theorem Reaches.mem_read (h : Reaches job target) (ht : target.HasBody o) (hr : Reads job items rest) :
    o ∈ job.read rest := by
  obtain ⟨s, t, rfl, rfl, hvisits⟩ := h
  exact hvisits.mem_read ht hr

theorem Reaches.mem_trees (h : Reaches job target) (ht : target.HasBody o) (hr : Reads job items rest) :
    o ∈ flattenAll job.trees := by
  rw [Job.read_append hr.suffix]
  exact List.mem_append_left _ (h.mem_read ht hr)

/-- What is read in front of more trees is no way to a token behind it. -/
theorem not_reaches_of_append {j : List Tree → Job} (hj : ∀ trees, (j trees).trees = trees)
    {x tail : List Tree} (hr : Reads (j (x ++ tail)) items (rest ++ tail)) (hx : o ∉ flattenAll x)
    (ht : target.HasBody o) : ¬ Reaches (j (x ++ tail)) target := by
  intro h
  have hmem := h.mem_read ht hr
  have hread := Job.read_append hr.suffix
  rw [hj, flattenAll_append, flattenAll_append, ← List.append_assoc] at hread
  rw [List.append_cancel_right hread] at hx
  exact hx (List.mem_append_left _ hmem)

/-- From an arrow function the walk comes to its expression. -/
theorem Reaches.arrow_value {before : Before} {tree : Tree} {more : List Tree}
    (h : Reaches (.arrow before (tree :: more)) target) (hbrace : isGroup .brace tree = false)
    (ht : target.HasBody o) : Reaches (.expression .nothing (takeArrowBody (tree :: more)).1) target := by
  obtain rfl | ⟨_, _, _, hrule, -, p, hp, hreach⟩ := h.cases
  · cases ht
  · cases hrule with
    | arrowBlock => cases hbrace
    | arrowValue =>
      rcases List.mem_singleton.mp hp with rfl
      exact hreach

/-- A leaf announces the same before a group in braces as at the end, or the block of a class. -/
theorem inner_of_before_brace (before : Before) (token : Token) (x : List Tree) {inside : List Tree} :
    Inner.of before token (x ++ .group .brace o d inside :: z) = Inner.of before token x ∨
      x = [] ∧ Inner.of before token (x ++ .group .brace o d inside :: z) = .staticBlock := by
  cases x with
  | cons => exact .inl rfl
  | nil =>
    by_cases hstatic : token.text = "static"
    · by_cases hdot : before.isDot = true <;> by_cases hk : token.kind = .ident <;>
        simp [Inner.of, startsWith, isPunct, isGroup, inside?, hstatic, hdot, hk]
    · exact .inl (by simp [Inner.of, startsWith, isPunct, isGroup, inside?, hstatic])

theorem mem_of_inside {delimiter : Delimiter} {a b : Token} (h : o ∈ flattenAll x) :
    o ∈ flattenAll (.group delimiter a b x :: z) := by
  simp [flattenAll, Tree.flatten, h]

/-- **An expression that ends before a body cannot be read**: the function or class that the walk comes to
has none. -/
theorem not_reads_of_cut {inside : List Tree} (hi : o ∉ flattenAll inside) {before : Before}
    (hx : o ∉ flattenAll x) (hz : o ∉ flattenAll z) (ht : target.HasBody o)
    (h : Reaches (.expression before (x ++ .group .brace o d inside :: z)) target) :
    ¬ Reads (.expression before x) items rest := by
  induction hn : x.length using Nat.strongRecOn generalizing before x z items rest with
  | _ n ih =>
  subst hn
  intro hr
  obtain rfl | ⟨parts, _, _, hrule, hread, p, hp, hreach⟩ := h.cases
  · cases ht
  have hmem := hreach.mem_trees ht (hread p hp)
  cases x with
  | nil =>
    -- What is inside the body or behind it has no other body that opens with the token.
    cases hrule with
    | group =>
      rcases List.mem_pair.mp hp with rfl | rfl
      · exact hi hmem
      · exact hz hmem
  | cons tree x =>
    simp only [flattenAll, List.mem_append, not_or] at hx
    have behind : ∀ {before after items rest}, after <:+ x →
        Reaches (.expression before (after ++ .group .brace o d inside :: z)) target →
          ¬ Reads (.expression before after) items rest := fun hsuffix h =>
      ih _ (Nat.lt_succ_of_le hsuffix.length_le) (fun hm => hx.2 (subset_of_suffix hsuffix hm)) hz h rfl
    cases tree with
    | group delimiter a b inner =>
      have hinner : o ∉ flattenAll inner := fun h => hx.1 (by simp [Tree.flatten, h])
      rw [List.cons_append] at hrule
      generalize htail : x ++ .group .brace o d inside :: z = tail at hrule
      cases hrule with
      | method =>
        cases x with
        | nil =>
          cases htail
          rw [List.mem_cons, List.mem_pair] at hp
          rcases hp with rfl | rfl | rfl
          · exact hinner hmem
          · exact hi hmem
          · exact hz hmem
        | cons brace x =>
          cases htail
          rw [List.mem_cons, List.mem_pair] at hp
          rcases hp with rfl | rfl | rfl
          · exact hinner hmem
          · exact hx.2 (mem_of_inside hmem)
          · cases hr with
            | method _ _ hrest => exact behind (List.suffix_cons _ x) hreach hrest
            | group hm => cases hm rfl
      | group hm =>
        rcases List.mem_pair.mp hp with rfl | rfl
        · exact hinner hmem
        · cases hr with
          | method =>
            cases htail
            cases hm rfl
          | group _ _ hrest => exact behind (List.suffix_refl x) (htail ▸ hreach) hrest
    | leaf token =>
      rw [List.cons_append] at hrule
      have hsame : ∀ {k}, Inner.of before token (x ++ .group .brace o d inside :: z) = k → k ≠ .staticBlock →
          Inner.of before token x = k := fun hk hne =>
        ((inner_of_before_brace before token x).resolve_right fun h => hne (hk.symm.trans h.2)).symm.trans hk
      generalize htail : x ++ .group .brace o d inside :: z = tail at hrule hsame
      cases hrule with
      | functionInside hi' =>
        obtain ⟨-, _, _, _, hf, hrest, -⟩ := hr.inner (hsame hi' (by simp))
        have hf' := hf.function_append (.group .brace o d inside :: z)
        rcases List.mem_pair.mp hp with rfl | rfl
        · exact not_reaches_of_append (j := .function false) (fun _ => rfl) hf' hx.2 ht (htail ▸ hreach)
        · obtain ⟨-, rfl⟩ := (hread _ List.mem_cons_self).unique (htail ▸ hf')
          exact behind hf.suffix hreach hrest
      | classInside hi' =>
        obtain ⟨-, _, _, _, hc, hrest, -⟩ := hr.inner (hsame hi' (by simp))
        have hc' := hc.class_append (.group .brace o d inside :: z)
        rcases List.mem_pair.mp hp with rfl | rfl
        · exact not_reaches_of_append (j := .classBody false) (fun _ => rfl) hc' hx.2 ht (htail ▸ hreach)
        · obtain ⟨-, rfl⟩ := (hread _ List.mem_cons_self).unique (htail ▸ hc')
          exact behind hc.suffix hreach hrest
      | staticBlock hi' =>
        cases x with
        | nil =>
          cases htail
          rcases List.mem_pair.mp hp with rfl | rfl
          · exact hi hmem
          · exact hz hmem
        | cons brace x =>
          cases htail
          rcases List.mem_pair.mp hp with rfl | rfl
          · exact hx.2 (mem_of_inside hmem)
          · obtain ⟨-, _, _, _, _, _, _, hparts, -, hrest, -⟩ := hr.inner hi'
            cases hparts
            exact behind (List.suffix_cons _ x) hreach hrest
      | arrowInside hi' =>
        obtain ⟨-, _, _, _, hf, hrest, -⟩ := hr.inner (hsame hi' (by simp))
        rcases hf.arrow_append with hf' | ⟨⟨tree, more, rfl, hbrace⟩, hall, _, hinner⟩
        · have hf' := hf' (.group .brace o d inside :: z)
          rcases List.mem_pair.mp hp with rfl | rfl
          · exact not_reaches_of_append (j := .arrow before) (fun _ => rfl) hf' hx.2 ht (htail ▸ hreach)
          · obtain ⟨-, rfl⟩ := (hread _ List.mem_cons_self).unique (htail ▸ hf')
            exact behind hf.suffix hreach hrest
        -- The expression of the arrow function goes on behind the body.
        · have hcut : takeArrowBody (tree :: more ++ .group .brace o d inside :: z) =
              (tree :: more ++ .group .brace o d inside :: (takeArrowBody z).1, (takeArrowBody z).2) := by
            rw [takeArrowBody, List.takeWhile_append_of_pos hall, List.dropWhile_append_of_pos hall]
            rfl
          rw [← @List.takeWhile_append_dropWhile _ (!endsArrowBody ·) z, flattenAll_append, List.mem_append,
            not_or] at hz
          subst htail
          rcases List.mem_pair.mp hp with rfl | rfl
          · have hvalue : Reaches (.expression .nothing
                (takeArrowBody (tree :: more ++ .group .brace o d inside :: z)).1) target :=
              Reaches.arrow_value hreach hbrace ht
            rw [hcut] at hvalue
            exact ih _ (Nat.lt_succ_self _) hx.2 hz.1 hvalue rfl hinner
          · obtain ⟨-, -, -, -, -, hafter⟩ := Reads.arrow_inv (hread _ List.mem_cons_self) hbrace
            replace hafter := hafter.trans (congrArg Prod.snd hcut)
            dsimp only at hafter
            subst hafter
            exact hz.2 hmem
      | plain hi' =>
        rcases List.mem_singleton.mp hp with rfl
        exact behind (List.suffix_refl x) (htail ▸ hreach) (hr.inner (hsame hi' (by simp))).2

end Outline

end DeferredLog
